import Sena.LedgerRuns

/-! What a digest stands for.

A signature is over a digest and a record is stored under one. Both are digests
of framed fields in a domain of their own, so as long as two strings do not
collide a digest names one thing: one transaction up to its authenticator, one
update for one epoch, one slot. -/
namespace Sena

theorem FeeSplit.encode_inj {s t : FeeSplit} (same : s.encode = t.encode) : s = t := by
  have sized : s.beneficiaries.length = t.beneficiaries.length := by
    have lengths := congrArg List.length same
    rw [encode_length, encode_length] at lengths
    omega
  simp only [encode, sized, List.append_assoc, List.append_cancel_left_eq] at same
  -- the reader reads one list off the bytes
  have readS : readBeneficiaries t.beneficiaries.length _ = .ok (s.beneficiaries, be 4 s.burn.val) :=
    readBeneficiaries_eq_ok.mpr ⟨sized, rfl⟩
  rw [same, readBeneficiaries_eq_ok.mpr ⟨rfl, rfl⟩] at readS
  obtain ⟨beneficiaries, rest⟩ := Prod.mk.inj (Except.ok.inj readS)
  obtain ⟨shares, burn⟩ := s
  obtain ⟨shares', burn'⟩ := t
  obtain rfl : shares' = shares := beneficiaries
  obtain rfl : burn' = burn := (be_val_inj rfl).mp rest
  rfl

theorem WhitelistedAsset.encode_inj {r s : WhitelistedAsset} (small : Framable r.encode) (small' : Framable s.encode)
    (same : r.encode = s.encode) : r = s := by
  have decoded := decode_encode (framable_symbol small)
  rw [same, decode_encode (framable_symbol small')] at decoded
  exact (Except.ok.inj decoded).symm

theorem GovernanceUpdate.encode_inj {u v : GovernanceUpdate} (small : Framable u.encode) (small' : Framable v.encode)
    (same : u.encode = v.encode) : u = v := by
  have framed : ∀ {tag : UInt8} {b rest : Bytes}, Framable (tag :: (frame b ++ rest)) → Framable b := by
    intro tag b rest short
    simp only [Framable, List.length_cons, List.length_append, frame_length] at short ⊢
    omega
  have framed' : ∀ {tag : UInt8} {b : Bytes}, Framable (tag :: frame b) → Framable b := by
    intro tag b short
    rw [← List.append_nil (frame b)] at short
    exact framed short
  cases u <;> cases v <;> simp only [encode, List.cons_append, List.cons.injEq, true_and] at small small' same
  case setGasAsset.setGasAsset record record' =>
    have records := frame_inj (framed' small) (framed' small') same
    rw [WhitelistedAsset.encode_inj (framed' small) (framed' small') records]
  case setParameter.setParameter name value name' value' =>
    obtain ⟨names, values⟩ := (frame_append_inj (framed small) (framed small')).mp same
    rw [Utf8.ext names, (be_val_inj rfl).mp values]
  case setJwk.setJwk =>
    simp only [List.append_assoc, FixedBytes.append_inj, List.cons.injEq, Gas.encodeBool_inj, and_true] at same
    rw [same.1, same.2.1, same.2.2]
  case setFeeMarket.setFeeMarket =>
    rw [be_append_inj rfl] at same
    rw [same.1, (be_val_inj rfl).mp same.2]
  case setFeeSplit.setFeeSplit =>
    rw [FeeSplit.encode_inj (frame_inj (framed' small) (framed' small') same)]
  case disableGasAsset.disableGasAsset => rw [(be_val_inj rfl).mp same]
  all_goals exact absurd same.1 (by decide)

theorem Channel.discriminant_inj {c d : Channel} (same : c.discriminant = d.discriminant) : c = d := by
  have found := fromDiscriminant_eq_some.mpr (rfl : c.discriminant = c.discriminant)
  rw [same, fromDiscriminant_eq_some.mpr rfl] at found
  exact (Option.some.inj found).symm

theorem Wire.writePayload_inj {p q : Payload} (small : Framable (writePayload p)) (small' : Framable (writePayload q))
    (same : writePayload p = writePayload q) : p = q := by
  cases p <;> cases q <;>
    simp only [writePayload, List.cons_append, List.append_assoc, List.cons.injEq, true_and] at small small' same
  case transfer.transfer =>
    rw [FixedBytes.append_inj, be_append_inj rfl, be_val_inj rfl] at same
    rw [same.1, same.2.1, same.2.2]
  case bindIdentifier.bindIdentifier =>
    rw [Channel.discriminant_inj same.1, FixedBytes.ext same.2]
  case unbindIdentifier.unbindIdentifier => rw [FixedBytes.ext same]
  case governance.governance epoch update signatures epoch' update' signatures' =>
    have rows : ∀ l : List CouncilSignature, (l.flatMap fun s => be 4 s.index.val ++ frame s.signature.bytes).length =
        72 * l.length := by
      intro l
      induction l with
      | nil => rfl
      | cons s l ih =>
        rw [List.flatMap_cons, List.length_append, ih]
        simp only [List.length_append, be_length, frame_length, FixedBytes.bytes_length, List.length_cons]
        omega
    simp only [Framable, List.length_cons, List.length_append, be_length, rows, frame_length] at small small'
    rw [be_append_inj rfl, frame_append_inj (by rw [Framable]; omega) (by rw [Framable]; omega)] at same
    obtain ⟨rfl, updates, rest⟩ := same
    obtain rfl := GovernanceUpdate.encode_inj (by rw [Framable]; omega) (by rw [Framable]; omega) updates
    obtain ⟨counts, rows⟩ := List.append_inj rest (by simp)
    have sized : signatures.length = signatures'.length := (be_inj (by omega) (by omega)).mp counts
    have read : readSignatures signatures'.length _ = .ok (signatures, []) :=
      readSignatures_eq_ok.mpr ⟨sized, (List.append_nil _).symm⟩
    rw [rows, readSignatures_eq_ok.mpr ⟨rfl, (List.append_nil _).symm⟩] at read
    rw [(Prod.mk.inj (Except.ok.inj read)).1]
  case distributeFees.distributeFees asset amount split asset' amount' split' =>
    simp only [Framable, List.length_cons, List.length_append, be_length, frame_length] at small small'
    rw [be_append_inj rfl, be_append_inj rfl] at same
    obtain ⟨rfl, rfl, splits⟩ := same
    rw [FeeSplit.encode_inj (frame_inj (by rw [Framable]; omega) (by rw [Framable]; omega) splits)]
  all_goals exact absurd same.1 (by decide)

/-- The fields a transaction's digest is of: all but the authenticator. -/
def Transaction.signedFields (tx : Transaction) : List Bytes :=
  [tx.sender.bytes, be 8 tx.nonce.val, be 8 tx.feeAsset.val, be 16 tx.feeRate.val, be 8 tx.feeIntrinsicGas.val,
    be 8 tx.gasLimit.val, be 16 tx.maxFeePerGas.val, be 16 tx.maxPriorityFeePerGas.val, Wire.writePayload tx.payload]

/-- The string a transaction's signing digest is of. -/
def Transaction.signingImage (tx : Transaction) : Bytes := canonical .transaction tx.signedFields

/-- The string an update's signing digest is of. -/
def GovernanceUpdate.signingImage (update : GovernanceUpdate) (epoch : U64) : Bytes :=
  canonical .governanceUpdate [be 8 epoch.val, update.encode]

theorem domain_of_canonical (same : canonical c xs = canonical d ys) : c = d := by
  have tags := (frame_append_inj c.tag_framable d.tag_framable).mp same
  exact Domain.tag_inj tags.1

theorem eq_of_digests {crypto : Crypto} (free : Set.InjOn crypto.sha256 {b, b'})
    (same : crypto.sha256 b = crypto.sha256 b') : b = b' := free (by simp) (by simp) same

theorem Transaction.framable_signedFields {tx : Transaction} (small : Framable (Wire.writePayload tx.payload)) :
    ∀ b ∈ tx.signedFields, Framable b := by
  simp only [signedFields, List.forall_mem_cons, List.not_mem_nil, false_imp_iff, implies_true, and_true]
  exact ⟨FixedBytes.framable_of_le (by decide), Codec.framable_be _ _ (by decide), Codec.framable_be _ _ (by decide),
    Codec.framable_be _ _ (by decide), Codec.framable_be _ _ (by decide), Codec.framable_be _ _ (by decide),
    Codec.framable_be _ _ (by decide), Codec.framable_be _ _ (by decide), small⟩

theorem GovernanceUpdate.framable_signed {update : GovernanceUpdate} (small : Framable update.encode) (epoch : U64) :
    ∀ b ∈ [be 8 epoch.val, update.encode], Framable b := by
  simp only [List.forall_mem_cons, List.not_mem_nil, false_imp_iff, implies_true, and_true]
  exact ⟨Codec.framable_be _ _ (by decide), small⟩

/-- A signature is over one transaction up to its authenticator or over one
update for one epoch, and never over both. -/
theorem signatures_bind_every_field (crypto : Crypto) :
    (∀ t t' : Transaction, Framable (Wire.writePayload t.payload) → Framable (Wire.writePayload t'.payload) →
      Set.InjOn crypto.sha256 {t.signingImage, t'.signingImage} →
      t.signingDigest crypto = t'.signingDigest crypto →
        t.sender = t'.sender ∧ t.nonce = t'.nonce ∧ t.feeAsset = t'.feeAsset ∧ t.feeRate = t'.feeRate ∧
        t.feeIntrinsicGas = t'.feeIntrinsicGas ∧ t.gasLimit = t'.gasLimit ∧ t.maxFeePerGas = t'.maxFeePerGas ∧
        t.maxPriorityFeePerGas = t'.maxPriorityFeePerGas ∧ t.payload = t'.payload) ∧
    (∀ (u u' : GovernanceUpdate) (e e' : U64), Framable u.encode → Framable u'.encode →
      Set.InjOn crypto.sha256 {u.signingImage e, u'.signingImage e'} →
      u.signingDigest crypto e = u'.signingDigest crypto e' → u = u' ∧ e = e') ∧
    ∀ (t : Transaction) (u : GovernanceUpdate) (e : U64),
      Set.InjOn crypto.sha256 {t.signingImage, u.signingImage e} →
        t.signingDigest crypto ≠ u.signingDigest crypto e := by
  refine ⟨fun t t' small small' free same => ?_, fun u u' e e' small small' free same => ?_, fun t u e free same => ?_⟩
  · obtain ⟨-, fields⟩ := canonical_inj (Transaction.framable_signedFields small)
      (Transaction.framable_signedFields small') (eq_of_digests free same)
    simp only [Transaction.signedFields, List.cons.injEq, FixedBytes.bytes_inj, and_true] at fields
    obtain ⟨sender, nonce, asset, rate, intrinsic, limit, fee, priority, payload⟩ := fields
    have assets : t.feeAsset.val = t'.feeAsset.val :=
      (be_inj (Nat.lt_trans t.feeAsset.isLt (by decide)) (Nat.lt_trans t'.feeAsset.isLt (by decide))).mp asset
    exact ⟨sender, (be_val_inj rfl).mp nonce, Fin.ext assets, (be_val_inj rfl).mp rate, (be_val_inj rfl).mp intrinsic,
      (be_val_inj rfl).mp limit, (be_val_inj rfl).mp fee, (be_val_inj rfl).mp priority,
      Wire.writePayload_inj small small' payload⟩
  · obtain ⟨-, fields⟩ := canonical_inj (GovernanceUpdate.framable_signed small e)
      (GovernanceUpdate.framable_signed small' e') (eq_of_digests free same)
    simp only [List.cons.injEq, and_true] at fields
    exact ⟨GovernanceUpdate.encode_inj small small' fields.2, (be_val_inj rfl).mp fields.1⟩
  · cases domain_of_canonical (eq_of_digests free same)

namespace Devnet

/-- The devnet's payment with other bytes for its signature. -/
def resigned : Transaction := { payment with authenticator := .ed25519 alice (FixedBytes.fill 64 0) }

/-- The two copies of the payment share a digest and a payload, an order's digest
gives its update and its epoch, and it is not the payment's. -/
theorem payment_and_order_are_signed_apart :
    resigned.signingDigest crypto = payment.signingDigest crypto ∧ resigned.payload = payment.payload ∧
      (∃ (u : GovernanceUpdate) (e : U64), GovernanceUpdate.signingDigest crypto (.disableGasAsset 1) 0 = u.signingDigest crypto e ∧
        .disableGasAsset 1 = u ∧ 0 = e) ∧
      payment.signingDigest crypto ≠ GovernanceUpdate.signingDigest crypto (.disableGasAsset 1) 0 := by
  have apart : crypto.sha256 payment.signingImage ≠
      crypto.sha256 (GovernanceUpdate.signingImage (.disableGasAsset 1) 0) := by
    decide +kernel
  obtain ⟨transactions, updates, between⟩ := signatures_bind_every_field crypto
  obtain ⟨_, _, _, _, _, _, _, _, payload⟩ := transactions resigned payment (by decide) (by decide)
    (by simp [show resigned.signingImage = payment.signingImage from rfl]) rfl
  exact ⟨rfl, payload, ⟨_, _, rfl, updates _ _ 0 0 (by decide) (by decide) (by simp) rfl⟩,
    between _ _ _ (Set.injOn_pair.mpr fun same => absurd same apart)⟩

end Devnet

/-- Two instructions touch one trie entry exactly if they address one piece of
state, and the contract addresses it by the same key. -/
theorem slots_never_alias {crypto : Crypto} {i j : Instruction} (fits : i.on.Fits) (fits' : j.on.Fits)
    (free : Set.InjOn crypto.sha256 {i.on.image, j.on.image}) :
    (i.slot crypto = j.slot crypto ↔ i.on = j.on) ∧
      Osp.slotOf crypto (Osp.ofInstruction i) = .ok (i.slot crypto).bytes := by
  refine ⟨?_, Osp.slotOf_ofInstruction fits⟩
  rw [Instruction.slot_eq, Instruction.slot_eq]
  constructor
  · intro same
    exact Slot.image_inj fits fits' (eq_of_digests free same)
  · intro same
    rw [same]

/-- A debit and the credit it pays touch different entries. -/
theorem Devnet.transfer_touches_two_slots :
    (Instruction.debit alice 1 1000).slot crypto ≠ (Instruction.credit bob 1 1000).slot crypto ∧
      Osp.slotOf crypto (.debit alice.bytes 1 1000) = .ok ((Instruction.debit alice 1 1000).slot crypto).bytes := by
  have apart : crypto.sha256 (Slot.account alice).image ≠ crypto.sha256 (Slot.account bob).image := by
    decide +kernel
  have told := slots_never_alias (i := .debit alice 1 1000) (j := .credit bob 1 1000) trivial trivial
    (Set.injOn_pair.mpr fun same => absurd same apart)
  refine ⟨fun same => ?_, told.2⟩
  have slots := told.1.mp same
  exact absurd slots (by decide)

end Sena
