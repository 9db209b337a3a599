import Sena.AccountProofs
import Sena.Stores
import Sena.Trie
import Sena.WitnessProofs

/-! Two step functions, one machine.

On a slot that holds a record of its kind the contract computes what the node
computes: the same new contents, or no execution at all. It aborts only over a
witness the node refuses too, for another slot or with a proof that does not
hold. -/
namespace Sena

open Move
open Governance (checkSignatures verifyCouncilSignatures)

/-- The node reads `b` as a record and writes that record as `b`. -/
def IsRecord (decode : Bytes → Except ε α) (encode : α → Bytes) (b : Bytes) : Prop :=
  ∃ record, decode b = .ok record ∧ b = encode record

/-- A slot's contents are a canonical record of the kind the instruction's slot
holds, and short enough for the argument of a call. -/
def Instruction.Holds (i : Instruction) (b : Bytes) : Prop :=
  Framable b ∧ match i with
    | consumeNonce _ _ | debit _ _ _ | credit _ _ _ => IsRecord Account.decode Account.encode b
    | bindIdentifier _ _ | unbindIdentifier _ _ => IsRecord SocialBinding.decode SocialBinding.encode b
    | verifyGasAsset _ _ _ | setGasAsset _ | disableGasAsset _ =>
      IsRecord WhitelistedAsset.decode WhitelistedAsset.encode b
    | chargeBaseFee _ _ _ | setFeeMarket _ _ => IsRecord FeeMarket.decode FeeMarket.encode b
    | verifyFeeSplit _ | setFeeSplit _ => IsRecord FeeSplit.decode FeeSplit.encode b
    | verifyCouncil _ _ _ _ => IsRecord Council.decode Council.encode b
    | setParameter _ _ => ∃ value : U128, b = be 16 value.val
    | verifyJwk _ _ | setJwk _ _ _ => IsRecord Execute.decodeJwkRecord Execute.encodeJwkRecord b

/-- The contents are a canonical record of the slot's kind. -/
def Slot.Record : Slot → Bytes → Prop
  | account _ => IsRecord Account.decode Account.encode
  | social _ => IsRecord SocialBinding.decode SocialBinding.encode
  | asset _ => IsRecord WhitelistedAsset.decode WhitelistedAsset.encode
  | parameter _ => fun b => ∃ value : U128, b = be 16 value.val
  | council => IsRecord Council.decode Council.encode
  | feeMarket => IsRecord FeeMarket.decode FeeMarket.encode
  | feeSplit => IsRecord FeeSplit.decode FeeSplit.encode
  | jwk _ _ => IsRecord Execute.decodeJwkRecord Execute.encodeJwkRecord

theorem Instruction.holds_iff {i : Instruction} : i.Holds b ↔ Framable b ∧ i.on.Record b := by
  cases i <;> rfl

/-- A slot's contents as the node's witness has them; the contract's carries a
flag beside the bytes. -/
def slotContents (present : Bool) (b : Bytes) : Option Bytes := if present then some b else none

@[simp] theorem slotContents_true : slotContents true b = some b := rfl

@[simp] theorem slotContents_false : slotContents false b = none := rfl

namespace Osp

variable {i : Sena.Instruction} {c : Sena.Council}

/-- Both sides name the slot alike. -/
theorem slotOf_ofInstruction (fits : i.on.Fits) : slotOf crypto (ofInstruction i) = .ok (i.slot crypto).bytes := by
  cases i <;> refine Codec.digest_of_framable ?_ <;>
    simp only [List.mem_cons, List.not_mem_nil, or_false, forall_eq_or_imp, forall_eq, false_imp_iff,
      implies_true]
  case setParameter name value => exact fits
  all_goals first
    | exact FixedBytes.framable_of_le (by decide)
    | exact Codec.framable_be _ _ (by decide)
    | exact ⟨FixedBytes.framable_of_le (by decide), FixedBytes.framable_of_le (by decide)⟩

theorem takeBinding_encode (binding : SocialBinding) :
    takeBinding.run' binding.encode = .ok (binding.address.map (·.bytes)) := by
  rw [Reader.run'_eq_ok]
  cases binding with
  | bound holder =>
    refine ⟨[], ?_⟩
    rw [takeBinding, Reader.bind_eq_ok]
    refine ⟨0, holder.bytes, Codec.takeU8_eq_ok.mpr rfl, ?_⟩
    rw [if_pos rfl, Reader.bind_eq_ok]
    refine ⟨holder.bytes, [], Codec.takeBytes_eq_ok.mpr ⟨holder.length_eq, (List.append_nil _).symm⟩, ?_⟩
    exact Reader.bind_eq_ok.mpr ⟨(), [], Codec.finish_eq_ok.mpr ⟨rfl, rfl⟩, Reader.pure_eq_ok.mpr ⟨rfl, rfl⟩⟩
  | vacant => exact ⟨[], rfl⟩

theorem decodeAssetRecord_encode {r : WhitelistedAsset} (small : Framable r.symbol.bytes) :
    decodeAssetRecord r.encode = .ok ⟨r.asset, r.symbol.bytes, r.rate, r.intrinsicGas, r.enabled⟩ := by
  rw [decodeAssetRecord, Reader.run'_eq_ok]
  simp only [takeAssetRecord, Reader.bind_eq_ok, Reader.pure_eq_ok, Codec.takeU32_eq_ok, Codec.takeField_eq_ok,
    Codec.takeU128_eq_ok, Codec.takeU64_eq_ok, Codec.takeBool_eq_ok, Codec.finish_eq_ok]
  exact ⟨[], r.asset, _, by simp only [WhitelistedAsset.encode, List.append_assoc], r.symbol.bytes, _,
    ⟨small, rfl⟩, r.rate, _, rfl, r.intrinsicGas, _, rfl, r.enabled, [], rfl, (), [], ⟨rfl, rfl⟩, rfl, rfl⟩

theorem takeMarket_encode (m : FeeMarket) : MoveGas.takeMarket.run' m.encode = .ok (MoveGas.ofMarket m) := by
  rw [Reader.run'_eq_ok]
  simp only [MoveGas.takeMarket, Reader.bind_eq_ok, Reader.pure_eq_ok, Codec.takeU128_eq_ok,
    Codec.takeU64_eq_ok, Codec.finish_eq_ok]
  exact ⟨[], m.baseFee, _, by simp only [FeeMarket.encode, List.append_assoc], m.floor, _, rfl, m.target, _, rfl,
    m.windowTs, _, rfl, m.windowGas, [], (List.append_nil _).symm, (), [], ⟨rfl, rfl⟩, rfl, rfl⟩

/-- The council as the contract holds it. -/
def ofCouncil (c : Sena.Council) : Council :=
  ⟨c.members.map (·.bytes), c.threshold, c.epoch, c.guardianThreshold⟩

theorem takeCouncil_encode (counted : c.members.length < 2 ^ 32) : takeCouncil.run' c.encode = .ok (ofCouncil c) := by
  have member : ∀ (input : Bytes) (b : Bytes) (rest : Bytes), Codec.takeBytes 32 input = .ok (b, rest) ↔
      ∃ a : FixedBytes 32, True ∧ input = a.bytes ++ rest ∧ b = a.bytes := by
    intro input b rest
    rw [Codec.takeBytes_eq_ok]
    constructor
    · rintro ⟨sized, rfl⟩
      exact ⟨⟨b, sized⟩, trivial, rfl, rfl⟩
    · rintro ⟨a, _, rfl, rfl⟩
      exact ⟨a.length_eq, rfl⟩
  rw [Reader.run'_eq_ok]
  simp only [takeCouncil, Reader.bind_eq_ok, Reader.pure_eq_ok, Codec.takeU32_eq_ok, Codec.takeU64_eq_ok,
    Codec.takeMany_eq_ok _ _ _ member, Codec.finish_eq_ok]
  exact ⟨[], ⟨_, counted⟩, _, by simp only [Sena.Council.encode, List.append_assoc], _, _,
    ⟨c.members, rfl, fun _ _ => trivial, rfl, rfl⟩, c.threshold, _, rfl, c.epoch, _, rfl, c.guardianThreshold, [],
    (List.append_nil _).symm, (), [], ⟨rfl, rfl⟩, rfl, rfl⟩

/-- An account as the contract holds it. -/
def ofAccount (a : Sena.Account) : Account := ⟨a.nonce, a.balances.entries⟩

/-- Both sides read the same account. -/
theorem accountIn_eq (held : present = true → IsRecord Account.decode Sena.Account.encode b) :
    ∃ a : Sena.Account, a.Canonical ∧ accountIn present b = .ok (ofAccount a) ∧
      Execute.decodeAccount (slotContents present b) = .ok a := by
  cases present with
  | false => exact ⟨.new, Account.canonical_new, rfl, rfl⟩
  | true =>
    obtain ⟨a, decoded, rfl⟩ := held rfl
    exact ⟨a, (Account.decode_eq_ok.mp decoded).1, Account.osp_decodeAccount decoded,
      by simp [Execute.decodeAccount, decoded, Except.mapError]⟩

theorem balanceOf_ofAccount (a : Sena.Account) (asset : U32) :
    balanceOf (ofAccount a) asset = a.balance asset := Account.osp_balanceOf a asset

/-- An account with one balance written; a zero balance leaves. -/
def withBalance (a : Sena.Account) (asset : U32) (amount : U128) : Sena.Account :=
  { a with balances := if amount.val = 0 then a.balances.remove asset else a.balances.insert asset amount }

theorem set_ofAccount (a : Sena.Account) (asset : U32) (amount : U128) :
    (ofAccount a).set asset amount = ofAccount (withBalance a asset amount) := by
  simp only [Account.set, ofAccount, withBalance, Account.setBalance_entries a.balances asset amount]
  split <;> rfl

theorem transition_debit (read : accountIn present b = .ok (ofAccount a)) :
    transition crypto (.debit account asset amount) present b =
      match a.debit asset amount with
      | .ok a' => some <$> encodeAccount (ofAccount a')
      | .error _ => .ok none := by
  simp only [transition, read, ok_bind, Account.debit, balanceOf_ofAccount]
  by_cases zero : amount.val = 0
  · rw [if_neg (by omega), if_pos zero]
    rfl
  · rw [if_pos (Nat.pos_of_ne_zero zero), if_neg zero]
    by_cases short : (a.balance asset).val < amount.val
    · rw [if_pos short, if_pos short]
      rfl
    · have value := Fin.sub_val_of_le (Nat.not_lt.mp short)
      have left : (if (a.balance asset).val - amount.val = 0 then Except.ok { a with balances := a.balances.remove asset }
          else .ok { a with balances := a.balances.insert asset (a.balance asset - amount) } :
            Except BalanceError Sena.Account) = .ok (withBalance a asset (a.balance asset - amount)) := by
        rw [withBalance, value]
        split <;> rfl
      rw [if_neg short, if_neg short, sub_of_le (Nat.not_lt.mp short), ok_bind, left, set_ofAccount]
      rfl

theorem transition_credit (read : accountIn present b = .ok (ofAccount a)) :
    transition crypto (.credit account asset amount) present b =
      match a.credit asset amount with
      | .ok a' => some <$> encodeAccount (ofAccount a')
      | .error _ => .ok none := by
  simp only [transition, read, ok_bind, Account.credit, balanceOf_ofAccount]
  by_cases zero : amount.val = 0
  · rw [if_neg (by omega), if_pos zero]
    rfl
  · have full : MoveGas.MAX_U128.val - (a.balance asset).val < amount.val ↔
        ¬(a.balance asset).val + amount.val < 2 ^ 128 := by
      have : MoveGas.MAX_U128.val = 2 ^ 128 - 1 := rfl
      omega
    rw [if_pos (Nat.pos_of_ne_zero zero), if_neg zero]
    by_cases fits : (a.balance asset).val + amount.val < 2 ^ 128
    · have value : ((a.balance asset) + amount).val = (a.balance asset).val + amount.val :=
        Fin.val_add_eq_of_add_lt fits
      have grown : { a with balances := a.balances.insert asset ⟨_, fits⟩ : Sena.Account } =
          withBalance a asset (a.balance asset + amount) := by
        rw [withBalance, if_neg (by omega), show (⟨_, fits⟩ : U128) = a.balance asset + amount from Fin.ext value.symm]
      rw [if_neg (fun large => full.mp large fits), dif_pos fits, add_of_lt fits, ok_bind, grown, set_ofAccount]
      rfl
    · rw [if_pos (full.mpr fits), dif_neg fits]
      rfl

/-- What the node writes of an account by this instruction, its encoder can count. -/
abbrev Encodes (crypto : Crypto) (i : Sena.Instruction) (current : Option Bytes) : Prop :=
  ∀ written, Execute.transition crypto i current = .ok written → i.Encodable written

/-- The contract's semantics is the node's: the same contents, or none where the node
refuses, and no abort. -/
abbrev Agrees (crypto : Crypto) (i : Sena.Instruction) (present : Bool) (b : Bytes) : Prop :=
  transition crypto (ofInstruction i) present b =
    .ok (Execute.transition crypto i (slotContents present b)).toOption

theorem encodeAccount_of_length {a : Sena.Account} (positive : a.Positive)
    (counted : a.encode.length < 12 + 20 * 2 ^ 32) : encodeAccount (ofAccount a) = .ok a.encode := by
  rw [Account.encode_length] at counted
  exact Account.Canonical.encodeAccount ⟨positive, by omega⟩

/-- Both machines write what becomes of the account, or neither does. -/
theorem encodeAccount_eq {changed : Except BalanceError Sena.Account} {f : BalanceError → StepError}
    (positive : ∀ a', changed = .ok a' → a'.Positive)
    (encodes : ∀ written, (Except.mapError f changed >>= fun a' => pure a'.encode) = .ok written →
      written.length < 12 + 20 * 2 ^ 32) :
    (match changed with
      | .ok a' => some <$> encodeAccount (ofAccount a')
      | .error _ => .ok none : Move (Option Bytes)) =
      .ok (Except.mapError f changed >>= fun a' => pure a'.encode).toOption := by
  cases changed with
  | error e => rfl
  | ok a' =>
    change some <$> encodeAccount (ofAccount a') = .ok (some a'.encode)
    rw [encodeAccount_of_length (positive a' rfl) (encodes _ rfl)]
    rfl

section
variable (held : present = true → IsRecord Account.decode Sena.Account.encode b) (account : L2Address)
include held account

theorem debit_eq (asset : U32) (amount : U128)
    (encodes : Encodes crypto (.debit account asset amount) (slotContents present b)) :
    Agrees crypto (.debit account asset amount) present b := by
  obtain ⟨a, canonical, read, decoded⟩ := accountIn_eq held
  rw [Agrees, ofInstruction, transition_debit read]
  simp only [Encodes, Execute.transition, decoded, ok_bind] at encodes ⊢
  exact encodeAccount_eq (fun _ debited => (Account.debit_spec debited).2.2 canonical.positive) encodes

theorem credit_eq (asset : U32) (amount : U128)
    (encodes : Encodes crypto (.credit account asset amount) (slotContents present b)) :
    Agrees crypto (.credit account asset amount) present b := by
  obtain ⟨a, canonical, read, decoded⟩ := accountIn_eq held
  rw [Agrees, ofInstruction, transition_credit read]
  simp only [Encodes, Execute.transition, decoded, ok_bind] at encodes ⊢
  exact encodeAccount_eq (fun _ credited => (Account.credit_spec credited).2.2 canonical.positive) encodes

theorem consumeNonce_eq (expected : U64) : Agrees crypto (.consumeNonce account expected) present b := by
  obtain ⟨a, canonical, read, decoded⟩ := accountIn_eq held
  simp only [Agrees, ofInstruction, transition, Execute.transition, read, decoded, ok_bind]
  change (if a.nonce ≠ expected then _ else if a.nonce = MoveGas.MAX_U64 then _ else add a.nonce 1 >>= _) = _
  by_cases same : a.nonce = expected
  · have last : a.nonce = MoveGas.MAX_U64 ↔ ¬a.nonce.val + 1 < 2 ^ 64 := by
      have : MoveGas.MAX_U64.val = 2 ^ 64 - 1 := rfl
      rw [Fin.ext_iff]
      omega
    rw [if_neg (not_not.mpr same), if_neg (not_not.mpr same)]
    by_cases fits : a.nonce.val + 1 < 2 ^ 64
    · have value : (a.nonce + 1).val = a.nonce.val + 1 := Fin.val_add_eq_of_add_lt fits
      rw [if_neg (fun large => last.mp large fits), dif_pos fits, add_of_lt fits, ok_bind,
        show (⟨_, fits⟩ : U64) = a.nonce + 1 from Fin.ext value.symm]
      have written : encodeAccount ⟨a.nonce + 1, a.balances.entries⟩ =
          .ok { a with nonce := a.nonce + 1 : Sena.Account }.encode :=
        Account.Canonical.encodeAccount (a := { a with nonce := a.nonce + 1 })
          ⟨canonical.positive, canonical.counted⟩
      change (encodeAccount ⟨a.nonce + 1, a.balances.entries⟩ >>= _) = _
      rw [written]
      rfl
    · rw [if_pos (last.mpr fits), dif_neg fits]
      rfl
  · simp [same]

end

section
variable (held : present = true → IsRecord SocialBinding.decode SocialBinding.encode b) (identifier : Hash256)
include held identifier

theorem bindIdentifier_eq (address : L2Address) : Agrees crypto (.bindIdentifier identifier address) present b := by
  cases present with
  | false => rfl
  | true =>
    obtain ⟨binding, decoded, rfl⟩ := held rfl
    have other : (binding.address.map (·.bytes)).any (· ≠ address.bytes) =
        binding.address.any (· ≠ address) := by
      cases binding <;> simp [SocialBinding.address, FixedBytes.bytes_inj]
    simp only [Agrees, ofInstruction, transition, Execute.transition, slotContents_true, if_true, takeBinding_encode,
      ok_bind, decoded, Except.mapError, other]
    split <;> rfl

theorem unbindIdentifier_eq (owner : L2Address) : Agrees crypto (.unbindIdentifier identifier owner) present b := by
  cases present with
  | false => rfl
  | true =>
    obtain ⟨binding, decoded, rfl⟩ := held rfl
    have holder : binding.address.map (·.bytes) = some owner.bytes ↔ binding.address = some owner := by
      cases binding <;> simp [SocialBinding.address, FixedBytes.bytes_inj]
    simp only [Agrees, ofInstruction, transition, Execute.transition, slotContents_true, Execute.present,
      Bool.true_eq_false, if_false, takeBinding_encode, ok_bind, decoded, Except.mapError, holder]
    split <;> rfl

end

section
variable (held : present = true → IsRecord WhitelistedAsset.decode WhitelistedAsset.encode b) (asset : U32)
include held asset

theorem verifyGasAsset_eq (rate : U128) (intrinsicGas : U64) :
    Agrees crypto (.verifyGasAsset asset rate intrinsicGas) present b := by
  cases present with
  | false => rfl
  | true =>
    obtain ⟨r, decoded, rfl⟩ := held rfl
    simp only [Agrees, ofInstruction, transition, Execute.transition, slotContents_true, Execute.present,
      Bool.true_eq_false, if_false, decodeAssetRecord_encode (WhitelistedAsset.framable_of_decode decoded), ok_bind,
      decoded, Except.mapError]
    by_cases disabled : r.enabled = false
    · simp [disabled]
    · by_cases priced : r.rate = rate
      · by_cases costs : r.intrinsicGas = intrinsicGas
        · simp [disabled, priced, costs]
        · simp [disabled, priced, costs]
      · simp [disabled, priced]

theorem disableGasAsset_eq : Agrees crypto (.disableGasAsset asset) present b := by
  cases present with
  | false => rfl
  | true =>
    obtain ⟨r, decoded, rfl⟩ := held rfl
    have shorter := WhitelistedAsset.framable_of_decode decoded
    simp only [Agrees, ofInstruction, transition, Execute.transition, slotContents_true, Execute.present,
      Bool.true_eq_false, if_false, decodeAssetRecord_encode shorter, ok_bind, decoded, Except.mapError]
    rw [encodeAssetRecord_eq { r with enabled := false } shorter]
    rfl

end

section
variable (held : present = true → IsRecord FeeMarket.decode FeeMarket.encode b)
include held

theorem marketIn_eq : ∃ m : Sena.FeeMarket, MoveGas.marketIn present b = .ok (MoveGas.ofMarket m) ∧
      Execute.decodeFeeMarket (slotContents present b) = .ok m := by
  cases present with
  | false => exact ⟨_, rfl, rfl⟩
  | true =>
    obtain ⟨m, decoded, rfl⟩ := held rfl
    exact ⟨m, takeMarket_encode m, by simp [Execute.decodeFeeMarket, decoded, Except.mapError]⟩

theorem chargeBaseFee_eq (timestamp : U64) (baseFee : U128) (gas : U64) :
    Agrees crypto (.chargeBaseFee timestamp baseFee gas) present b := by
  obtain ⟨m, read, decoded⟩ := marketIn_eq held
  simp only [Agrees, ofInstruction, transition, Execute.transition, read, decoded, ok_bind, MoveGas.marketAt_ofMarket]
  cases rolled : m.atTimestamp timestamp with
  | error e => rfl
  | ok m' =>
    simp only [Except.mapError, toOption_ok, Option.map_some, ok_bind]
    change (if m'.baseFee ≠ baseFee then _ else _) = _
    by_cases same : m'.baseFee = baseFee
    · rw [if_neg (not_not.mpr same), if_neg (not_not.mpr same), MoveGas.charge_ofMarket, ok_bind]
      by_cases fits : m'.windowGas.val + gas.val < 2 ^ 64
      · rw [dif_pos fits, dif_pos fits]
        by_cases within : m'.windowGas.val + gas.val ≤ m'.windowLimit
        · rw [if_pos within, if_pos within]
          rfl
        · rw [if_neg within, if_neg within]
          rfl
      · rw [dif_neg fits, dif_neg fits]
        rfl
    · simp [same]

theorem setFeeMarket_eq (floor : U128) (target : U64) : Agrees crypto (.setFeeMarket floor target) present b := by
  obtain ⟨m, read, decoded⟩ := marketIn_eq held
  simp only [Agrees, ofInstruction, transition, Execute.transition, read, decoded, ok_bind, Execute.permitted,
    GovernanceUpdate.checkPermitted]
  by_cases refused : floor.val = 0 ∨ target.val = 0
  · rw [if_pos refused, if_pos refused]
    rfl
  · rw [if_neg refused, if_neg refused, MoveGas.setParameters_ofMarket]
    rfl

end

theorem councilSigned_eq (c : Sena.Council) (digest : Hash256) (signatures : List CouncilSignature)
    (previous : Option U32) :
    councilSigned crypto (ofCouncil c).members digest.bytes previous
        (signatures.map fun s => (s.index, s.signature.bytes)) =
      (checkSignatures crypto c digest previous signatures).isOk := by
  induction signatures generalizing previous with
  | nil => rfl
  | cons s rest ih =>
    obtain ⟨index, signature⟩ := s
    simp only [List.map_cons, councilSigned, checkSignatures]
    split
    · rfl
    · have member : (ofCouncil c).members[index.val]? = (c.members[index.val]?).map (·.bytes) := by
        simp [ofCouncil]
      rw [member]
      cases c.members[index.val]? with
      | none => rfl
      | some key =>
        simp only [Option.map_some, MoveKeyless.verifyEd25519Strict_eq, ih]
        cases verdict : crypto.ed25519Strict key.bytes signature.bytes digest.bytes with
        | ok u => simp [Except.isOk, Except.toBool]
        | error e => cases e <;> simp [Except.isOk, Except.toBool]

theorem verifyCouncilSignatures_eq_ok {signatures : List CouncilSignature} :
    verifyCouncilSignatures crypto c digest signatures guardian = .ok () ↔
      (c.required guardian).val ≠ 0 ∧ (checkSignatures crypto c digest none signatures).isOk = true ∧
        (c.required guardian).val ≤ signatures.length := by
  have saturated : min signatures.length (2 ^ 32 - 1) < (c.required guardian).val ↔
      ¬(c.required guardian).val ≤ signatures.length := by
    have := (c.required guardian).isLt
    omega
  simp only [verifyCouncilSignatures, saturated]
  by_cases zero : (c.required guardian).val = 0
  · simp [zero]
  · rw [if_neg zero]
    cases checkSignatures crypto c digest none signatures with
    | error e => simp [Except.isOk, Except.toBool]
    | ok u =>
      by_cases enough : (c.required guardian).val ≤ signatures.length <;>
        simp [zero, enough, Except.isOk, Except.toBool]

theorem verifyCouncil_eq (held : present = true → IsRecord Council.decode Sena.Council.encode b)
    (epoch : U64) (digest : Hash256) (signatures : List CouncilSignature) (guardian : Bool) :
    Agrees crypto (.verifyCouncil epoch digest signatures guardian) present b := by
  cases present with
  | false => rfl
  | true =>
    obtain ⟨c, decoded, rfl⟩ := held rfl
    have counted := (Council.decode_eq_ok.mp decoded).1
    have last : c.epoch = MoveGas.MAX_U64 ↔ ¬c.epoch.val + 1 < 2 ^ 64 := by
      have : MoveGas.MAX_U64.val = 2 ^ 64 - 1 := rfl
      rw [Fin.ext_iff]
      omega
    simp only [Agrees, ofInstruction, transition, Execute.transition, slotContents_true, Execute.present,
      Bool.true_eq_false, if_false, ok_bind, decoded, Except.mapError, verifyCouncilStep, takeCouncil_encode counted,
      councilSigned_eq, List.length_map]
    change (if c.epoch ≠ epoch ∨ (c.required guardian).val = 0 then _
      else if _ then _ else if signatures.length < (c.required guardian).val then _
      else if c.epoch = MoveGas.MAX_U64 then _
      else checked 32 (ofCouncil c).members.length >>= fun _ => add c.epoch 1 >>= fun _ => _) = _
    by_cases current : c.epoch = epoch
    swap
    · simp [current]
    rw [if_neg (not_not.mpr current)]
    by_cases signed : verifyCouncilSignatures crypto c digest signatures guardian = .ok ()
    · obtain ⟨positive, verified, enough⟩ := verifyCouncilSignatures_eq_ok.mp signed
      rw [if_neg (by simp [current, positive]), if_neg (by simp [verified]), if_neg (Nat.not_lt.mpr enough), signed]
      by_cases fits : c.epoch.val + 1 < 2 ^ 64
      · have value : (c.epoch + 1).val = c.epoch.val + 1 := Fin.val_add_eq_of_add_lt fits
        rw [if_neg (fun large => last.mp large fits), checked_of_lt (by simpa [ofCouncil] using counted), ok_bind,
          add_of_lt fits, ok_bind, ok_bind, dif_pos fits]
        simp [value, Sena.Council.encode, ofCouncil, List.flatMap]
      · rw [if_pos (last.mpr fits), ok_bind, dif_neg fits]
        rfl
    · have refused : ∃ e, verifyCouncilSignatures crypto c digest signatures guardian = .error e := by
        cases verdict : verifyCouncilSignatures crypto c digest signatures guardian with
        | ok u => exact absurd verdict signed
        | error e => exact ⟨e, rfl⟩
      obtain ⟨e, refused⟩ := refused
      rw [refused]
      rw [verifyCouncilSignatures_eq_ok, not_and_or, not_and_or, not_not, Nat.not_le, Bool.not_eq_true] at signed
      split
      · rfl
      · rename_i open'
        rcases signed with none | forged | few
        · exact absurd (.inr none) open'
        · rw [if_pos forged]
          rfl
        · rw [if_pos few, ite_self]
          rfl

/-- On a record of its slot's kind the contract's semantics is the node's. -/
theorem transition_of_record (fits : i.Fits) (held : present = true → i.on.Record b)
    (encodes : Encodes crypto i (slotContents present b)) : Agrees crypto i present b := by
  cases i with
  | consumeNonce account expected => exact consumeNonce_eq held account expected
  | debit account asset amount => exact debit_eq held account asset amount encodes
  | credit account asset amount => exact credit_eq held account asset amount encodes
  | bindIdentifier identifier address => exact bindIdentifier_eq held identifier address
  | unbindIdentifier identifier owner => exact unbindIdentifier_eq held identifier owner
  | verifyGasAsset asset rate intrinsicGas => exact verifyGasAsset_eq held asset rate intrinsicGas
  | disableGasAsset asset => exact disableGasAsset_eq held asset
  | chargeBaseFee timestamp baseFee gas => exact chargeBaseFee_eq held timestamp baseFee gas
  | setFeeMarket floor target => exact setFeeMarket_eq held floor target
  | verifyCouncil epoch digest signatures guardian =>
    exact verifyCouncil_eq held epoch digest signatures guardian
  | verifyFeeSplit split =>
    cases present with
    | false => rfl
    | true =>
      by_cases same : b = split.encode <;>
        simp [Agrees, ofInstruction, transition, Execute.transition, Execute.present, same]
  | setFeeSplit split =>
    rw [Agrees, ofInstruction, transition, MoveGas.splitIsValid_encode fits]
    cases checked : split.check <;>
      simp [Execute.transition, Execute.permitted, GovernanceUpdate.checkPermitted, checked, Except.isOk,
        Except.toBool, Except.mapError]
  | setGasAsset record =>
    rw [Agrees, ofInstruction, transition, Execute.transition, Execute.permitted, GovernanceUpdate.checkPermitted,
      encodeAssetRecord_eq record (WhitelistedAsset.framable_symbol fits)]
    by_cases zero : record.rate.val = 0
    · rw [if_pos zero, if_pos zero]
      rfl
    · rw [if_neg zero, if_neg zero]
      rfl
  | setParameter name value =>
    have same : isGovernable name.bytes = true ↔ name.bytes = GovernanceUpdate.GOVERNABLE_PARAMETER :=
      decide_eq_true_iff
    rw [Agrees, ofInstruction, transition, Execute.transition, Execute.permitted, GovernanceUpdate.checkPermitted]
    by_cases governed : name.bytes = GovernanceUpdate.GOVERNABLE_PARAMETER
    · rw [if_pos governed, if_pos (same.mpr governed)]
      rfl
    · rw [if_neg governed, if_neg (mt same.mp governed)]
      rfl
  | verifyJwk issHash jwkHash =>
    cases present with
    | false => rfl
    | true =>
      obtain ⟨active, _, rfl⟩ := held rfl
      cases active <;> rfl
  | setJwk issHash jwkHash active => rfl

theorem encodes_of_framable (small : ∀ b, current = some b → Framable b) : Encodes crypto i current := by
  intro written computed
  have counted : ∀ acc, Execute.decodeAccount current = .ok acc →
      acc.balances.entries.length + 1 < 2 ^ 32 := by
    intro acc decoded
    cases current with
    | none =>
      cases decoded
      decide
    | some b =>
      obtain ⟨_, rfl⟩ := Account.decode_eq_ok.mp (Move.mapError_eq_ok.mp decoded)
      have short := small _ rfl
      rw [Framable, Account.encode_length] at short
      omega
  cases i with
  | consumeNonce account expected =>
    obtain ⟨acc, decoded, rest⟩ := bind_eq_ok.mp computed
    have room := counted acc decoded
    by_cases same : acc.nonce = expected
    · rw [if_neg (not_not.mpr same)] at rest
      split at rest
      · cases rest
        rw [Instruction.Encodable, Account.encode_length]
        simp only
        omega
      · cases rest
    · rw [if_pos same] at rest
      cases rest
  | debit account asset amount =>
    obtain ⟨acc, decoded, rest⟩ := bind_eq_ok.mp computed
    obtain ⟨acc', debited, rest⟩ := bind_eq_ok.mp rest
    cases rest
    have room := counted acc decoded
    have grown := Account.debit_length_le (Move.mapError_eq_ok.mp debited)
    rw [Instruction.Encodable, Account.encode_length]
    omega
  | credit account asset amount =>
    obtain ⟨acc, decoded, rest⟩ := bind_eq_ok.mp computed
    obtain ⟨acc', credited, rest⟩ := bind_eq_ok.mp rest
    cases rest
    have room := counted acc decoded
    have grown := Account.credit_length_le (Move.mapError_eq_ok.mp credited)
    rw [Instruction.Encodable, Account.encode_length]
    omega
  | _ => trivial

theorem transition_ofInstruction (fits : i.Fits) (held : present = true → i.Holds b) : Agrees crypto i present b := by
  refine transition_of_record fits (fun here => (Instruction.holds_iff.mp (held here)).2)
    (encodes_of_framable fun b' same => ?_)
  cases present with
  | false => cases same
  | true =>
    cases same
    exact (Instruction.holds_iff.mp (held rfl)).1

end Osp

/-- The step was not refused but its witness was. -/
def StepError.isWitnessFault : StepError → Bool
  | witnessSlotMismatch _ _ | badWitnessProof _ => true
  | _ => false

namespace Execute

/-- The computation never blames a witness. -/
def Faultless (x : Except StepError α) : Prop := ∀ e, x = .error e → e.isWitnessFault = false

theorem faultless_ok (a : α) : Faultless (.ok a) := fun _ failed => by cases failed

theorem faultless_error {e : StepError} (other : e.isWitnessFault = false) :
    Faultless (.error e : Except StepError α) := by
  rintro _ ⟨⟩
  exact other

theorem Faultless.bind {f : α → Except StepError β} (first : Faultless x)
    (next : ∀ a, Faultless (f a)) : Faultless (x >>= f) := by
  cases x with
  | ok a => exact next a
  | error e => exact faultless_error (first e rfl)

theorem faultless_mapError {wrap : ε → StepError} (other : ∀ e, (wrap e).isWitnessFault = false)
    (x : Except ε α) : Faultless (x.mapError wrap) := by
  cases x with
  | ok a => exact faultless_ok a
  | error e => exact faultless_error (other e)

theorem faultless_present (current : Option Bytes) {missing : StepError}
    (other : missing.isWitnessFault = false) : Faultless (present current missing) := by
  cases current with
  | none => exact faultless_error other
  | some b => exact faultless_ok b

theorem faultless_decodeAccount (current : Option Bytes) : Faultless (decodeAccount current) := by
  cases current with
  | none => exact faultless_ok _
  | some b => exact faultless_mapError (fun _ => rfl) _

theorem faultless_decodeFeeMarket (current : Option Bytes) : Faultless (decodeFeeMarket current) := by
  cases current with
  | none => exact faultless_ok _
  | some b => exact faultless_mapError (fun _ => rfl) _

theorem faultless_ite [Decidable c] (yes : Faultless x) (no : Faultless y) : Faultless (if c then x else y) := by
  split
  · exact yes
  · exact no

/-- An instruction refuses for what the slot holds, not for how it was shown. -/
theorem faultless_transition (i : Instruction) (current : Option Bytes) :
    Faultless (transition crypto i current) := by
  have stop : ∀ {α β : Type} {e : StepError} {f : α → Except StepError β}, e.isWitnessFault = false →
      Faultless ((throw e : Except StepError α) >>= f) := fun other => faultless_error other
  cases i <;> simp only [transition, permitted]
  case consumeNonce =>
    refine (faultless_decodeAccount _).bind fun a => faultless_ite (stop rfl) ?_
    split
    · exact faultless_ok _
    · exact faultless_error rfl
  case debit =>
    exact (faultless_decodeAccount _).bind fun a => (faultless_mapError (fun _ => rfl) _).bind fun _ =>
      faultless_ok _
  case credit =>
    exact (faultless_decodeAccount _).bind fun a => (faultless_mapError (fun _ => rfl) _).bind fun _ =>
      faultless_ok _
  case bindIdentifier =>
    cases current with
    | none => exact faultless_ok _
    | some b =>
      exact (faultless_mapError (fun _ => rfl) _).bind fun _ => faultless_ite (stop rfl) (faultless_ok _)
  case unbindIdentifier =>
    exact (faultless_present _ rfl).bind fun _ => (faultless_mapError (fun _ => rfl) _).bind fun _ =>
      faultless_ite (faultless_ok _) (faultless_error rfl)
  case verifyGasAsset =>
    exact (faultless_present _ rfl).bind fun _ => (faultless_mapError (fun _ => rfl) _).bind fun _ =>
      faultless_ite (stop rfl) (faultless_ite (stop rfl) (faultless_ite (stop rfl) (faultless_ok _)))
  case chargeBaseFee =>
    refine (faultless_decodeFeeMarket _).bind fun _ => (faultless_mapError (fun _ => rfl) _).bind fun _ =>
      faultless_ite (stop rfl) ?_
    split
    · exact faultless_ite (faultless_ok _) (faultless_error rfl)
    · exact faultless_error rfl
  case verifyFeeSplit =>
    exact (faultless_present _ rfl).bind fun _ => faultless_ite (stop rfl) (faultless_ok _)
  case setFeeMarket =>
    exact (faultless_mapError (fun _ => rfl) _).bind fun _ => (faultless_decodeFeeMarket _).bind fun _ =>
      faultless_ok _
  case disableGasAsset =>
    exact (faultless_present _ rfl).bind fun _ => (faultless_mapError (fun _ => rfl) _).bind fun _ =>
      faultless_ok _
  case verifyCouncil =>
    refine (faultless_present _ rfl).bind fun _ => (faultless_mapError (fun _ => rfl) _).bind fun _ =>
      faultless_ite (stop rfl) ((faultless_mapError (fun _ => rfl) _).bind fun _ => ?_)
    split
    · exact faultless_ok _
    · exact faultless_error rfl
  case verifyJwk =>
    refine (faultless_present _ rfl).bind fun b => Faultless.bind ?_ fun _ =>
      faultless_ite (stop rfl) (faultless_ok _)
    exact faultless_ite (faultless_ok _) (faultless_ite (faultless_ok _) (faultless_error rfl))
  case setJwk => exact faultless_ok _
  all_goals exact (faultless_mapError (fun _ => rfl) _).bind fun _ => faultless_ok _

/-- A witness shows the instruction's slot as it is under this root. -/
structure Shows (crypto : Crypto) (root : Hash256) (i : Instruction) (witness : StepWitness) : Prop where
  slot : witness.slot = i.slot crypto
  reaches : witness.proof.Reaches crypto witness.slot root
  contents : match witness.value with
    | some b => witness.proof.terminal = .leaf witness.slot (crypto.sha256 b)
    | none => ∀ value, witness.proof.terminal ≠ .leaf witness.slot value

def nextPc (pc : U64) : U64 := ⟨min (pc.val + 1) (2 ^ 64 - 1), by omega⟩

/-- The state after a step that left `updated` in the slot. -/
def after (crypto : Crypto) (pre : MachineState) (witness : StepWitness) (updated : Bytes) : MachineState :=
  ⟨witness.proof.updatedRoot crypto witness.slot (crypto.sha256 updated),
    nextPc pre.pc⟩

theorem verifyStep_of_shows (shows' : Shows crypto pre.stateRoot i witness) :
    verifyStep crypto pre i witness = (transition crypto i witness.value).map (after crypto pre witness) := by
  obtain ⟨slot, value, proof⟩ := witness
  obtain ⟨same, reaches, contents⟩ := shows'
  have written : ∀ updated : Bytes, proof.computeUpdatedRoot crypto slot (crypto.sha256 updated) =
      .ok (proof.updatedRoot crypto slot (crypto.sha256 updated)) :=
    fun updated => MerkleProof.computeUpdatedRoot_eq reaches.short reaches.onPath _
  rw [verifyStep, if_neg (not_not.mpr same)]
  cases value with
  | none =>
    simp only [MerkleProof.verifyNonInclusion_eq_ok.mpr ⟨reaches, contents⟩, Except.mapError, ok_bind, written]
    cases transition crypto i none <;> rfl
  | some b =>
    simp only [MerkleProof.verifyInclusion_eq_ok.mpr ⟨reaches, contents⟩, Except.mapError, ok_bind, written]
    cases transition crypto i (some b) <;> rfl

theorem verifyStep_of_not_shows (hidden : ¬Shows crypto pre.stateRoot i witness) :
    ∃ e, verifyStep crypto pre i witness = .error e ∧ e.isWitnessFault = true := by
  obtain ⟨slot, value, proof⟩ := witness
  rw [verifyStep]
  by_cases same : slot = i.slot crypto
  · rw [if_neg (not_not.mpr same)]
    cases value with
    | none =>
      cases checked : proof.verifyNonInclusion crypto pre.stateRoot slot with
      | ok u =>
        obtain ⟨reaches, contents⟩ := MerkleProof.verifyNonInclusion_eq_ok.mp checked
        exact absurd ⟨same, reaches, contents⟩ hidden
      | error e => exact ⟨.badWitnessProof e, by simp [Except.mapError], rfl⟩
    | some b =>
      cases checked : proof.verifyInclusion crypto pre.stateRoot slot b with
      | ok u =>
        obtain ⟨reaches, contents⟩ := MerkleProof.verifyInclusion_eq_ok.mp checked
        exact absurd ⟨same, reaches, contents⟩ hidden
      | error e => exact ⟨.badWitnessProof e, by simp [checked, Except.mapError], rfl⟩
  · rw [if_pos same]
    exact ⟨_, rfl, rfl⟩

end Execute

namespace Osp

/-- A machine state as the contract holds it. -/
def ofMachine (s : Sena.MachineState) : MachineState := ⟨s.stateRoot.bytes, s.pc⟩

variable {slot : Hash256}

private theorem finish_eq (fits : i.Fits) (held : present = true → i.Holds b)
    (early : pre.pc.val < 2 ^ 64 - 1) (reaches : proof.Reaches crypto slot root) :
    (do
      let some updated ← transition crypto (ofInstruction i) present b | return none
      let postRoot ← TrieVerifier.computeUpdatedRoot crypto (TrieVerifier.ofProof proof) slot.bytes
        (TrieVerifier.hashValue crypto updated)
      return some (MachineState.mk postRoot (← add pre.pc 1)) : Move (Option MachineState)) =
    .ok (((Execute.transition crypto i (slotContents present b)).map
      (Execute.after crypto pre ⟨slot, slotContents present b, proof⟩)).toOption.map ofMachine) := by
  have counter : add pre.pc 1 = .ok ⟨min (pre.pc.val + 1) (2 ^ 64 - 1), by omega⟩ := by
    rw [add_eq_ok]
    exact Nat.min_eq_left (by omega)
  rw [transition_ofInstruction fits held, ok_bind]
  cases Execute.transition crypto i (slotContents present b) with
  | error e => rfl
  | ok updated =>
    simp only [toOption_ok, counter, TrieVerifier.hashValue,
      TrieVerifier.computeUpdatedRoot_bytes reaches.short reaches.onPath, ok_bind]
    rfl

theorem verifyStep_of_shows (fits : i.Fits) (held : present = true → i.Holds b) (early : pre.pc.val < 2 ^ 64 - 1)
    (shows' : Execute.Shows crypto pre.stateRoot i ⟨slot, slotContents present b, proof⟩) :
    verifyStep crypto (ofMachine pre) (ofInstruction i) slot.bytes present b (TrieVerifier.ofProof proof) =
      .ok ((Execute.verifyStep crypto pre i ⟨slot, slotContents present b, proof⟩).toOption.map ofMachine) := by
  have same : slot = i.slot crypto := shows'.slot
  have rest := finish_eq fits held early shows'.reaches
  rw [Execute.verifyStep_of_shows shows', ← rest, verifyStep, slotOf_ofInstruction (Instruction.on_fits fits), ok_bind,
    ensure_of (by rw [same]), ok_bind]
  cases present with
  | true =>
    have proves := TrieVerifier.verifyInclusion_bytes.mpr
      (MerkleProof.verifyInclusion_eq_ok.mpr ⟨shows'.reaches, shows'.contents⟩)
    rw [if_pos rfl, show (ofMachine pre).stateRoot = pre.stateRoot.bytes from rfl, proves]
    rfl
  | false =>
    have proves := TrieVerifier.verifyNonInclusion_bytes.mpr
      (MerkleProof.verifyNonInclusion_eq_ok.mpr ⟨shows'.reaches, shows'.contents⟩)
    rw [if_neg (by decide), show (ofMachine pre).stateRoot = pre.stateRoot.bytes from rfl, proves]
    rfl

theorem shows_of_verifyStep (fits : i.Fits)
    (answered : verifyStep crypto (ofMachine pre) (ofInstruction i) slot.bytes present b
      (TrieVerifier.ofProof proof) = .ok answer) :
    Execute.Shows crypto pre.stateRoot i ⟨slot, slotContents present b, proof⟩ := by
  rw [verifyStep, slotOf_ofInstruction (Instruction.on_fits fits), ok_bind, bind_eq_ok] at answered
  obtain ⟨_, derived, answered⟩ := answered
  have same := FixedBytes.bytes_inj.mp (ensure_eq_ok.mp derived)
  cases present with
  | true =>
    obtain ⟨_, checked, _⟩ := bind_eq_ok.mp answered
    obtain ⟨reaches, contents⟩ :=
      MerkleProof.verifyInclusion_eq_ok.mp (TrieVerifier.verifyInclusion_bytes.mp checked)
    exact ⟨same, reaches, contents⟩
  | false =>
    obtain ⟨_, checked, _⟩ := bind_eq_ok.mp answered
    obtain ⟨reaches, contents⟩ :=
      MerkleProof.verifyNonInclusion_eq_ok.mp (TrieVerifier.verifyNonInclusion_bytes.mp checked)
    exact ⟨same, reaches, contents⟩

/-- The contract and the node execute every step alike. The contract's answer is
the node's state, or none where the node refuses the step itself; it aborts where
the node refuses the witness. -/
theorem steps_agree {tx : Transaction} {ctx : Execute.BatchContext} {program : List Sena.Instruction}
    (compiled : Execute.compile crypto tx ctx = .ok program) (emitted : i ∈ program) (pre : Sena.MachineState)
    (early : pre.pc.val < 2 ^ 64 - 1) (slot : Hash256) (proof : MerkleProof) (present : Bool) (b : Bytes)
    (held : present = true → slot = i.slot crypto → i.Holds b) :
    let node := Execute.verifyStep crypto pre i ⟨slot, slotContents present b, proof⟩
    let contract := verifyStep crypto (ofMachine pre) (ofInstruction i) slot.bytes present b
      (TrieVerifier.ofProof proof)
    (∀ s, contract = .ok (some s) ↔ ∃ post, node = .ok post ∧ s = ofMachine post) ∧
      (contract = .ok none ↔ ∃ e, node = .error e ∧ e.isWitnessFault = false) ∧
      ((∃ abort, contract = .error abort) ↔ ∃ e, node = .error e ∧ e.isWitnessFault = true) := by
  intro node contract
  have fits := Execute.fits_of_compile compiled i emitted
  by_cases shows' : Execute.Shows crypto pre.stateRoot i ⟨slot, slotContents present b, proof⟩
  · have agree : contract = .ok (node.toOption.map ofMachine) :=
      verifyStep_of_shows fits (fun here => held here shows'.slot) early shows'
    have steps : node = _ := Execute.verifyStep_of_shows shows'
    have faultless : Execute.Faultless (Execute.transition crypto i (slotContents present b)) :=
      Execute.faultless_transition i _
    rw [agree]
    cases result : Execute.transition crypto i (slotContents present b) with
    | ok updated =>
      simp only [result, Except.map] at steps
      rw [steps]
      refine ⟨fun s => ⟨?_, ?_⟩, by simp, by simp⟩
      · rintro ⟨⟩
        exact ⟨_, rfl, rfl⟩
      · rintro ⟨_, ⟨⟩, rfl⟩
        rfl
    | error e =>
      simp only [result, Except.map] at steps
      simp [steps, faultless e result]
  · obtain ⟨e, refused, fault⟩ := Execute.verifyStep_of_not_shows shows'
    have refused : node = .error e := refused
    cases answer : contract with
    | ok s => exact absurd (shows_of_verifyStep fits answer) shows'
    | error abort => simp [refused, fault]

/-- The payer's account before the payment. -/
def payerAccount : Sena.Account := ⟨0, BTreeMap.empty.insert 1 5000⟩

/-- A state with the accounts of the payer and the payee. -/
def payerTrie : MerkleTrie :=
  (MerkleTrie.new.insert Payment.crypto (Keys.account Payment.crypto Payment.payer) payerAccount.encode).insert
    Payment.crypto (Keys.account Payment.crypto Payment.payee) Account.new.encode

/-- The path to the payer's account. -/
def payerProof : MerkleProof := payerTrie.prove (Keys.account Payment.crypto Payment.payer)

/-- The payment's hold, debited on L1 as in the node. -/
theorem hold_is_debited_alike : ∃ post, payerProof.siblings ≠ [] ∧
    Execute.verifyStep Payment.crypto ⟨payerTrie.root, 3⟩ (.debit Payment.payer 1 1025)
      ⟨Keys.account Payment.crypto Payment.payer, some payerAccount.encode, payerProof⟩ = .ok post ∧
    verifyStep Payment.crypto (ofMachine ⟨payerTrie.root, 3⟩) (.debit Payment.payer.bytes 1 1025)
      (Keys.account Payment.crypto Payment.payer).bytes true payerAccount.encode
      (TrieVerifier.ofProof payerProof) = .ok (some (ofMachine post)) := by
  have agree := steps_agree Payment.compiles (i := .debit Payment.payer 1 1025) (by decide) ⟨payerTrie.root, 3⟩
    (show 3 < 2 ^ 64 - 1 by decide) (Keys.account Payment.crypto Payment.payer) payerProof true payerAccount.encode
    fun _ _ => ⟨by decide, payerAccount, by decide +kernel, rfl⟩
  obtain ⟨post, stepped⟩ : ∃ post, Execute.verifyStep Payment.crypto ⟨payerTrie.root, 3⟩ (.debit Payment.payer 1 1025)
      ⟨Keys.account Payment.crypto Payment.payer, some payerAccount.encode, payerProof⟩ = .ok post := by
    decide +kernel
  exact ⟨post, by decide +kernel, stepped, (agree.1 _).mpr ⟨post, stepped, rfl⟩⟩

end Osp
end Sena
