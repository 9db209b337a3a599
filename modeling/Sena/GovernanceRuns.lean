import Sena.LedgerRuns
import Sena.Transitions

/-! The council over whole runs.

The instructions that write governed state check no signature. What makes an
update authorised is the program around it: a `verifyCouncil` over the update's
own digest comes first, and it moves the council's epoch on, so that no order
executes twice. -/
namespace Sena

open Move

/-- What a governance transaction carries. -/
structure Order where
  epoch : U64
  update : GovernanceUpdate
  signatures : List CouncilSignature
deriving DecidableEq

def Payload.order : Payload → Option Order
  | governance epoch update signatures => some ⟨epoch, update, signatures⟩
  | _ => none

/-- The members signed the order's update at its epoch, each at most once, and they
are enough: a threshold of them, or of guardians where those may act. -/
structure Council.Authorises (crypto : Crypto) (council : Council) (order : Order) : Prop where
  ordered : order.signatures.Pairwise fun a b => a.index.val < b.index.val
  signed : ∀ s ∈ order.signatures, ∃ member, council.members[s.index.val]? = some member ∧
    crypto.ed25519Strict member.bytes s.signature.bytes
      (order.update.signingDigest crypto order.epoch).bytes = .ok ()
  enough : council.threshold.val ≤ order.signatures.length ∨
    (∃ asset, order.update = .disableGasAsset asset) ∧ 0 < council.guardianThreshold.val ∧
      council.guardianThreshold.val ≤ order.signatures.length

namespace Governance

theorem checkSignatures_eq_ok {signatures : List CouncilSignature} :
    checkSignatures crypto council digest previous signatures = .ok () ↔
      (∀ p ∈ previous, ∀ s ∈ signatures, p.val < s.index.val) ∧
        (signatures.Pairwise fun a b => a.index.val < b.index.val) ∧
        ∀ s ∈ signatures, ∃ member, council.members[s.index.val]? = some member ∧
          crypto.ed25519Strict member.bytes s.signature.bytes digest.bytes = .ok () := by
  induction signatures generalizing previous with
  | nil => simp [checkSignatures]
  | cons s rest ih =>
    obtain ⟨index, signature⟩ := s
    rw [checkSignatures]
    split
    · rename_i unordered
      simp only [reduceCtorEq, false_iff]
      rintro ⟨ordered, _⟩
      obtain ⟨p, rfl⟩ : ∃ p, previous = some p := by cases previous <;> simp_all
      have above : p.val < index.val := ordered p rfl ⟨index, signature⟩ List.mem_cons_self
      simp only [Option.any_some, decide_eq_true_eq] at unordered
      omega
    · rename_i ordered
      have first : ∀ p ∈ previous, p.val < index.val := by
        rintro p rfl
        simpa using ordered
      simp only [List.forall_mem_cons, List.pairwise_cons]
      cases found : council.members[index.val]? with
      | none => simp
      | some member =>
        simp only [Option.some.injEq, exists_eq_left']
        cases verdict : crypto.ed25519Strict member.bytes signature.bytes digest.bytes with
        | error e => cases e <;> simp
        | ok u =>
          simp only [ih, Option.mem_some_iff, forall_eq', true_and]
          constructor
          · rintro ⟨above, pairwise, all⟩
            refine ⟨fun p held => ⟨first p held, fun s listed => ?_⟩, ⟨above, pairwise⟩, all⟩
            exact Nat.lt_trans (first p held) (above s listed)
          · rintro ⟨_, ⟨above, pairwise⟩, all⟩
            exact ⟨above, pairwise, all⟩

theorem authorises_of_verified (order : Order)
    (verified : verifyCouncilSignatures crypto council (order.update.signingDigest crypto order.epoch)
      order.signatures order.update.guardianMayApply = .ok ()) : council.Authorises crypto order := by
  obtain ⟨positive, checked, enough⟩ := Osp.verifyCouncilSignatures_eq_ok.mp verified
  obtain ⟨_, checked⟩ := Move.exists_of_isOk checked
  obtain ⟨_, ordered, signed⟩ := checkSignatures_eq_ok.mp checked
  refine ⟨ordered, signed, ?_⟩
  unfold Council.required at enough
  split at enough
  · rename_i guarded
    refine .inr ⟨?_, guarded.2, enough⟩
    cases update : order.update <;> simp [update, GovernanceUpdate.guardianMayApply] at guarded ⊢
  · exact .inl enough

end Governance

/-- An asset's record with the asset switched off, whatever else it says. -/
def disabled (b : Bytes) : Bytes :=
  match WhitelistedAsset.decode b with
  | .ok record => { record with enabled := false : WhitelistedAsset }.encode
  | .error _ => b

namespace GovernanceUpdate

/-- What an update makes of a slot's contents. -/
def rewrite (s : Slot) (held : Option Bytes) : GovernanceUpdate → Option Bytes
  | setGasAsset record => if s = .asset record.asset then some record.encode else held
  | setParameter name value => if s = .parameter name then some (be 16 value.val) else held
  | setJwk issHash jwkHash active =>
    if s = .jwk issHash jwkHash then some (Execute.encodeJwkRecord active) else held
  | setFeeSplit split => if s = .feeSplit then some split.encode else held
  | disableGasAsset asset => if s = .asset asset then held.map disabled else held
  | setFeeMarket _ _ => held

/-- What an update makes of the fee market's floor and target. -/
def retarget (terms : Option (U128 × U64)) : GovernanceUpdate → Option (U128 × U64)
  | setFeeMarket floor target => some (floor, target)
  | _ => terms

end GovernanceUpdate

/-- The slots only governance writes. The fee market's is not one: fees move its
base fee and window. -/
def Slot.Governed : Slot → Prop
  | asset _ | parameter _ | jwk _ _ | feeSplit => True
  | _ => False

/-- The update an instruction carries out. -/
def Instruction.update? : Instruction → Option GovernanceUpdate
  | setGasAsset record => some (.setGasAsset record)
  | setParameter name value => some (.setParameter name value)
  | setJwk issHash jwkHash active => some (.setJwk issHash jwkHash active)
  | setFeeMarket floor target => some (.setFeeMarket floor target)
  | setFeeSplit split => some (.setFeeSplit split)
  | disableGasAsset asset => some (.disableGasAsset asset)
  | _ => none

theorem FeeMarket.windowTs_of_atTimestamp {m m' : FeeMarket} (rolled : m.atTimestamp timestamp = .ok m') :
    m'.windowTs = timestamp := by
  unfold atTimestamp at rolled
  split at rolled
  · cases rolled
  · split at rolled
    · rename_i same
      cases rolled
      exact same.symm
    · obtain ⟨_, _, same⟩ := bind_eq_ok.mp rolled
      cases same
      rfl

theorem FeeMarket.terms_of_atTimestamp {m m' : FeeMarket} (rolled : m.atTimestamp timestamp = .ok m') :
    m'.floor = m.floor ∧ m'.target = m.target := by
  unfold atTimestamp at rolled
  split at rolled
  · cases rolled
  · split at rolled
    · cases rolled
      exact ⟨rfl, rfl⟩
    · obtain ⟨_, _, same⟩ := bind_eq_ok.mp rolled
      cases same
      exact ⟨rfl, rfl⟩

namespace Store

variable {crypto : Crypto} {σ σ' : Store} {i : Instruction}

/-- The fee market's floor and target. -/
def feeTerms (σ : Store) : Option (U128 × U64) :=
  (Execute.decodeFeeMarket (σ .feeMarket)).toOption.map fun m => (m.floor, m.target)

theorem Steps.frame (stepped : σ.Steps crypto i σ') (elsewhere : i.on ≠ s) : σ' s = σ s := by
  obtain ⟨written, _, _, rfl⟩ := stepped
  exact Function.update_of_ne (Ne.symm elsewhere) _ _

/-- A step rewrites a governed slot as the update it carries out does. -/
theorem Steps.governed (stepped : σ.Steps crypto i σ') (governed : s.Governed) :
    σ' s = i.update?.elim (σ s) (·.rewrite s (σ s)) := by
  obtain ⟨written, computed, _, rfl⟩ := stepped
  -- a slot that is checked and not set is written as it was
  have checked : σ i.on = some written → i.update? = none → Function.update σ i.on (some written) s =
      i.update?.elim (σ s) (·.rewrite s (σ s)) := by
    intro same none
    rw [← same, Function.update_eq_self, none]
    rfl
  have apart : s ≠ i.on → i.update? = none → Function.update σ i.on (some written) s =
      i.update?.elim (σ s) (·.rewrite s (σ s)) := by
    intro elsewhere none
    rw [Function.update_of_ne elsewhere, none]
    rfl
  cases i with
  | verifyGasAsset asset rate intrinsicGas =>
    obtain ⟨_, found, _⟩ := Execute.transition_verifyGasAsset.mp computed
    exact checked found rfl
  | verifyFeeSplit split =>
    obtain ⟨found, rfl⟩ := Execute.transition_verifyFeeSplit.mp computed
    exact checked found rfl
  | verifyJwk issHash jwkHash => exact checked (Execute.transition_verifyJwk.mp computed).1 rfl
  | setGasAsset record =>
    obtain ⟨_, rfl⟩ := Execute.transition_setGasAsset.mp computed
    simp [Instruction.update?, GovernanceUpdate.rewrite, Instruction.on, Function.update_apply]
  | setParameter name value =>
    obtain ⟨_, rfl⟩ := Execute.transition_setParameter.mp computed
    simp [Instruction.update?, GovernanceUpdate.rewrite, Instruction.on, Function.update_apply]
  | setJwk issHash jwkHash active =>
    obtain rfl := Execute.transition_setJwk.mp computed
    simp [Instruction.update?, GovernanceUpdate.rewrite, Instruction.on, Function.update_apply]
  | setFeeSplit split =>
    obtain ⟨_, rfl⟩ := Execute.transition_setFeeSplit.mp computed
    simp [Instruction.update?, GovernanceUpdate.rewrite, Instruction.on, Function.update_apply]
  | disableGasAsset asset =>
    obtain ⟨b, record, found, decoded, rfl⟩ := Execute.transition_disableGasAsset.mp computed
    by_cases here : s = .asset asset
    · subst here
      simp only [Instruction.on] at found
      simp [Instruction.update?, GovernanceUpdate.rewrite, Instruction.on, found, disabled, decoded]
    · simp [Instruction.update?, GovernanceUpdate.rewrite, Instruction.on, here]
  | setFeeMarket floor target =>
    have elsewhere : s ≠ .feeMarket := by
      rintro rfl
      exact governed
    simp [Instruction.update?, GovernanceUpdate.rewrite, Instruction.on, elsewhere]
  | _ =>
    refine apart ?_ rfl
    rintro rfl
    exact governed

/-- A step sets the fee market's floor and target as the update it carries out does. -/
theorem Steps.feeTerms (stepped : σ.Steps crypto i σ') :
    σ'.feeTerms = i.update?.elim σ.feeTerms (·.retarget σ.feeTerms) := by
  by_cases here : i.on = .feeMarket
  · obtain ⟨written, computed, _, rfl⟩ := stepped
    cases i with
    | chargeBaseFee timestamp baseFee gas =>
      obtain ⟨market, rolled, decoded, advanced, _, total, _, _, rfl⟩ :=
        Execute.transition_chargeBaseFee.mp computed
      obtain ⟨floor, target⟩ := FeeMarket.terms_of_atTimestamp advanced
      simp only [Store.feeTerms, Instruction.on, Function.update_self] at decoded ⊢
      rw [Execute.decodeFeeMarket_encode, decoded]
      simp [Except.toOption, Instruction.update?, floor, target]
    | setFeeMarket floor target =>
      obtain ⟨_, _, market, _, rfl⟩ := Execute.transition_setFeeMarket.mp computed
      simp [Store.feeTerms, Instruction.on, Instruction.update?, GovernanceUpdate.retarget, Execute.decodeFeeMarket,
        FeeMarket.decode_encode, Except.mapError, Except.toOption]
    | _ => cases here
  · have same : σ'.feeTerms = σ.feeTerms := by rw [Store.feeTerms, stepped.frame here, Store.feeTerms]
    rw [same]
    cases i with
    | setFeeMarket floor target => exact absurd rfl here
    | _ => rfl

end Store

namespace Execute

variable {crypto : Crypto} {σ σ' : Store} {tx : Transaction}

theorem updates_creditSome (x : L2Address) (asset : U32) (amount : U128) :
    (creditSome x asset amount).filterMap Instruction.update? = [] := by
  unfold creditSome
  split <;> rfl

theorem updates_compilePayload {payload : Payload} (compiled : compilePayload crypto payload sender = .ok is) :
    is.filterMap Instruction.update? = payload.order.toList.map (·.update) := by
  cases payload with
  | transfer recipient asset amount =>
    simp only [compilePayload] at compiled
    split at compiled <;> cases compiled
    rfl
  | bindIdentifier channel identifier =>
    cases compiled
    rfl
  | unbindIdentifier identifier =>
    cases compiled
    rfl
  | governance epoch update signatures =>
    obtain ⟨_, _, compiled⟩ := bind_eq_ok.mp compiled
    cases compiled
    cases update <;> rfl
  | distributeFees asset amount split =>
    simp only [compilePayload] at compiled
    split at compiled
    · cases compiled
    · obtain ⟨shares, _, compiled⟩ := bind_eq_ok.mp compiled
      cases compiled
      rw [List.filterMap_cons_none rfl, List.filterMap_cons_none rfl, List.filterMap_map]
      exact List.filterMap_eq_nil_iff.mpr fun _ _ => rfl

theorem updates_compile (compiled : compile crypto tx ctx = .ok p) :
    p.filterMap Instruction.update? = tx.payload.order.toList.map (·.update) := by
  obtain ⟨_, _, payload, _, charge, shaped, _, _, rfl⟩ := compile_eq_ok.mp compiled
  have opened : (opening tx ctx charge).filterMap Instruction.update? = [] := by
    unfold opening
    cases tx.authenticator <;> rfl
  rw [program_eq, List.filterMap_append, opened, List.filterMap_append, updates_compilePayload shaped, closing,
    List.filterMap_append, List.filterMap_append, updates_creditSome, updates_creditSome, updates_creditSome]
  simp

theorem view_of_run {β : Type} (view : Store → β) (change : β → GovernanceUpdate → β) {es : List Entry}
    (ran : Run (Store.Executes crypto) σ es σ')
    (each : ∀ σ i σ', Store.Steps crypto σ i σ' → view σ' = i.update?.elim (view σ) (change (view σ))) :
    view σ' = (es.filterMap (·.2.payload.order)).foldl (fun held o => change held o.update) (view σ) := by
  refine ran.folds view fun σ e σ' _ executed => ?_
  obtain ⟨p, compiled, ran⟩ := executed
  rw [ran.folds view fun σ i σ' _ stepped => each σ i σ' stepped, updates_compile compiled]
  cases e.2.payload.order <;> rfl

end Execute

/-- The council's record is stored with the epoch `n`. -/
def Store.InOffice (σ : Store) (council : Council) (n : Nat) : Prop :=
  ∃ epoch : U64, epoch.val = n ∧ σ .council = some { council with epoch : Council }.encode

namespace Execute

variable {crypto : Crypto} {σ σ' : Store} {tx : Transaction} {council : Council} {trie trie' : MerkleTrie}

theorem council_compilePayload {payload : Payload} (compiled : compilePayload crypto payload sender = .ok is)
    (ordinary : payload.order = none) : ∀ i ∈ is, i.on ≠ .council := by
  intro i emitted
  cases emits_of_compilePayload compiled emitted with
  | council asked | update asked =>
    rw [asked] at ordinary
    cases ordinary
  | _ => simp [Instruction.on]

theorem market_of_compile (compiled : compile crypto tx ctx = .ok p) (emitted : i ∈ p) (here : i.on = .feeMarket) :
    (∃ gas, i = .chargeBaseFee ctx.timestamp ctx.baseFee gas) ∨
      ∃ o floor target, tx.payload.order = some o ∧ o.update = .setFeeMarket floor target ∧
        i = .setFeeMarket floor target := by
  obtain ⟨_, _, payload, _, charge, shaped, _, _, rfl⟩ := compile_eq_ok.mp compiled
  simp only [program_eq, List.mem_append] at emitted
  rcases emitted with opened | paid | closed
  · left
    unfold opening at opened
    rcases List.mem_append.mp opened with jwk | opened
    · cases signed : tx.authenticator with
      | ed25519 _ _ => simp [signed] at jwk
      | keyless sig =>
        rw [signed] at jwk
        obtain rfl := List.mem_singleton.mp jwk
        cases here
    · simp only [List.mem_cons, List.not_mem_nil, or_false] at opened
      obtain rfl | rfl | rfl | rfl := opened
      · cases here
      · cases here
      · exact ⟨_, rfl⟩
      · cases here
  · right
    cases emits_of_compilePayload shaped paid with
    | @update _ update _ asked =>
      rw [asked]
      cases update with
      | setFeeMarket floor target => exact ⟨_, floor, target, rfl, rfl, rfl⟩
      | _ => cases here
    | _ => cases here
  · obtain ⟨_, on⟩ := on_closing closed
    cases on.symm.trans here

/-- The transaction leaves the terms of the market as they are. -/
def KeepsTerms (tx : Transaction) : Prop :=
  ∀ o floor target, tx.payload.order = some o → o.update ≠ .setFeeMarket floor target

theorem updateInstruction_on (update : GovernanceUpdate) : (updateInstruction update).on ≠ .council := by
  cases update <;> simp [updateInstruction, Instruction.on]

theorem office_of_executes (counted : council.members.length < 2 ^ 32) (office : σ.InOffice council n)
    (executed : σ.Executes crypto (ctx, tx) σ') :
    tx.payload.order.elim (σ'.InOffice council n)
      fun o => o.epoch.val = n ∧ council.Authorises crypto o ∧ σ'.InOffice council (n + 1) := by
  obtain ⟨p, compiled, ran⟩ := executed
  obtain ⟨_, _, payload, _, charge, shaped, _, _, rfl⟩ := compile_eq_ok.mp compiled
  rw [program_eq, Run.append_iff] at ran
  obtain ⟨opened, first, ran⟩ := ran
  obtain ⟨closed, paid, last⟩ := Run.append_iff.mp ran
  have before : opened .council = σ .council := Store.run_frame first fun i emitted here => by
    rcases on_opening emitted with ⟨_, _, on⟩ | on | on | on <;> cases on.symm.trans here
  have after : σ' .council = closed .council := Store.run_frame last fun i emitted here => by
    obtain ⟨_, on⟩ := on_closing emitted
    cases on.symm.trans here
  obtain ⟨epoch, counts, stored⟩ := office
  cases ordered : tx.payload.order with
  | none =>
    refine ⟨epoch, counts, ?_⟩
    rw [after, Store.run_frame paid (council_compilePayload shaped ordered), before, stored]
  | some o =>
    obtain ⟨at', update, signatures, same⟩ : ∃ e u s, tx.payload = .governance e u s := by
      cases payload : tx.payload <;> simp_all [Payload.order]
    rw [same] at ordered shaped
    cases ordered
    obtain ⟨_, _, emitted⟩ := bind_eq_ok.mp shaped
    cases emitted
    obtain ⟨verified, stepped, rest⟩ := paid
    obtain ⟨_, updated, rfl⟩ := rest
    obtain ⟨written, computed, _, rfl⟩ := stepped
    obtain ⟨b, held, found, decoded, current, signed, next, moved, rfl⟩ := transition_verifyCouncil.mp computed
    obtain rfl : { council with epoch : Council } = held := by
      have known : Council.decode { council with epoch : Council }.encode = .ok { council with epoch } :=
        Council.decode_eq_ok.mpr ⟨counted, rfl⟩
      rw [show Instruction.on (.verifyCouncil _ _ _ _) = .council from rfl, before, stored] at found
      cases found
      exact Except.ok.inj (known.symm.trans decoded)
    subst current
    refine ⟨counts, ?_, next, moved.trans (congrArg (· + 1) counts), ?_⟩
    · obtain ⟨ordered, signed, enough⟩ :=
        Governance.authorises_of_verified ⟨epoch, update, signatures⟩ signed
      exact ⟨ordered, signed, enough⟩
    · rw [after, updated.frame (updateInstruction_on update)]
      exact Function.update_self _ _ _

/-- The council at the end of the genesis is the one configured. -/
theorem office_of_plan {config : GenesisConfig} (configured : config.council = some c)
    (founded : Run (Store.Founds crypto) (fun _ => none) (config.plan members hashes) σ) :
    σ.InOffice ⟨members, c.threshold, 0, c.guardianThreshold⟩ 0 := by
  rw [GenesisConfig.plan, configured, Option.toList_some] at founded
  simp only [Run.append_iff] at founded
  obtain ⟨_, ⟨_, _, appointed⟩, last⟩ := founded
  refine last.invariant (·.InOffice ⟨members, c.threshold, 0, c.guardianThreshold⟩ 0) (fun σ f σ' planned office wrote => ?_) ?_
  · obtain ⟨epoch, counts, stored⟩ := office
    have elsewhere : f.on ≠ .council := by
      simp only [GenesisConfig.lastWrites, List.mem_append, List.mem_map, List.mem_singleton] at planned
      obtain ((rfl | ⟨_, _, rfl⟩) | ⟨_, _, rfl⟩) | ⟨_, _, rfl⟩ := planned <;> simp [Founding.on, Instruction.on]
    cases f with
    | apply i => exact ⟨epoch, counts, (Store.Steps.frame wrote elsewhere).trans stored⟩
    | council record => exact absurd rfl elsewhere
  · rw [List.map_singleton, Run.singleton_iff] at appointed
    cases appointed
    exact ⟨0, rfl, Function.update_self _ _ _⟩

/-- The orders of a list of batches, as they executed. -/
def orders (batches : List (BatchContext × List Transaction)) : List Order :=
  (entries batches).filterMap (·.2.payload.order)

/-- Governed state changes only by authorised orders, each once. Over any batches
from a genesis with a council the orders' epochs are 0, 1, 2 and so on, the
council's stored epoch is how many have executed, and its members and thresholds
are those of the genesis. A batch leaves in a governed slot what its orders make
of the contents before, and of the fee market's floor and target likewise; and the
council authorised every one of them. -/
theorem governed_state_changes_by_order {config : GenesisConfig} (configured : config.council = some c)
    (reaches : config.Reaches crypto hashing batches trie)
    (executed : executeBatch crypto trie ctx txs = .ok (trie', trace)) (s : Slot) (governed : s.Governed)
    (fits : s.Fits) (free : CollisionFree crypto.sha256
      (Slot.image '' (config.named crypto hashing (batches ++ [(ctx, txs)]) ∪ {s}))) :
    ∃ members, decodeMembers 0 c.members = .ok members ∧
      let council : Council := ⟨members, c.threshold, 0, c.guardianThreshold⟩
      let batch := orders [(ctx, txs)]
      (orders (batches ++ [(ctx, txs)])).map (·.epoch.val) = List.range (orders (batches ++ [(ctx, txs)])).length ∧
        (trie'.bySlot crypto).InOffice council (orders (batches ++ [(ctx, txs)])).length ∧
        trie'.get (s.key crypto) = batch.foldl (fun held o => o.update.rewrite s held) (trie.get (s.key crypto)) ∧
        (trie'.bySlot crypto).feeTerms =
          batch.foldl (fun terms o => o.update.retarget terms) (trie.bySlot crypto).feeTerms ∧
        ∀ o ∈ batch, council.Authorises crypto o := by
  have apart := Slot.apart_of_free free fun t named => by
    rcases named with named | rfl
    · exact GenesisConfig.fits_of_mem_named named
    · exact fits
  have split : entries (batches ++ [(ctx, txs)]) = entries batches ++ entries [(ctx, txs)] := by simp [entries]
  have inSlots : config.named crypto hashing batches ⊆
      config.named crypto hashing (batches ++ [(ctx, txs)]) ∪ {s} := by
    rintro t (named | ⟨e, among, rest⟩)
    · exact .inl (.inl named)
    · exact .inl (.inr ⟨e, split ▸ List.mem_append_left _ among, rest⟩)
  obtain ⟨members, hashes, σ₀, σ, accepted, founded, ran, same⟩ := reaches.onStore apart inSlots
  obtain ⟨decoded, counted⟩ := accepted.council c configured
  have batch : Run (Executes crypto) trie (entries [(ctx, txs)]) trie' := by
    simpa [entries] using (executeBatch_iff ctx txs).mp ⟨trace, executed⟩
  obtain ⟨σ', ran', same'⟩ := Store.executes_of_trie apart _ (by
    rintro t ⟨e, among, rest⟩
    exact .inl (.inr ⟨e, split ▸ List.mem_append_right _ among, rest⟩)) same batch
  have here : s ∈ config.named crypto hashing (batches ++ [(ctx, txs)]) ∪ {s} := .inr rfl
  have market : Slot.feeMarket ∈ config.named crypto hashing (batches ++ [(ctx, txs)]) ∪ {s} :=
    .inl (.inl (.inr (.inl rfl)))
  have seat : Slot.council ∈ config.named crypto hashing (batches ++ [(ctx, txs)]) ∪ {s} := .inl (.inl (.inl rfl))
  have whole : Run (Store.Executes crypto) σ₀ (entries (batches ++ [(ctx, txs)])) σ' :=
    split ▸ Run.append_iff.mpr ⟨σ, ran, ran'⟩
  obtain ⟨order, authorised, office⟩ := whole.tickets (·.2.payload.order) (·.epoch.val)
    (Council.Authorises crypto ⟨members, c.threshold, 0, c.guardianThreshold⟩)
    (fun n σ => σ.InOffice ⟨members, c.threshold, 0, c.guardianThreshold⟩ n)
    (fun n σ e σ' office executed => office_of_executes counted office executed) (office_of_plan configured founded)
  refine ⟨members, decoded, by rw [List.range_eq_range']; exact order, ?_, ?_, ?_, fun o ordered => ?_⟩
  · obtain ⟨epoch, counts, stored⟩ := office
    exact ⟨epoch, counts.trans (Nat.zero_add _), (same' seat).trans stored⟩
  · have rewritten := view_of_run (· s) (fun held u => u.rewrite s held) ran'
      fun σ i σ' stepped => stepped.governed governed
    rw [← same here, ← same' here] at rewritten
    exact rewritten
  · have retargeted := view_of_run (·.feeTerms) (fun terms u => u.retarget terms) ran'
      fun σ i σ' stepped => stepped.feeTerms
    have start : (trie.bySlot crypto).feeTerms = σ.feeTerms := by rw [Store.feeTerms, same market, Store.feeTerms]
    have stop : (trie'.bySlot crypto).feeTerms = σ'.feeTerms := by rw [Store.feeTerms, same' market, Store.feeTerms]
    rw [start, stop]
    exact retargeted
  · refine authorised o ?_
    rw [split, List.filterMap_append]
    exact List.mem_append_right _ ordered

end Execute

namespace Devnet

/-- The devnet's one order is the council's first; it leaves the fee asset's record
as it was, but switched off, and one guardian was enough for it. -/
theorem order_disables_asset : ∃ trie trace,
    Execute.executeBatch crypto genesis context batch = .ok (trie, trace) ∧
      (trie.bySlot crypto).InOffice ⟨[carol], 1, 0, 1⟩ 1 ∧
      trie.get (Slot.key crypto (.asset 1)) = (genesis.get (Slot.key crypto (.asset 1))).map disabled ∧
      Council.Authorises crypto ⟨[carol], 1, 0, 1⟩ ⟨0, .disableGasAsset 1, [⟨0, councilSignature⟩]⟩ := by
  obtain ⟨trie, trace, executed, _⟩ := executes
  have reached : config.Reaches crypto hashing [] genesis := ⟨_, built, rfl⟩
  obtain ⟨members, decoded, _, office, rewritten, _, authorised⟩ :=
    Execute.governed_state_changes_by_order rfl reached executed (.asset 1) trivial trivial (free_of_slots (by
      rintro s (among | rfl)
      · exact named_config among
      · simp [slots]))
  obtain rfl : [carol] = members := Except.ok.inj (Eq.trans (by decide +kernel) decoded)
  have ordered : Execute.orders [(context, batch)] = [⟨0, .disableGasAsset 1, [⟨0, councilSignature⟩]⟩] := by
    decide +kernel
  rw [List.nil_append, ordered] at office
  rw [ordered] at rewritten authorised
  rw [List.foldl_cons, List.foldl_nil, GovernanceUpdate.rewrite, if_pos rfl] at rewritten
  exact ⟨trie, trace, executed, office, rewritten, authorised _ List.mem_cons_self⟩

end Devnet
end Sena
