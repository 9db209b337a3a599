import Sena.LedgerRuns
import Sena.Transitions

/-! Every slot holds a record of its kind.

What a genesis writes and what a step writes is the canonical encoding of the
kind its slot is for, and within the bounds of that kind: no zero balance, no
zero rate, a split that adds up, a base fee at or above a positive floor. So no
decoder ever refuses what it finds, in the node or on L1. -/
namespace Sena

open Move

/-- The base fee stays at or above its floor, and neither floor nor target is zero. -/
structure FeeMarket.Sound (m : FeeMarket) : Prop where
  above : m.floor.val ≤ m.baseFee.val
  floor : 1 ≤ m.floor.val
  target : 1 ≤ m.target.val

/-- The contents are the canonical encoding of a record of the slot's kind, within
the bounds of that kind. -/
def Slot.Sound : Slot → Bytes → Prop
  | account _, b => ∃ a, Account.decode b = .ok a ∧ b = a.encode ∧ a.Positive
  | social _, b => ∃ binding, SocialBinding.decode b = .ok binding ∧ b = binding.encode
  | asset _, b => ∃ record, WhitelistedAsset.decode b = .ok record ∧ b = record.encode ∧ 1 ≤ record.rate.val
  | parameter _, b => ∃ value : U128, b = be 16 value.val
  | council, b => ∃ council, Council.decode b = .ok council ∧ b = council.encode
  | feeMarket, b => ∃ m, FeeMarket.decode b = .ok m ∧ b = m.encode ∧ m.Sound
  | feeSplit, b => ∃ split, FeeSplit.decode b = .ok split ∧ b = split.encode ∧ split.check = .ok ()
  | jwk _ _, b => ∃ active, Execute.decodeJwkRecord b = .ok active ∧ b = Execute.encodeJwkRecord active

theorem Slot.Sound.record {s : Slot} (sound : s.Sound b) : s.Record b := by
  cases s with
  | account _ | asset _ | feeMarket | feeSplit =>
    obtain ⟨record, decoded, same, _⟩ := sound
    exact ⟨record, decoded, same⟩
  | social _ | parameter _ | council | jwk _ _ => exact sound

theorem Gas.floor_le_nextBaseFee (stepped : nextBaseFee base gas target floor = .ok next) : floor.val ≤ next.val := by
  unfold nextBaseFee at stepped
  split at stepped <;>
  · obtain ⟨_, _, stepped⟩ := bind_eq_ok.mp stepped
    obtain ⟨unfloored, _, floored⟩ := bind_eq_ok.mp stepped
    cases floored
    exact Fin.le_def.mp (le_max_right unfloored floor)

theorem FeeMarket.Sound.of_atTimestamp {m m' : FeeMarket} (sound : m.Sound)
    (rolled : m.atTimestamp timestamp = .ok m') : m'.Sound := by
  unfold atTimestamp at rolled
  split at rolled
  · cases rolled
  · split at rolled
    · cases rolled
      exact sound
    · obtain ⟨baseFee, stepped, same⟩ := bind_eq_ok.mp rolled
      cases same
      exact ⟨Gas.floor_le_nextBaseFee stepped, sound.floor, sound.target⟩

/-- What the instruction writes can be encoded. -/
def Instruction.Storable : Instruction → Prop
  | setGasAsset record => Framable record.symbol.bytes
  | _ => True

theorem Instruction.storable_of_fits {i : Instruction} (fits : i.Fits) : i.Storable := by
  cases i with
  | setGasAsset record => exact WhitelistedAsset.framable_symbol fits
  | _ => trivial

theorem IsRecord.ne_error {decode : Bytes → Except ε α} (record : IsRecord decode encode b) : decode b ≠ .error e := by
  intro refused
  obtain ⟨_, decoded, _⟩ := record
  cases refused.symm.trans decoded

namespace Execute

variable {crypto : Crypto} {i : Instruction} {current : Option Bytes}

theorem decodeFeeMarket_sound (sound : ∀ b, current = some b → Slot.feeMarket.Sound b)
    (decoded : decodeFeeMarket current = .ok m) : m.Sound := by
  cases current with
  | none =>
    cases decoded
    exact ⟨by decide, by decide, by decide⟩
  | some b =>
    obtain ⟨m', read, _, good⟩ := sound b rfl
    cases read.symm.trans (mapError_eq_ok.mp decoded)
    exact good

theorem decodeJwkRecord_encode (active : Bool) : decodeJwkRecord (encodeJwkRecord active) = .ok active := by
  cases active <;> rfl

/-- What an instruction writes over sound contents is sound. -/
theorem sound_of_transition (storable : i.Storable) (sound : ∀ b, current = some b → i.on.Sound b)
    (computed : transition crypto i current = .ok written) (encodable : i.Encodable written) :
    i.on.Sound written := by
  have revised : ∀ x, i.on = .account x → written.length < 12 + 20 * 2 ^ 32 → (Slot.account x).Sound written := by
    intro x here short
    obtain ⟨acc, acc', decoded, revised, rfl⟩ := (Instruction.transition_account here).mp computed
    have positive := (Instruction.revise_spec here revised).2.2 (decodeAccount_positive decoded)
    exact ⟨acc', mapError_eq_ok.mp (decodeAccount_encode positive short), rfl, positive⟩
  cases i with
  | consumeNonce account expected => exact revised account rfl encodable
  | debit account asset amount => exact revised account rfl encodable
  | credit account asset amount => exact revised account rfl encodable
  | bindIdentifier identifier address =>
    obtain ⟨_, rfl⟩ := transition_bindIdentifier.mp computed
    exact ⟨.bound address, SocialBinding.decode_encode _, rfl⟩
  | unbindIdentifier identifier owner =>
    obtain ⟨_, rfl⟩ := transition_unbindIdentifier.mp computed
    exact ⟨.vacant, SocialBinding.decode_encode _, rfl⟩
  | verifyGasAsset asset rate intrinsicGas =>
    obtain ⟨_, found, _⟩ := transition_verifyGasAsset.mp computed
    exact sound written found
  | chargeBaseFee timestamp baseFee gas =>
    obtain ⟨market, rolled, decoded, advanced, _, total, _, _, rfl⟩ := transition_chargeBaseFee.mp computed
    have good := (decodeFeeMarket_sound sound decoded).of_atTimestamp advanced
    exact ⟨_, FeeMarket.decode_encode _, rfl, good.above, good.floor, good.target⟩
  | verifyFeeSplit split =>
    obtain ⟨found, rfl⟩ := transition_verifyFeeSplit.mp computed
    exact sound _ found
  | setFeeSplit split =>
    obtain ⟨checked, rfl⟩ := transition_setFeeSplit.mp computed
    have fits := (FeeSplit.check_isOk_iff.mp (by rw [checked]; rfl)).1
    exact ⟨split, FeeSplit.decode_eq_ok.mpr ⟨fits, rfl⟩, rfl, checked⟩
  | setFeeMarket floor target =>
    obtain ⟨hasFloor, hasTarget, market, _, rfl⟩ := transition_setFeeMarket.mp computed
    exact ⟨_, FeeMarket.decode_encode _, rfl, Fin.le_def.mp (le_max_right market.baseFee floor),
      Nat.pos_of_ne_zero hasFloor, Nat.pos_of_ne_zero hasTarget⟩
  | disableGasAsset asset =>
    obtain ⟨b, record, found, decoded, rfl⟩ := transition_disableGasAsset.mp computed
    obtain ⟨record', decoded', rfl, positive⟩ := sound b found
    cases decoded'.symm.trans decoded
    have short := WhitelistedAsset.framable_of_decode decoded'
    exact ⟨{ record with enabled := false }, WhitelistedAsset.decode_encode short, rfl, positive⟩
  | verifyCouncil epoch digest signatures guardian =>
    obtain ⟨b, council, _, decoded, _, _, next, _, rfl⟩ := transition_verifyCouncil.mp computed
    have counted := (Council.decode_eq_ok.mp decoded).1
    exact ⟨{ council with epoch := next }, Council.decode_eq_ok.mpr ⟨counted, rfl⟩, rfl⟩
  | setGasAsset record =>
    obtain ⟨positive, rfl⟩ := transition_setGasAsset.mp computed
    exact ⟨record, WhitelistedAsset.decode_encode storable, rfl, Nat.pos_of_ne_zero positive⟩
  | setParameter name value => exact ⟨value, (transition_setParameter.mp computed).2⟩
  | verifyJwk issHash jwkHash => exact sound written (transition_verifyJwk.mp computed).1
  | setJwk issHash jwkHash active =>
    obtain rfl := transition_setJwk.mp computed
    exact ⟨active, decodeJwkRecord_encode active, rfl⟩

theorem present_eq_error : present current missing = .error e ↔ current = none ∧ missing = e := by
  cases current <;> simp [present]

theorem decodeAccount_ne_malformed (held : ∀ b, current = some b → IsRecord Account.decode Account.encode b) :
    decodeAccount current ≠ .error .malformedSlot := by
  intro failed
  cases current with
  | none => cases failed
  | some b =>
    obtain ⟨_, refused, _⟩ := mapError_eq_error.mp failed
    exact (held b rfl).ne_error refused

theorem decodeFeeMarket_ne_malformed (held : ∀ b, current = some b → IsRecord FeeMarket.decode FeeMarket.encode b) :
    decodeFeeMarket current ≠ .error .malformedSlot := by
  intro failed
  cases current with
  | none => cases failed
  | some b =>
    obtain ⟨_, refused, _⟩ := mapError_eq_error.mp failed
    exact (held b rfl).ne_error refused

/-- A decoder refuses only what is no record of the slot's kind. -/
theorem transition_ne_malformed (held : ∀ b, current = some b → i.on.Record b) :
    transition crypto i current ≠ .error .malformedSlot := by
  intro failed
  -- the inversion of every check leaves the decoder as the only one to blame
  cases i <;> simp only [transition, permitted, bind_eq_error, mapError_eq_error, check_eq_error, ite_throw_eq_error,
    dite_throw_eq_error, present_eq_error, pure_eq_ok, reduceCtorEq, and_false, false_or, exists_false, or_false,
    and_true, mapError_eq_ok, present_eq_ok] at failed
  case consumeNonce => exact decodeAccount_ne_malformed held failed
  case debit => exact decodeAccount_ne_malformed held failed
  case credit => exact decodeAccount_ne_malformed held failed
  case bindIdentifier =>
    cases current with
    | none => cases failed
    | some b =>
      simp only [bind_eq_error, mapError_eq_error, check_eq_error, reduceCtorEq, and_false, or_false, exists_false,
        and_true] at failed
      obtain ⟨_, refused⟩ := failed
      exact IsRecord.ne_error (held b rfl) refused
  case chargeBaseFee => exact decodeFeeMarket_ne_malformed held failed
  case setFeeMarket => exact decodeFeeMarket_ne_malformed held failed.choose_spec.2
  case verifyJwk =>
    obtain ⟨b, found, refused⟩ := failed
    exact IsRecord.ne_error (held b found) refused
  all_goals
    obtain ⟨b, found, _, refused⟩ := failed
    exact IsRecord.ne_error (held b found) refused

end Execute

/-- What the trie holds in these slots is sound. -/
def MerkleTrie.Sound (crypto : Crypto) (slots : Set Slot) (trie : MerkleTrie) : Prop :=
  ∀ s ∈ slots, ∀ b, trie.bySlot crypto s = some b → s.Sound b

section
variable {crypto : Crypto} {slots : Set Slot} {trie trie' : MerkleTrie} {i : Instruction}

theorem MerkleTrie.Sound.insert (sound : trie.Sound crypto slots) (apart : Slot.Apart crypto slots)
    (inSlots : s ∈ slots) (good : s.Sound written) :
    (trie.insert crypto (s.key crypto) written).Sound crypto slots := by
  intro t inT b found
  rw [MerkleTrie.bySlot_insert apart inSlots (Set.eqOn_refl _ _) written inT] at found
  by_cases here : t = s
  · subst here
    rw [Function.update_self] at found
    exact Option.some.inj found ▸ good
  · rw [Function.update_of_ne here] at found
    exact sound t inT b found

namespace Execute

theorem Steps.sound (stepped : Steps crypto trie i trie') (apart : Slot.Apart crypto slots) (inSlots : i.on ∈ slots)
    (storable : i.Storable) (sound : trie.Sound crypto slots) : trie'.Sound crypto slots := by
  obtain ⟨written, computed, encodable, rfl⟩ := steps_iff.mp stepped
  exact sound.insert apart inSlots (sound_of_transition storable (sound i.on inSlots) computed encodable)

theorem Executes.sound (executed : Executes crypto trie e trie') (apart : Slot.Apart crypto slots)
    (inSlots : slotsOf crypto [e] ⊆ slots) (sound : trie.Sound crypto slots) : trie'.Sound crypto slots := by
  obtain ⟨program, compiled, ran⟩ := executed
  refine ran.invariant (·.Sound crypto slots) (fun _ i _ emitted sound stepped => ?_) sound
  exact stepped.sound apart (inSlots ⟨e, List.mem_singleton_self e, program, compiled, i, emitted, rfl⟩)
    (Instruction.storable_of_fits (fits_of_compile compiled i emitted)) sound

end Execute

namespace GenesisConfig

open Execute

variable {config : GenesisConfig}

/-- What a genesis writes is sound. -/
theorem sound_of_buildState (apart : Slot.Apart crypto slots) (inSlots : config.slots hashing ⊆ slots)
    (built : config.buildState crypto hashing = .ok trie) : trie.Sound crypto slots := by
  obtain ⟨members, hashes, accepted, founded⟩ := run_of_buildState built
  refine founded.invariant (·.Sound crypto slots) (fun before f after planned sound wrote => ?_) ?_
  · have here : f.on ∈ slots := inSlots (on_mem_slots accepted.hashes planned)
    simp only [plan, lastWrites, List.mem_append, List.mem_map, List.mem_singleton] at planned
    obtain (⟨record, among, rfl⟩ | ⟨c, among, rfl⟩) | ((rfl | ⟨split, _, rfl⟩) | ⟨h, _, rfl⟩) | ⟨a, _, rfl⟩ := planned
    · exact Steps.sound wrote apart here (accepted.symbols record among) sound
    · obtain rfl := wrote
      have counted := (accepted.council c (Option.mem_toList.mp among)).2
      exact sound.insert apart here ⟨_, Council.decode_eq_ok.mpr ⟨counted, rfl⟩, rfl⟩
    all_goals exact Steps.sound wrote apart here trivial sound
  · intro s _ b found
    cases found

theorem Reaches.sound (reaches : config.Reaches crypto hashing batches trie) (apart : Slot.Apart crypto slots)
    (inSlots : config.named crypto hashing batches ⊆ slots) : trie.Sound crypto slots := by
  obtain ⟨genesis, built, ran⟩ := reaches
  have start := sound_of_buildState apart (fun s named => inSlots (.inl named)) built
  refine ((executeAll_iff batches).mp ran).invariant (·.Sound crypto slots) (fun _ e _ among sound executed => ?_) start
  exact executed.sound apart (fun s named => inSlots (.inr (slotsOf_singleton_subset among named))) sound

end GenesisConfig

namespace Execute

/-- A step found contents its decoder refused. -/
def BatchError.Malformed (e : BatchError) : Prop := ∃ index step, e = .step index step .malformedSlot

theorem executeInstruction_not_malformed (sound : run.1.Sound crypto slots) (inSlots : i.on ∈ slots)
    (failed : executeInstruction crypto index run i = .error e) : ¬e.Malformed := by
  rw [executeInstruction, bind_eq_error] at failed
  rcases failed with failed | ⟨next, _, failed⟩
  · obtain ⟨e', refused, rfl⟩ := mapError_eq_error.mp failed
    rintro ⟨_, _, ⟨⟩⟩
    rw [apply, bind_eq_error, Instruction.slot_eq] at refused
    rcases refused with refused | ⟨_, _, ⟨⟩⟩
    exact transition_ne_malformed (fun b found => (sound i.on inSlots b found).record) refused
  · split at failed
    · cases failed
      rintro ⟨_, _, ⟨⟩⟩
    · cases failed

theorem executeTransaction_not_malformed (apart : Slot.Apart crypto slots) (sound : run.1.Sound crypto slots)
    (inSlots : slotsOf crypto [(ctx, entry.1)] ⊆ slots)
    (failed : executeTransaction crypto ctx run entry = .error e) : ¬e.Malformed := by
  rw [executeTransaction, bind_eq_error] at failed
  rcases failed with failed | ⟨program, compiled, failed⟩
  · obtain ⟨_, _, rfl⟩ := mapError_eq_error.mp failed
    rintro ⟨_, _, ⟨⟩⟩
  · have compiled := mapError_eq_ok.mp compiled
    refine (Run.foldlM_rule (fun run => run.1.Sound crypto slots) (fun e => ¬e.Malformed)
      (fun run i emitted sound => ?_) sound).2 e failed
    have here : i.on ∈ slots := inSlots ⟨_, List.mem_singleton_self _, program, compiled, i, emitted, rfl⟩
    refine ⟨fun next executed => ?_, fun e failed => executeInstruction_not_malformed sound here failed⟩
    have stepped := (executeInstruction_iff entry.2 run.2 i).mp ⟨next.2, executed⟩
    exact stepped.sound apart here (Instruction.storable_of_fits (fits_of_compile compiled i emitted)) sound

theorem executeBatch_not_malformed {txs : List Transaction} (apart : Slot.Apart crypto slots)
    (sound : trie.Sound crypto slots) (inSlots : slotsOf crypto (txs.map (ctx, ·)) ⊆ slots)
    (failed : executeBatch crypto trie ctx txs = .error e) : ¬e.Malformed := by
  refine (Run.foldlM_rule (fun run => run.1.Sound crypto slots) (fun e => ¬e.Malformed)
    (fun run entry listed sound => ?_) sound).2 e failed
  have among : (ctx, entry.1) ∈ txs.map (ctx, ·) := List.mem_map_of_mem (List.fst_mem_of_mem_zipIdx listed)
  have here : slotsOf crypto [(ctx, entry.1)] ⊆ slots := (slotsOf_singleton_subset among).trans inSlots
  refine ⟨fun next executed => ?_, fun e failed => executeTransaction_not_malformed apart sound here failed⟩
  exact ((executeTransaction_iff ctx run.2 entry).mp ⟨next.2, executed⟩).sound apart here sound

/-- Every slot of a reached state holds a sound record of its kind. So no step of a
batch executed on it finds one malformed, and on such contents the contract never
aborts over an instruction the compiler emits, as long as the node's own encoder
can count the balances. -/
theorem slots_stay_well_formed {config : GenesisConfig} (reaches : config.Reaches crypto hashing batches trie)
    (ctx : BatchContext) (txs : List Transaction) (s : Slot) (fits : s.Fits)
    (free : CollisionFree crypto.sha256
      (Slot.image '' (config.named crypto hashing batches ∪ slotsOf crypto (txs.map (ctx, ·)) ∪ {s}))) :
    (∀ b, trie.get (s.key crypto) = some b → s.Sound b) ∧
      (∀ index step, executeBatch crypto trie ctx txs ≠ .error (.step index step .malformedSlot)) ∧
      ∀ tx ctx' program i, compile crypto tx ctx' = .ok program → i ∈ program → ∀ present b,
        (present = true → i.on.Sound b) →
        (∀ written, transition crypto i (slotContents present b) = .ok written → i.Encodable written) →
        ∃ answer, Osp.transition crypto (Osp.ofInstruction i) present b = .ok answer := by
  have apart := Slot.apart_of_free free fun s named => by
    rcases named with (named | named) | rfl
    · exact GenesisConfig.fits_of_mem_named named
    · exact fits_of_mem_slotsOf named
    · exact fits
  have sound := reaches.sound apart fun _ named => .inl (.inl named)
  refine ⟨fun b found => sound s (.inr rfl) b found, fun index step failed => ?_, ?_⟩
  · exact executeBatch_not_malformed apart sound (fun _ named => .inl (.inr named)) failed ⟨index, step, rfl⟩
  · intro tx ctx' program i compiled emitted present b held encodes
    exact ⟨_, Osp.transition_of_record (fits_of_compile compiled i emitted) (fun here => (held here).record) encodes⟩

end Execute

end

namespace Devnet

open Execute (compile executeBatch)

/-- After the devnet's batch its fee market is sound, the batch could not find a
slot malformed if it came again, and L1 can check a fee asset's record. -/
theorem market_stays_sound : ∃ trie, config.Reaches crypto hashing [(context, batch)] trie ∧
    (∀ b, trie.get (Slot.feeMarket.key crypto) = some b → Slot.feeMarket.Sound b) ∧
    (∀ index step, executeBatch crypto trie context batch ≠ .error (.step index step .malformedSlot)) ∧
    ∀ record ∈ config.gasAssets, ∃ answer, Osp.transition crypto
      (Osp.ofInstruction (.verifyGasAsset 1 1000000 10000)) true record.encode = .ok answer := by
  obtain ⟨trie, trace, executed, reached⟩ := executes
  obtain ⟨program, compiled, emitted⟩ : ∃ program, compile crypto payment context = .ok program ∧
      .verifyGasAsset 1 1000000 10000 ∈ program := by
    decide +kernel
  obtain ⟨found, safe, answers⟩ := Execute.slots_stay_well_formed reached context batch .feeMarket trivial
    (free_of_slots (by
      rintro s ((among | among) | rfl)
      · exact named_config among
      · exact named among
      · simp [slots]))
  refine ⟨trie, reached, found, safe, fun record listed => ?_⟩
  obtain rfl := List.mem_singleton.mp listed
  exact answers payment context program _ compiled emitted true _
    (fun _ => ⟨_, WhitelistedAsset.decode_encode (by decide), rfl, by decide⟩) fun _ _ => trivial

end Devnet
end Sena
