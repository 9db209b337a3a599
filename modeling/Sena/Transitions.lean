import Sena.Stores

/-! When an instruction executes, and what it writes then: one equivalence for
each instruction that is not about an account. -/
namespace Sena

open Move

namespace GovernanceUpdate

theorem permits_setGasAsset : checkPermitted (.setGasAsset record) = .ok u ↔ record.rate.val ≠ 0 := by
  rw [checkPermitted]
  split <;> simp_all

theorem permits_setParameter : checkPermitted (.setParameter name value) = .ok u ↔
    name.bytes = GOVERNABLE_PARAMETER := by
  rw [checkPermitted]
  split <;> simp_all

theorem permits_setFeeMarket : checkPermitted (.setFeeMarket floor target) = .ok u ↔
    floor.val ≠ 0 ∧ target.val ≠ 0 := by
  rw [checkPermitted, ← not_or]
  split <;> simp_all only [reduceCtorEq, not_true_eq_false, not_false_eq_true]

theorem permits_setFeeSplit : checkPermitted (.setFeeSplit split) = .ok u ↔ split.check = .ok () := by
  rw [checkPermitted]
  cases split.check <;> simp

end GovernanceUpdate

namespace Execute

open GovernanceUpdate

variable {crypto : Crypto} {current : Option Bytes} {written : Bytes}

theorem present_eq_ok : present current missing = .ok b ↔ current = some b := by
  cases current <;> simp [present]

theorem permitted_eq_ok : permitted update = .ok u ↔ update.checkPermitted = .ok u := mapError_eq_ok

theorem decodeFeeMarket_encode (m : FeeMarket) : decodeFeeMarket (some m.encode) = .ok m := by
  rw [decodeFeeMarket, FeeMarket.decode_encode]
  rfl

theorem transition_bindIdentifier : transition crypto (.bindIdentifier identifier address) current = .ok written ↔
    (∀ b, current = some b → ∃ binding, SocialBinding.decode b = .ok binding ∧
      ¬binding.address.any (· ≠ address)) ∧
      written = (SocialBinding.bound address).encode := by
  cases current with
  | none => simp [transition, eq_comm (b := written)]
  | some b =>
    simp only [transition, bind_eq_ok, mapError_eq_ok, check_eq_ok, pure_iff]
    constructor
    · rintro ⟨binding, decoded, same, rfl⟩
      refine ⟨?_, rfl⟩
      rintro _ ⟨rfl⟩
      exact ⟨binding, decoded, same⟩
    · rintro ⟨held, rfl⟩
      obtain ⟨binding, decoded, same⟩ := held b rfl
      exact ⟨binding, decoded, same, rfl⟩

theorem transition_unbindIdentifier : transition crypto (.unbindIdentifier identifier owner) current = .ok written ↔
    (∃ b binding, current = some b ∧ SocialBinding.decode b = .ok binding ∧ binding.address = some owner) ∧
      written = SocialBinding.vacant.encode := by
  simp only [transition, bind_eq_ok, mapError_eq_ok, present_eq_ok, ite_throw_eq_ok, pure_iff,
    eq_comm (b := written)]
  grind

theorem transition_verifyGasAsset :
    transition crypto (.verifyGasAsset asset rate intrinsicGas) current = .ok written ↔
      ∃ record, current = some written ∧ WhitelistedAsset.decode written = .ok record ∧ record.enabled = true ∧
        record.rate = rate ∧ record.intrinsicGas = intrinsicGas := by
  simp only [transition, bind_eq_ok, mapError_eq_ok, present_eq_ok, check_eq_ok, pure_iff,
    Bool.not_eq_false, not_not, ne_eq]
  grind

theorem transition_setGasAsset : transition crypto (.setGasAsset record) current = .ok written ↔
    record.rate.val ≠ 0 ∧ written = record.encode := by
  simp only [transition, bind_eq_ok, permitted_eq_ok, permits_setGasAsset, exists_const, pure_iff,
    eq_comm (b := written)]

theorem transition_disableGasAsset : transition crypto (.disableGasAsset asset) current = .ok written ↔
    ∃ b record, current = some b ∧ WhitelistedAsset.decode b = .ok record ∧
      written = { record with enabled := false : WhitelistedAsset }.encode := by
  simp only [transition, bind_eq_ok, mapError_eq_ok, present_eq_ok, pure_iff]
  grind

theorem transition_chargeBaseFee : transition crypto (.chargeBaseFee timestamp baseFee gas) current = .ok written ↔
    ∃ market rolled, decodeFeeMarket current = .ok market ∧ market.atTimestamp timestamp = .ok rolled ∧
      rolled.baseFee = baseFee ∧ ∃ total : U64, total.val = rolled.windowGas.val + gas.val ∧
        total.val ≤ rolled.windowLimit ∧ written = { rolled with windowGas := total : FeeMarket }.encode := by
  simp only [transition, bind_eq_ok, mapError_eq_ok, check_eq_ok, dite_throw_eq_ok, ite_throw_eq_ok, pure_iff, not_not, ne_eq]
  constructor
  · rintro ⟨market, decoded, rolled, advanced, same, fits, within, rfl⟩
    exact ⟨market, rolled, decoded, advanced, same, ⟨_, fits⟩, rfl, within, rfl⟩
  · rintro ⟨market, rolled, decoded, advanced, same, total, sum, within, rfl⟩
    obtain ⟨_, fits⟩ := total
    subst sum
    exact ⟨market, decoded, rolled, advanced, same, fits, within, rfl⟩

theorem transition_setFeeMarket : transition crypto (.setFeeMarket floor target) current = .ok written ↔
    floor.val ≠ 0 ∧ target.val ≠ 0 ∧ ∃ market, decodeFeeMarket current = .ok market ∧
      written = { market with baseFee := max market.baseFee floor, floor, target : FeeMarket }.encode := by
  simp only [transition, bind_eq_ok, permitted_eq_ok, permits_setFeeMarket, and_assoc, exists_const, pure_iff,
    eq_comm (b := written)]

theorem transition_verifyFeeSplit : transition crypto (.verifyFeeSplit split) current = .ok written ↔
    current = some split.encode ∧ written = split.encode := by
  simp only [transition, bind_eq_ok, present_eq_ok, check_eq_ok, pure_iff, not_not, ne_eq]
  grind

theorem transition_setFeeSplit : transition crypto (.setFeeSplit split) current = .ok written ↔
    split.check = .ok () ∧ written = split.encode := by
  simp only [transition, bind_eq_ok, permitted_eq_ok, permits_setFeeSplit, exists_const, pure_iff, eq_comm (b := written)]

theorem transition_verifyCouncil :
    transition crypto (.verifyCouncil epoch digest signatures guardian) current = .ok written ↔
      ∃ b council, current = some b ∧ Council.decode b = .ok council ∧ council.epoch = epoch ∧
        Governance.verifyCouncilSignatures crypto council digest signatures guardian = .ok () ∧
        ∃ next : U64, next.val = epoch.val + 1 ∧ written = { council with epoch := next : Council }.encode := by
  simp only [transition, bind_eq_ok, mapError_eq_ok, present_eq_ok, check_eq_ok, dite_throw_eq_ok, pure_iff, not_not, ne_eq]
  constructor
  · rintro ⟨b, found, council, decoded, rfl, _, signed, fits, rfl⟩
    exact ⟨b, council, found, decoded, rfl, signed, ⟨_, fits⟩, rfl, rfl⟩
  · rintro ⟨b, council, found, decoded, rfl, signed, next, sum, rfl⟩
    obtain ⟨_, fits⟩ := next
    subst sum
    exact ⟨b, found, council, decoded, rfl, (), signed, fits, rfl⟩

theorem transition_setParameter : transition crypto (.setParameter name value) current = .ok written ↔
    name.bytes = GovernanceUpdate.GOVERNABLE_PARAMETER ∧ written = be 16 value.val := by
  simp only [transition, bind_eq_ok, permitted_eq_ok, permits_setParameter, exists_const, pure_iff,
    eq_comm (b := written)]

theorem transition_verifyJwk : transition crypto (.verifyJwk issHash jwkHash) current = .ok written ↔
    current = some written ∧ decodeJwkRecord written = .ok true := by
  simp only [transition, bind_eq_ok, present_eq_ok, check_eq_ok, pure_iff, Bool.not_eq_false]
  grind

theorem transition_setJwk : transition crypto (.setJwk issHash jwkHash active) current = .ok written ↔
    written = encodeJwkRecord active := by
  simp [transition, eq_comm]

end Execute
end Sena
