import Sena.LedgerRuns

/-! Settling a fee.

The hold, the refund, the tip and the base fee are four quotients of 128-bit products,
each rounded down by itself. The parts never exceed the hold, and what rounding leaves
of it is less than a unit for each part. But a refund can be rounded to the whole
hold. -/
namespace Sena
namespace Gas

open Move

theorem div_sub_div_le {s y : Nat} (x : Nat) (positive : 0 < s) (part : y ≤ x) : x / s - (x - y) / s ≤ y / s + 1 := by
  have whole : x < s * ((x - y) / s + (y / s + 2)) := by
    have rest := Nat.lt_mul_div_succ (x - y) positive
    have taken := Nat.lt_mul_div_succ y positive
    calc x = (x - y) + y := (Nat.sub_add_cancel part).symm
      _ < s * ((x - y) / s + 1) + s * (y / s + 1) := Nat.add_lt_add rest taken
      _ = s * ((x - y) / s + (y / s + 2)) := by ring
  have quotient : x / s < (x - y) / s + (y / s + 2) := Nat.div_lt_of_lt_mul whole
  generalize x / s = total at *
  generalize (x - y) / s = rest at *
  generalize y / s = taken at *
  omega

theorem one_le_div_sub_div_iff {s y : Nat} (x : Nat) (positive : 0 < s) (part : y ≤ x) :
    1 ≤ x / s - (x - y) / s ↔ x % s < y := by
  have split := Nat.div_add_mod x s
  have small := Nat.mod_lt x positive
  constructor
  · intro taken
    by_contra less
    have kept : x / s ≤ (x - y) / s := (Nat.le_div_iff_mul_le positive).mpr (by
      rw [Nat.mul_comm]
      omega)
    omega
  · intro more
    have below : (x - y) / s < x / s := (Nat.div_lt_iff_lt_mul positive).mpr (by
      rw [Nat.mul_comm]
      omega)
    omega

variable {gasLimit gasUsed : U64} {maxFee maxTip baseFee rate : U128} {c : FeeCharge}

/-- The base fee of a unit of gas, in the fee asset. -/
def basePerGas (baseFee rate : U128) : Nat := baseFee.val * rate.val / RATE_SCALE.val

/-- The tip of a unit of gas: what was offered, within what the base fee leaves. -/
def tipPerGas (maxFee maxTip baseFee rate : U128) : Nat := min maxTip.val (maxFee.val - basePerGas baseFee rate)

def effectivePrice (maxFee maxTip baseFee rate : U128) : Nat :=
  basePerGas baseFee rate + tipPerGas maxFee maxTip baseFee rate

/-- What a fee has to meet to be settled. -/
structure Settles (gasLimit gasUsed : U64) (maxFee maxTip baseFee rate : U128) : Prop where
  used : gasUsed.val ≤ gasLimit.val
  limit : gasLimit.val ≤ 30000000
  rated : 0 < rate.val
  converted : baseFee.val * rate.val < 2 ^ 128
  covered : basePerGas baseFee rate ≤ maxFee.val
  held : gasLimit.val * effectivePrice maxFee maxTip baseFee rate < 2 ^ 128
  positive : 1 ≤ gasLimit.val * effectivePrice maxFee maxTip baseFee rate / 10 ^ 12

/-- What it is settled to, with the base fee's own total. -/
structure Settled (gasLimit gasUsed : U64) (maxFee maxTip baseFee rate : U128) (c : FeeCharge) : Prop where
  gas : c.gasUsed = gasUsed
  hold : c.hold.val = gasLimit.val * effectivePrice maxFee maxTip baseFee rate / 10 ^ 12
  refund : c.refund.val = (gasLimit.val - gasUsed.val) * effectivePrice maxFee maxTip baseFee rate / 10 ^ 12
  tip : c.tip.val = gasUsed.val * tipPerGas maxFee maxTip baseFee rate / 10 ^ 12
  base : c.refund.val + c.tip.val + c.base.val = c.hold.val

theorem nativeToAsset_eq_ok {native : U128} {r : U128} : nativeToAsset native rate = .ok r ↔
    0 < rate.val ∧ native.val * rate.val < 2 ^ 128 ∧ r.val = basePerGas native rate := by
  unfold nativeToAsset
  by_cases zero : rate.val = 0
  · simp [zero]
  by_cases small : native.val * rate.val < 2 ^ 128
  · rw [if_neg zero, checked_of_lt small, ok_bind, pure_iff, Fin.ext_iff,
      and_iff_right (Nat.pos_of_ne_zero zero), and_iff_right small]
    exact eq_comm
  · rw [if_neg zero, checked_of_le (Nat.not_lt.mp small), error_bind]
    simp only [reduceCtorEq, small, false_and, and_false]

theorem tip_val {base : U128} (maxTip : U128) (converted : base.val = basePerGas baseFee rate)
    (covered : base.val ≤ maxFee.val) :
    (min maxTip (maxFee - base)).val = tipPerGas maxFee maxTip baseFee rate := by
  have headroom : (maxFee - base).val = maxFee.val - base.val := Fin.sub_val_of_le covered
  rw [tipPerGas, ← converted, ← headroom]
  rcases le_total maxTip (maxFee - base) with less | less
  · rw [min_eq_left less, min_eq_left (Fin.le_def.mp less)]
  · rw [min_eq_right less, min_eq_right (Fin.le_def.mp less)]

theorem price_val {base : U128} (maxTip : U128) (converted : base.val = basePerGas baseFee rate)
    (covered : base.val ≤ maxFee.val) :
    (base + min maxTip (maxFee - base)).val = effectivePrice maxFee maxTip baseFee rate := by
  rw [Fin.val_add, Nat.mod_eq_of_lt (price_lt maxTip covered), tip_val maxTip converted covered, converted,
    effectivePrice]

theorem effectivePrice_le (maxTip : U128) (covered : basePerGas baseFee rate ≤ maxFee.val) :
    effectivePrice maxFee maxTip baseFee rate ≤ maxFee.val := by
  have headroom := Nat.min_le_right maxTip.val (maxFee.val - basePerGas baseFee rate)
  unfold effectivePrice tipPerGas
  omega

/-- The parts of a settlement are what the fee makes them. -/
theorem settled_of_settle (settled : settle gasLimit gasUsed maxFee maxTip baseFee rate = .ok c) :
    Settles gasLimit gasUsed maxFee maxTip baseFee rate ∧ Settled gasLimit gasUsed maxFee maxTip baseFee rate c := by
  have whole := settle_spec settled
  unfold settle at settled
  split at settled
  · cases settled
  rename_i high
  split at settled
  · cases settled
  rename_i low
  obtain ⟨base, converted, settled⟩ := bind_eq_ok.mp settled
  obtain ⟨rated, fits, based⟩ := nativeToAsset_eq_ok.mp converted
  split at settled
  · cases settled
  rename_i below
  have covered := Nat.not_lt.mp below
  obtain ⟨hold, held, settled⟩ := bind_eq_ok.mp settled
  split at settled
  · cases settled
  rename_i nonzero
  obtain ⟨refund, refunded, settled⟩ := bind_eq_ok.mp settled
  obtain ⟨tip, tipped, settled⟩ := bind_eq_ok.mp settled
  obtain ⟨paid, _, settled⟩ := bind_eq_ok.mp settled
  cases settled
  have left : (gasLimit - gasUsed).val = gasLimit.val - gasUsed.val := Fin.sub_val_of_le (Nat.not_lt.mp low)
  rw [total_eq_ok, price_val maxTip based covered] at held refunded
  rw [total_eq_ok, tip_val maxTip based covered] at tipped
  rw [left] at refunded
  exact ⟨⟨Nat.not_lt.mp low, Nat.not_lt.mp high, rated, fits, based ▸ covered, held.1,
      Nat.one_le_iff_ne_zero.mpr (held.2 ▸ nonzero)⟩,
    ⟨rfl, held.2, refunded.2, tipped.2, whole.2⟩⟩

theorem exists_total {gas : U64} {price : U128} {limit bound : Nat} (less : gas.val ≤ limit)
    (lower : price.val ≤ bound) (fits : limit * bound < 2 ^ 128) : ∃ r, total gas price = .ok r :=
  have small : gas.val * price.val < 2 ^ 128 := Nat.lt_of_le_of_lt (Nat.mul_le_mul less lower) fits
  ⟨⟨gas.val * price.val / PRICE_SCALE.val, Nat.lt_of_le_of_lt (Nat.div_le_self _ _) small⟩,
    total_eq_ok.mpr ⟨small, rfl⟩⟩

theorem exists_settle (settles : Settles gasLimit gasUsed maxFee maxTip baseFee rate) :
    ∃ c, settle gasLimit gasUsed maxFee maxTip baseFee rate = .ok c := by
  have small : basePerGas baseFee rate < 2 ^ 128 := Nat.lt_of_le_of_lt settles.covered maxFee.isLt
  obtain ⟨base, based⟩ : ∃ base : U128, base.val = basePerGas baseFee rate := ⟨⟨_, small⟩, rfl⟩
  have converted := nativeToAsset_eq_ok.mpr ⟨settles.rated, settles.converted, based⟩
  have covered : base.val ≤ maxFee.val := based ▸ settles.covered
  have price := price_val maxTip based covered
  have tipped := tip_val maxTip based covered
  have left : (gasLimit - gasUsed).val = gasLimit.val - gasUsed.val := Fin.sub_val_of_le settles.used
  obtain ⟨hold, held⟩ := exists_total (Nat.le_refl gasLimit.val) (Nat.le_of_eq price) settles.held
  obtain ⟨refund, refunded⟩ := exists_total (left ▸ Nat.sub_le _ _) (Nat.le_of_eq price) settles.held
  obtain ⟨tip, tipTotal⟩ := exists_total settles.used (Nat.le_trans (Nat.le_of_eq tipped) (Nat.le_add_left _ _)) settles.held
  obtain ⟨paid, baseTotal⟩ := exists_total settles.used (Nat.le_trans (Nat.le_of_eq based) (Nat.le_add_right _ _)) settles.held
  have nonzero : hold.val ≠ 0 := by
    have positive := settles.positive
    rw [(total_eq_ok.mp held).2, price]
    exact Nat.one_le_iff_ne_zero.mp positive
  have low : ¬ gasLimit.val > MAX_GAS_LIMIT.val := Nat.not_lt.mpr settles.limit
  unfold settle
  rw [if_neg low, if_neg (Nat.not_lt.mpr settles.used), converted, ok_bind,
    if_neg (Nat.not_lt.mpr covered)]
  simp only [held, refunded, tipTotal, baseTotal, ok_bind, if_neg nonzero]
  exact ⟨_, rfl⟩

/-- No operation that a settlement leaves unchecked leaves the range of its type. -/
structure InRange (gasLimit gasUsed : U64) (maxFee maxTip baseFee rate : U128) (c : FeeCharge) : Prop where
  unused : gasUsed.val ≤ gasLimit.val
  headroom : basePerGas baseFee rate ≤ maxFee.val
  price : basePerGas baseFee rate + tipPerGas maxFee maxTip baseFee rate < 2 ^ 128
  refund : c.refund.val ≤ c.hold.val
  tip : c.tip.val ≤ c.hold.val - c.refund.val
  base : gasUsed.val * basePerGas baseFee rate / 10 ^ 12 ≤ c.hold.val - c.refund.val - c.tip.val
  remainder : gasUsed.val * basePerGas baseFee rate / 10 ^ 12 +
    (c.hold.val - c.refund.val - c.tip.val - gasUsed.val * basePerGas baseFee rate / 10 ^ 12) < 2 ^ 128

section
variable (settles : Settles gasLimit gasUsed maxFee maxTip baseFee rate)
  (settled : Settled gasLimit gasUsed maxFee maxTip baseFee rate c)
include settles settled

theorem Settled.fits : c.refund.val + c.tip.val + gasUsed.val * basePerGas baseFee rate / 10 ^ 12 ≤ c.hold.val := by
  rw [settled.hold, settled.refund, settled.tip]
  exact parts_le _ _ _ settles.used

theorem Settled.inRange : InRange gasLimit gasUsed maxFee maxTip baseFee rate c := by
  have fits := settled.fits settles
  have held := c.hold.isLt
  have price := effectivePrice_le maxTip settles.covered
  refine ⟨settles.used, settles.covered, Nat.lt_of_le_of_lt price maxFee.isLt, ?_, ?_, ?_, ?_⟩ <;> omega

theorem Settled.paid_le : c.hold.val - c.refund.val ≤ gasUsed.val * maxFee.val / 10 ^ 12 + 1 := by
  have part : gasUsed.val * effectivePrice maxFee maxTip baseFee rate ≤
      gasLimit.val * effectivePrice maxFee maxTip baseFee rate := Nat.mul_le_mul_right _ settles.used
  have offered : gasUsed.val * effectivePrice maxFee maxTip baseFee rate ≤ gasUsed.val * maxFee.val :=
    Nat.mul_le_mul_left _ (effectivePrice_le maxTip settles.covered)
  rw [settled.hold, settled.refund, Nat.sub_mul]
  calc _ ≤ gasUsed.val * effectivePrice maxFee maxTip baseFee rate / 10 ^ 12 + 1 :=
        div_sub_div_le _ (by decide) part
    _ ≤ gasUsed.val * maxFee.val / 10 ^ 12 + 1 := Nat.add_le_add_right (Nat.div_le_div_right offered) 1

end

/-- Settlement is exact and bounded, and succeeds on exactly the fees it can settle. -/
theorem settlement_is_exact (gasLimit gasUsed : U64) (maxFee maxTip baseFee rate : U128) :
    (∀ c, settle gasLimit gasUsed maxFee maxTip baseFee rate = .ok c →
      InRange gasLimit gasUsed maxFee maxTip baseFee rate c ∧
      MoveGas.settle gasLimit gasUsed maxFee maxTip baseFee rate = .ok (some (MoveGas.ofCharge c)) ∧
      c.refund.val + c.tip.val + c.base.val = c.hold.val ∧
      c.hold.val ≤ gasLimit.val * maxFee.val / 10 ^ 12 ∧
      c.tip.val ≤ gasUsed.val * maxTip.val / 10 ^ 12 ∧
      gasUsed.val * (baseFee.val * rate.val / 10 ^ 6) / 10 ^ 12 ≤ c.base.val ∧
      c.hold.val - c.refund.val ≤ gasUsed.val * maxFee.val / 10 ^ 12 + 1) ∧
    ((∃ c, settle gasLimit gasUsed maxFee maxTip baseFee rate = .ok c) ↔
      gasUsed.val ≤ gasLimit.val ∧ gasLimit.val ≤ 30000000 ∧ 0 < rate.val ∧ baseFee.val * rate.val < 2 ^ 128 ∧
      gasLimit.val * effectivePrice maxFee maxTip baseFee rate < 2 ^ 128 ∧
      baseFee.val * rate.val / 10 ^ 6 ≤ maxFee.val ∧
      1 ≤ gasLimit.val * effectivePrice maxFee maxTip baseFee rate / 10 ^ 12) := by
  constructor
  · intro c returned
    obtain ⟨settles, settled⟩ := settled_of_settle returned
    have fits := settled.fits settles
    have whole := settled.base
    refine ⟨settled.inRange settles, ?_, whole, ?_, ?_, ?_, settled.paid_le settles⟩
    · rw [MoveGas.settle_eq, returned]
      rfl
    · rw [settled.hold]
      exact Nat.div_le_div_right (Nat.mul_le_mul_left _ (effectivePrice_le maxTip settles.covered))
    · rw [settled.tip]
      exact Nat.div_le_div_right (Nat.mul_le_mul_left _ (Nat.min_le_left _ _))
    · change gasUsed.val * basePerGas baseFee rate / 10 ^ 12 ≤ c.base.val
      omega
  · constructor
    · rintro ⟨c, returned⟩
      obtain ⟨s, -⟩ := settled_of_settle returned
      exact ⟨s.used, s.limit, s.rated, s.converted, s.held, s.covered, s.positive⟩
    · rintro ⟨used, limit, rated, converted, held, covered, positive⟩
      exact exists_settle ⟨used, limit, rated, converted, covered, held, positive⟩

/-- A hold of three units, of which two are returned. -/
theorem settlement_of_three_units : (settle 120000 41000 50000000 1000000 25000000000 1000).isOk = true ∧
    ∀ c, settle 120000 41000 50000000 1000000 25000000000 1000 = .ok c →
      c.hold.val - c.refund.val ≤ 41000 * 50000000 / 10 ^ 12 + 1 :=
  ⟨by decide +kernel, fun c returned =>
    ((settlement_is_exact 120000 41000 50000000 1000000 25000000000 1000).1 c returned).2.2.2.2.2.2⟩

theorem Settled.one_le_paid_iff (settles : Settles gasLimit gasUsed maxFee maxTip baseFee rate)
    (settled : Settled gasLimit gasUsed maxFee maxTip baseFee rate c) :
    1 ≤ c.hold.val - c.refund.val ↔
      gasLimit.val * effectivePrice maxFee maxTip baseFee rate % 10 ^ 12 <
        gasUsed.val * effectivePrice maxFee maxTip baseFee rate := by
  have part : gasUsed.val * effectivePrice maxFee maxTip baseFee rate ≤
      gasLimit.val * effectivePrice maxFee maxTip baseFee rate := Nat.mul_le_mul_right _ settles.used
  rw [settled.hold, settled.refund, Nat.sub_mul]
  exact one_le_div_sub_div_iff _ (by decide) part

end Gas

namespace Execute

/-- A compiled transaction costs its sender a unit exactly when the gas it uses costs
more than what rounding takes off its hold. -/
theorem costs_a_unit_iff (crypto : Crypto) (tx : Transaction) (ctx : BatchContext) (compiled : List Instruction)
    (accepted : compile crypto tx ctx = .ok compiled) :
    ∃ payload used charge, compilePayload crypto tx.payload tx.sender = .ok payload ∧
      gasUsed tx payload = .ok used ∧ chargeAndPayload crypto tx ctx = .ok (charge, payload) ∧
      compiled = program tx ctx charge payload ∧
      (1 ≤ charge.hold.val - charge.refund.val ↔
        tx.gasLimit.val *
            Gas.effectivePrice tx.maxFeePerGas tx.maxPriorityFeePerGas ctx.baseFee tx.feeRate % 10 ^ 12 <
          used.val * Gas.effectivePrice tx.maxFeePerGas tx.maxPriorityFeePerGas ctx.baseFee tx.feeRate) := by
  obtain ⟨-, -, payload, used, charge, shaped, gas, settled, rfl⟩ := compile_eq_ok.mp accepted
  obtain ⟨settles, parts⟩ := Gas.settled_of_settle settled
  refine ⟨payload, used, charge, shaped, gas, ?_, rfl, parts.one_le_paid_iff settles⟩
  rw [chargeAndPayload, shaped, Move.ok_bind, gas]
  simp only [Except.mapError, Move.ok_bind, settled]
  rfl

theorem payment_costs_a_unit : ∃ charge payload,
    chargeAndPayload Payment.crypto Payment.transaction Payment.context = .ok (charge, payload) ∧
      1 ≤ charge.hold.val - charge.refund.val := by
  obtain ⟨payload, used, charge, shaped, gas, charged, -, paid⟩ := costs_a_unit_iff Payment.crypto
    Payment.transaction Payment.context Payment.program Payment.compiles
  have transfer : compilePayload Payment.crypto Payment.transaction.payload Payment.transaction.sender =
      .ok [.debit Payment.payer 1 1000, .credit Payment.payee 1 1000] := by decide +kernel
  cases shaped.symm.trans transfer
  have counted : gasUsed Payment.transaction [.debit Payment.payer 1 1000, .credit Payment.payee 1 1000] =
      .ok 41000 := by decide +kernel
  cases gas.symm.trans counted
  exact ⟨charge, _, charged, paid.mpr (by decide +kernel)⟩

end Execute

namespace Devnet

def cheapSignature : FixedBytes 64 := .ofHalves
  0x33f146920686a9fd73d17c902f68b5e065e7d4ec74556f165737b61afc71dc91
  0x6972c1ac5260c3125917fe24724ccdc0322c37a1dc220346ee9e9c0db7d67607

def cheapDigest : Bytes :=
  be 32 0xcdf3c6efe64f953736a6c79a077447a7b838d377a9123e9884413c35c0d53701

/-- The devnet's transfer with the largest gas limit, paid in an asset of the lowest rate. -/
def cheap : Transaction :=
  { transaction 0 30000000 (.transfer bob 1 1000) cheapSignature with
    feeRate := 1, maxFeePerGas := 40000, maxPriorityFeePerGas := 15000 }

def cheapCrypto : Crypto := .accepting [(alice.bytes, cheapSignature.bytes, cheapDigest)]

/-- A whole unit is held and the whole unit returned. -/
theorem cheap_transfer_is_free : Execute.compile cheapCrypto cheap context =
      .ok [.consumeNonce alice 0, .verifyGasAsset 1 1 10000, .chargeBaseFee 1700000000 25000000000 41000,
        .debit alice 1 1, .debit alice 1 1000, .credit bob 1 1000, .credit alice 1 1] ∧
    ∃ charge payload, Execute.chargeAndPayload cheapCrypto cheap context = .ok (charge, payload) ∧
      charge.hold.val - charge.refund.val = 0 := by
  refine ⟨by decide +kernel, ⟨41000, 1, 1, 0, 0⟩, [.debit alice 1 1000, .credit bob 1 1000], ?_, by decide⟩
  decide +kernel

end Devnet
end Sena
