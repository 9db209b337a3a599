import Mathlib.Data.Nat.ModEq
import Mathlib.Tactic.Ring
import Sena.MoveGas
import Sena.WireProofs

/-! Fees, computed twice.

The node's checked arithmetic answers with an error where the contract answers
`none`, and the contract's own arithmetic would abort where the node's cannot
fail. Each function of the contract is shown to return, and to return what the
node's returns: `.ok (node.toOption.map view)`, with `view` the contract's form
of the result. -/
namespace Sena

open Move
open Gas (widen)

@[simp] theorem toOption_ok (a : α) : (Except.ok a : Except ε α).toOption = some a := rfl

@[simp] theorem toOption_error (e : ε) : (Except.error e : Except ε α).toOption = none := rfl

theorem toOption_bind (x : Except ε α) (f : α → Except ε β) :
    (x >>= f).toOption = x.toOption.bind fun a => (f a).toOption := by
  cases x <;> rfl

namespace Gas

theorem checked_of_lt (small : n < 2 ^ w) : checked w n = .ok ⟨n, small⟩ := dif_pos small

theorem checked_of_le (large : 2 ^ w ≤ n) : checked w n = .error .overflow :=
  dif_neg (Nat.not_lt.mpr large)

theorem checked_eq_ok {r : Fin (2 ^ w)} : checked w n = .ok r ↔ r.val = n := by
  unfold checked
  split
  · simp [Fin.ext_iff, eq_comm]
  · rename_i large
    simp only [reduceCtorEq, false_iff]
    rintro rfl
    exact large r.isLt

end Gas

namespace MoveGas

variable {gas : U64} {price amount rate baseFee : U128}

/-- The guard before a product is exact. -/
theorem mul_eq (a b : U128) : mul a b = .ok (Gas.checked 128 (a.val * b.val)).toOption := by
  have bound : b.val ≠ 0 ∧ a.val > MAX_U128.val / b.val ↔ 2 ^ 128 ≤ a.val * b.val := by
    constructor
    · rintro ⟨nonzero, large⟩
      have := (Nat.div_lt_iff_lt_mul (Nat.pos_of_ne_zero nonzero)).mp large
      change 2 ^ 128 - 1 < _ at this
      omega
    · intro large
      have nonzero : b.val ≠ 0 := fun zero => by simp [zero] at large
      refine ⟨nonzero, (Nat.div_lt_iff_lt_mul (Nat.pos_of_ne_zero nonzero)).mpr ?_⟩
      change 2 ^ 128 - 1 < _
      omega
  unfold mul
  by_cases large : 2 ^ 128 ≤ a.val * b.val
  · rw [if_pos (bound.mpr large), Gas.checked_of_le large]
    rfl
  · rw [if_neg (mt bound.mp large), Gas.checked_of_lt (Nat.not_le.mp large), Move.mul,
      checked_of_lt (Nat.not_le.mp large)]
    rfl

theorem checked_div (n : U128) (d : Nat) :
    checked 128 (n.val / d) = .ok ⟨n.val / d, Nat.lt_of_le_of_lt (Nat.div_le_self _ _) n.isLt⟩ :=
  checked_of_lt _

theorem checked_widen (n : U64) : checked 128 n.val = .ok (widen n) := checked_of_lt _

theorem nativeToAsset_eq : nativeToAsset amount rate = .ok (Gas.nativeToAsset amount rate).toOption := by
  unfold nativeToAsset Gas.nativeToAsset
  split
  · rfl
  · rw [mul_eq]
    cases Gas.checked 128 (amount.val * rate.val) with
    | error _ => rfl
    | ok product =>
      change (checked 128 (product.val / _) >>= fun r => pure (some r)) = _
      rw [checked_div]
      rfl

theorem total_eq : total gas price = .ok (Gas.total gas price).toOption := by
  unfold total Gas.total
  rw [checked_widen, ok_bind, mul_eq]
  change (_ >>= fun r => _) = Except.ok (Gas.checked 128 (gas.val * price.val) >>= _).toOption
  change ((Except.ok (Gas.checked 128 (gas.val * price.val)).toOption : Move _) >>= _) = _
  cases Gas.checked 128 (gas.val * price.val) with
  | error _ => rfl
  | ok product =>
    change (checked 128 (product.val / _) >>= fun r => pure (some r)) = _
    rw [checked_div]
    rfl

end MoveGas

namespace Gas

theorem total_eq_ok {r : U128} : total gas price = .ok r ↔
    gas.val * price.val < 2 ^ 128 ∧ r.val = gas.val * price.val / PRICE_SCALE.val := by
  unfold total
  by_cases small : gas.val * price.val < 2 ^ 128
  · rw [checked_of_lt small, ok_bind, pure_iff, Fin.ext_iff, and_iff_right small]
    exact eq_comm
  · rw [checked_of_le (Nat.not_lt.mp small), error_bind]
    simp only [reduceCtorEq, small, false_and]

theorem parts_le (base tip scale : Nat) (within : used ≤ limit) :
    (limit - used) * (base + tip) / scale + used * tip / scale + used * base / scale ≤
      limit * (base + tip) / scale := by
  obtain ⟨rest, rfl⟩ := Nat.exists_eq_add_of_le within
  rw [Nat.add_sub_cancel_left]
  calc rest * (base + tip) / scale + used * tip / scale + used * base / scale
      ≤ (rest * (base + tip) + used * tip) / scale + used * base / scale :=
        Nat.add_le_add_right Nat.div_add_div_le_add_div _
    _ ≤ (rest * (base + tip) + used * tip + used * base) / scale := Nat.div_add_div_le_add_div
    _ = (used + rest) * (base + tip) / scale := by ring_nf

theorem price_lt {base maxFee : U128} (maxTip : U128) (enough : base.val ≤ maxFee.val) :
    base.val + (min maxTip (maxFee - base)).val < 2 ^ 128 := by
  have headroom : (maxFee - base).val = maxFee.val - base.val := Fin.sub_val_of_le enough
  have tipBound : (min maxTip (maxFee - base)).val ≤ (maxFee - base).val :=
    Fin.le_def.mp (min_le_right _ _)
  omega

/-- The totals of a settlement fit into its hold. -/
theorem totals_le {gasLimit gasUsed : U64} {base tipPerGas hold refund tip paid : U128}
    (priced : base.val + tipPerGas.val < 2 ^ 128) (within : gasUsed.val ≤ gasLimit.val)
    (held : total gasLimit (base + tipPerGas) = .ok hold)
    (refunded : total (gasLimit - gasUsed) (base + tipPerGas) = .ok refund)
    (tipped : total gasUsed tipPerGas = .ok tip) (based : total gasUsed base = .ok paid) :
    refund.val + tip.val + paid.val ≤ hold.val := by
  have price : (base + tipPerGas).val = base.val + tipPerGas.val := by
    rw [Fin.val_add, Nat.mod_eq_of_lt priced]
  have left : (gasLimit - gasUsed).val = gasLimit.val - gasUsed.val := Fin.sub_val_of_le within
  rw [(total_eq_ok.mp held).2, (total_eq_ok.mp refunded).2, (total_eq_ok.mp tipped).2,
    (total_eq_ok.mp based).2, price, left]
  exact parts_le _ _ _ within

/-- What the parts leave of a hold. -/
theorem remainder_eq {hold refund tip paid : U128} (parts : refund.val + tip.val + paid.val ≤ hold.val) :
    (hold - refund).val = hold.val - refund.val ∧ (hold - refund - tip).val = hold.val - refund.val - tip.val ∧
      (hold - refund - tip - paid).val = hold.val - refund.val - tip.val - paid.val := by
  have first : (hold - refund).val = hold.val - refund.val := Fin.sub_val_of_le (by omega)
  have second : (hold - refund - tip).val = (hold - refund).val - tip.val := Fin.sub_val_of_le (by omega)
  have third : (hold - refund - tip - paid).val = (hold - refund - tip).val - paid.val :=
    Fin.sub_val_of_le (by omega)
  omega

/-- What a settlement is made of: the parts of the hold add up to it. -/
theorem settle_spec {charge : FeeCharge} (settled : settle gasLimit gasUsed maxFee maxTip baseFee rate = .ok charge) :
    charge.gasUsed = gasUsed ∧ charge.refund.val + charge.tip.val + charge.base.val = charge.hold.val := by
  unfold settle at settled
  split at settled
  · cases settled
  split at settled
  · cases settled
  rename_i low
  obtain ⟨base, _, settled⟩ := bind_eq_ok.mp settled
  split at settled
  · cases settled
  rename_i below
  obtain ⟨hold, held, settled⟩ := bind_eq_ok.mp settled
  split at settled
  · cases settled
  obtain ⟨refund, refunded, settled⟩ := bind_eq_ok.mp settled
  obtain ⟨tip, tipped, settled⟩ := bind_eq_ok.mp settled
  obtain ⟨paid, based, settled⟩ := bind_eq_ok.mp settled
  cases settled
  refine ⟨rfl, ?_⟩
  have parts := totals_le (price_lt maxTip (Nat.not_lt.mp below)) (Nat.not_lt.mp low) held refunded tipped based
  have left := (remainder_eq parts).2.2
  change refund.val + tip.val + (paid + (hold - refund - tip - paid)).val = hold.val
  rw [Fin.val_add, Nat.mod_eq_of_lt (by omega)]
  omega

end Gas

namespace MoveGas

/-- A settlement as the contract holds it. -/
def ofCharge (charge : FeeCharge) : Settlement := ⟨charge.hold, charge.refund, charge.tip, charge.base⟩

private theorem smaller_eq_min (a b : U128) : (if a.val < b.val then a else b) = min a b := by
  rw [min_def]
  by_cases less : a.val < b.val
  · rw [if_pos less, if_pos (Fin.le_def.mpr less.le)]
  · rw [if_neg less]
    split
    · rename_i le
      exact Fin.ext (Nat.le_antisymm (Nat.not_lt.mp less) (Fin.le_def.mp le))
    · rfl

/-- The contract settles as the node does, and never underflows: the parts fit
into the hold. -/
theorem settle_eq (gasLimit gasUsed : U64) (maxFee maxTip baseFee rate : U128) :
    settle gasLimit gasUsed maxFee maxTip baseFee rate =
      .ok ((Gas.settle gasLimit gasUsed maxFee maxTip baseFee rate).toOption.map ofCharge) := by
  unfold settle Gas.settle
  change (if gasLimit.val > Gas.MAX_GAS_LIMIT.val ∨ gasUsed.val > gasLimit.val then _ else _) = _
  by_cases high : gasLimit.val > Gas.MAX_GAS_LIMIT.val
  · rw [if_pos (.inl high), if_pos high]
    rfl
  by_cases low : gasUsed.val > gasLimit.val
  · rw [if_pos (.inr low), if_neg high, if_pos low]
    rfl
  rw [if_neg (not_or.mpr ⟨high, low⟩), if_neg high, if_neg low, nativeToAsset_eq]
  cases Gas.nativeToAsset baseFee rate with
  | error _ => rfl
  | ok base =>
    simp only [ok_bind, Except.toOption]
    by_cases below : maxFee.val < base.val
    · rw [if_pos below, if_pos below]
      rfl
    have priced := Gas.price_lt maxTip (Nat.not_lt.mp below)
    rw [if_neg below, if_neg below, sub_of_le (Nat.not_lt.mp below), ok_bind, smaller_eq_min,
      add_of_lt priced, ok_bind, total_eq]
    generalize min maxTip (maxFee - base) = tipPerGas at *
    cases held : Gas.total gasLimit (base + tipPerGas) with
    | error _ => rfl
    | ok hold =>
      simp only [ok_bind, Except.toOption]
      by_cases zero : hold.val = 0
      · rw [if_pos zero, if_pos zero]
        rfl
      rw [if_neg zero, if_neg zero, sub_of_le (Nat.not_lt.mp low), ok_bind, total_eq, total_eq, total_eq]
      cases refunded : Gas.total (gasLimit - gasUsed) (base + tipPerGas) with
      | error _ => rfl
      | ok refund =>
        cases tipped : Gas.total gasUsed tipPerGas with
        | error _ => rfl
        | ok tip =>
          cases based : Gas.total gasUsed base with
          | error _ => rfl
          | ok paid =>
            have parts := Gas.totals_le priced (Nat.not_lt.mp low) held refunded tipped based
            obtain ⟨left₁, left₂, left₃⟩ := Gas.remainder_eq parts
            simp only [ok_bind, Except.toOption]
            rw [sub_of_le (by omega), ok_bind, sub_of_le (by omega), ok_bind, sub_of_le (by omega), ok_bind,
              add_of_lt (by omega)]
            rfl

end MoveGas

theorem FeeSplit.check_isOk_iff {split : FeeSplit} : split.check.isOk = true ↔ split.Fits ∧
    (split.beneficiaries.map (·.1)).Nodup ∧ (∀ e ∈ split.beneficiaries, e.2.val ≠ 0) ∧
      split.burn.val + (split.beneficiaries.map (·.2.val)).sum = Gas.SHARE_SCALE.val := by
  have nonzero : (∀ e ∈ split.beneficiaries, e.2.val ≠ 0) ↔ ¬∃ e ∈ split.beneficiaries, e.2.val = 0 := by
    simp only [not_exists, not_and, ne_eq]
  rw [nonzero, check]
  split
  · rename_i many
    simp [Except.isOk, Except.toBool, Fits, Nat.not_le.mpr many]
  · rename_i few
    split
    · rename_i bad
      simp only [Except.isOk, Except.toBool, Bool.false_eq_true, false_iff]
      rintro ⟨_, distinct, nonzero, _⟩
      exact bad.elim nonzero (· distinct)
    · rename_i good
      obtain ⟨nonzero, distinct⟩ := not_or.mp good
      simp only [nonzero, not_not.mp distinct, Fits, Nat.not_lt.mp few, true_and, not_false_eq_true]
      split <;> simp_all [Except.isOk, Except.toBool]

namespace MoveGas

/-- A split as the contract holds it. -/
def ofSplit (split : FeeSplit) : Split := ⟨split.beneficiaries.map fun e => (e.1.bytes, e.2), split.burn⟩

theorem parseSplit_encode {split : FeeSplit} (fits : split.Fits) : parseSplit split.encode = .ok (ofSplit split) := by
  have entry : ∀ (input : Bytes) (e : Bytes × U32) (rest : Bytes),
      (do let address ← Codec.takeBytes 32
          let share ← Codec.takeU32
          return (address, share) : Codec.Take (Bytes × U32)) input = .ok (e, rest) ↔
        ∃ b : L2Address × U32, True ∧ input = (b.1.bytes ++ be 4 b.2.val) ++ rest ∧ e = (b.1.bytes, b.2) := by
    intro input e rest
    simp only [Reader.bind_eq_ok, Reader.pure_eq_ok, Codec.takeBytes_eq_ok, Codec.takeU32_eq_ok]
    constructor
    · rintro ⟨address, _, ⟨sized, rfl⟩, share, _, rfl, rfl, rfl⟩
      exact ⟨(⟨address, sized⟩, share), trivial, by simp, rfl⟩
    · rintro ⟨b, _, rfl, rfl⟩
      exact ⟨_, _, ⟨b.1.length_eq, List.append_assoc _ _ _⟩, b.2, rest, rfl, rfl, rfl⟩
  have few : split.beneficiaries.length < 2 ^ 32 := Nat.lt_of_le_of_lt fits (by decide)
  rw [parseSplit, Reader.run'_eq_ok]
  simp only [takeSplit, Reader.bind_eq_ok, Reader.ite_eq_ok, Reader.throw_eq_ok, Reader.pure_eq_ok,
    Codec.takeU32_eq_ok, Codec.takeMany_eq_ok _ _ _ entry, Codec.finish_eq_ok, false_and, exists_false,
    and_false, false_or]
  exact ⟨[], ⟨_, few⟩, _, by rw [FeeSplit.encode, List.append_assoc], Nat.not_lt.mpr fits, _, _,
    ⟨split.beneficiaries, rfl, fun _ _ => trivial, rfl, rfl⟩, split.burn, [], by simp, (), [], ⟨rfl, rfl⟩,
    rfl, rfl⟩

theorem splitIsValid_encode {split : FeeSplit} (fits : split.Fits) :
    splitIsValid split.encode = .ok split.check.isOk := by
  have distinct : ((ofSplit split).shares.map (·.1)).Nodup ↔ (split.beneficiaries.map (·.1)).Nodup := by
    have : (ofSplit split).shares.map (·.1) = (split.beneficiaries.map (·.1)).map (·.bytes) := by
      simp [ofSplit]
    rw [this]
    exact List.nodup_map_iff fun _ _ => FixedBytes.ext
  have nonzero : (∀ e ∈ (ofSplit split).shares, e.2.val ≠ 0) ↔ ∀ e ∈ split.beneficiaries, e.2.val ≠ 0 := by
    simp only [ofSplit, List.forall_mem_map]
  have summed : (ofSplit split).shares.map (·.2.val) = split.beneficiaries.map (·.2.val) := by
    simp [ofSplit]
  rw [splitIsValid, parseSplit_encode fits, ok_bind, pure_iff, Bool.eq_iff_iff,
    decide_eq_true_iff, FeeSplit.check_isOk_iff, distinct, nonzero, summed]
  exact ⟨fun valid => ⟨fits, valid⟩, fun valid => valid.2⟩

theorem mapM_of_ok {f : α → Move β} {g : α → β} (each : ∀ a, f a = .ok (g a)) (items : List α) :
    items.mapM f = .ok (items.map g) := by
  induction items with
  | nil => rfl
  | cons a items ih =>
    rw [List.mapM_cons, each, ok_bind, ih]
    rfl

theorem mapM_toOption (f : α → Except ε β) (view : β → γ) (items : List α) :
    (items.map fun a => (f a).toOption.map view).mapM id = (items.mapM f).toOption.map (·.map view) := by
  induction items with
  | nil => rfl
  | cons a items ih =>
    rw [List.map_cons, List.mapM_cons, List.mapM_cons, ih]
    cases f a with
    | error _ => rfl
    | ok b => cases items.mapM f <;> rfl

theorem sharesOf_encode {split : FeeSplit} (fits : split.Fits) (amount : U128) : sharesOf split.encode amount =
      .ok ((split.sharesOf amount).toOption.map (·.map fun share => (share.1.bytes, share.2))) := by
  rw [sharesOf, parseSplit_encode fits, ok_bind, ofSplit, List.mapM_map, mapM_of_ok fun e => ?_]
  · rw [ok_bind, mapM_toOption]
    rfl
  · have small : e.2.val < 2 ^ 128 := Nat.lt_trans e.2.isLt (by decide)
    simp only [Function.comp, checked_of_lt small, ok_bind, mul_eq]
    cases Gas.checked 128 (amount.val * e.2.val) with
    | error _ => rfl
    | ok product =>
      simp only [ok_bind, Except.toOption, checked_div]
      rfl

/-- A market as the contract holds it. -/
def ofMarket (m : Sena.FeeMarket) : FeeMarket := ⟨m.baseFee, m.floor, m.target, m.windowTs, m.windowGas⟩

private theorem greater_eq_max (a b : U128) : (if a.val < b.val then b else a) = max a b := by
  rw [max_def]
  by_cases less : a.val < b.val
  · rw [if_pos less, if_pos (Fin.le_def.mpr less.le)]
  · rw [if_neg less]
    split
    · rename_i le
      exact Fin.ext (Nat.le_antisymm (Fin.le_def.mp le) (Nat.not_lt.mp less))
    · rfl

theorem setParameters_ofMarket (m : Sena.FeeMarket) (floor : U128) (target : U64) :
    setParameters (ofMarket m) floor target =
      ofMarket { m with baseFee := max m.baseFee floor, floor, target } := by
  simp only [setParameters, ofMarket, FeeMarket.mk.injEq, and_true]
  exact greater_eq_max _ _

theorem windowLimit_ofMarket (m : Sena.FeeMarket) :
    ∃ limit, windowLimit (ofMarket m) = .ok limit ∧ limit.val = m.windowLimit := by
  unfold windowLimit Sena.FeeMarket.windowLimit
  change ∃ limit, (if m.target.val > (2 ^ 64 - 1) / 2 then _ else Move.mul m.target 2) = _ ∧
    _ = min (m.target.val * 2) _
  split
  · exact ⟨MAX_U64, rfl, by change 2 ^ 64 - 1 = _; omega⟩
  · have small : m.target.val * 2 < 2 ^ 64 := by omega
    exact ⟨⟨m.target.val * 2, small⟩, mul_eq_ok.mpr rfl, by simp only; omega⟩

theorem charge_ofMarket (m : Sena.FeeMarket) (gas : U64) : charge (ofMarket m) gas = .ok
    (if fits : m.windowGas.val + gas.val < 2 ^ 64 then
      if m.windowGas.val + gas.val ≤ m.windowLimit then
        some (ofMarket { m with windowGas := ⟨_, fits⟩ })
      else none
    else none) := by
  obtain ⟨limit, limited, same⟩ := windowLimit_ofMarket m
  unfold charge
  change (if gas.val > 2 ^ 64 - 1 - m.windowGas.val then _ else add m.windowGas gas >>= _) = _
  by_cases fits : m.windowGas.val + gas.val < 2 ^ 64
  · rw [if_neg (by omega), dif_pos fits, add, checked_of_lt fits, ok_bind, limited, ok_bind, same]
    by_cases within : m.windowGas.val + gas.val ≤ m.windowLimit
    · rw [if_neg (Nat.not_lt.mpr within), if_pos within]
      rfl
    · rw [if_pos (Nat.not_le.mp within), if_neg within]
      rfl
  · rw [if_pos (by omega), dif_neg fits]
    rfl

private theorem raise_eq (base excess : U128) (divisor : Nat) : (do
      let some product ← mul base excess | return none
      let delta ← checked 128 (product.val / divisor / BASE_FEE_CHANGE_DENOMINATOR.val)
      let delta := if delta.val = 0 then 1 else delta
      if base.val > MAX_U128.val - delta.val then return none
      return some (← add base delta) : Move (Option U128)) = .ok (do
      let product ← Gas.checked 128 (base.val * excess.val)
      Gas.checked 128 (base.val +
        max (product.val / divisor / Gas.BASE_FEE_CHANGE_DENOMINATOR.val) 1)).toOption := by
  rw [mul_eq]
  cases Gas.checked 128 (base.val * excess.val) with
  | error _ => rfl
  | ok product =>
    obtain ⟨delta, counted, value⟩ : ∃ delta : U128,
        checked 128 (product.val / divisor / BASE_FEE_CHANGE_DENOMINATOR.val) = .ok delta ∧
          delta.val = product.val / divisor / Gas.BASE_FEE_CHANGE_DENOMINATOR.val :=
      ⟨⟨_, Nat.lt_of_le_of_lt ((Nat.div_le_self _ _).trans (Nat.div_le_self _ _)) product.isLt⟩,
        checked_eq_ok.mpr rfl, rfl⟩
    have step : (if delta.val = 0 then 1 else delta).val = max delta.val 1 := by
      split
      · change 1 = _
        omega
      · omega
    simp only [ok_bind, Except.toOption, counted]
    rw [← value, ← step]
    generalize (if delta.val = 0 then 1 else delta) = delta
    change (if base.val > 2 ^ 128 - 1 - delta.val then _ else _) = _
    by_cases fits : base.val + delta.val < 2 ^ 128
    · rw [if_neg (by omega), Gas.checked_of_lt fits, add, checked_of_lt fits]
      rfl
    · rw [if_pos (by omega), Gas.checked_of_le (Nat.not_lt.mp fits)]
      rfl

theorem raisedBaseFee_eq (base : U128) {gas target : U64} (exceeded : target.val = 0 ∨ gas.val > target.val) :
    raisedBaseFee base (widen gas) (widen target) = .ok (do
      let product ← Gas.checked 128 (base.val * if target.val = 0 then gas.val else gas.val - target.val)
      Gas.checked 128 (base.val +
        max (product.val / max target.val 1 / Gas.BASE_FEE_CHANGE_DENOMINATOR.val) 1)).toOption := by
  unfold raisedBaseFee
  by_cases zero : (widen target).val = 0
  · have none : target.val = 0 := zero
    rw [if_pos zero, if_pos none, if_pos zero, none]
    exact raise_eq base (widen gas) 1
  · have some : target.val ≠ 0 := zero
    have more : (widen target).val ≤ (widen gas).val := by
      change target.val ≤ gas.val
      omega
    have excess : (widen gas - widen target).val = gas.val - target.val := Fin.sub_val_of_le more
    have divisor : max target.val 1 = (widen target).val := by
      change _ = target.val
      omega
    rw [if_neg zero, if_neg some, if_neg zero, sub_of_le more, ok_bind, divisor, ← excess]
    exact raise_eq base _ _

/-- The fall is at most an eighth of the base fee. -/
theorem loweredBaseFee_eq (base : U128) {gas target : U64} (within : gas.val ≤ target.val) :
    loweredBaseFee base (widen gas) (widen target) = .ok (do
      let product ← Gas.checked 128 (base.val * (target.val - gas.val))
      Gas.checked 128 (base.val - product.val / target.val / Gas.BASE_FEE_CHANGE_DENOMINATOR.val)).toOption := by
  unfold loweredBaseFee
  have widened : (widen gas).val ≤ (widen target).val := within
  have unused : (widen target - widen gas).val = target.val - gas.val := Fin.sub_val_of_le widened
  rw [sub_of_le widened, ok_bind, mul_eq, unused]
  cases multiplied : Gas.checked 128 (base.val * (target.val - gas.val)) with
  | error _ => rfl
  | ok product =>
    have fall : product.val / target.val / BASE_FEE_CHANGE_DENOMINATOR.val ≤ base.val := by
      refine (Nat.div_le_self _ _).trans (Nat.div_le_of_le_mul ?_)
      rw [Gas.checked_eq_ok.mp multiplied, Nat.mul_comm]
      exact Nat.mul_le_mul_right _ (Nat.sub_le _ _)
    have small : product.val / target.val / BASE_FEE_CHANGE_DENOMINATOR.val < 2 ^ 128 :=
      Nat.lt_of_le_of_lt fall base.isLt
    have left : base.val - product.val / target.val / BASE_FEE_CHANGE_DENOMINATOR.val < 2 ^ 128 :=
      Nat.lt_of_le_of_lt (Nat.sub_le _ _) base.isLt
    change (checked 128 (product.val / target.val / BASE_FEE_CHANGE_DENOMINATOR.val) >>= fun delta =>
      sub base delta >>= fun next => pure (some next)) = Except.ok (Gas.checked 128 (base.val -
        product.val / target.val / BASE_FEE_CHANGE_DENOMINATOR.val)).toOption
    rw [checked_of_lt small, ok_bind, Gas.checked_of_lt left, sub, if_pos fall, checked_of_lt left]
    rfl

theorem nextBaseFee_eq (base : U128) (gas target : U64) (floor : U128) :
    nextBaseFee base gas target floor = .ok (Gas.nextBaseFee base gas target floor).toOption := by
  unfold nextBaseFee Gas.nextBaseFee
  rw [checked_widen, ok_bind, checked_widen, ok_bind]
  by_cases exceeded : target.val = 0 ∨ gas.val > target.val
  · have widened : (widen target).val = 0 ∨ (widen gas).val > (widen target).val := exceeded
    rw [if_pos widened, if_pos exceeded, raisedBaseFee_eq base exceeded]
    simp only
    cases Gas.checked 128 (base.val * if target.val = 0 then gas.val else gas.val - target.val) with
    | error _ => rfl
    | ok product =>
      simp only [ok_bind]
      cases Gas.checked 128 (base.val +
        max (product.val / max target.val 1 / Gas.BASE_FEE_CHANGE_DENOMINATOR.val) 1) with
      | error _ => rfl
      | ok next => exact congrArg (fun n => Except.ok (some n)) (greater_eq_max next floor)
  · have widened : ¬((widen target).val = 0 ∨ (widen gas).val > (widen target).val) := exceeded
    rw [if_neg widened, if_neg exceeded, loweredBaseFee_eq base (by omega)]
    cases Gas.checked 128 (base.val * (target.val - gas.val)) with
    | error _ => rfl
    | ok product =>
      simp only [ok_bind]
      cases Gas.checked 128 (base.val -
        product.val / target.val / Gas.BASE_FEE_CHANGE_DENOMINATOR.val) with
      | error _ => rfl
      | ok next => exact congrArg (fun n => Except.ok (some n)) (greater_eq_max next floor)

theorem marketAt_ofMarket (m : Sena.FeeMarket) (timestamp : U64) :
    marketAt (ofMarket m) timestamp = .ok ((m.atTimestamp timestamp).toOption.map ofMarket) := by
  unfold marketAt Sena.FeeMarket.atTimestamp
  change (if timestamp.val < m.windowTs.val then _ else if timestamp.val = m.windowTs.val then _ else _) = _
  by_cases past : timestamp.val < m.windowTs.val
  · rw [if_pos past, if_pos past]
    rfl
  · rw [if_neg past, if_neg past]
    by_cases same : timestamp = m.windowTs
    · rw [if_pos (congrArg Fin.val same), if_pos same]
      rfl
    · rw [if_neg (fun equal => same (Fin.ext equal)), if_neg same, ofMarket, nextBaseFee_eq]
      cases Gas.nextBaseFee m.baseFee m.windowGas m.target m.floor <;> rfl

end MoveGas
end Sena
