import Sena.Move

/-! Fees as the contract computes them: the fee market's step, the settlement of
a hold and the fee split.

Where the source answers `(false, ..)` the model answers `none`; where Move
itself would abort, on arithmetic or on a malformed record, so does the model. -/
namespace Sena.MoveGas

open Move

def RATE_SCALE : U128 := 1000000
def PRICE_SCALE : U128 := 1000000000000
def INTRINSIC_GAS : U64 := 21000
def KEYLESS_GAS : U64 := 100000
def MAX_GAS_LIMIT : U64 := 30000000
def ELASTICITY : U64 := 2
def BASE_FEE_CHANGE_DENOMINATOR : U128 := 8
def DEFAULT_BASE_FEE_FLOOR : U128 := 25000000000
def DEFAULT_GAS_TARGET : U64 := 5000000
def SHARE_SCALE : U64 := 1000000
def MAX_FEE_BENEFICIARIES : Nat := 8
def MAX_U64 : U64 := 18446744073709551615
def MAX_U128 : U128 := 340282366920938463463374607431768211455

/-- `a * b`, or nothing if it would overflow. -/
def mul (a b : U128) : Move (Option U128) := do
  if b.val ≠ 0 ∧ a.val > MAX_U128.val / b.val then return none
  else return some (← Move.mul a b)

structure FeeMarket where
  baseFee : U128
  floor : U128
  target : U64
  windowTs : U64
  windowGas : U64
deriving DecidableEq

/-- `genesis_market`. -/
def genesisMarket : FeeMarket := ⟨DEFAULT_BASE_FEE_FLOOR, DEFAULT_BASE_FEE_FLOOR, DEFAULT_GAS_TARGET, 0, 0⟩

def takeMarket : Codec.Take FeeMarket := do
  let baseFee ← Codec.takeU128
  let floor ← Codec.takeU128
  let target ← Codec.takeU64
  let windowTs ← Codec.takeU64
  let windowGas ← Codec.takeU64
  Codec.finish
  return ⟨baseFee, floor, target, windowTs, windowGas⟩

/-- The market a slot holds; an empty slot is the genesis market. -/
def marketIn (present : Bool) (bytes : Bytes) : Move FeeMarket :=
  if present then takeMarket.run' bytes else .ok genesisMarket

/-- `encode_market`. -/
def encodeMarket (m : FeeMarket) : Bytes :=
  be 16 m.baseFee.val ++ be 16 m.floor.val ++ be 8 m.target.val ++ be 8 m.windowTs.val ++
    be 8 m.windowGas.val

/-- `window_limit`. -/
def windowLimit (m : FeeMarket) : Move U64 :=
  if m.target.val > MAX_U64.val / ELASTICITY.val then .ok MAX_U64 else Move.mul m.target ELASTICITY

/-- Adds `gas` to the window; nothing if that would pass its limit. -/
def charge (m : FeeMarket) (gas : U64) : Move (Option FeeMarket) := do
  if gas.val > MAX_U64.val - m.windowGas.val then return none
  let total ← add m.windowGas gas
  let limit ← windowLimit m
  if total.val > limit.val then return none
  return some { m with windowGas := total }

/-- `set_parameters`: the base fee is raised to the new floor. -/
def setParameters (m : FeeMarket) (floor : U128) (target : U64) : FeeMarket :=
  { m with baseFee := if m.baseFee.val < floor.val then floor else m.baseFee, floor, target }

/-- The rise after a window that used more gas than the target. -/
def raisedBaseFee (base g t : U128) : Move (Option U128) := do
  let excess ← if t.val = 0 then .ok g else sub g t
  let some product ← mul base excess | return none
  let divisor := if t.val = 0 then 1 else t.val
  let delta ← checked 128 (product.val / divisor / BASE_FEE_CHANGE_DENOMINATOR.val)
  let delta := if delta.val = 0 then 1 else delta
  if base.val > MAX_U128.val - delta.val then return none
  return some (← add base delta)

/-- The fall after a window that used at most the target. -/
def loweredBaseFee (base g t : U128) : Move (Option U128) := do
  let unused ← sub t g
  let some product ← mul base unused | return none
  let delta ← checked 128 (product.val / t.val / BASE_FEE_CHANGE_DENOMINATOR.val)
  return some (← sub base delta)

/-- `next_base_fee`: none where the arithmetic does not fit. -/
def nextBaseFee (base : U128) (gas target : U64) (floor : U128) : Move (Option U128) := do
  let g ← checked 128 gas.val
  let t ← checked 128 target.val
  let some next ← if t.val = 0 ∨ g.val > t.val then raisedBaseFee base g t else loweredBaseFee base g t
    | return none
  return some (if next.val < floor.val then floor else next)

/-- The market as a batch stamped `timestamp` sees it. -/
def marketAt (m : FeeMarket) (timestamp : U64) : Move (Option FeeMarket) := do
  if timestamp.val < m.windowTs.val then return none
  if timestamp.val = m.windowTs.val then return some m
  let some next ← nextBaseFee m.baseFee m.windowGas m.target m.floor | return none
  return some { m with baseFee := next, windowTs := timestamp, windowGas := 0 }

/-- `native_to_asset`, rounded down. -/
def nativeToAsset (amount rate : U128) : Move (Option U128) := do
  if rate.val = 0 then return none
  let some product ← mul amount rate | return none
  return some (← checked 128 (product.val / RATE_SCALE.val))

def total (gas : U64) (price : U128) : Move (Option U128) := do
  let some product ← mul (← checked 128 gas.val) price | return none
  return some (← checked 128 (product.val / PRICE_SCALE.val))

structure Settlement where
  hold : U128
  refund : U128
  tip : U128
  base : U128
deriving DecidableEq

/-- Every rounding remainder goes into `base`, so the three parts sum to the hold. -/
def settle (gasLimit gasUsed : U64) (maxFeePerGas maxPriorityFeePerGas baseFee rate : U128) :
    Move (Option Settlement) := do
  if gasLimit.val > MAX_GAS_LIMIT.val ∨ gasUsed.val > gasLimit.val then return none
  let some basePerGas ← nativeToAsset baseFee rate | return none
  if maxFeePerGas.val < basePerGas.val then return none
  let headroom ← sub maxFeePerGas basePerGas
  let tipPerGas := if maxPriorityFeePerGas.val < headroom.val then maxPriorityFeePerGas else headroom
  let price ← add basePerGas tipPerGas
  let some hold ← total gasLimit price | return none
  if hold.val = 0 then return none
  let refunded ← total (← sub gasLimit gasUsed) price
  let tipped ← total gasUsed tipPerGas
  let based ← total gasUsed basePerGas
  match refunded, tipped, based with
  | some refund, some tip, some base =>
    let remainder ← sub (← sub (← sub hold refund) tip) base
    return some ⟨hold, refund, tip, ← add base remainder⟩
  | _, _, _ => return none

structure Split where
  /-- Beneficiaries with their shares, in order. -/
  shares : List (Bytes × U32)
  burn : U32
deriving DecidableEq

def takeSplit : Codec.Take Split := do
  let count ← Codec.takeU32
  if count.val > MAX_FEE_BENEFICIARIES then throw (.code .gas Codec.E_UNKNOWN_VARIANT)
  let shares ← Codec.takeMany (do
    let address ← Codec.takeBytes 32
    let share ← Codec.takeU32
    return (address, share)) count.val
  let burn ← Codec.takeU32
  Codec.finish
  return ⟨shares, burn⟩

/-- `parse_split`. -/
def parseSplit (bytes : Bytes) : Move Split := takeSplit.run' bytes

/-- Distinct beneficiaries with non-zero shares, all shares summing to the scale.
At most eight 32-bit shares never overflow the sum. -/
def splitIsValid (bytes : Bytes) : Move Bool := do
  let split ← parseSplit bytes
  return (split.shares.map (·.1)).Nodup ∧ (∀ e ∈ split.shares, e.2.val ≠ 0) ∧
    split.burn.val + (split.shares.map (·.2.val)).sum = SHARE_SCALE.val

/-- What each beneficiary receives of `amount`, rounded down. -/
def sharesOf (bytes : Bytes) (amount : U128) : Move (Option (List (Bytes × U128))) := do
  let split ← parseSplit bytes
  let values ← split.shares.mapM fun e => do
    let some product ← mul amount (← checked 128 e.2.val) | return none
    return some (e.1, ← checked 128 (product.val / SHARE_SCALE.val))
  return values.mapM id

end Sena.MoveGas
