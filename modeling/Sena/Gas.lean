import Mathlib.Order.Fin.Basic
import Sena.Primitives

/-! Fees as the node computes them: the fee market and its step from one window
to the next, the settlement of a hold, and the split of collected fees.

Checked arithmetic answers `overflow`; every other operation stays in range for
the reasons the source gives beside it. -/
namespace Sena
namespace Gas

def RATE_SCALE : U128 := 1000000
def PRICE_SCALE : U128 := 1000000000000
def INTRINSIC_GAS : U64 := 21000
def KEYLESS_GAS : U64 := 100000
def MAX_GAS_LIMIT : U64 := 30000000
def ELASTICITY : U64 := 2
def BASE_FEE_CHANGE_DENOMINATOR : U128 := 8
def DEFAULT_BASE_FEE_FLOOR : U128 := 25000000000
def DEFAULT_GAS_TARGET : U64 := 5000000
def SHARE_SCALE : U32 := 1000000
def MAX_FEE_BENEFICIARIES : Nat := 8

end Gas

/-- Why a fee computation failed. -/
inductive GasError where
  | zeroRate
  | overflow
  | feeBelowBaseFee (offered baseFee : U128)
  | gasLimitTooLow (limit required : U64)
  | gasLimitTooHigh (limit : U64)
  | feeRoundsToZero
  | timestampRegressed
  | invalidFeeSplit
  | invalidFeeMarket
deriving DecidableEq

/-- Stored bytes were not a valid fee record. -/
inductive MalformedRecord where
  | malformedRecord
deriving DecidableEq

namespace Gas

/-- What `checked_add` and `checked_mul` return: a result the type can hold. -/
def checked (w n : Nat) : Except GasError (Fin (2 ^ w)) :=
  if small : n < 2 ^ w then .ok ⟨n, small⟩ else .error .overflow

/-- A wider type holds every value of a narrower one. -/
def widen (n : U64) : U128 := ⟨n.val, Nat.lt_trans n.isLt (by decide)⟩

/-- Decodes a stored record, whatever the reason it does not decode. -/
def decodeRecord (reader : Reader α) (bytes : Bytes) : Except MalformedRecord α :=
  match reader.readAll bytes with
  | .ok record => .ok record
  | .error _ => .error .malformedRecord

def encodeBool (value : Bool) : UInt8 := if value then 1 else 0

end Gas

/-- A whitelisted gas asset and its rate. -/
structure WhitelistedAsset where
  asset : U32
  symbol : Utf8
  rate : U128
  intrinsicGas : U64
  enabled : Bool
deriving DecidableEq

namespace WhitelistedAsset

def encode (record : WhitelistedAsset) : Bytes :=
  be 4 record.asset.val ++ frame record.symbol.bytes ++ be 16 record.rate.val ++
    be 8 record.intrinsicGas.val ++ [Gas.encodeBool record.enabled]

def decodeInner : Reader WhitelistedAsset := do
  let asset ← Reader.u32
  let symbol ← Reader.string
  let rate ← Reader.u128
  let intrinsicGas ← Reader.u64
  let enabled ← Reader.bool
  Reader.finish
  return ⟨asset, symbol, rate, intrinsicGas, enabled⟩

def decode : Bytes → Except MalformedRecord WhitelistedAsset := Gas.decodeRecord decodeInner

end WhitelistedAsset

/-- The base fee and the demand it follows. -/
structure FeeMarket where
  baseFee : U128
  floor : U128
  target : U64
  windowTs : U64
  windowGas : U64
deriving DecidableEq

namespace Gas

/-- One step of the base fee after a window that used `gas` against `target`,
never below `floor`. A target of zero counts as exceeded. -/
def nextBaseFee (base : U128) (gas target : U64) (floor : U128) : Except GasError U128 := do
  let next ←
    if target.val = 0 ∨ gas.val > target.val then do
      let excess := if target.val = 0 then gas.val else gas.val - target.val
      let product ← checked 128 (base.val * excess)
      let delta := product.val / max target.val 1 / BASE_FEE_CHANGE_DENOMINATOR.val
      checked 128 (base.val + max delta 1)
    else do
      let product ← checked 128 (base.val * (target.val - gas.val))
      let delta := product.val / target.val / BASE_FEE_CHANGE_DENOMINATOR.val
      -- at most an eighth of the base fee
      checked 128 (base.val - delta)
  return max next floor

end Gas

namespace FeeMarket

/-- A market starting at `floor` with nothing used yet. -/
def genesis (floor : U128) (target : U64) : FeeMarket := ⟨floor, floor, target, 0, 0⟩

/-- Saturating, so that no target makes the limit wrap. -/
def windowLimit (market : FeeMarket) : Nat :=
  min (market.target.val * Gas.ELASTICITY.val) (2 ^ 64 - 1)

/-- The market as a batch stamped `timestamp` sees it: rolled into a new window
if `timestamp` is past the current one. -/
def atTimestamp (market : FeeMarket) (timestamp : U64) : Except GasError FeeMarket :=
  if timestamp.val < market.windowTs.val then .error .timestampRegressed
  else if timestamp = market.windowTs then .ok market
  else do
    let baseFee ← Gas.nextBaseFee market.baseFee market.windowGas market.target market.floor
    return { market with baseFee, windowTs := timestamp, windowGas := 0 }

/-- `FeeMarket::base_fee_at`. -/
def baseFeeAt (market : FeeMarket) (timestamp : U64) : Except GasError U128 := do
  return (← market.atTimestamp timestamp).baseFee

def encode (market : FeeMarket) : Bytes :=
  be 16 market.baseFee.val ++ be 16 market.floor.val ++ be 8 market.target.val ++
    be 8 market.windowTs.val ++ be 8 market.windowGas.val

def decodeInner : Reader FeeMarket := do
  let baseFee ← Reader.u128
  let floor ← Reader.u128
  let target ← Reader.u64
  let windowTs ← Reader.u64
  let windowGas ← Reader.u64
  Reader.finish
  return ⟨baseFee, floor, target, windowTs, windowGas⟩

def decode : Bytes → Except MalformedRecord FeeMarket := Gas.decodeRecord decodeInner

end FeeMarket

/-- How collected base fees are shared out: beneficiaries with their shares in
parts per million, and the share burned. -/
structure FeeSplit where
  beneficiaries : List (L2Address × U32)
  burn : U32
deriving DecidableEq

namespace FeeSplit

/-- Few enough distinct beneficiaries with non-zero shares, all shares adding up
to the scale. -/
def check (split : FeeSplit) : Except GasError Unit :=
  if split.beneficiaries.length > Gas.MAX_FEE_BENEFICIARIES then .error .invalidFeeSplit
  else if (∃ e ∈ split.beneficiaries, e.2.val = 0) ∨ ¬ (split.beneficiaries.map (·.1)).Nodup then
    .error .invalidFeeSplit
  else if split.burn.val + (split.beneficiaries.map (·.2.val)).sum = Gas.SHARE_SCALE.val then .ok ()
  else .error .invalidFeeSplit

/-- What each beneficiary receives of `amount`, rounded down; the rest is burned. -/
def sharesOf (split : FeeSplit) (amount : U128) : Except GasError (List (L2Address × U128)) :=
  split.beneficiaries.mapM fun e => do
    let product ← Gas.checked 128 (amount.val * e.2.val)
    return (e.1, ⟨product.val / Gas.SHARE_SCALE.val,
      Nat.lt_of_le_of_lt (Nat.div_le_self _ _) product.isLt⟩)

def encode (split : FeeSplit) : Bytes :=
  be 4 split.beneficiaries.length ++
    (split.beneficiaries.flatMap fun e => e.1.bytes ++ be 4 e.2.val) ++ be 4 split.burn.val

def readBeneficiaries : (count : Nat) → Reader (List (L2Address × U32))
  | 0 => return []
  | n + 1 => do
    let address ← Reader.array 32
    let share ← Reader.u32
    let rest ← readBeneficiaries n
    return (address, share) :: rest

def decodeInner : Reader FeeSplit := do
  let count ← Reader.u32
  if count.val > Gas.MAX_FEE_BENEFICIARIES then throw .lengthOverflow
  else
    let beneficiaries ← readBeneficiaries count.val
    let burn ← Reader.u32
    Reader.finish
    return ⟨beneficiaries, burn⟩

def decode : Bytes → Except MalformedRecord FeeSplit := Gas.decodeRecord decodeInner

end FeeSplit

/-- What a transaction's fee comes to, in whole units of its fee asset. -/
structure FeeCharge where
  gasUsed : U64
  hold : U128
  refund : U128
  tip : U128
  base : U128
deriving DecidableEq

namespace Gas

/-- Converts a native-unit price into the fee asset at `rate`, rounding down. -/
def nativeToAsset (native rate : U128) : Except GasError U128 :=
  if rate.val = 0 then .error .zeroRate
  else do
    let product ← checked 128 (native.val * rate.val)
    return product / RATE_SCALE

/-- The whole units `gas` costs at a per-gas price. -/
def total (gas : U64) (price : U128) : Except GasError U128 := do
  let product ← checked 128 (gas.val * price.val)
  return product / PRICE_SCALE

/-- What a transaction pays. Totals are rounded down, and what the rounding
leaves of the hold is added to the base fee. -/
def settle (gasLimit gasUsed : U64) (maxFeePerGas maxPriorityFeePerGas baseFee rate : U128) :
    Except GasError FeeCharge :=
  if gasLimit.val > MAX_GAS_LIMIT.val then .error (.gasLimitTooHigh gasLimit)
  else if gasUsed.val > gasLimit.val then .error (.gasLimitTooLow gasLimit gasUsed)
  else do
    let basePerGas ← nativeToAsset baseFee rate
    if maxFeePerGas.val < basePerGas.val then throw (.feeBelowBaseFee maxFeePerGas basePerGas)
    let tipPerGas := min maxPriorityFeePerGas (maxFeePerGas - basePerGas)
    let price := basePerGas + tipPerGas
    let hold ← total gasLimit price
    if hold.val = 0 then throw .feeRoundsToZero
    let refund ← total (gasLimit - gasUsed) price
    let tip ← total gasUsed tipPerGas
    let base ← total gasUsed basePerGas
    let remainder := hold - refund - tip - base
    return ⟨gasUsed, hold, refund, tip, base + remainder⟩

end Gas
end Sena
