import Sena.Osp
import Sena.TxCodec

/-! The contract's compiler: what instructions a published transaction stands
for. Bytes the node would refuse compile to `none`; an honest batch holds no
such transaction. -/
namespace Sena.Compiler

open Move Osp

def FEE_VAULT : Bytes := List.replicate 32 0xfe

/-- A keyless verdict computed in advance, for exactly these bytes, this time and
this setup, takes the place of the verification. -/
def authenticate (crypto : Crypto) (tx : TxCodec.Tx) (timestamp : U64) (keylessSetup : UInt8)
    (keylessVerdict : Option Bool) : Move Bool := do
  let digest ← TxCodec.signingDigest crypto tx
  match tx.auth with
  | .ed25519 publicKey signature =>
    if publicKey ≠ tx.sender then return false
    return MoveKeyless.verifyEd25519Strict crypto publicKey signature digest
  | .keyless sig =>
    match keylessVerdict with
    | some verdict => return verdict
    | none => MoveKeyless.verify crypto keylessSetup sig tx.sender digest timestamp

/-- `is_keyless`. -/
def isKeyless (txBytes : Bytes) : Bool :=
  match TxCodec.decode txBytes with
  | some { auth := .keyless _, .. } => true
  | _ => false

/-- `GovernanceUpdate::check_permitted`. -/
def permitted : TxCodec.Update → Move Bool
  | .setParameter name _ => .ok (isGovernable name)
  | .setGasAsset _ _ rate _ _ => .ok (rate.val ≠ 0)
  | .setFeeMarket floor target => .ok (floor.val ≠ 0 ∧ target.val ≠ 0)
  | .setFeeSplit split => MoveGas.splitIsValid split
  | .setJwk _ _ _ | .disableGasAsset _ => .ok true

/-- The instruction that `compile_payload` makes of an update. -/
def updateInstruction : TxCodec.Update → Osp.Instruction
  | .setGasAsset asset symbol rate intrinsicGas enabled =>
    .setGasAsset asset symbol rate intrinsicGas enabled
  | .setParameter name value => .setParameter name value
  | .setJwk issHash jwkHash active => .setJwk issHash jwkHash active
  | .setFeeMarket floor target => .setFeeMarket floor target
  | .setFeeSplit split => .setFeeSplit split
  | .disableGasAsset asset => .disableGasAsset asset

/-- Disabling an asset is the one update the guardian threshold suffices for. -/
def guardianSuffices : TxCodec.Update → Bool
  | .disableGasAsset _ => true
  | _ => false

/-- `compile_payload`. -/
def compilePayload (crypto : Crypto) (p : TxCodec.Payload) (sender : Bytes) :
    Move (Option (List Osp.Instruction)) := do
  match p with
  | .transfer recipient asset amount =>
    if recipient = sender then return none
    return some [.debit sender asset amount, .credit recipient asset amount]
  | .bindIdentifier _ identifier => return some [.bindIdentifier identifier sender]
  | .unbindIdentifier identifier => return some [.unbindIdentifier identifier sender]
  | .distributeFees asset amount split =>
    if amount.val = 0 then return none
    if (← MoveGas.splitIsValid split) = false then return none
    let some shares ← MoveGas.sharesOf split amount | return none
    return some (.verifyFeeSplit split :: .debit FEE_VAULT asset amount ::
      (shares.filter (0 < ·.2.val)).map fun share => .credit share.1 asset share.2)
  | .governance epoch updateBytes update signatures =>
    if (← permitted update) = false then return none
    let digest ← TxCodec.governanceDigest crypto epoch updateBytes
    return some [.verifyCouncil epoch digest signatures (guardianSuffices update),
      updateInstruction update]

/-- Adds gas to a running total; nothing on overflow. -/
def addGas (total gas : U64) : Option U64 :=
  if small : total.val + gas.val < 2 ^ 64 then some ⟨total.val + gas.val, small⟩ else none

/-- `gas_used`. -/
def gasUsed (tx : TxCodec.Tx) (payload : List Osp.Instruction) : Move (Option U64) := do
  let some total := addGas MoveGas.INTRINSIC_GAS tx.feeIntrinsicGas | return none
  let some total := (match tx.auth with
    | .ed25519 _ _ => some total
    | .keyless _ => addGas total MoveGas.KEYLESS_GAS) | return none
  let gases ← payload.mapM instructionGas
  return gases.foldlM addGas total

/-- The instructions around a payload: the checks and the hold before it, the
refund, the tip and the base fee after it. -/
def program (tx : TxCodec.Tx) (timestamp : U64) (baseFee : U128) (feeRecipient : Bytes) (used : U64)
    (fee : MoveGas.Settlement) (payload : List Osp.Instruction) : List Osp.Instruction :=
  (match tx.auth with
    | .ed25519 _ _ => []
    | .keyless sig => [.verifyJwk sig.issHash sig.jwkHash]) ++
  [.consumeNonce tx.sender tx.nonce,
    .verifyGasAsset tx.feeAsset tx.feeRate tx.feeIntrinsicGas,
    .chargeBaseFee timestamp baseFee used,
    .debit tx.sender tx.feeAsset fee.hold] ++
  payload ++
  (if fee.refund.val > 0 then [.credit tx.sender tx.feeAsset fee.refund] else []) ++
  (if fee.tip.val > 0 then [.credit feeRecipient tx.feeAsset fee.tip] else []) ++
  (if fee.base.val > 0 then [.credit FEE_VAULT tx.feeAsset fee.base] else [])

def compileInner (crypto : Crypto) (txBytes : Bytes) (timestamp : U64) (baseFee : U128)
    (feeRecipient : Bytes) (keylessSetup : UInt8) (keylessVerdict : Option Bool) :
    Move (Option (List Osp.Instruction)) := do
  let some tx := TxCodec.decode txBytes | return none
  if (← authenticate crypto tx timestamp keylessSetup keylessVerdict) = false then return none
  let some payload ← compilePayload crypto tx.payload tx.sender | return none
  let some used ← gasUsed tx payload | return none
  let some fee ← MoveGas.settle tx.gasLimit used tx.maxFeePerGas tx.maxPriorityFeePerGas baseFee
    tx.feeRate | return none
  return some (program tx timestamp baseFee feeRecipient used fee payload)

/-- `compile`: the program of a published transaction, or none. -/
def compile (crypto : Crypto) (txBytes : Bytes) (timestamp : U64) (baseFee : U128)
    (feeRecipient : Bytes) (keylessSetup : UInt8) : Move (Option (List Osp.Instruction)) :=
  compileInner crypto txBytes timestamp baseFee feeRecipient keylessSetup none

/-- `compile_with_keyless_verdict`: the signature was verified by a job before. -/
def compileWithKeylessVerdict (crypto : Crypto) (txBytes : Bytes) (timestamp : U64) (baseFee : U128)
    (feeRecipient : Bytes) (keylessSetup : UInt8) (verdict : Bool) : Move (Option (List Osp.Instruction)) :=
  compileInner crypto txBytes timestamp baseFee feeRecipient keylessSetup (some verdict)

end Sena.Compiler
