import Sena.Account
import Sena.Keys
import Sena.Proof
import Sena.Transaction

/-! The step machine: the instructions a transaction compiles to, what each does
to the one slot it names, and their effect on a state trie. -/
namespace Sena

/-- One indivisible operation on the state. -/
inductive Instruction where
  | consumeNonce (account : L2Address) (expected : U64)
  | debit (account : L2Address) (asset : U32) (amount : U128)
  | credit (account : L2Address) (asset : U32) (amount : U128)
  | bindIdentifier (identifier : Hash256) (address : L2Address)
  | unbindIdentifier (identifier : Hash256) (expectedOwner : L2Address)
  | verifyGasAsset (asset : U32) (rate : U128) (intrinsicGas : U64)
  | chargeBaseFee (timestamp : U64) (baseFee : U128) (gas : U64)
  | verifyFeeSplit (split : FeeSplit)
  | setFeeSplit (split : FeeSplit)
  | setFeeMarket (floor : U128) (target : U64)
  | disableGasAsset (asset : U32)
  | verifyCouncil (epoch : U64) (digest : Hash256) (signatures : List CouncilSignature)
      (guardian : Bool)
  | setGasAsset (record : WhitelistedAsset)
  | setParameter (name : Utf8) (value : U128)
  | verifyJwk (issHash jwkHash : FixedBytes 32)
  | setJwk (issHash jwkHash : FixedBytes 32) (active : Bool)
deriving DecidableEq

/-- The single slot an instruction reads and writes. -/
def Instruction.slot (crypto : Crypto) : Instruction → Hash256
  | consumeNonce account _ | debit account _ _ | credit account _ _ => Keys.account crypto account
  | bindIdentifier identifier _ | unbindIdentifier identifier _ =>
    Keys.socialByIdentifier crypto identifier
  | verifyGasAsset asset _ _ | disableGasAsset asset => Keys.asset crypto asset
  | chargeBaseFee _ _ _ | setFeeMarket _ _ => Keys.feeMarket crypto
  | verifyFeeSplit _ | setFeeSplit _ => Keys.feeSplit crypto
  | setGasAsset record => Keys.asset crypto record.asset
  | verifyCouncil _ _ _ _ => Keys.council crypto
  | setParameter name _ => Keys.parameter crypto name.bytes
  | verifyJwk issHash jwkHash | setJwk issHash jwkHash _ => Keys.jwk crypto issHash jwkHash

/-- The canonical encoding, by which the two compilers are compared. -/
def Instruction.encode : Instruction → Bytes
  | consumeNonce account expected => 0 :: account.bytes ++ be 8 expected.val
  | debit account asset amount => 1 :: account.bytes ++ be 4 asset.val ++ be 16 amount.val
  | credit account asset amount => 2 :: account.bytes ++ be 4 asset.val ++ be 16 amount.val
  | bindIdentifier identifier address => 3 :: identifier.bytes ++ address.bytes
  | unbindIdentifier identifier expectedOwner => 4 :: identifier.bytes ++ expectedOwner.bytes
  | verifyGasAsset asset rate intrinsicGas =>
    5 :: be 4 asset.val ++ be 16 rate.val ++ be 8 intrinsicGas.val
  | verifyCouncil epoch digest signatures guardian =>
    6 :: be 8 epoch.val ++ digest.bytes ++ be 4 signatures.length ++
      (signatures.flatMap fun s => be 4 s.index.val ++ s.signature.bytes) ++ [Gas.encodeBool guardian]
  | setGasAsset record => 7 :: frame record.encode
  | setParameter name value => 8 :: frame name.bytes ++ be 16 value.val
  | verifyJwk issHash jwkHash => 9 :: issHash.bytes ++ jwkHash.bytes
  | setJwk issHash jwkHash active => 10 :: issHash.bytes ++ jwkHash.bytes ++ [Gas.encodeBool active]
  | chargeBaseFee timestamp baseFee gas => 11 :: be 8 timestamp.val ++ be 16 baseFee.val ++ be 8 gas.val
  | verifyFeeSplit split => 12 :: frame split.encode
  | setFeeSplit split => 13 :: frame split.encode
  | setFeeMarket floor target => 14 :: be 16 floor.val ++ be 8 target.val
  | disableGasAsset asset => 15 :: be 4 asset.val

/-- The machine's observable state between two steps. -/
structure MachineState where
  stateRoot : Hash256
  pc : U64
deriving DecidableEq

namespace MachineState

def start (stateRoot : Hash256) : MachineState := ⟨stateRoot, 0⟩

/-- What bisection publishes of a state: its root and where in the trace it is. -/
def commitment (crypto : Crypto) (s : MachineState) : Hash256 :=
  crypto.commit .machineState [s.stateRoot.bytes, be 8 s.pc.val]

end MachineState

/-- Why a single step failed. -/
inductive StepError where
  | nonceMismatch (actual expected : U64)
  | balance (error : BalanceError)
  | malformedSlot
  | identifierTaken
  | identifierNotHeld
  | witnessSlotMismatch (provided expected : Hash256)
  | badWitnessProof (error : ProofError)
  | assetNotWhitelisted
  | assetDisabled
  | gasRateMismatch (declared onChain : U128)
  | gas (error : GasError)
  | governance (error : GovernanceError)
  | jwkNotAccepted
  | intrinsicGasMismatch (declared onChain : U64)
  | baseFeeMismatch (declared actual : U128)
  | windowFull
  | feeSplitMismatch
deriving DecidableEq

namespace Execute

open Except (mapError)

/-- `encode_jwk_record`. -/
def encodeJwkRecord (active : Bool) : Bytes := [Gas.encodeBool active]

/-- `decode_jwk_record`. -/
def decodeJwkRecord (bytes : Bytes) : Except StepError Bool :=
  if bytes = [0] then .ok false else if bytes = [1] then .ok true else .error .malformedSlot

/-- An account never touched has a zero nonce and no balances. -/
def decodeAccount : (current : Option Bytes) → Except StepError Account
  | none => .ok Account.new
  | some bytes => mapError (fun _ => .malformedSlot) (Account.decode bytes)

/-- An empty slot is the genesis market. -/
def decodeFeeMarket : (current : Option Bytes) → Except StepError FeeMarket
  | none => .ok (FeeMarket.genesis Gas.DEFAULT_BASE_FEE_FLOOR Gas.DEFAULT_GAS_TARGET)
  | some bytes => mapError (fun _ => .malformedSlot) (FeeMarket.decode bytes)

/-- The slot's contents, where the instruction cannot do without any. -/
def present (current : Option Bytes) (missing : StepError) : Except StepError Bytes :=
  match current with
  | none => .error missing
  | some bytes => .ok bytes

def permitted (update : GovernanceUpdate) : Except StepError Unit :=
  mapError .governance update.checkPermitted

variable (crypto : Crypto)

/-- The complete semantics of the instruction set: what the slot should contain
afterwards, from what it contains now. -/
def transition (instruction : Instruction) (current : Option Bytes) : Except StepError Bytes := do
  match instruction with
  | .consumeNonce _ expected =>
    let account ← decodeAccount current
    if account.nonce ≠ expected then throw (.nonceMismatch account.nonce expected)
    if fits : account.nonce.val + 1 < 2 ^ 64 then
      return { account with nonce := ⟨account.nonce.val + 1, fits⟩ : Account }.encode
    else throw (.balance .overflow)
  | .debit _ asset amount =>
    let account ← decodeAccount current
    let account ← mapError .balance (account.debit asset amount)
    return account.encode
  | .credit _ asset amount =>
    let account ← decodeAccount current
    let account ← mapError .balance (account.credit asset amount)
    return account.encode
  | .bindIdentifier _ address =>
    match current with
    | none => return (SocialBinding.bound address).encode
    | some bytes =>
      let binding ← mapError (fun _ => .malformedSlot) (SocialBinding.decode bytes)
      -- re-binding to the same address is idempotent, taking over is not permitted
      if binding.address.any (· ≠ address) then throw .identifierTaken
      return (SocialBinding.bound address).encode
  | .unbindIdentifier _ expectedOwner =>
    let bytes ← present current .identifierNotHeld
    let binding ← mapError (fun _ => .malformedSlot) (SocialBinding.decode bytes)
    if binding.address = some expectedOwner then return SocialBinding.vacant.encode
    else throw .identifierNotHeld
  | .verifyGasAsset _ rate intrinsicGas =>
    let bytes ← present current .assetNotWhitelisted
    let record ← mapError (fun _ => .malformedSlot) (WhitelistedAsset.decode bytes)
    if record.enabled = false then throw .assetDisabled
    if record.rate ≠ rate then throw (.gasRateMismatch rate record.rate)
    if record.intrinsicGas ≠ intrinsicGas then
      throw (.intrinsicGasMismatch intrinsicGas record.intrinsicGas)
    return bytes
  | .chargeBaseFee timestamp baseFee gas =>
    let market ← decodeFeeMarket current
    let market ← mapError .gas (market.atTimestamp timestamp)
    if market.baseFee ≠ baseFee then throw (.baseFeeMismatch baseFee market.baseFee)
    if fits : market.windowGas.val + gas.val < 2 ^ 64 then
      if market.windowGas.val + gas.val ≤ market.windowLimit then
        return { market with windowGas := ⟨_, fits⟩ : FeeMarket }.encode
      else throw .windowFull
    else throw .windowFull
  | .verifyFeeSplit split =>
    let bytes ← present current .feeSplitMismatch
    if bytes ≠ split.encode then throw .feeSplitMismatch
    return bytes
  | .verifyCouncil epoch digest signatures guardian =>
    let bytes ← present current (.governance .malformedCouncil)
    let council ← mapError .governance (Council.decode bytes)
    if council.epoch ≠ epoch then throw (.governance (.wrongEpoch council.epoch epoch))
    mapError .governance
      (Governance.verifyCouncilSignatures crypto council digest signatures guardian)
    if fits : council.epoch.val + 1 < 2 ^ 64 then
      return { council with epoch := ⟨council.epoch.val + 1, fits⟩ : Council }.encode
    else throw (.balance .overflow)
  | .setGasAsset record =>
    permitted (.setGasAsset record)
    return record.encode
  | .setParameter name value =>
    permitted (.setParameter name value)
    return be 16 value.val
  | .setFeeMarket floor target =>
    permitted (.setFeeMarket floor target)
    let market ← decodeFeeMarket current
    return { market with baseFee := max market.baseFee floor, floor, target : FeeMarket }.encode
  | .setFeeSplit split =>
    permitted (.setFeeSplit split)
    return split.encode
  | .disableGasAsset _ =>
    let bytes ← present current .assetNotWhitelisted
    let record ← mapError (fun _ => .malformedSlot) (WhitelistedAsset.decode bytes)
    return { record with enabled := false : WhitelistedAsset }.encode
  | .verifyJwk _ _ =>
    let bytes ← present current .jwkNotAccepted
    if (← decodeJwkRecord bytes) = false then throw .jwkNotAccepted
    return bytes
  | .setJwk _ _ active => return encodeJwkRecord active

/-- Applies one instruction to a full state trie. -/
def apply (trie : MerkleTrie) (instruction : Instruction) : Except StepError MerkleTrie := do
  let updated ← transition crypto instruction (trie.get (instruction.slot crypto))
  return trie.insert crypto (instruction.slot crypto) updated

/-- Everything needed to check a single step without holding state. -/
structure StepWitness where
  slot : Hash256
  /-- The slot's contents before the step, if it had any. -/
  value : Option Bytes
  proof : MerkleProof
deriving DecidableEq

/-- Verifies one step in isolation: the witness has to be for the instruction's
slot and to prove against the pre-state root. The program counter saturates. -/
def verifyStep (pre : MachineState) (instruction : Instruction) (witness : StepWitness) :
    Except StepError MachineState := do
  if witness.slot ≠ instruction.slot crypto then
    throw (.witnessSlotMismatch witness.slot (instruction.slot crypto))
  mapError .badWitnessProof (match witness.value with
    | some bytes => witness.proof.verifyInclusion crypto pre.stateRoot witness.slot bytes
    | none => witness.proof.verifyNonInclusion crypto pre.stateRoot witness.slot)
  let updated ← transition crypto instruction witness.value
  let postRoot ← mapError .badWitnessProof
    (witness.proof.computeUpdatedRoot crypto witness.slot (crypto.sha256 updated))
  return ⟨postRoot, ⟨min (pre.pc.val + 1) (2 ^ 64 - 1), by omega⟩⟩

/-- The vault that collects fees. No key maps to it. -/
def FEE_VAULT : L2Address := FixedBytes.fill 32 0xfe

inductive CompileError where
  | auth (error : AuthError)
  | badDistribution
  | selfTransfer
  | gas (error : GasError)
  | governance (error : GovernanceError)
  | wire (error : WireError)
deriving DecidableEq

/-- What a batch is executed against, besides state. -/
structure BatchContext where
  timestamp : U64
  keyless : Option KeylessConfig
  baseFee : U128
  feeRecipient : L2Address
deriving DecidableEq

/-- The gas one instruction of a payload costs. -/
def instructionGas : Instruction → Nat
  | .debit _ _ _ | .credit _ _ _ | .unbindIdentifier _ _ => 5000
  | .verifyCouncil _ _ signatures _ => 10000 + 3000 * signatures.length
  | .bindIdentifier _ _ | .setGasAsset _ | .setParameter _ _ | .setJwk _ _ _ | .setFeeMarket _ _
  | .setFeeSplit _ | .disableGasAsset _ => 20000
  | .verifyFeeSplit _ => 2000
  | .consumeNonce _ _ | .verifyGasAsset _ _ _ | .chargeBaseFee _ _ _ | .verifyJwk _ _ => 0

/-- `gas_used`. -/
def gasUsed (tx : Transaction) (payload : List Instruction) : Except GasError U64 := do
  let auth := match tx.authenticator with
    | .ed25519 _ _ => 0
    | .keyless _ => Gas.KEYLESS_GAS.val
  let intrinsic ← Gas.checked 64 (Gas.INTRINSIC_GAS.val + tx.feeIntrinsicGas.val)
  let start ← Gas.checked 64 (intrinsic.val + auth)
  payload.foldlM (fun total i => Gas.checked 64 (total.val + instructionGas i)) start

/-- A fee distribution. What the shares leave is burned by not being credited. -/
def compileDistribution (asset : U32) (amount : U128) (split : FeeSplit) :
    Except CompileError (List Instruction) := do
  let shares ← mapError .gas (split.sharesOf amount)
  return .verifyFeeSplit split :: .debit FEE_VAULT asset amount ::
    (shares.filter (0 < ·.2.val)).map fun share => .credit share.1 asset share.2

/-- The instruction that `compile_payload` makes of an update. -/
def updateInstruction : GovernanceUpdate → Instruction
  | .setGasAsset record => .setGasAsset record
  | .setParameter name value => .setParameter name value
  | .setJwk issHash jwkHash active => .setJwk issHash jwkHash active
  | .setFeeMarket floor target => .setFeeMarket floor target
  | .setFeeSplit split => .setFeeSplit split
  | .disableGasAsset asset => .disableGasAsset asset

/-- `compile_payload`. -/
def compilePayload (payload : Payload) (sender : L2Address) : Except CompileError (List Instruction) :=
  match payload with
  | .transfer recipient asset amount =>
    if recipient = sender then .error .selfTransfer
    else .ok [.debit sender asset amount, .credit recipient asset amount]
  | .bindIdentifier _ identifier => .ok [.bindIdentifier identifier sender]
  | .unbindIdentifier identifier => .ok [.unbindIdentifier identifier sender]
  | .governance epoch update signatures => do
    mapError .governance update.checkPermitted
    return [.verifyCouncil epoch (update.signingDigest crypto epoch) signatures update.guardianMayApply,
      updateInstruction update]
  | .distributeFees asset amount split =>
    if amount.val = 0 ∨ split.check.isOk = false then .error .badDistribution
    else compileDistribution asset amount split

/-- `charge_and_payload`: what the fee comes to, and the payload's instructions. -/
def chargeAndPayload (tx : Transaction) (ctx : BatchContext) :
    Except CompileError (FeeCharge × List Instruction) := do
  let payload ← compilePayload crypto tx.payload tx.sender
  let used ← mapError .gas (gasUsed tx payload)
  let charge ← mapError .gas (Gas.settle tx.gasLimit used tx.maxFeePerGas tx.maxPriorityFeePerGas
    ctx.baseFee tx.feeRate)
  return (charge, payload)

/-- The size limits: L1 has to be able to decode and compile anything a batch
contains. -/
def checkLimits (tx : Transaction) : Except CompileError Unit :=
  if tx.encode.length > Wire.MAX_TRANSACTION_BYTES then
    .error (.wire (.tooLarge tx.encode.length))
  else match tx.payload with
    | .governance _ _ signatures =>
      if signatures.length > Wire.MAX_COUNCIL_SIGNATURES then .error (.wire .tooManySignatures)
      else .ok ()
    | _ => .ok ()

/-- A credit is never made of a zero amount. -/
def creditSome (account : L2Address) (asset : U32) (amount : U128) : List Instruction :=
  if amount.val > 0 then [.credit account asset amount] else []

/-- The instructions around a payload: the checks and the hold before it, the
refund, the tip and the base fee after it. -/
def program (tx : Transaction) (ctx : BatchContext) (charge : FeeCharge) (payload : List Instruction) :
    List Instruction :=
  (match tx.authenticator with
    | .ed25519 _ _ => []
    | .keyless sig => [.verifyJwk sig.issHash sig.jwkHash]) ++
  [.consumeNonce tx.sender tx.nonce,
    .verifyGasAsset tx.feeAsset tx.feeRate tx.feeIntrinsicGas,
    .chargeBaseFee ctx.timestamp ctx.baseFee charge.gasUsed,
    .debit tx.sender tx.feeAsset charge.hold] ++
  payload ++
  creditSome tx.sender tx.feeAsset charge.refund ++
  creditSome ctx.feeRecipient tx.feeAsset charge.tip ++
  creditSome FEE_VAULT tx.feeAsset charge.base

/-- Turns an authorised transaction into the instructions that execute it,
reading no state. -/
def compile (tx : Transaction) (ctx : BatchContext) : Except CompileError (List Instruction) := do
  checkLimits tx
  mapError .auth (tx.authenticate crypto ctx.keyless ctx.timestamp)
  let (charge, payload) ← chargeAndPayload crypto tx ctx
  return program tx ctx charge payload

/-- The full record of executing a batch, and the input to a fraud proof. -/
structure ExecutionTrace where
  instructions : List Instruction
  /-- The state before each instruction, then the final one. -/
  states : List MachineState
  /-- Where each transaction's instructions begin. -/
  txStarts : List Nat
deriving DecidableEq

/-- Why a batch could not be executed. -/
inductive BatchError where
  | compile (index : Nat) (source : CompileError)
  | step (index step : Nat) (source : StepError)
  /-- The process aborted: an account's encoder counts balances in 32 bits. -/
  | panicked
deriving DecidableEq

/-- Encoding an account takes twelve bytes and twenty for each balance, and panics
when there are too many to count. -/
def panics (next : MerkleTrie) : Instruction → Bool
  | .consumeNonce account _ | .debit account _ _ | .credit account _ _ =>
    (next.get (Keys.account crypto account)).any (12 + 20 * 2 ^ 32 ≤ ·.length)
  | _ => false

/-- One instruction of transaction `index`, applied and recorded. -/
def executeInstruction (index : Nat) (run : MerkleTrie × ExecutionTrace)
    (instruction : Instruction) : Except BatchError (MerkleTrie × ExecutionTrace) := do
  let step := run.2.instructions.length
  let next ← mapError (.step index step) (apply crypto run.1 instruction)
  if panics crypto next instruction then throw .panicked
  return (next, { run.2 with
    instructions := run.2.instructions ++ [instruction]
    states := run.2.states ++ [⟨next.root, Fin.ofNat _ (step + 1)⟩] })

/-- One transaction: where it starts, then its instructions. -/
def executeTransaction (ctx : BatchContext) (run : MerkleTrie × ExecutionTrace)
    (entry : Transaction × Nat) : Except BatchError (MerkleTrie × ExecutionTrace) := do
  let compiled ← mapError (.compile entry.2) (compile crypto entry.1 ctx)
  let trace := { run.2 with txStarts := run.2.txStarts ++ [run.2.instructions.length] }
  compiled.foldlM (executeInstruction crypto entry.2) (run.1, trace)

/-- The instructions the transactions of a batch compile to, one after another. -/
def batchProgram (ctx : BatchContext) (transactions : List Transaction) : Except CompileError (List Instruction) :=
  (transactions.mapM fun tx => compile crypto tx ctx).map List.flatten

/-- Executes a batch, producing the trace an assertion commits to. Failure is
total: one transaction that cannot execute fails the batch. -/
def executeBatch (trie : MerkleTrie) (ctx : BatchContext) (transactions : List Transaction) :
    Except BatchError (MerkleTrie × ExecutionTrace) :=
  transactions.zipIdx.foldlM (executeTransaction crypto ctx) (trie, ⟨[], [.start trie.root], []⟩)

end Execute
end Sena
