import Sena.MoveGas
import Sena.MoveKeyless
import Sena.TrieVerifier

/-! The one-step verifier: executes the disputed step on L1 and sees who was
right.

A step that cannot execute is an answer, `none`, because a trace that holds one
is fraud. A witness that does not prove against the agreed state aborts, as does
a slot whose contents do not decode. -/
namespace Sena.Osp

open Move

def E_WITNESS_SLOT_MISMATCH : Nat := 20
def E_PRE_STATE_MISMATCH : Nat := 27

/-- One instruction, with the fields its kind reads. -/
inductive Instruction
  | consumeNonce (account : Bytes) (expected : U64)
  | debit (account : Bytes) (asset : U32) (amount : U128)
  | credit (account : Bytes) (asset : U32) (amount : U128)
  | bindIdentifier (identifier address : Bytes)
  | unbindIdentifier (identifier expectedOwner : Bytes)
  | verifyGasAsset (asset : U32) (rate : U128) (intrinsicGas : U64)
  | verifyCouncil (epoch : U64) (digest : Bytes) (signatures : List (U32 × Bytes)) (guardian : Bool)
  | setGasAsset (asset : U32) (symbol : Bytes) (rate : U128) (intrinsicGas : U64) (enabled : Bool)
  | setParameter (name : Bytes) (value : U128)
  | verifyJwk (issHash jwkHash : Bytes)
  | setJwk (issHash jwkHash : Bytes) (active : Bool)
  | chargeBaseFee (timestamp : U64) (baseFee : U128) (gas : U64)
  | verifyFeeSplit (split : Bytes)
  | setFeeSplit (split : Bytes)
  | setFeeMarket (floor : U128) (target : U64)
  | disableGasAsset (asset : U32)
deriving DecidableEq

structure MachineState where
  stateRoot : Bytes
  pc : U64
deriving DecidableEq

/-- `commit_machine_state`. -/
def commitMachineState (crypto : Crypto) (s : MachineState) : Move Bytes :=
  Codec.digest crypto .machineState [s.stateRoot, be 8 s.pc.val]

/-- `account_key`. -/
def accountKey (crypto : Crypto) (address : Bytes) : Move Bytes :=
  Codec.digest crypto .account [address]

/-- The single slot an instruction reads and writes. -/
def slotOf (crypto : Crypto) : Instruction → Move Bytes
  | .consumeNonce account _ | .debit account _ _ | .credit account _ _ => accountKey crypto account
  | .bindIdentifier identifier _ | .unbindIdentifier identifier _ =>
    Codec.digest crypto .socialByIdentifier [identifier]
  | .verifyGasAsset asset _ _ | .setGasAsset asset _ _ _ _ | .disableGasAsset asset =>
    Codec.digest crypto .asset [be 8 asset.val]
  | .verifyCouncil _ _ _ _ => Codec.digest crypto .council []
  | .setParameter name _ => Codec.digest crypto .parameter [name]
  | .verifyJwk issHash jwkHash | .setJwk issHash jwkHash _ =>
    Codec.digest crypto .jwk [issHash, jwkHash]
  | .chargeBaseFee _ _ _ | .setFeeMarket _ _ => Codec.digest crypto .feeMarket []
  | .verifyFeeSplit _ | .setFeeSplit _ => Codec.digest crypto .feeSplit []

/-- `instruction_gas`. -/
def instructionGas : Instruction → Move U64
  | .debit _ _ _ | .credit _ _ _ | .unbindIdentifier _ _ => .ok 5000
  | .verifyCouncil _ _ signatures _ => checked 64 (10000 + 3000 * signatures.length)
  | .bindIdentifier _ _ | .setGasAsset _ _ _ _ _ | .setParameter _ _ | .setJwk _ _ _
  | .setFeeMarket _ _ | .setFeeSplit _ | .disableGasAsset _ => .ok 20000
  | .verifyFeeSplit _ => .ok 2000
  | .consumeNonce _ _ | .verifyGasAsset _ _ _ | .verifyJwk _ _ | .chargeBaseFee _ _ _ => .ok 0

structure Account where
  nonce : U64
  balances : List (U32 × U128)
deriving DecidableEq

/-- Entries in strictly ascending asset order, none of them zero. -/
def takeBalances : (n : Nat) → (previous : Option U32) → Codec.Take (List (U32 × U128))
  | 0, _ => return []
  | n + 1, previous => do
    let asset ← Codec.takeU32
    let amount ← Codec.takeU128
    if amount.val = 0 then throw (.code .osp Codec.E_NOT_CANONICAL)
    if previous.any (asset.val ≤ ·.val) then throw (.code .osp Codec.E_NOT_CANONICAL)
    let rest ← takeBalances n (some asset)
    return (asset, amount) :: rest

def takeAccount : Codec.Take Account := do
  let nonce ← Codec.takeU64
  let count ← Codec.takeU32
  let balances ← takeBalances count.val none
  Codec.finish
  return ⟨nonce, balances⟩

/-- `decode_account`. -/
def decodeAccount (bytes : Bytes) : Move Account := takeAccount.run' bytes

/-- Zero balances are pruned. -/
def encodeAccount (a : Account) : Move Bytes := do
  let kept := a.balances.filter (0 < ·.2.val)
  let count ← checked 32 kept.length
  return be 8 a.nonce.val ++ be 4 count.val ++
    kept.flatMap fun b => be 4 b.1.val ++ be 16 b.2.val

def emptyAccount : Account := ⟨0, []⟩

/-- `balance_of`. -/
def balanceOf (a : Account) (asset : U32) : U128 :=
  match a.balances.find? (·.1 = asset) with
  | some b => b.2
  | none => 0

/-- Sets a balance, keeping entries in ascending asset order. -/
def setBalance (asset : U32) (amount : U128) : List (U32 × U128) → List (U32 × U128)
  | [] => if amount.val > 0 then [(asset, amount)] else []
  | (other, held) :: rest =>
    if other = asset then if amount.val = 0 then rest else (asset, amount) :: rest
    else if other.val > asset.val then
      if amount.val > 0 then (asset, amount) :: (other, held) :: rest else (other, held) :: rest
    else (other, held) :: setBalance asset amount rest

def Account.set (a : Account) (asset : U32) (amount : U128) : Account :=
  { a with balances := setBalance asset amount a.balances }

def accountIn (present : Bool) (current : Bytes) : Move Account :=
  if present then decodeAccount current else .ok emptyAccount

structure AssetRecord where
  asset : U32
  symbol : Bytes
  rate : U128
  intrinsicGas : U64
  enabled : Bool
deriving DecidableEq

def boolByte (value : Bool) : UInt8 := if value then 1 else 0

def encodeAssetRecord (r : AssetRecord) : Move Bytes := do
  let out ← Codec.putField (be 4 r.asset.val) r.symbol
  return out ++ be 16 r.rate.val ++ be 8 r.intrinsicGas.val ++ [boolByte r.enabled]

def takeAssetRecord : Codec.Take AssetRecord := do
  let asset ← Codec.takeU32
  let symbol ← Codec.takeField
  let rate ← Codec.takeU128
  let intrinsicGas ← Codec.takeU64
  let enabled ← Codec.takeBool
  Codec.finish
  return ⟨asset, symbol, rate, intrinsicGas, enabled⟩

/-- `decode_asset_record`. -/
def decodeAssetRecord (bytes : Bytes) : Move AssetRecord := takeAssetRecord.run' bytes

/-- The encoding the conformance tests compare the two compilers by. -/
def encodeInstruction : Instruction → Move Bytes
  | .consumeNonce account expected => .ok (0 :: account ++ be 8 expected.val)
  | .debit account asset amount => .ok (1 :: account ++ be 4 asset.val ++ be 16 amount.val)
  | .credit account asset amount => .ok (2 :: account ++ be 4 asset.val ++ be 16 amount.val)
  | .bindIdentifier identifier address => .ok (3 :: identifier ++ address)
  | .unbindIdentifier identifier expectedOwner => .ok (4 :: identifier ++ expectedOwner)
  | .verifyGasAsset asset rate intrinsicGas =>
    .ok (5 :: be 4 asset.val ++ be 16 rate.val ++ be 8 intrinsicGas.val)
  | .verifyCouncil epoch digest signatures guardian => do
    let count ← checked 32 signatures.length
    return 6 :: be 8 epoch.val ++ digest ++ be 4 count.val ++
      (signatures.flatMap fun s => be 4 s.1.val ++ s.2) ++ [boolByte guardian]
  | .setGasAsset asset symbol rate intrinsicGas enabled => do
    Codec.putField [7] (← encodeAssetRecord ⟨asset, symbol, rate, intrinsicGas, enabled⟩)
  | .setParameter name value => do return (← Codec.putField [8] name) ++ be 16 value.val
  | .verifyJwk issHash jwkHash => .ok (9 :: issHash ++ jwkHash)
  | .setJwk issHash jwkHash active => .ok (10 :: issHash ++ jwkHash ++ [boolByte active])
  | .chargeBaseFee timestamp baseFee gas =>
    .ok (11 :: be 8 timestamp.val ++ be 16 baseFee.val ++ be 8 gas.val)
  | .verifyFeeSplit split => Codec.putField [12] split
  | .setFeeSplit split => Codec.putField [13] split
  | .setFeeMarket floor target => .ok (14 :: be 16 floor.val ++ be 8 target.val)
  | .disableGasAsset asset => .ok (15 :: be 4 asset.val)

structure Council where
  members : List Bytes
  threshold : U32
  epoch : U64
  guardianThreshold : U32
deriving DecidableEq

def takeCouncil : Codec.Take Council := do
  let count ← Codec.takeU32
  let members ← Codec.takeMany (Codec.takeBytes 32) count.val
  let threshold ← Codec.takeU32
  let epoch ← Codec.takeU64
  let guardianThreshold ← Codec.takeU32
  Codec.finish
  return ⟨members, threshold, epoch, guardianThreshold⟩

/-- Indices strictly increase and name members, and every signature verifies. -/
def councilSigned (crypto : Crypto) (members : List Bytes) (digest : Bytes) :
    (previous : Option U32) → List (U32 × Bytes) → Bool
  | _, [] => true
  | previous, (index, signature) :: rest =>
    if previous.any (index.val ≤ ·.val) then false
    else match members[index.val]? with
      | none => false
      | some member =>
        MoveKeyless.verifyEd25519Strict crypto member signature digest &&
          councilSigned crypto members digest (some index) rest

/-- Checks the council's signatures and consumes the epoch. -/
def verifyCouncilStep (crypto : Crypto) (epoch : U64) (digest : Bytes)
    (signatures : List (U32 × Bytes)) (guardian : Bool) (current : Bytes) : Move (Option Bytes) := do
  let council ← takeCouncil.run' current
  let required :=
    if guardian ∧ council.guardianThreshold.val > 0 then council.guardianThreshold else council.threshold
  if council.epoch ≠ epoch ∨ required.val = 0 then return none
  if councilSigned crypto council.members digest none signatures = false then return none
  if signatures.length < required.val then return none
  if council.epoch = MoveGas.MAX_U64 then return none
  let count ← checked 32 council.members.length
  let next ← add council.epoch 1
  return some (be 4 count.val ++ council.members.flatten ++ be 4 council.threshold.val ++
    be 8 next.val ++ be 4 council.guardianThreshold.val)

/-- The one parameter governance may set, `batch.max_transactions`. -/
def governable : Bytes :=
  [0x62, 0x61, 0x74, 0x63, 0x68, 0x2e, 0x6d, 0x61, 0x78, 0x5f, 0x74, 0x72, 0x61, 0x6e, 0x73, 0x61,
   0x63, 0x74, 0x69, 0x6f, 0x6e, 0x73]

example : governable = Domain.ascii "batch.max_transactions" := by decide +kernel

def isGovernable (name : Bytes) : Bool := name = governable

/-- Who an identifier's slot is bound to; `none` once it is vacant. -/
def takeBinding : Codec.Take (Option Bytes) := do
  let tag ← Codec.takeU8
  if tag = 0 then
    let holder ← Codec.takeBytes 32
    Codec.finish
    return some holder
  else
    if tag ≠ 1 then throw (.code .osp Codec.E_UNKNOWN_VARIANT)
    Codec.finish
    return none

/-- Applies one instruction to a slot's contents. -/
def transition (crypto : Crypto) (instruction : Instruction) (present : Bool) (current : Bytes) :
    Move (Option Bytes) := do
  match instruction with
  | .consumeNonce _ expected =>
    let a ← accountIn present current
    if a.nonce ≠ expected then return none
    if a.nonce = MoveGas.MAX_U64 then return none
    let nonce ← add a.nonce 1
    return some (← encodeAccount { a with nonce })
  | .debit _ asset amount =>
    let a ← accountIn present current
    if amount.val > 0 then
      let held := balanceOf a asset
      if held.val < amount.val then return none
      let left ← sub held amount
      return some (← encodeAccount (a.set asset left))
    else return some (← encodeAccount a)
  | .credit _ asset amount =>
    let a ← accountIn present current
    if amount.val > 0 then
      let held := balanceOf a asset
      if MoveGas.MAX_U128.val - held.val < amount.val then return none
      let total ← add held amount
      return some (← encodeAccount (a.set asset total))
    else return some (← encodeAccount a)
  | .bindIdentifier _ address =>
    if present then
      let holder ← takeBinding.run' current
      -- taking an identifier someone else holds is not permitted
      if holder.any (· ≠ address) then return none
      else return some (0 :: address)
    else return some (0 :: address)
  | .unbindIdentifier _ expectedOwner =>
    if present = false then return none
    let holder ← takeBinding.run' current
    if holder = some expectedOwner then return some [1] else return none
  | .verifyGasAsset _ rate intrinsicGas =>
    if present = false then return none
    let record ← decodeAssetRecord current
    if record.enabled = false ∨ record.rate ≠ rate ∨ record.intrinsicGas ≠ intrinsicGas then return none
    else return some current
  | .chargeBaseFee timestamp baseFee gas =>
    let market ← MoveGas.marketIn present current
    let some market ← MoveGas.marketAt market timestamp | return none
    if market.baseFee ≠ baseFee then return none
    let some market ← MoveGas.charge market gas | return none
    return some (MoveGas.encodeMarket market)
  | .verifyFeeSplit split =>
    if present = false ∨ current ≠ split then return none else return some current
  | .setFeeSplit split =>
    if ← MoveGas.splitIsValid split then return some split else return none
  | .setFeeMarket floor target =>
    if floor.val = 0 ∨ target.val = 0 then return none
    let market ← MoveGas.marketIn present current
    return some (MoveGas.encodeMarket (MoveGas.setParameters market floor target))
  | .disableGasAsset _ =>
    if present = false then return none
    let record ← decodeAssetRecord current
    return some (← encodeAssetRecord { record with enabled := false })
  | .verifyCouncil epoch digest signatures guardian =>
    if present = false then return none
    verifyCouncilStep crypto epoch digest signatures guardian current
  | .setGasAsset asset symbol rate intrinsicGas enabled =>
    if rate.val = 0 then return none
    return some (← encodeAssetRecord ⟨asset, symbol, rate, intrinsicGas, enabled⟩)
  | .setParameter name value =>
    if isGovernable name then return some (be 16 value.val) else return none
  | .verifyJwk _ _ =>
    if present = false ∨ current ≠ [1] then return none else return some current
  | .setJwk _ _ active => return some [boolByte active]

/-- The machine state honest execution produces, or `none` if the step cannot
execute. The slot is derived from the instruction and its claimed contents have
to prove against the pre-state root. -/
def verifyStep (crypto : Crypto) (pre : MachineState) (instruction : Instruction) (slot : Bytes)
    (present : Bool) (value : Bytes) (proof : TrieVerifier.Proof) : Move (Option MachineState) := do
  let derived ← slotOf crypto instruction
  ensure (slot = derived) (.code .osp E_WITNESS_SLOT_MISMATCH)
  if present then
    TrieVerifier.verifyInclusion crypto proof pre.stateRoot slot (TrieVerifier.hashValue crypto value)
  else TrieVerifier.verifyNonInclusion crypto proof pre.stateRoot slot
  let some updated ← transition crypto instruction present value | return none
  let postRoot ← TrieVerifier.computeUpdatedRoot crypto proof slot
    (TrieVerifier.hashValue crypto updated)
  return some ⟨postRoot, ← add pre.pc 1⟩

inductive Outcome
  | defenderWins | challengerWins
deriving DecidableEq, Repr

/-- `adjudicate`: who is right about the step both parties are left with. -/
def adjudicate (crypto : Crypto) (pre : MachineState) (agreedPre claimedPost : Bytes)
    (instruction : Instruction) (slot : Bytes) (present : Bool) (value : Bytes)
    (proof : TrieVerifier.Proof) : Move Outcome := do
  let committed ← commitMachineState crypto pre
  ensure (committed = agreedPre) (.code .osp E_PRE_STATE_MISMATCH)
  let some post ← verifyStep crypto pre instruction slot present value proof
    | return .challengerWins
  let committed ← commitMachineState crypto post
  return if committed = claimedPost then .defenderWins else .challengerWins

end Sena.Osp
