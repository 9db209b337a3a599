import Sena.MoveKeyless

/-! Decoding of published transactions on L1. Decoding never aborts: bytes that
do not decode are an answer.

The source's cursor remembers that a read failed and lets every later read fail
too; here the first failure ends the decoding. Its payload is one record read
according to its kind; here each kind carries the fields that are read. -/
namespace Sena.TxCodec

open Move

def MAX_TRANSACTION_BYTES : Nat := 8192
def MAX_COUNCIL_SIGNATURES : Nat := 32
def MAX_FEE_BENEFICIARIES : Nat := 8

/-- The governance updates, with the fields each one reads. -/
inductive Update
  | setGasAsset (asset : U32) (symbol : Bytes) (rate : U128) (intrinsicGas : U64) (enabled : Bool)
  | setParameter (name : Bytes) (value : U128)
  | setJwk (issHash jwkHash : Bytes) (active : Bool)
  | setFeeMarket (floor : U128) (target : U64)
  | setFeeSplit (split : Bytes)
  | disableGasAsset (asset : U32)
deriving DecidableEq

inductive Payload
  | transfer (recipient : Bytes) (asset : U32) (amount : U128)
  | bindIdentifier (channel : UInt8) (identifier : Bytes)
  | unbindIdentifier (identifier : Bytes)
  | governance (epoch : U64) (updateBytes : Bytes) (update : Update)
      (signatures : List (U32 × Bytes))
  | distributeFees (asset : U32) (amount : U128) (split : Bytes)
deriving DecidableEq

inductive Auth
  | ed25519 (publicKey signature : Bytes)
  | keyless (signature : MoveKeyless.Signature)
deriving DecidableEq

structure Tx where
  sender : Bytes
  nonce : U64
  feeAsset : U32
  feeRate : U128
  feeIntrinsicGas : U64
  gasLimit : U64
  maxFeePerGas : U128
  maxPriorityFeePerGas : U128
  /-- The payload's canonical bytes, which the signing digest commits to. -/
  payloadBytes : Bytes
  payload : Payload
  auth : Auth
deriving DecidableEq

abbrev Cursor := StateT Bytes Option

def takeBytes (n : Nat) : Cursor Bytes := fun input =>
  if n ≤ input.length then some (input.take n, input.drop n) else none

def takeU8 : Cursor UInt8 := fun input =>
  match input with
  | byte :: rest => some (byte, rest)
  | [] => none

def takeU32 : Cursor U32 := do return ofBeFin 32 (← takeBytes 4)
def takeU64 : Cursor U64 := do return ofBeFin 64 (← takeBytes 8)
def takeU128 : Cursor U128 := do return ofBeFin 128 (← takeBytes 16)

def takeField : Cursor Bytes := do
  let length ← takeU32
  takeBytes length.val

def takeString : Cursor Bytes := do
  let s ← takeField
  if utf8Valid s then return s else failure

def takeBool : Cursor Bool := do
  let byte ← takeU8
  if byte > 1 then failure else return byte = 1

def done : Cursor Unit := fun input => if input.isEmpty then some ((), input) else none

def takeMany (item : Cursor α) : (n : Nat) → Cursor (List α)
  | 0 => return []
  | n + 1 => do
    let first ← item
    let rest ← takeMany item n
    return first :: rest

def splitReader : Cursor Unit := do
  let count ← takeU32
  if count.val > MAX_FEE_BENEFICIARIES then failure
  let _ ← takeMany (do let _ ← takeBytes 32; takeU32) count.val
  let _ ← takeU32
  done

/-- `split_is_well_formed`. -/
def splitIsWellFormed (bytes : Bytes) : Bool := (splitReader.run' bytes).isSome

def recordReader : Cursor Update := do
  let asset ← takeU32
  let symbol ← takeString
  let rate ← takeU128
  let intrinsicGas ← takeU64
  let enabled ← takeBool
  done
  return .setGasAsset asset symbol rate intrinsicGas enabled

/-- The fields of an update of this kind. -/
def updateFields (kind : UInt8) : Cursor Update := do
  if kind = 0 then
    let record ← takeField
    liftM (recordReader.run' record)
  else if kind = 1 then return .setParameter (← takeString) (← takeU128)
  else if kind = 2 then return .setJwk (← takeBytes 32) (← takeBytes 32) (← takeBool)
  else if kind = 3 then return .setFeeMarket (← takeU128) (← takeU64)
  else if kind = 4 then
    let split ← takeField
    if splitIsWellFormed split then return .setFeeSplit split else failure
  else if kind = 5 then return .disableGasAsset (← takeU32)
  else failure

/-- `decode_update`. -/
def decodeUpdate (bytes : Bytes) : Option Update :=
  (do
    let kind ← takeU8
    let update ← updateFields kind
    done
    return update : Cursor Update).run' bytes

def councilSignature : Cursor (U32 × Bytes) := do
  let index ← takeU32
  let signature ← takeField
  if signature.length ≠ 64 then failure else return (index, signature)

def payloadFields (kind : UInt8) : Cursor Payload := do
  if kind = 0 then return .transfer (← takeBytes 32) (← takeU32) (← takeU128)
  else if kind = 1 then
    let channel ← takeU8
    if channel > 2 then failure else return .bindIdentifier channel (← takeBytes 32)
  else if kind = 2 then return .unbindIdentifier (← takeBytes 32)
  else if kind = 3 then
    let epoch ← takeU64
    let updateBytes ← takeField
    let update ← liftM (decodeUpdate updateBytes)
    let count ← takeU32
    if count.val > MAX_COUNCIL_SIGNATURES then failure
    let signatures ← takeMany councilSignature count.val
    return .governance epoch updateBytes update signatures
  else if kind = 4 then
    let asset ← takeU32
    let amount ← takeU128
    let split ← takeField
    if splitIsWellFormed split then return .distributeFees asset amount split else failure
  else failure

/-- `decode_payload`. -/
def decodePayload (bytes : Bytes) : Option Payload :=
  (do
    let kind ← takeU8
    let payload ← payloadFields kind
    done
    return payload : Cursor Payload).run' bytes

def keylessReader : Cursor MoveKeyless.Signature := do
  let issHash ← takeBytes 32
  let idc ← takeBytes 32
  let ephemeralPublicKey ← takeBytes 32
  let ephemeralSignature ← takeBytes 64
  let expDateSecs ← takeU64
  let expHorizonSecs ← takeU64
  let jwtHeaderHash ← takeBytes 32
  let jwkHash ← takeBytes 32
  let hasExtra ← takeBool
  let extraFieldHash ← if hasExtra then some <$> takeBytes 32 else pure none
  let proof ← takeBytes 128
  return {
    issHash, idc, ephemeralPublicKey, ephemeralSignature, expDateSecs, expHorizonSecs,
    jwtHeaderHash, jwkHash, extraFieldHash, proof }

def authReader : Cursor Auth := do
  let kind ← takeU8
  if kind = 0 then return .ed25519 (← takeBytes 32) (← takeBytes 64)
  else if kind = 1 then return .keyless (← keylessReader)
  else failure

def txReader : Cursor Tx := do
  let sender ← takeBytes 32
  let nonce ← takeU64
  let feeAsset ← takeU32
  let feeRate ← takeU128
  let feeIntrinsicGas ← takeU64
  let gasLimit ← takeU64
  let maxFeePerGas ← takeU128
  let maxPriorityFeePerGas ← takeU128
  let payloadBytes ← takeField
  let payload ← liftM (decodePayload payloadBytes)
  let auth ← authReader
  done
  return {
    sender, nonce, feeAsset, feeRate, feeIntrinsicGas, gasLimit, maxFeePerGas,
    maxPriorityFeePerGas, payloadBytes, payload, auth }

/-- Decodes a canonically encoded transaction. -/
def decode (bytes : Bytes) : Option Tx :=
  if bytes.length > MAX_TRANSACTION_BYTES then none else txReader.run' bytes

/-- The digest every authenticator signs. -/
def signingDigest (crypto : Crypto) (tx : Tx) : Move Bytes :=
  Codec.digest crypto .transaction [tx.sender, be 8 tx.nonce.val, be 8 tx.feeAsset.val,
    be 16 tx.feeRate.val, be 8 tx.feeIntrinsicGas.val, be 8 tx.gasLimit.val,
    be 16 tx.maxFeePerGas.val, be 16 tx.maxPriorityFeePerGas.val, tx.payloadBytes]

/-- The digest the council signs for an update. -/
def governanceDigest (crypto : Crypto) (epoch : U64) (updateBytes : Bytes) : Move Bytes :=
  Codec.digest crypto .governanceUpdate [be 8 epoch.val, updateBytes]

end Sena.TxCodec
