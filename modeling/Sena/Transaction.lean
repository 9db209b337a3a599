import Sena.Governance

/-! Transactions: their canonical encoding, which is what a batch publishes and
its commitment hashes, and how they are authenticated.

Decoding is strict. Every value has one encoding, and as a last check whatever
decoded has to encode to the bytes it was read from. -/
namespace Sena

/-- The kind of channel an identifier belongs to. -/
inductive Channel where
  | email | phone | handle
deriving DecidableEq

namespace Channel

def discriminant : Channel → UInt8
  | email => 0
  | phone => 1
  | handle => 2

def fromDiscriminant (d : UInt8) : Option Channel :=
  if d = 0 then some email else if d = 1 then some phone else if d = 2 then some handle else none

end Channel

/-- What a transaction asks the chain to do. -/
inductive Payload where
  | transfer (recipient : L2Address) (asset : U32) (amount : U128)
  | bindIdentifier (channel : Channel) (identifier : Hash256)
  | unbindIdentifier (identifier : Hash256)
  | governance (epoch : U64) (update : GovernanceUpdate) (signatures : List CouncilSignature)
  | distributeFees (asset : U32) (amount : U128) (split : FeeSplit)
deriving DecidableEq

/-- A keyless authorisation; field elements travel as 32 little-endian bytes. -/
structure KeylessSignature where
  issHash : FixedBytes 32
  idc : FixedBytes 32
  ephemeralPublicKey : FixedBytes 32
  ephemeralSignature : FixedBytes 64
  expDateSecs : U64
  expHorizonSecs : U64
  jwtHeaderHash : FixedBytes 32
  jwkHash : FixedBytes 32
  extraFieldHash : Option (FixedBytes 32)
  proof : FixedBytes 128
deriving DecidableEq

inductive Authenticator where
  | ed25519 (publicKey : FixedBytes 32) (signature : FixedBytes 64)
  | keyless (signature : KeylessSignature)
deriving DecidableEq

structure Transaction where
  sender : L2Address
  nonce : U64
  feeAsset : U32
  feeRate : U128
  feeIntrinsicGas : U64
  gasLimit : U64
  maxFeePerGas : U128
  maxPriorityFeePerGas : U128
  payload : Payload
  authenticator : Authenticator
deriving DecidableEq

/-- Why bytes are not a canonical transaction. -/
inductive WireError where
  | malformed (error : DecodeError)
  | tooLarge (length : Nat)
  | tooManySignatures
deriving DecidableEq

namespace Wire

def MAX_TRANSACTION_BYTES : Nat := 8 * 1024
def MAX_COUNCIL_SIGNATURES : Nat := 32

/-- Reads as `Reader` does, with the wider errors of a transaction. -/
abbrev WireReader := StateT Bytes (Except WireError)

/-- A plain read inside a transaction. -/
def lift (reader : Reader α) : WireReader α := fun input =>
  match reader input with
  | .ok result => .ok result
  | .error error => .error (.malformed error)

def writeKeyless (sig : KeylessSignature) : Bytes :=
  sig.issHash.bytes ++ sig.idc.bytes ++ sig.ephemeralPublicKey.bytes ++ sig.ephemeralSignature.bytes ++
    be 8 sig.expDateSecs.val ++ be 8 sig.expHorizonSecs.val ++ sig.jwtHeaderHash.bytes ++
    sig.jwkHash.bytes ++
    (match sig.extraFieldHash with
      | none => [0]
      | some hash => 1 :: hash.bytes) ++
    sig.proof.bytes

def readKeyless : Reader KeylessSignature := do
  let issHash ← Reader.array 32
  let idc ← Reader.array 32
  let ephemeralPublicKey ← Reader.array 32
  let ephemeralSignature ← Reader.array 64
  let expDateSecs ← Reader.u64
  let expHorizonSecs ← Reader.u64
  let jwtHeaderHash ← Reader.array 32
  let jwkHash ← Reader.array 32
  let revealed ← Reader.bool
  let extraFieldHash ← if revealed then some <$> Reader.array 32 else pure none
  let proof ← Reader.array 128
  return {
    issHash, idc, ephemeralPublicKey, ephemeralSignature, expDateSecs, expHorizonSecs,
    jwtHeaderHash, jwkHash, extraFieldHash, proof }

/-- A length-prefixed record, which has to be the canonical encoding of itself. -/
def readCanonical (decode : Bytes → Except MalformedRecord α) (encode : α → Bytes) (variant : UInt8) : Reader α := do
  let bytes ← Reader.bytes
  match decode bytes with
  | .error _ => throw (.unknownVariant variant)
  | .ok record => if encode record ≠ bytes then throw (.unknownVariant variant) else return record

def readSplit (variant : UInt8) : Reader FeeSplit := readCanonical FeeSplit.decode FeeSplit.encode variant

/-- `read_update`. -/
def readUpdate : Reader GovernanceUpdate := do
  let tag ← Reader.u8
  if tag = 0 then
    return .setGasAsset (← readCanonical WhitelistedAsset.decode WhitelistedAsset.encode 0)
  else if tag = 1 then return .setParameter (← Reader.string) (← Reader.u128)
  else if tag = 2 then return .setJwk (← Reader.array 32) (← Reader.array 32) (← Reader.bool)
  else if tag = 3 then return .setFeeMarket (← Reader.u128) (← Reader.u64)
  else if tag = 4 then return .setFeeSplit (← readSplit 4)
  else if tag = 5 then return .disableGasAsset (← Reader.u32)
  else throw (.unknownVariant tag)

/-- `write_payload`. -/
def writePayload : Payload → Bytes
  | .transfer recipient asset amount => 0 :: recipient.bytes ++ be 4 asset.val ++ be 16 amount.val
  | .bindIdentifier channel identifier => 1 :: channel.discriminant :: identifier.bytes
  | .unbindIdentifier identifier => 2 :: identifier.bytes
  | .governance epoch update signatures =>
    3 :: be 8 epoch.val ++ frame update.encode ++ be 4 signatures.length ++
      signatures.flatMap fun s => be 4 s.index.val ++ frame s.signature.bytes
  | .distributeFees asset amount split => 4 :: be 4 asset.val ++ be 16 amount.val ++ frame split.encode

def readSignatures : (count : Nat) → Reader (List CouncilSignature)
  | 0 => return []
  | n + 1 => do
    let index ← Reader.u32
    let bytes ← Reader.bytes
    match FixedBytes.ofBytes? 64 bytes with
    | none => throw .lengthOverflow
    | some signature =>
      let rest ← readSignatures n
      return ⟨index, signature⟩ :: rest

/-- A governance payload's update, a byte string read to its end. -/
def readInner (inner : Bytes) : Reader GovernanceUpdate := fun rest =>
  match (do
    let update ← readUpdate
    Reader.finish
    return update : Reader GovernanceUpdate).readAll inner with
  | .ok update => .ok (update, rest)
  | .error error => .error error

/-- `read_payload`. -/
def readPayload : WireReader Payload := do
  let tag ← lift Reader.u8
  if tag = 0 then
    return .transfer (← lift (Reader.array 32)) (← lift Reader.u32) (← lift Reader.u128)
  else if tag = 1 then
    let d ← lift Reader.u8
    match Channel.fromDiscriminant d with
    | none => throw (.malformed (.unknownVariant d))
    | some channel => return .bindIdentifier channel (← lift Reader.hash)
  else if tag = 2 then return .unbindIdentifier (← lift Reader.hash)
  else if tag = 3 then
    let epoch ← lift Reader.u64
    let inner ← lift Reader.bytes
    let update ← lift (readInner inner)
    let count ← lift Reader.u32
    if count.val > MAX_COUNCIL_SIGNATURES then throw .tooManySignatures
    let signatures ← lift (readSignatures count.val)
    return .governance epoch update signatures
  else if tag = 4 then
    return .distributeFees (← lift Reader.u32) (← lift Reader.u128) (← lift (readSplit 4))
  else throw (.malformed (.unknownVariant tag))

/-- The payload's own bytes, read to their end. -/
def decodePayload (bytes : Bytes) : Except WireError Payload :=
  (do
    let payload ← readPayload
    lift Reader.finish
    return payload : WireReader Payload).run' bytes

def writeAuthenticator : Authenticator → Bytes
  | .ed25519 publicKey signature => 0 :: publicKey.bytes ++ signature.bytes
  | .keyless sig => 1 :: writeKeyless sig

def readAuthenticator : Reader Authenticator := do
  let tag ← Reader.u8
  if tag = 0 then return .ed25519 (← Reader.array 32) (← Reader.array 64)
  else if tag = 1 then return .keyless (← readKeyless)
  else throw (.unknownVariant tag)

end Wire

namespace Transaction

open Wire

/-- The canonical encoding, as batches publish it. -/
def encode (tx : Transaction) : Bytes :=
  tx.sender.bytes ++ be 8 tx.nonce.val ++ be 4 tx.feeAsset.val ++ be 16 tx.feeRate.val ++
    be 8 tx.feeIntrinsicGas.val ++ be 8 tx.gasLimit.val ++ be 16 tx.maxFeePerGas.val ++
    be 16 tx.maxPriorityFeePerGas.val ++ frame (writePayload tx.payload) ++
    writeAuthenticator tx.authenticator

def readTransaction : WireReader Transaction := do
  let sender ← lift (Reader.array 32)
  let nonce ← lift Reader.u64
  let feeAsset ← lift Reader.u32
  let feeRate ← lift Reader.u128
  let feeIntrinsicGas ← lift Reader.u64
  let gasLimit ← lift Reader.u64
  let maxFeePerGas ← lift Reader.u128
  let maxPriorityFeePerGas ← lift Reader.u128
  let payloadBytes ← lift Reader.bytes
  let payload ← liftM (decodePayload payloadBytes)
  let authenticator ← lift readAuthenticator
  lift Reader.finish
  return {
    sender, nonce, feeAsset, feeRate, feeIntrinsicGas, gasLimit, maxFeePerGas,
    maxPriorityFeePerGas, payload, authenticator }

/-- `Transaction::decode`: accepts only the bytes that `encode` writes. -/
def decode (bytes : Bytes) : Except WireError Transaction :=
  if bytes.length > MAX_TRANSACTION_BYTES then .error (.tooLarge bytes.length)
  else match readTransaction.run' bytes with
    | .error error => .error error
    | .ok tx =>
      -- whatever decodes has to encode to itself
      if tx.encode ≠ bytes then .error (.malformed (.unknownVariant 0xff)) else .ok tx

/-- The digest authenticators sign: every field but the authenticator. -/
def signingDigest (crypto : Crypto) (tx : Transaction) : Hash256 :=
  crypto.commit .transaction [tx.sender.bytes, be 8 tx.nonce.val, be 8 tx.feeAsset.val,
    be 16 tx.feeRate.val, be 8 tx.feeIntrinsicGas.val, be 8 tx.gasLimit.val,
    be 16 tx.maxFeePerGas.val, be 16 tx.maxPriorityFeePerGas.val, writePayload tx.payload]

/-- The transaction's identifier. -/
def hash (crypto : Crypto) (tx : Transaction) : Hash256 := crypto.sha256 tx.encode

end Transaction

/-- The parameter sets a network can run keyless accounts with. -/
inductive KeylessConfig where
  | aptosMainnet
  | aptosDevnetInsecure
deriving DecidableEq

namespace KeylessConfig

def maxExpHorizonSecs : KeylessConfig → U64
  | aptosMainnet => 10000000
  | aptosDevnetInsecure => 1000000000000

/-- The number L1 gives a parameter set; 0 means keyless accounts are disabled. -/
def l1SetupId : Option KeylessConfig → UInt8
  | none => 0
  | some aptosMainnet => 1
  | some aptosDevnetInsecure => 2

end KeylessConfig

inductive KeylessError where
  | disabled
  | wrongSender
  | nonCanonicalScalar
  | horizonTooLong (horizon max : U64)
  | expired (expiry now : U64)
  | malformedEphemeralKey
  | badEphemeralSignature
  | invalidProof
deriving DecidableEq

inductive AuthError where
  | malformedKey
  | badSignature
  | wrongSigner
  | keyless (error : KeylessError)
deriving DecidableEq

namespace KeylessSignature

/-- The address the authorisation controls. -/
def address (crypto : Crypto) (sig : KeylessSignature) : L2Address :=
  crypto.commit .keylessAddress [sig.issHash.bytes, sig.idc.bytes]

/-- What the circuit's public input covers. -/
def inputs (sig : KeylessSignature) : KeylessInputs where
  issHash := sig.issHash.bytes
  idc := sig.idc.bytes
  ephemeralPublicKey := sig.ephemeralPublicKey.bytes
  expDateSecs := sig.expDateSecs
  expHorizonSecs := sig.expHorizonSecs
  jwtHeaderHash := sig.jwtHeaderHash.bytes
  jwkHash := sig.jwkHash.bytes
  extraFieldHash := sig.extraFieldHash.map (·.bytes)

/-- Verifies the authorisation of `digest` on behalf of `sender` at the batch time. -/
def verify (crypto : Crypto) (config : Option KeylessConfig) (now : U64) (sig : KeylessSignature)
    (sender : L2Address) (digest : Hash256) : Except KeylessError Unit :=
  match config with
  | none => .error .disabled
  | some config =>
    if sig.address crypto ≠ sender then .error .wrongSender
    else if sig.expHorizonSecs.val > config.maxExpHorizonSecs.val then
      .error (.horizonTooLong sig.expHorizonSecs config.maxExpHorizonSecs)
    else if now.val ≥ sig.expDateSecs.val then .error (.expired sig.expDateSecs now)
    else match crypto.ed25519Strict sig.ephemeralPublicKey.bytes sig.ephemeralSignature.bytes
        digest.bytes with
      | .error .malformedKey => .error .malformedEphemeralKey
      | .error .badSignature => .error .badEphemeralSignature
      | .ok () =>
        match crypto.publicInputsHash sig.inputs with
        | none => .error .nonCanonicalScalar
        | some input =>
          if crypto.groth16Verify (KeylessConfig.l1SetupId (some config)) sig.proof.bytes input then
            .ok ()
          else .error .invalidProof

end KeylessSignature

/-- Checks that the transaction is authorised. An Ed25519 account's address is
its public key. -/
def Transaction.authenticate (crypto : Crypto) (config : Option KeylessConfig) (now : U64)
    (tx : Transaction) : Except AuthError Unit :=
  match tx.authenticator with
  | .ed25519 publicKey signature =>
    if tx.sender ≠ publicKey then .error .wrongSigner
    else match crypto.ed25519Strict publicKey.bytes signature.bytes (tx.signingDigest crypto).bytes with
      | .error .malformedKey => .error .malformedKey
      | .error .badSignature => .error .badSignature
      | .ok () => .ok ()
  | .keyless sig =>
    match sig.verify crypto config now tx.sender (tx.signingDigest crypto) with
    | .error error => .error (.keyless error)
    | .ok () => .ok ()

end Sena
