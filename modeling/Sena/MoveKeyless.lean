import Sena.Move

/-! Keyless authorisations as the contract checks them. Nothing here aborts on
bad input: an authorisation that does not verify is an answer. -/
namespace Sena.MoveKeyless

open Move

def SETUP_DISABLED : UInt8 := 0
def SETUP_APTOS_MAINNET_2025_01 : UInt8 := 1
def SETUP_APTOS_DEVNET_INSECURE : UInt8 := 2
def E_UNKNOWN_SETUP : Nat := 1
def MAINNET_MAX_EXP_HORIZON_SECS : U64 := 10000000
def DEVNET_MAX_EXP_HORIZON_SECS : U64 := 1000000000000

structure Signature where
  issHash : Bytes
  idc : Bytes
  ephemeralPublicKey : Bytes
  ephemeralSignature : Bytes
  expDateSecs : U64
  expHorizonSecs : U64
  jwtHeaderHash : Bytes
  jwkHash : Bytes
  extraFieldHash : Option Bytes
  proof : Bytes
deriving DecidableEq

/-- What the circuit's public input covers. -/
def Signature.inputs (sig : Signature) : KeylessInputs where
  issHash := sig.issHash
  idc := sig.idc
  ephemeralPublicKey := sig.ephemeralPublicKey
  expDateSecs := sig.expDateSecs
  expHorizonSecs := sig.expHorizonSecs
  jwtHeaderHash := sig.jwtHeaderHash
  jwkHash := sig.jwkHash
  extraFieldHash := sig.extraFieldHash

/-- `address_of`. -/
def addressOf (crypto : Crypto) (sig : Signature) : Move Bytes :=
  Codec.digest crypto .keylessAddress [sig.issHash, sig.idc]

/-- `verify_ed25519_strict`. -/
def verifyEd25519Strict (crypto : Crypto) (publicKey signature message : Bytes) : Bool :=
  if publicKey.length ≠ 32 ∨ signature.length ≠ 64 then false
  else (crypto.ed25519Strict publicKey signature message).isOk

/-- The checks that need neither Poseidon nor a pairing. -/
def precheck (crypto : Crypto) (setup : UInt8) (sig : Signature) (sender digest : Bytes) (now : U64) : Move Bool := do
  if setup = SETUP_DISABLED ∨ setup > SETUP_APTOS_DEVNET_INSECURE then return false
  let address ← addressOf crypto sig
  if address ≠ sender then return false
  let maxHorizon :=
    if setup = SETUP_APTOS_MAINNET_2025_01 then MAINNET_MAX_EXP_HORIZON_SECS
    else DEVNET_MAX_EXP_HORIZON_SECS
  if sig.expHorizonSecs.val > maxHorizon.val then return false
  if now.val ≥ sig.expDateSecs.val then return false
  return verifyEd25519Strict crypto sig.ephemeralPublicKey sig.ephemeralSignature digest

/-- `verify`: the ephemeral key's signature, and the proof that binds the key to the address. -/
def verify (crypto : Crypto) (setup : UInt8) (sig : Signature) (sender digest : Bytes) (now : U64) : Move Bool := do
  if ← precheck crypto setup sig sender digest now then
    match crypto.publicInputsHash sig.inputs with
    | none => return false
    | some input => return sig.proof.length = 128 ∧ crypto.groth16Verify setup sig.proof input = true
  else return false

/-- The key a job's verdict is stored under. -/
def jobId (crypto : Crypto) (txBytes : Bytes) (timestamp : U64) (setup : UInt8) : Move Bytes :=
  Codec.digest crypto .keylessJob [txBytes, be 8 timestamp.val, be 8 setup.toNat]

end Sena.MoveKeyless
