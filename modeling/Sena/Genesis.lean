import Sena.Execute

/-! Genesis: what a chain is configured with, and the state that builds.

The configuration is applied through the instruction set in a fixed order, so
that two nodes given the same file reach the same root. -/
namespace Sena

/-- An initial balance. -/
structure Allocation where
  address : L2Address
  asset : U32
  amount : U128
deriving DecidableEq

structure FeeMarketConfig where
  baseFeeFloor : U128
  gasTarget : U64
deriving DecidableEq

/-- The council at genesis; members' keys are text in hex. -/
structure CouncilConfig where
  members : List Bytes
  threshold : U32
  guardianThreshold : U32
deriving DecidableEq

/-- A JWK accepted at genesis: the issuer as its tokens name it, and the modulus
as its key set publishes it. -/
structure JwkConfig where
  iss : Bytes
  n : Bytes
deriving DecidableEq

structure KeylessGenesis where
  /-- The parameter set's name. -/
  setup : Bytes
  allowInsecureTestSetup : Bool
  jwks : List JwkConfig
deriving DecidableEq

structure GenesisConfig where
  /-- Identifies the network; no part of the state built from it. -/
  chainId : Utf8
  gasAssets : List WhitelistedAsset
  allocations : List Allocation
  council : Option CouncilConfig
  keyless : Option KeylessGenesis
  feeMarket : Option FeeMarketConfig
  feeSplit : Option FeeSplit
deriving DecidableEq

inductive JwkError where
  | tooLong (length max : Nat)
  | badModulus (got : Nat)
deriving DecidableEq

inductive GenesisError where
  | badCouncilKey (index : Nat)
  | zeroRate (symbol : Utf8)
  | impossibleThreshold (threshold : U32) (members : Nat)
  | apply (source : StepError)
  | unknownKeylessSetup (setup : Bytes)
  | insecureKeylessSetup (setup : Bytes)
  | badFeeSplit
  | badFeeMarket
  | badJwk (index : Nat) (reason : JwkError)
  /-- The process aborted in an encoder: a length or a count does not fit 32 bits. -/
  | panicked
deriving DecidableEq

/-- What the hash of a JWK rests on and no module defines: Poseidon over the
scalars of BN254, and URL-safe base64 without padding. -/
structure JwkHashing where
  poseidon : List Nat → Nat
  base64url : Bytes → Option Bytes

namespace JwkConfig

def MAX_ISS_VAL_BYTES : Nat := 120
def BYTES_PER_SCALAR : Nat := 31
def RSA_MODULUS_BYTES : Nat := 256

/-- The order of BN254's scalar field. -/
def SCALAR_MODULUS : Nat := 21888242871839275222246405745257275088548364400416034343698204186575808495617

/-- A little-endian byte string as a scalar. -/
def scalar (chunk : Bytes) : Nat := ofBe chunk.reverse % SCALAR_MODULUS

/-- A scalar's 32 little-endian bytes. -/
def frToBytes (fr : Nat) : FixedBytes 32 := ⟨(be 32 fr).reverse, by simp⟩

/-- The circuit's encoding of a string: padded, packed, and its length appended. -/
def padAndPackWithLen (b : Bytes) (max : Nat) : Except JwkError (List Nat) :=
  if b.length > max then .error (.tooLong b.length max)
  else .ok (((b ++ List.replicate (max - b.length) 0).toChunks BYTES_PER_SCALAR).map scalar ++ [b.length])

/-- `iss_hash`. -/
def issHash (hashing : JwkHashing) (iss : Bytes) : Except JwkError (FixedBytes 32) := do
  let scalars ← padAndPackWithLen iss MAX_ISS_VAL_BYTES
  return frToBytes (hashing.poseidon scalars)

/-- The modulus as little-endian limbs, three to a scalar. -/
def rsaJwkHash (hashing : JwkHashing) (modulus : Bytes) : Except JwkError (FixedBytes 32) :=
  if modulus.length ≠ RSA_MODULUS_BYTES then .error (.badModulus modulus.length)
  else .ok (frToBytes (hashing.poseidon ((modulus.reverse.toChunks 24).map scalar ++ [RSA_MODULUS_BYTES])))

/-- `rsa_jwk_hash_b64`. -/
def rsaJwkHashB64 (hashing : JwkHashing) (n : Bytes) : Except JwkError (FixedBytes 32) :=
  match hashing.base64url n with
  | none => .error (.badModulus 0)
  | some modulus => rsaJwkHash hashing modulus

def hashes (hashing : JwkHashing) (jwk : JwkConfig) : Except JwkError (FixedBytes 32 × FixedBytes 32) := do
  let iss ← issHash hashing jwk.iss
  let key ← rsaJwkHashB64 hashing jwk.n
  return (iss, key)

end JwkConfig

namespace Hex

def digit (c : UInt8) : Option UInt8 :=
  if 0x30 ≤ c ∧ c ≤ 0x39 then some (c - 0x30)
  else if 0x61 ≤ c ∧ c ≤ 0x66 then some (c - 0x61 + 10)
  else if 0x41 ≤ c ∧ c ≤ 0x46 then some (c - 0x41 + 10)
  else none

def decode : Bytes → Option Bytes
  | [] => some []
  | [_] => none
  | high :: low :: rest => do
    let h ← digit high
    let l ← digit low
    let bytes ← decode rest
    return (h * 16 + l) :: bytes

end Hex

/-- A key in hex, with or without a leading `0x`. -/
def decodeKey : (text : Bytes) → Option (FixedBytes 32)
  | 0x30 :: 0x78 :: rest => (Hex.decode rest).bind (FixedBytes.ofBytes? 32)
  | text => (Hex.decode text).bind (FixedBytes.ofBytes? 32)

/-- Every member's key, or the first that is not one. -/
def decodeMembers : (index : Nat) → List Bytes → Except GenesisError (List (FixedBytes 32))
  | _, [] => .ok []
  | index, text :: rest =>
    match decodeKey text with
    | none => .error (.badCouncilKey index)
    | some member => do
      let members ← decodeMembers (index + 1) rest
      return member :: members

namespace KeylessConfig

def name : KeylessConfig → Bytes
  | aptosMainnet => Domain.ascii "aptos-keyless-mainnet-2025-01"
  | aptosDevnetInsecure => Domain.ascii "aptos-keyless-devnet-insecure"

/-- `KeylessConfig::by_name`. -/
def byName (text : Bytes) : Option KeylessConfig :=
  [aptosMainnet, aptosDevnetInsecure].find? fun config => config.name = text

end KeylessConfig

namespace GenesisConfig

open Except (mapError)

variable (config : GenesisConfig)

/-- The chain's keyless parameters, or none if keyless accounts are disabled. -/
def keylessConfig : Except GenesisError (Option KeylessConfig) :=
  match config.keyless with
  | none => .ok none
  | some k =>
    match KeylessConfig.byName k.setup with
    | none => .error (.unknownKeylessSetup k.setup)
    | some setup =>
      if setup = .aptosDevnetInsecure ∧ k.allowInsecureTestSetup = false then
        .error (.insecureKeylessSetup k.setup)
      else .ok (some setup)

/-- `GenesisConfig::jwk_hashes`. -/
def jwkHashes (hashing : JwkHashing) : Except GenesisError (List (FixedBytes 32 × FixedBytes 32)) :=
  match config.keyless with
  | none => .ok []
  | some k => k.jwks.zipIdx.mapM fun e => mapError (.badJwk e.2) (e.1.hashes hashing)

/-- The genesis fee split, if there is one. -/
def checkedFeeSplit : Except GenesisError (Option FeeSplit) :=
  match config.feeSplit with
  | none => .ok none
  | some split => do
    mapError (fun _ => .badFeeSplit) split.check
    return some split

def validateCouncil (council : CouncilConfig) : Except GenesisError Unit := do
  if council.threshold.val > council.members.length ∨ council.threshold.val = 0 then
    throw (.impossibleThreshold council.threshold council.members.length)
  let _ ← decodeMembers 0 council.members
  if council.guardianThreshold.val > council.threshold.val then
    throw (.impossibleThreshold council.guardianThreshold council.threshold.val)

/-- `GenesisConfig::validate`. -/
def validate (hashing : JwkHashing) : Except GenesisError Unit := do
  if let some asset := config.gasAssets.find? (·.rate.val = 0) then throw (.zeroRate asset.symbol)
  if let some council := config.council then validateCouncil council
  if let some m := config.feeMarket then
    if m.baseFeeFloor.val = 0 ∨ m.gasTarget.val = 0 then throw .badFeeMarket
  let _ ← config.checkedFeeSplit
  let _ ← config.keylessConfig
  let _ ← config.jwkHashes hashing

/-- One instruction of the genesis, applied. -/
def applied (crypto : Crypto) (trie : MerkleTrie) (instruction : Instruction) : Except GenesisError MerkleTrie := do
  let next ← mapError .apply (Execute.apply crypto trie instruction)
  if Execute.panics crypto next instruction then throw .panicked
  return next

/-- A gas asset's record; its encoder panics over a symbol too long to frame. -/
def addGasAsset (crypto : Crypto) (trie : MerkleTrie) (record : WhitelistedAsset) : Except GenesisError MerkleTrie :=
  if Framable record.symbol.bytes then applied crypto trie (.setGasAsset record) else .error .panicked

/-- The council's record, written directly. -/
def addCouncil (crypto : Crypto) (trie : MerkleTrie) (config : CouncilConfig) : Except GenesisError MerkleTrie := do
  let members ← decodeMembers 0 config.members
  if members.length < 2 ^ 32 then
    let council : Council := ⟨members, config.threshold, 0, config.guardianThreshold⟩
    return trie.insert crypto (Keys.council crypto) council.encode
  else throw .panicked

def market : FeeMarketConfig :=
  config.feeMarket.getD ⟨Gas.DEFAULT_BASE_FEE_FLOOR, Gas.DEFAULT_GAS_TARGET⟩

/-- Gas assets, the council, the fee market and split, JWKs, then allocations,
each in the order written. -/
def buildState (crypto : Crypto) (hashing : JwkHashing) (config : GenesisConfig) :
    Except GenesisError MerkleTrie := do
  config.validate hashing
  let trie ← config.gasAssets.foldlM (addGasAsset crypto) MerkleTrie.new
  let trie ← config.council.toList.foldlM (addCouncil crypto) trie
  let trie ← applied crypto trie (.setFeeMarket config.market.baseFeeFloor config.market.gasTarget)
  let split ← config.checkedFeeSplit
  let trie ← split.toList.foldlM (fun trie split => applied crypto trie (.setFeeSplit split)) trie
  let hashes ← config.jwkHashes hashing
  let trie ← hashes.foldlM (fun trie h => applied crypto trie (.setJwk h.1 h.2 true)) trie
  config.allocations.foldlM (fun trie a => applied crypto trie (.credit a.address a.asset a.amount)) trie

end GenesisConfig
end Sena
