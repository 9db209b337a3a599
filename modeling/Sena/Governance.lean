import Sena.Gas

/-! The council, the updates it may authorise, and the identity index: the state
records besides accounts and fees. -/
namespace Sena

structure Council where
  members : List (FixedBytes 32)
  threshold : U32
  epoch : U64
  guardianThreshold : U32
deriving DecidableEq

/-- One member's signature over an update. -/
structure CouncilSignature where
  index : U32
  signature : FixedBytes 64
deriving DecidableEq

inductive GovernanceError where
  | malformedCouncil
  | unknownSigner
  | unorderedSigners
  | badSignature (index : U32)
  | thresholdNotMet (supplied required : U32)
  | ungovernableParameter (name : Utf8)
  | invalidAssetRate
  | invalidFeeParameter
  | wrongEpoch (expected signed : U64)
deriving DecidableEq

namespace Council

/-- The guardian threshold suffices for a guardian payload, if there is one. -/
def required (council : Council) (guardian : Bool) : U32 :=
  if guardian ∧ council.guardianThreshold.val > 0 then council.guardianThreshold else council.threshold

def encode (council : Council) : Bytes :=
  be 4 council.members.length ++ council.members.flatMap (·.bytes) ++ be 4 council.threshold.val ++
    be 8 council.epoch.val ++ be 4 council.guardianThreshold.val

def readMembers : (count : Nat) → Reader (List (FixedBytes 32))
  | 0 => return []
  | n + 1 => do
    let member ← Reader.array 32
    let rest ← readMembers n
    return member :: rest

def decodeInner : Reader Council := do
  let count ← Reader.u32
  let members ← readMembers count.val
  let threshold ← Reader.u32
  let epoch ← Reader.u64
  let guardianThreshold ← Reader.u32
  Reader.finish
  return ⟨members, threshold, epoch, guardianThreshold⟩

/-- `Council::decode`. -/
def decode (bytes : Bytes) : Except GovernanceError Council :=
  match decodeInner.readAll bytes with
  | .ok council => .ok council
  | .error _ => .error .malformedCouncil

end Council

namespace Governance

/-- The signatures in turn: indices strictly increase, so that no member counts
twice, and every signature verifies strictly under its member's key. -/
def checkSignatures (crypto : Crypto) (council : Council) (digest : Hash256) :
    (previous : Option U32) → List CouncilSignature → Except GovernanceError Unit
  | _, [] => .ok ()
  | previous, ⟨index, signature⟩ :: rest =>
    if previous.any (index.val ≤ ·.val) then .error .unorderedSigners
    else match council.members[index.val]? with
      | none => .error .unknownSigner
      | some member =>
        match crypto.ed25519Strict member.bytes signature.bytes digest.bytes with
        | .error .malformedKey => .error .malformedCouncil
        | .error .badSignature => .error (.badSignature index)
        | .ok () => checkSignatures crypto council digest (some index) rest

/-- `verify_council_signatures`: enough of them, in the order of the seats. -/
def verifyCouncilSignatures (crypto : Crypto) (council : Council) (digest : Hash256)
    (signatures : List CouncilSignature) (guardian : Bool) : Except GovernanceError Unit := do
  let required := council.required guardian
  if required.val = 0 then throw (.thresholdNotMet 0 0)
  checkSignatures crypto council digest none signatures
  let supplied : U32 := ⟨min signatures.length (2 ^ 32 - 1), by omega⟩
  if supplied.val < required.val then throw (.thresholdNotMet supplied required)

end Governance

/-- A change the council has authorised. -/
inductive GovernanceUpdate where
  | setGasAsset (record : WhitelistedAsset)
  | setParameter (name : Utf8) (value : U128)
  | setJwk (issHash jwkHash : FixedBytes 32) (active : Bool)
  | setFeeMarket (floor : U128) (target : U64)
  | setFeeSplit (split : FeeSplit)
  | disableGasAsset (asset : U32)
deriving DecidableEq

namespace GovernanceUpdate

/-- The one parameter governance may set. -/
def GOVERNABLE_PARAMETER : Bytes :=
  [0x62, 0x61, 0x74, 0x63, 0x68, 0x2e, 0x6d, 0x61, 0x78, 0x5f, 0x74, 0x72, 0x61, 0x6e, 0x73, 0x61,
   0x63, 0x74, 0x69, 0x6f, 0x6e, 0x73]

example : GOVERNABLE_PARAMETER = Domain.ascii "batch.max_transactions" := by decide +kernel

/-- `write_update`: also what the council signs. -/
def encode : GovernanceUpdate → Bytes
  | setGasAsset record => 0 :: frame record.encode
  | setParameter name value => 1 :: frame name.bytes ++ be 16 value.val
  | setJwk issHash jwkHash active => 2 :: issHash.bytes ++ jwkHash.bytes ++ [Gas.encodeBool active]
  | setFeeMarket floor target => 3 :: be 16 floor.val ++ be 8 target.val
  | setFeeSplit split => 4 :: frame split.encode
  | disableGasAsset asset => 5 :: be 4 asset.val

/-- The digest the council signs for `epoch`. -/
def signingDigest (crypto : Crypto) (update : GovernanceUpdate) (epoch : U64) : Hash256 :=
  crypto.commit .governanceUpdate [be 8 epoch.val, update.encode]

/-- Whether governance is permitted to make the update at all. -/
def checkPermitted : GovernanceUpdate → Except GovernanceError Unit
  | setParameter name _ =>
    if name.bytes = GOVERNABLE_PARAMETER then .ok () else .error (.ungovernableParameter name)
  | setGasAsset record => if record.rate.val = 0 then .error .invalidAssetRate else .ok ()
  | setFeeMarket floor target =>
    if floor.val = 0 ∨ target.val = 0 then .error .invalidFeeParameter else .ok ()
  | setFeeSplit split =>
    match split.check with
    | .ok () => .ok ()
    | .error _ => .error .invalidFeeParameter
  | setJwk _ _ _ | disableGasAsset _ => .ok ()

/-- `GovernanceUpdate::guardian_may_apply`. -/
def guardianMayApply : GovernanceUpdate → Bool
  | disableGasAsset _ => true
  | _ => false

end GovernanceUpdate

/-- What a hashed identifier resolves to. A released one stays as `vacant`. -/
inductive SocialBinding where
  | bound (address : L2Address)
  | vacant
deriving DecidableEq

inductive MalformedBinding where
  | malformedBinding
deriving DecidableEq

namespace SocialBinding

def address : SocialBinding → Option L2Address
  | bound holder => some holder
  | vacant => none

def encode : SocialBinding → Bytes
  | bound holder => 0 :: holder.bytes
  | vacant => [1]

def decodeInner : Reader SocialBinding := do
  let tag ← Reader.u8
  let binding ←
    if tag = 0 then bound <$> Reader.array 32
    else if tag = 1 then pure vacant
    else throw (.unknownVariant tag)
  Reader.finish
  return binding

/-- `SocialBinding::decode`. -/
def decode (bytes : Bytes) : Except MalformedBinding SocialBinding :=
  match decodeInner.readAll bytes with
  | .ok binding => .ok binding
  | .error _ => .error .malformedBinding

end SocialBinding
end Sena
