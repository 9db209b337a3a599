import Sena.Primitives

/-! Trie keys. All L2 state shares one trie; each kind of entry is keyed by a
digest in its own domain. -/
namespace Sena.Keys

variable (crypto : Crypto)

/-- Key of an account's state. -/
def account (address : FixedBytes 32) : Hash256 := crypto.commit .account [address.bytes]

/-- Key of the address a hashed identifier resolves to. -/
def socialByIdentifier (identifier : Hash256) : Hash256 :=
  crypto.commit .socialByIdentifier [identifier.bytes]

/-- Key of a whitelisted gas asset's record. -/
def asset (assetId : U32) : Hash256 := crypto.commit .asset [be 8 assetId.val]

/-- Key of a governance parameter. -/
def parameter (name : Bytes) : Hash256 := crypto.commit .parameter [name]

/-- Key of the governance council record. -/
def council : Hash256 := crypto.commit .council []

/-- Key of the fee market record. -/
def feeMarket : Hash256 := crypto.commit .feeMarket []

/-- Key of the fee split record. -/
def feeSplit : Hash256 := crypto.commit .feeSplit []

/-- Key of a JWK's acceptance record, for one issuer. -/
def jwk (issHash jwkHash : FixedBytes 32) : Hash256 :=
  crypto.commit .jwk [issHash.bytes, jwkHash.bytes]

end Sena.Keys
