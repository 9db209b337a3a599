import Sena.Assertions
import Sena.Osp

/-! The bridge: custody of one asset, deposits into it, and withdrawals against
finalized assertions. Transfers of the asset are exact. -/
namespace Sena

/-- The event a paid withdrawal emits. -/
structure Withdrawn where
  claimant : Address
  amount : U64
  assertion : Bytes
  withdrawalId : Bytes
deriving DecidableEq

structure Bridge where
  l2AssetId : U32
  /-- The balance of the store deposits are held in. -/
  custody : Nat
  /-- Withdrawals already paid, by their derived identifier. -/
  spent : Bytes → Bool
  depositCount : U64
  /-- The accounts' own balances of the bridged asset. -/
  wallets : Address → Nat
  /-- The events emitted so far, oldest first. -/
  withdrawn : List Withdrawn

namespace Bridge

open Move

def E_ALREADY_WITHDRAWN : Nat := 40
def E_NOTHING_TO_WITHDRAW : Nat := 44
def E_SLOT_NOT_CLAIMANTS : Nat := 45
def E_ZERO_AMOUNT : Nat := 46
def E_CUSTODY_SHORTFALL : Nat := 47

/-- `initialize`. -/
def initializeBridge (l2AssetId : U32) (wallets : Address → Nat) : Bridge :=
  ⟨l2AssetId, 0, fun _ => false, 0, wallets, []⟩

/-- `deposit`: into custody. -/
def deposit (b : Bridge) (depositor : Address) (amount : U64) : Move Bridge := do
  ensure (amount.val > 0) (.code .bridge E_ZERO_AMOUNT)
  ensure (amount.val ≤ b.wallets depositor) .transfer
  let depositCount ← add b.depositCount 1
  return { b with
    wallets := Function.update b.wallets depositor (b.wallets depositor - amount.val)
    custody := b.custody + amount.val
    depositCount }

/-- The trie key an L2 account's state is stored under. -/
def accountSlot (crypto : Crypto) (l2Address : Address) : Move Bytes :=
  Codec.digest crypto .account [l2Address.bytes]

/-- Derived from what the withdrawal is: the assertion, the account and the asset. -/
def withdrawalId (crypto : Crypto) (assertion : Bytes) (l2Address : Address) (l2AssetId : U32) : Move Bytes :=
  Codec.digest crypto .withdrawal [assertion, l2Address.bytes, be 4 l2AssetId.val]

/-- What a claimant passes to `withdraw`. -/
structure Claim where
  assertionId : Bytes
  accountValue : Bytes
  siblings : List Bytes
  terminalIsLeaf : Bool
  terminalKey : Bytes
  terminalValueHash : Bytes
deriving DecidableEq

def Claim.proof (claim : Claim) : TrieVerifier.Proof :=
  ⟨claim.siblings,
    if claim.terminalIsLeaf then TrieVerifier.leafTerminal claim.terminalKey claim.terminalValueHash
    else TrieVerifier.emptyTerminal⟩

/-- `withdraw`: pays the balance an account had in a final state, once for each state. -/
def withdraw (crypto : Crypto) (c : Assertions.Chain) (b : Bridge) (claimant : Address)
    (claim : Claim) : Move Bridge := do
  let root ← Assertions.finalizedRoot c claim.assertionId
  -- the slot is derived from the claimant, never accepted from them
  let slot ← accountSlot crypto claimant
  ensure (claim.terminalIsLeaf = true → claim.terminalKey = slot) (.code .bridge E_SLOT_NOT_CLAIMANTS)
  TrieVerifier.verifyInclusion crypto claim.proof root slot
    (TrieVerifier.hashValue crypto claim.accountValue)
  let id ← withdrawalId crypto claim.assertionId claimant b.l2AssetId
  ensure (b.spent id = false) (.code .bridge E_ALREADY_WITHDRAWN)
  let account ← Osp.decodeAccount claim.accountValue
  let balance := Osp.balanceOf account b.l2AssetId
  ensure (balance.val > 0) (.code .bridge E_NOTHING_TO_WITHDRAW)
  ensure (balance.val ≤ 18446744073709551615) (.code .bridge E_CUSTODY_SHORTFALL)
  let amount ← checked 64 balance.val
  ensure (b.custody ≥ amount.val) (.code .bridge E_CUSTODY_SHORTFALL)
  return { b with
    spent := Function.update b.spent id true
    custody := b.custody - amount.val
    wallets := Function.update b.wallets claimant (b.wallets claimant + amount.val)
    withdrawn := b.withdrawn ++ [⟨claimant, amount, claim.assertionId, id⟩] }

end Bridge
end Sena
