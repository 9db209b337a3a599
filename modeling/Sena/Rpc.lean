import Sena.Bridge
import Sena.L1Client
import Sena.LightClient
import Sena.Sequencer

/-! The proofs a node hands out over its RPC.

Both are drawn against the root of a block that may be long past. The trie keeps
every node, so the path can be drawn; it keeps only the values it holds now, so
the value at the end of the path can not always be given. -/
namespace Sena

open L1Client (Text hexEncode hexDecode)

namespace Sequencer

/-- `Sequencer::assertion_for`. -/
def assertionFor (s : Sequencer) (height : Nat) : Option Hash256 :=
  if height = 0 then none else s.assertions[height - 1]?

/-- The height of the last block whose assertion is final, zero if none is. -/
def finalizedHeight (s : Sequencer) : Nat :=
  ((s.blocks.reverse.find? fun block =>
    (s.assertionFor block.height).bind s.chain.status = some .finalized).map (·.height)).getD 0

end Sequencer

namespace Rpc

/-- What the bridge is shown. Bytes are text in hex, as they are pasted into a call. -/
structure WithdrawalProof where
  assertionHeight : Nat
  stateRoot : Hash256
  accountValue : Text
  siblings : List Text
  terminalIsLeaf : Bool
  terminalKey : Text
  terminalValueHash : Text
  finalized : Bool
deriving DecidableEq

/-- The end of a path as the response spells it. -/
def terminalText : Terminal → Bool × Text × Text
  | .leaf key valueHash => (true, hexEncode key.bytes, hexEncode valueHash.bytes)
  | .empty => (false, [], [])

/-- Drawn against the last final block, with the account's value as it is now. -/
def withdrawalProof (crypto : Crypto) (s : Sequencer) (address : L2Address) : Except String WithdrawalProof :=
  let height := s.finalizedHeight
  if height = 0 then .error "no assertion has finalized yet; nothing is withdrawable"
  else
    match s.blocks[height - 1]? with
    | none => .error s!"no block at finalized height {height}"
    | some block =>
      let root := block.postStateRoot
      let slot := Keys.account crypto address
      let proof := s.state.proveAt root slot
      let value := (s.state.get slot).getD []
      let (terminalIsLeaf, terminalKey, terminalValueHash) := terminalText proof.terminal
      .ok {
        assertionHeight := height
        stateRoot := root
        accountValue := hexEncode value
        siblings := proof.siblings.map (hexEncode ·.bytes)
        terminalIsLeaf
        terminalKey
        terminalValueHash
        finalized := true }

/-- The arguments of a withdrawal from an assertion, read off the response. -/
def WithdrawalProof.claim (response : WithdrawalProof) (assertionId : Bytes) : Option Bridge.Claim := do
  let accountValue ← hexDecode response.accountValue
  let siblings ← response.siblings.mapM hexDecode
  let terminalKey ← hexDecode response.terminalKey
  let terminalValueHash ← hexDecode response.terminalValueHash
  return {
    assertionId
    accountValue
    siblings
    terminalIsLeaf := response.terminalIsLeaf
    terminalKey
    terminalValueHash }

structure AccountProof where
  address : L2Address
  height : Nat
  stateRoot : Hash256
  nonce : U64
  balances : List (U32 × U128)
  siblings : List Hash256
  terminal : Terminal
  finalized : Bool
deriving DecidableEq

/-- The response as a client takes it. -/
def AccountProof.payload (response : AccountProof) : AccountProofPayload where
  address := response.address
  height := Fin.ofNat (2 ^ 64) response.height
  stateRoot := response.stateRoot
  nonce := response.nonce
  balances := response.balances
  siblings := response.siblings
  terminal := response.terminal

/-- The root at a height, and whether it is the current one. -/
def rootAt (s : Sequencer) (height : Nat) : Except String (Hash256 × Bool) :=
  let currentHeight := s.blocks.length
  if height = currentHeight then .ok (s.state.root, true)
  else if height = 0 then
    match s.blocks.head? with
    | some first => .ok (first.preStateRoot, false)
    | none => .ok (s.state.root, true)
  else
    match s.blocks[height - 1]? with
    | some block => .ok (block.postStateRoot, false)
    | none => .error s!"no block at height {height}; latest is {currentHeight}"

/-- What stored bytes say of an account; bytes that say nothing are an empty one. -/
def fields (bytes : Bytes) : U64 × List (U32 × U128) :=
  match Account.decode bytes with
  | .ok account => (account.nonce, account.balances.entries)
  | .error _ => (0, [])

/-- What to claim of an account at a height. For a past height the value is given only
if it is still the one whose hash ends the path. -/
def claimed (crypto : Crypto) (isCurrent : Bool) (stored : Option Bytes) (terminal : Terminal) (height : Nat) :
    Except String (U64 × List (U32 × U128)) :=
  if isCurrent then
    match stored with
    | some bytes => .ok (fields bytes)
    | none => .ok (0, [])
  else
    match terminal with
    | .empty => .ok (0, [])
    | .leaf _ valueHash =>
      match stored with
      | some bytes =>
        if crypto.sha256 bytes = valueHash then .ok (fields bytes)
        else .error s!"historical account data at height {height} has been overwritten; query latest state"
      | none => .error s!"historical account data at height {height} has been overwritten; query latest state"

/-- `account_proof`: `sena_getAccountProof`. -/
def accountProof (crypto : Crypto) (s : Sequencer) (address : L2Address) (targetHeight : Option Nat) :
    Except String AccountProof := do
  let height := targetHeight.getD s.blocks.length
  let (root, isCurrent) ← rootAt s height
  let slot := Keys.account crypto address
  let proof := s.state.proveAt root slot
  let (nonce, balances) ← claimed crypto isCurrent (s.state.get slot) proof.terminal height
  return {
    address
    height
    stateRoot := root
    nonce
    balances
    siblings := proof.siblings
    terminal := proof.terminal
    finalized := height ≤ s.finalizedHeight }

end Rpc
end Sena
