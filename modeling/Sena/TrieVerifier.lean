import Sena.Move
import Sena.TrieProofs

/-! The contract's trie verifier, over byte vectors of any length.

The prover chooses every byte of a proof. Against a root the node's trie really
has, the proofs the node draws are accepted and lead to the same roots, and no
other proof gets anything different accepted. -/
namespace Sena.TrieVerifier

open Move

def E_TOO_DEEP : Nat := 10
def E_ROOT_MISMATCH : Nat := 11
def E_LEAF_OFF_PATH : Nat := 12
def E_KEY_ABSENT : Nat := 13
def E_KEY_PRESENT : Nat := 14
def E_VALUE_MISMATCH : Nat := 15
def E_KEYS_NOT_DISTINCT : Nat := 16

structure Terminal where
  isLeaf : Bool
  key : Bytes
  valueHash : Bytes
deriving DecidableEq

structure Proof where
  /-- Sibling hashes, root first. -/
  siblings : List Bytes
  terminal : Terminal
deriving DecidableEq

def emptyTerminal : Terminal := ⟨false, [], []⟩
def leafTerminal (key valueHash : Bytes) : Terminal := ⟨true, key, valueHash⟩

def zero : Bytes := List.replicate 32 0

/-- A key shorter than the index asks for aborts on the borrow. -/
def bit (key : Bytes) (index : Nat) : Move Bool := do
  let byte ← borrow key (index / 8)
  return byte.toNat.testBit (7 - index % 8)

variable (crypto : Crypto)

def hashLeaf (key valueHash : Bytes) : Move Bytes :=
  Codec.digest crypto .trieLeaf [key, valueHash]

def hashInternal (left right : Bytes) : Move Bytes :=
  Codec.digest crypto .trieInternal [left, right]

def hashValue (value : Bytes) : Bytes := (crypto.sha256 value).bytes

def terminalHash (t : Terminal) : Move Bytes :=
  if t.isLeaf then hashLeaf crypto t.key t.valueHash else .ok zero

/-- The two keys agree on their first `depth` bits. -/
def onPath (leafKey key : Bytes) (depth : Nat) : Move Unit :=
  (List.range depth).forM fun i => do
    let ofLeaf ← bit leafKey i
    let ofKey ← bit key i
    ensure (ofLeaf = ofKey) (.code .trie E_LEAF_OFF_PATH)

/-- A leaf at the end of the path has to lie on it; an empty end lies anywhere. -/
def terminalOnPath (t : Terminal) (key : Bytes) (depth : Nat) : Move Unit :=
  if t.isLeaf then onPath t.key key depth else .ok ()

/-- The loop from the deepest sibling up: `level` is that of the first sibling,
and everything below it is folded before it. -/
def climb (crypto : Crypto) (key : Bytes) : (level : Nat) → List Bytes → Bytes → Move Bytes
  | _, [], running => .ok running
  | level, sibling :: deeper, running => do
    let below ← climb crypto key (level + 1) deeper running
    if ← bit key level then hashInternal crypto sibling below
    else hashInternal crypto below sibling

/-- `reconstruct_root`. -/
def reconstructRoot (proof : Proof) (key : Bytes) : Move Bytes := do
  ensure (proof.siblings.length ≤ MAX_DEPTH) (.code .trie E_TOO_DEEP)
  terminalOnPath proof.terminal key proof.siblings.length
  let running ← terminalHash crypto proof.terminal
  climb crypto key 0 proof.siblings running

/-- `verify_inclusion`. -/
def verifyInclusion (proof : Proof) (root key valueHash : Bytes) : Move Unit := do
  let reconstructed ← reconstructRoot crypto proof key
  ensure (reconstructed = root) (.code .trie E_ROOT_MISMATCH)
  ensure (proof.terminal.isLeaf = true) (.code .trie E_KEY_ABSENT)
  ensure (proof.terminal.key = key) (.code .trie E_KEY_ABSENT)
  ensure (proof.terminal.valueHash = valueHash) (.code .trie E_VALUE_MISMATCH)

/-- `verify_non_inclusion`. -/
def verifyNonInclusion (proof : Proof) (root key : Bytes) : Move Unit := do
  let reconstructed ← reconstructRoot crypto proof key
  ensure (reconstructed = root) (.code .trie E_ROOT_MISMATCH)
  if proof.terminal.isLeaf then
    ensure (proof.terminal.key ≠ key) (.code .trie E_KEY_PRESENT)

/-- `fuel` counts the levels left below `depth`; none left is the source's
check that the depth is under the maximum. -/
def splitHash (crypto : Crypto) : (fuel depth : Nat) → (keyA valueA keyB valueB : Bytes) → Move Bytes
  | 0, _, _, _, _, _ => .error (.code .trie E_KEYS_NOT_DISTINCT)
  | fuel + 1, depth, keyA, valueA, keyB, valueB => do
    let bitA ← bit keyA depth
    let bitB ← bit keyB depth
    if bitA = bitB then
      let child ← splitHash crypto fuel (depth + 1) keyA valueA keyB valueB
      if bitA then hashInternal crypto zero child else hashInternal crypto child zero
    else
      let leafA ← hashLeaf crypto keyA valueA
      let leafB ← hashLeaf crypto keyB valueB
      if bitA then hashInternal crypto leafB leafA else hashInternal crypto leafA leafB

/-- The digest a write puts where the path ended. -/
def writtenHash (proof : Proof) (key newValueHash : Bytes) : Move Bytes := do
  let depth := proof.siblings.length
  if proof.terminal.isLeaf = false then hashLeaf crypto key newValueHash
  else if proof.terminal.key = key then hashLeaf crypto key newValueHash
  else
    onPath proof.terminal.key key depth
    splitHash crypto (MAX_DEPTH - depth) depth key newValueHash proof.terminal.key
      proof.terminal.valueHash

/-- `compute_updated_root`: the root once the key's value is replaced. -/
def computeUpdatedRoot (proof : Proof) (key newValueHash : Bytes) : Move Bytes := do
  ensure (proof.siblings.length ≤ MAX_DEPTH) (.code .trie E_TOO_DEEP)
  let running ← writtenHash crypto proof key newValueHash
  climb crypto key 0 proof.siblings running

end Sena.TrieVerifier
