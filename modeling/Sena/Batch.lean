import Sena.PaddedTree
import Sena.TrieVerifierProofs

/-! The batch commitment, as the node builds it and as the contract checks it.

The contract computes the root from the published transactions and checks one
leaf against it; the node builds the tree and draws the leaf's path. Both walk
the padded tree of the same leaf digests. -/
namespace Sena

namespace Batch

variable (crypto : Crypto)

/-- `leaf_hash`. -/
def leafHash (index : Nat) (startPc : U64) (txBytes : Bytes) : Hash256 :=
  crypto.commit .batchLeaf [be 8 index, be 8 startPc.val, txBytes]

/-- `node_hash`. -/
def nodeHash (left right : Hash256) : Hash256 :=
  crypto.commit .batchNode [left.bytes, right.bytes]

/-- `header_commitment`: what an assertion commits its batch by. -/
def headerCommitment (timestamp : U64) (baseFee : U128) (feeRecipient : L2Address) (txCount : Nat)
    (txRoot : Hash256) : Hash256 :=
  crypto.commit .batch
    [be 8 timestamp.val, be 16 baseFee.val, feeRecipient.bytes, be 8 txCount, txRoot.bytes]

/-- Levels from the padded leaves up to the root. -/
structure BatchTree where
  levels : List (List Hash256)
  txCount : Nat

def leafHashes (leaves : List (U64 × Bytes)) : List Hash256 :=
  leaves.zipIdx.map fun (leaf, i) => leafHash crypto i leaf.1 leaf.2

/-- The leaf digests, resized to the next power of two with zero hashes. -/
def padded (leaves : List (U64 × Bytes)) : List Hash256 :=
  leafHashes crypto leaves ++
    List.replicate ((PaddedTree.cover leaves.length).1 - leaves.length) Hash256.zero

/-- `BatchTree::build`. -/
def BatchTree.build (leaves : List (U64 × Bytes)) : BatchTree :=
  ⟨PaddedTree.levels (nodeHash crypto) (PaddedTree.cover leaves.length).1 (padded crypto leaves),
    leaves.length⟩

def BatchTree.root (tree : BatchTree) : Hash256 := PaddedTree.root Hash256.zero tree.levels

/-- The sibling hashes of leaf `index`, from the leaf up; none past the end. -/
def BatchTree.prove (tree : BatchTree) (index : Nat) : Option (List Hash256) :=
  if tree.txCount ≤ index then none
  else some (PaddedTree.path Hash256.zero tree.levels index)

end Batch

namespace BatchVerifier

open Move TrieVerifier

/-- More siblings than any batch tree can have. -/
def MAX_BATCH_DEPTH : Nat := 32

variable (crypto : Crypto)

/-- `leaf_hash`, in Move. -/
def leafHash (index : Nat) (startPc : U64) (txBytes : Bytes) : Move Bytes :=
  Codec.digest crypto .batchLeaf [be 8 index, be 8 startPc.val, txBytes]

/-- `node_hash`, in Move. -/
def nodeHash (left right : Bytes) : Move Bytes := Codec.digest crypto .batchNode [left, right]

/-- `header_commitment`, in Move. -/
def headerCommitment (timestamp : U64) (baseFee : U128) (feeRecipient : Bytes) (txCount : Nat)
    (txRoot : Bytes) : Move Bytes :=
  Codec.digest crypto .batch
    [be 8 timestamp.val, be 16 baseFee.val, feeRecipient, be 8 txCount, txRoot]

def leafHashes (txBytes : List Bytes) (txStarts : List U64) : Move (List Bytes) :=
  txBytes.zipIdx.mapM fun (tx, i) => do
    let start ← borrow txStarts i
    leafHash crypto i start tx

/-- One pass of the loop that halves a level; an odd level runs off its end. -/
def above : List Bytes → Move (List Bytes)
  | left :: right :: rest => do
    let node ← nodeHash crypto left right
    let others ← above rest
    return node :: others
  | [_] => .error .vectorIndex
  | [] => .ok []

/-- The loop of `root_of`, level after level. -/
def collapse : (fuel : Nat) → List Bytes → Move Bytes
  | 0, level => borrow level 0
  | fuel + 1, level => do
    if level.length ≤ 1 then borrow level 0
    else
      let next ← above crypto level
      collapse fuel next

/-- `root_of`. -/
def rootOf (txBytes : List Bytes) (txStarts : List U64) : Move Bytes := do
  let level ← leafHashes crypto txBytes txStarts
  let width := (PaddedTree.cover txBytes.length).1
  collapse crypto width (level ++ List.replicate (width - txBytes.length) zero)

/-- The loop of `root_for`. -/
def climbLeaf : (index : Nat) → List Bytes → Bytes → Move Bytes
  | _, [], node => .ok node
  | index, sibling :: rest, node => do
    let next ← if index % 2 = 0 then nodeHash crypto node sibling else nodeHash crypto sibling node
    climbLeaf (index / 2) rest next

/-- `root_for`: the root that a leaf and its siblings give. -/
def rootFor (leaf : Bytes) (index : Nat) (siblings : List Bytes) : Move Bytes := do
  ensure (siblings.length ≤ MAX_BATCH_DEPTH) (.code .batch 0)
  climbLeaf crypto index siblings leaf

/-- Whether `txBytes` is leaf `index` of the batch, starting at `startPc`. The
path has to be as long as the tree is high. -/
def proves (txRoot : Bytes) (txCount index : Nat) (startPc : U64) (txBytes : Bytes)
    (siblings : List Bytes) : Move Bool := do
  if txCount ≤ index then return false
  else if siblings.length ≠ (PaddedTree.cover txCount).2 then return false
  else
    let leaf ← leafHash crypto index startPc txBytes
    let root ← rootFor crypto leaf index siblings
    return root = txRoot

end BatchVerifier
end Sena
