import Sena.HashTrie
import Sena.Primitives
import Sena.SortedMap

/-! The node's state trie: a content-addressed store of nodes, the values they
commit to, and the root.

Nodes are never evicted, so that a proof can be drawn against an older root.
The store is kept as the log of its insertions, newest first; a lookup finds
the newest node under a digest, as the source's map does. -/
namespace Sena

abbrev Node := HashTrie.Node Hash256 Hash256 Hash256
abbrev Terminal := HashTrie.Terminal Hash256 Hash256
abbrev Tree := HashTrie.Tree Hash256 Hash256

/-- The longest path a proof may take: one level per key bit. -/
def MAX_DEPTH : Nat := 256

/-- Bit `index` of a digest, counting from the most significant bit of the first
byte. Callers stay below 256. -/
def Hash256.bit (h : Hash256) (index : Nat) : Bool :=
  (h.bytes.getD (index / 8) 0).toNat.testBit (7 - index % 8)

/-- The order of digests as byte arrays. -/
def Hash256.rank (h : Hash256) : Nat := ofBe h.bytes

/-- The canonical encoding a node's digest is computed over. -/
def Node.image : Node → Bytes
  | .internal left right => canonical .trieInternal [left.bytes, right.bytes]
  | .leaf key valueHash => canonical .trieLeaf [key.bytes, valueHash.bytes]

/-- A leaf commits to its whole key, and the two kinds of node are hashed in
different domains. -/
def Node.hash (crypto : Crypto) (node : Node) : Hash256 := crypto.sha256 node.image

/-- `MerkleTrie`: the values by key, every node stored so far, and the current root. -/
structure MerkleTrie where
  nodes : List (Hash256 × Node)
  values : List (Hash256 × Bytes)
  root : Hash256

structure MerkleProof where
  /-- Sibling digests, root first. -/
  siblings : List Hash256
  terminal : Terminal
deriving DecidableEq

namespace MerkleTrie

def new : MerkleTrie := ⟨[], [], Hash256.zero⟩

/-- `MerkleTrie::get`. -/
def get (trie : MerkleTrie) (key : Hash256) : Option Bytes :=
  SortedMap.get Hash256.rank key trie.values

section
variable (crypto : Crypto)

def store (nodes : List (Hash256 × Node)) (node : Node) : List (Hash256 × Node) × Hash256 :=
  ((node.hash crypto, node) :: nodes, node.hash crypto)

/-- Separates two keys below `depth`. Distinct keys part within their bits, so
the fuel left at `depth` is never used up. -/
def split : (fuel : Nat) → List (Hash256 × Node) → (depth : Nat) →
    (keyA valueA keyB valueB : Hash256) → List (Hash256 × Node) × Hash256
  | 0, nodes, _, _, _, _, _ => (nodes, Hash256.zero)
  | fuel + 1, nodes, depth, keyA, valueA, keyB, valueB =>
    if keyA.bit depth = keyB.bit depth then
      let child := split fuel nodes (depth + 1) keyA valueA keyB valueB
      store crypto child.1 (if keyA.bit depth then .internal Hash256.zero child.2
        else .internal child.2 Hash256.zero)
    else
      let leafA := store crypto nodes (.leaf keyA valueA)
      let leafB := store crypto leafA.1 (.leaf keyB valueB)
      store crypto leafB.1 (if keyA.bit depth then .internal leafB.2 leafA.2
        else .internal leafA.2 leafB.2)

/-- Writes a leaf below `nodeHash`, which sits at `depth`. The fuel is the number
of key bits left; descending past them, where the source would read a bit that
does not exist, cannot happen in a store that insertions built. -/
def insertAt (fuel : Nat) (nodes : List (Hash256 × Node)) (nodeHash : Hash256) (depth : Nat)
    (key valueHash : Hash256) : List (Hash256 × Node) × Hash256 :=
  match nodes.lookup nodeHash with
  | none => store crypto nodes (.leaf key valueHash)
  | some (.leaf existingKey existingValue) =>
    if existingKey = key then store crypto nodes (.leaf key valueHash)
    else split crypto fuel nodes depth key valueHash existingKey existingValue
  | some (.internal left right) =>
    match fuel with
    | 0 => (nodes, nodeHash)
    | fuel + 1 =>
      if key.bit depth then
        let newRight := insertAt fuel nodes right (depth + 1) key valueHash
        store crypto newRight.1 (.internal left newRight.2)
      else
        let newLeft := insertAt fuel nodes left (depth + 1) key valueHash
        store crypto newLeft.1 (.internal newLeft.2 right)

/-- `MerkleTrie::insert`. -/
def insert (trie : MerkleTrie) (key : Hash256) (value : Bytes) : MerkleTrie :=
  let written := insertAt crypto MAX_DEPTH trie.nodes trie.root 0 key (crypto.sha256 value)
  { nodes := written.1
    root := written.2
    values := SortedMap.insert Hash256.rank key value trie.values }

/-- If exactly one child is non-empty and a leaf, that leaf. -/
def loneChild (nodes : List (Hash256 × Node)) (left right : Hash256) : Option Hash256 :=
  let candidate :=
    if left = Hash256.zero ∧ right ≠ Hash256.zero then some right
    else if left ≠ Hash256.zero ∧ right = Hash256.zero then some left
    else none
  candidate.bind fun hash =>
    match nodes.lookup hash with
    | some (.leaf _ _) => some hash
    | _ => none

/-- The branch over two digests after a removal, dropped where it is not needed. -/
def joinChildren (nodes : List (Hash256 × Node)) (left right : Hash256) : List (Hash256 × Node) × Hash256 :=
  match loneChild nodes left right with
  | some leaf => (nodes, leaf)
  | none =>
    if left = Hash256.zero ∧ right = Hash256.zero then (nodes, Hash256.zero)
    else store crypto nodes (.internal left right)

def removeAt (fuel : Nat) (nodes : List (Hash256 × Node)) (nodeHash : Hash256) (depth : Nat)
    (key : Hash256) : List (Hash256 × Node) × Hash256 :=
  match nodes.lookup nodeHash with
  | none => (nodes, Hash256.zero)
  | some (.leaf existing _) => (nodes, if existing = key then Hash256.zero else nodeHash)
  | some (.internal left right) =>
    match fuel with
    | 0 => (nodes, nodeHash)
    | fuel + 1 =>
      if key.bit depth then
        let newRight := removeAt fuel nodes right (depth + 1) key
        joinChildren crypto newRight.1 left newRight.2
      else
        let newLeft := removeAt fuel nodes left (depth + 1) key
        joinChildren crypto newLeft.1 newLeft.2 right

/-- `MerkleTrie::remove`. -/
def remove (trie : MerkleTrie) (key : Hash256) : MerkleTrie :=
  match trie.get key with
  | none => trie
  | some _ =>
    let written := removeAt crypto MAX_DEPTH trie.nodes trie.root 0 key
    { nodes := written.1
      root := written.2
      values := SortedMap.remove Hash256.rank key trie.values }

end

/-- The walk of `prove_at`: the siblings met from `current` down, and the end. -/
def proveFrom (nodes : List (Hash256 × Node)) (key : Hash256) (fuel depth : Nat)
    (current : Hash256) : List Hash256 × Terminal :=
  match nodes.lookup current with
  | none => ([], .empty)
  | some (.leaf other valueHash) => ([], .leaf other valueHash)
  | some (.internal left right) =>
    match fuel with
    | 0 => ([], .empty)
    | fuel + 1 =>
      if key.bit depth then
        let below := proveFrom nodes key fuel (depth + 1) right
        (left :: below.1, below.2)
      else
        let below := proveFrom nodes key fuel (depth + 1) left
        (right :: below.1, below.2)

/-- `MerkleTrie::prove_at`: the path of a key below any root still stored. -/
def proveAt (trie : MerkleTrie) (root key : Hash256) : MerkleProof :=
  let walked := proveFrom trie.nodes key MAX_DEPTH 0 root
  { siblings := walked.1, terminal := walked.2 }

/-- `MerkleTrie::prove`. -/
def prove (trie : MerkleTrie) (key : Hash256) : MerkleProof := trie.proveAt trie.root key

/-- The root, the number of keys, and every binding in key order. -/
def toBytes (trie : MerkleTrie) : Bytes :=
  trie.root.bytes ++ be 4 trie.values.length ++
    trie.values.flatMap fun (key, value) => key.bytes ++ frame value

inductive LoadError where
  | malformed (error : DecodeError)
  | rootMismatch (recorded rebuilt : Hash256)
deriving DecidableEq

/-- Reads `count` bindings into the trie. -/
def readEntries (crypto : Crypto) : (count : Nat) → MerkleTrie → Reader MerkleTrie
  | 0, trie => pure trie
  | count + 1, trie => do
    let key ← Reader.hash
    let value ← Reader.bytes
    readEntries crypto count (trie.insert crypto key value)

def readTrie (crypto : Crypto) : Reader (Hash256 × MerkleTrie) := do
  let recorded ← Reader.hash
  let count ← Reader.u32
  let trie ← readEntries crypto count.val new
  Reader.finish
  return (recorded, trie)

/-- `MerkleTrie::from_bytes`: rebuilds the trie and compares its root. -/
def fromBytes (crypto : Crypto) (bytes : Bytes) : Except LoadError MerkleTrie :=
  match (readTrie crypto).readAll bytes with
  | .error error => .error (.malformed error)
  | .ok (recorded, trie) =>
    if trie.root = recorded then .ok trie else .error (.rootMismatch recorded trie.root)

end MerkleTrie

end Sena
