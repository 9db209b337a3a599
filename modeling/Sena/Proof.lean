import Sena.Trie

/-! Inclusion and non-inclusion proofs as the node checks them, and the root a
write leads to, computed from a proof alone. -/
namespace Sena

/-- Why a proof was rejected. -/
inductive ProofError where
  | tooDeep (depth : Nat)
  | rootMismatch (computed expected : Hash256)
  | leafOffPath (depth : Nat)
  | keyAbsent
  | differentKey
  | valueMismatch (found expected : Hash256)
  | keyPresent
deriving DecidableEq

namespace MerkleProof

/-- The leaf agrees with the key on every bit consumed getting to it; otherwise
the first depth at which it does not is reported. -/
def onPath (leafKey key : Hash256) (depth : Nat) : Except ProofError Unit :=
  match (List.range depth).find? fun i => leafKey.bit i ≠ key.bit i with
  | some i => .error (.leafOffPath i)
  | none => .ok ()

section
variable (crypto : Crypto)

/-- Folds the siblings in, from the deepest up: `level` is that of the first. -/
def climb (key : Hash256) : (level : Nat) → List Hash256 → Hash256 → Hash256
  | _, [], running => running
  | level, sibling :: deeper, running =>
    let below := climb key (level + 1) deeper running
    if key.bit level then Node.hash crypto (.internal sibling below)
    else Node.hash crypto (.internal below sibling)

/-- `MerkleProof::reconstruct_root`. -/
def reconstructRoot (proof : MerkleProof) (key : Hash256) : Except ProofError Hash256 := do
  if proof.siblings.length > MAX_DEPTH then throw (.tooDeep proof.siblings.length)
  match proof.terminal with
  | .empty => return climb crypto key 0 proof.siblings Hash256.zero
  | .leaf leafKey valueHash =>
    onPath leafKey key proof.siblings.length
    return climb crypto key 0 proof.siblings (Node.hash crypto (.leaf leafKey valueHash))

/-- `MerkleProof::verify_inclusion_hashed`. -/
def verifyInclusionHashed (proof : MerkleProof) (root key valueHash : Hash256) : Except ProofError Unit := do
  let computed ← proof.reconstructRoot crypto key
  if computed ≠ root then throw (.rootMismatch computed root)
  match proof.terminal with
  | .empty => throw .keyAbsent
  | .leaf leafKey found =>
    if leafKey ≠ key then throw .differentKey
    else if found = valueHash then return ()
    else throw (.valueMismatch found valueHash)

def verifyInclusion (proof : MerkleProof) (root key : Hash256) (value : Bytes) : Except ProofError Unit :=
  proof.verifyInclusionHashed crypto root key (crypto.sha256 value)

/-- `MerkleProof::verify_non_inclusion`: the path ends empty or in another key's leaf. -/
def verifyNonInclusion (proof : MerkleProof) (root key : Hash256) : Except ProofError Unit := do
  let computed ← proof.reconstructRoot crypto key
  if computed ≠ root then throw (.rootMismatch computed root)
  match proof.terminal with
  | .empty => return ()
  | .leaf leafKey _ => if leafKey ≠ key then return () else throw .keyPresent

/-- The subtree separating two keys that agree above `depth`; the fuel is the
number of levels left. -/
def splitHash : (fuel depth : Nat) → (keyA valueA keyB valueB : Hash256) → Except ProofError Hash256
  | 0, depth, _, _, _, _ => .error (.tooDeep depth)
  | fuel + 1, depth, keyA, valueA, keyB, valueB =>
    if keyA.bit depth = keyB.bit depth then do
      let child ← splitHash fuel (depth + 1) keyA valueA keyB valueB
      return Node.hash crypto (if keyA.bit depth then .internal Hash256.zero child
        else .internal child Hash256.zero)
    else
      let leafA := Node.hash crypto (.leaf keyA valueA)
      let leafB := Node.hash crypto (.leaf keyB valueB)
      .ok (Node.hash crypto (if keyA.bit depth then .internal leafB leafA else .internal leafA leafB))

/-- The root after writing the value hash at the key. -/
def computeUpdatedRoot (proof : MerkleProof) (key newValueHash : Hash256) : Except ProofError Hash256 := do
  let depth := proof.siblings.length
  if depth > MAX_DEPTH then throw (.tooDeep depth)
  let running ← match proof.terminal with
    | .empty => .ok (Node.hash crypto (.leaf key newValueHash))
    | .leaf existing existingValue =>
      if existing = key then .ok (Node.hash crypto (.leaf key newValueHash))
      else do
        onPath existing key depth
        splitHash crypto (MAX_DEPTH - depth) depth key newValueHash existing existingValue
  return climb crypto key 0 proof.siblings running

end
end MerkleProof
end Sena
