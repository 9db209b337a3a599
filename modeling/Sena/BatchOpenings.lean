import Sena.BatchProofs
import Sena.TrieHistory

/-! A batch leaf opens one way.

The contract accepts a transaction for a place in a batch exactly if it is the
one published there and the path is the one the node draws. The length of the
path is fixed by the number of leaves, so no interior node passes for a leaf,
and an index past the last leaf is refused before any hashing. -/
namespace Sena.BatchVerifier

open Move TrieVerifier

/-- The string a leaf's digest is of. -/
def leafImage (index : Nat) (startPc : U64) (txBytes : Bytes) : Bytes :=
  canonical .batchLeaf [be 8 index, be 8 startPc.val, txBytes]

def nodeImage (pair : Bytes × Bytes) : Bytes := canonical .batchNode [pair.1, pair.2]

/-- The digest of a node over any two strings. -/
def joinBytes (crypto : Crypto) (left right : Bytes) : Bytes := (crypto.sha256 (nodeImage (left, right))).bytes

/-- The strings hashed to open a leaf. -/
def opened (crypto : Crypto) (index : Nat) (startPc : U64) (txBytes : Bytes) (siblings : List Bytes) : List Bytes :=
  leafImage index startPc txBytes ::
    (PaddedTree.joined (joinBytes crypto) index siblings
      (crypto.sha256 (leafImage index startPc txBytes)).bytes).map nodeImage

/-- The path the node draws for a leaf, as the contract is given it. -/
def drawn (crypto : Crypto) (leaves : List (U64 × Bytes)) (index : Nat) : Option (List Bytes) :=
  ((Batch.BatchTree.build crypto leaves).prove index).map (·.map (·.bytes))

/-- The strings hashed to open the leaves of a tree by their own paths. -/
def openings (crypto : Crypto) (leaves : List (U64 × Bytes)) : List Bytes :=
  leaves.zipIdx.flatMap fun (leaf, i) => opened crypto i leaf.1 leaf.2 ((drawn crypto leaves i).getD [])

variable {crypto : Crypto} {leaves : List (U64 × Bytes)} {siblings : List Bytes}

theorem climbLeaf_eq_ok : climbLeaf crypto i siblings x = .ok r ↔
    (∀ pair ∈ PaddedTree.joined (joinBytes crypto) i siblings x, Framable pair.1 ∧ Framable pair.2) ∧
      r = PaddedTree.climb (joinBytes crypto) i siblings x := by
  have node : ∀ left right out, nodeHash crypto left right = .ok out ↔
      (Framable left ∧ Framable right) ∧ out = joinBytes crypto left right := by
    intro left right out
    rw [nodeHash, Codec.digest_eq_ok]
    simp [joinBytes, nodeImage]
  induction siblings generalizing i x with
  | nil => simp [climbLeaf, PaddedTree.joined, PaddedTree.climb, eq_comm]
  | cons sibling rest ih =>
    rw [climbLeaf]
    simp only [PaddedTree.joined, PaddedTree.climb, List.forall_mem_cons]
    by_cases left : i % 2 = 0
    · simp only [if_pos left, bind_eq_ok, node, ih]
      constructor
      · rintro ⟨_, ⟨small, rfl⟩, others, rfl⟩
        exact ⟨⟨small, others⟩, rfl⟩
      · rintro ⟨⟨small, others⟩, rfl⟩
        exact ⟨_, ⟨small, rfl⟩, others, rfl⟩
    · simp only [if_neg left, bind_eq_ok, node, ih]
      constructor
      · rintro ⟨_, ⟨small, rfl⟩, others, rfl⟩
        exact ⟨⟨small, others⟩, rfl⟩
      · rintro ⟨⟨small, others⟩, rfl⟩
        exact ⟨_, ⟨small, rfl⟩, others, rfl⟩

theorem proves_eq_true : proves crypto root n index startPc tx siblings = .ok true ↔
    index < n ∧ siblings.length = (PaddedTree.cover n).2 ∧ siblings.length ≤ MAX_BATCH_DEPTH ∧ Framable tx ∧
      climbLeaf crypto index siblings (crypto.sha256 (leafImage index startPc tx)).bytes = .ok root := by
  rw [proves]
  by_cases past : n ≤ index
  · simp [past, Nat.not_lt.mpr past]
  by_cases high : siblings.length = (PaddedTree.cover n).2
  · have leaf : ∀ out, leafHash crypto index startPc tx = .ok out ↔
        Framable tx ∧ out = (crypto.sha256 (leafImage index startPc tx)).bytes := by
      intro out
      rw [leafHash, Codec.digest_eq_ok]
      simp [leafImage, Codec.framable_be]
    rw [if_neg past, if_neg (not_not.mpr high)]
    simp only [bind_eq_ok, leaf, rootFor, ensure_eq_ok, pure_iff, decide_eq_true_eq,
      Nat.not_le.mp past, high, true_and]
    constructor
    · rintro ⟨_, ⟨small, rfl⟩, _, ⟨_, shallow, climbed⟩, rfl⟩
      exact ⟨shallow, small, climbed⟩
    · rintro ⟨shallow, small, climbed⟩
      exact ⟨_, ⟨small, rfl⟩, root, ⟨(), shallow, climbed⟩, rfl⟩
  · simp [past, high]

theorem zip_leaves (leaves : List (U64 × Bytes)) : (leaves.map (·.1)).zip (leaves.map (·.2)) = leaves := by
  rw [List.zip_map']
  simp

theorem rootOf_eq_ok : rootOf crypto (leaves.map (·.2)) (leaves.map (·.1)) = .ok root ↔
    (∀ leaf ∈ leaves, Framable leaf.2) ∧ root = (Batch.BatchTree.build crypto leaves).root.bytes := by
  have built : (∀ leaf ∈ leaves, Framable leaf.2) → rootOf crypto (leaves.map (·.2)) (leaves.map (·.1)) =
      .ok (Batch.BatchTree.build crypto leaves).root.bytes := by
    intro small
    rw [rootOf_build (by simp) (List.forall_mem_map.mpr small), zip_leaves]
  constructor
  · intro computed
    have small := List.forall_mem_map.mp (framable_of_rootOf computed)
    exact ⟨small, Except.ok.inj (computed.symm.trans (built small))⟩
  · rintro ⟨small, rfl⟩
    exact built small

theorem proves_drawn (small : ∀ leaf ∈ leaves, Framable leaf.2) (few : leaves.length ≤ 2 ^ 32)
    (here : leaves[i]? = some (startPc, tx)) (path : drawn crypto leaves i = some siblings) :
    proves crypto (Batch.BatchTree.build crypto leaves).root.bytes leaves.length i startPc tx siblings = .ok true := by
  obtain ⟨hashes, proved, rfl⟩ := Option.map_eq_some_iff.mp path
  rw [← zip_leaves leaves] at proved ⊢
  have accepted := proves_build (by simp) (List.forall_mem_map.mpr small) (by simpa using few)
    (show (leaves.map (·.1))[i]? = some startPc by simp [here]) (show (leaves.map (·.2))[i]? = some tx by simp [here])
    proved
  simpa using accepted

theorem drawn_of_lt (inside : i < leaves.length) : ∃ path, drawn crypto leaves i = some path := by
  have there : ¬(Batch.BatchTree.build crypto leaves).txCount ≤ i := Nat.not_le.mpr inside
  exact ⟨_, by rw [drawn, Batch.BatchTree.prove, if_neg there]; rfl⟩

theorem opened_subset_openings (here : leaves[i]? = some (startPc, tx)) (path : drawn crypto leaves i = some siblings)
    (among : b ∈ opened crypto i startPc tx siblings) : b ∈ openings crypto leaves := by
  obtain ⟨inside, same⟩ := List.getElem?_eq_some_iff.mp here
  refine List.mem_flatMap.mpr ⟨((startPc, tx), i), List.mem_iff_getElem.mpr ⟨i, by simpa using inside, by simp [same]⟩, ?_⟩
  simpa [path] using among

theorem opening_unique (free : Set.InjOn crypto.sha256
      {b | b ∈ opened crypto i startPc tx siblings ∨ b ∈ opened crypto i startPc' tx' siblings'})
    (accepted : proves crypto root n i startPc tx siblings = .ok true)
    (accepted' : proves crypto root n i startPc' tx' siblings' = .ok true) :
    startPc = startPc' ∧ tx = tx' ∧ siblings = siblings' := by
  obtain ⟨_, height, _, small, climbed⟩ := proves_eq_true.mp accepted
  obtain ⟨_, height', _, small', climbed'⟩ := proves_eq_true.mp accepted'
  obtain ⟨framed, rfl⟩ := climbLeaf_eq_ok.mp climbed
  obtain ⟨framed', same⟩ := climbLeaf_eq_ok.mp climbed'
  have apart : ∀ a ∈ PaddedTree.joined (joinBytes crypto) i siblings (crypto.sha256 (leafImage i startPc tx)).bytes,
      ∀ b ∈ PaddedTree.joined (joinBytes crypto) i siblings' (crypto.sha256 (leafImage i startPc' tx')).bytes,
        joinBytes crypto a.1 a.2 = joinBytes crypto b.1 b.2 → a = b := by
    intro a member b member' digests
    have images : nodeImage a = nodeImage b :=
      free (.inl (List.mem_cons_of_mem _ (List.mem_map_of_mem member)))
        (.inr (List.mem_cons_of_mem _ (List.mem_map_of_mem member'))) (FixedBytes.ext digests)
    obtain ⟨-, fields⟩ := canonical_inj (by simpa using framed a member) (by simpa using framed' b member') images
    simpa [Prod.ext_iff] using fields
  obtain ⟨leaves, rfl⟩ := PaddedTree.climb_inj _ (height.trans height'.symm) apart same
  have images : leafImage i startPc tx = leafImage i startPc' tx' :=
    free (.inl List.mem_cons_self) (.inr List.mem_cons_self) (FixedBytes.ext leaves)
  obtain ⟨-, fields⟩ := canonical_inj (by simp [small, Codec.framable_be]) (by simp [small', Codec.framable_be]) images
  simp only [List.cons.injEq, true_and, and_true] at fields
  exact ⟨(be_val_inj rfl).mp fields.1, fields.2, rfl⟩

/-- The contract computes the root the node builds, and accepts a transaction for
a place in the batch exactly if it was published there and comes with the path
the node draws. -/
theorem batch_leaves_open_one_way (crypto : Crypto) (leaves : List (U64 × Bytes)) :
    (∀ root, rootOf crypto (leaves.map (·.2)) (leaves.map (·.1)) = .ok root ↔
      (∀ leaf ∈ leaves, Framable leaf.2) ∧ root = (Batch.BatchTree.build crypto leaves).root.bytes) ∧
    ((∀ leaf ∈ leaves, Framable leaf.2) → leaves.length < 2 ^ 32 → ∀ index startPc tx siblings,
      Set.InjOn crypto.sha256 {b | b ∈ opened crypto index startPc tx siblings ∨ b ∈ openings crypto leaves} →
      (proves crypto (Batch.BatchTree.build crypto leaves).root.bytes leaves.length index startPc tx siblings =
          .ok true ↔
        index < leaves.length ∧ leaves[index]? = some (startPc, tx) ∧ drawn crypto leaves index = some siblings)) := by
  refine ⟨fun _ => rootOf_eq_ok, fun small few index startPc tx siblings free => ⟨fun accepted => ?_, ?_⟩⟩
  · have inside := (proves_eq_true.mp accepted).1
    obtain ⟨⟨startPc', tx'⟩, here⟩ : ∃ leaf, leaves[index]? = some leaf := ⟨_, List.getElem?_eq_getElem inside⟩
    obtain ⟨path, own⟩ := drawn_of_lt inside
    have honest := proves_drawn small (Nat.le_of_lt few) here own
    obtain ⟨rfl, rfl, rfl⟩ := opening_unique (free.mono fun b among =>
      among.imp_right (opened_subset_openings here own)) accepted honest
    exact ⟨inside, here, own⟩
  · rintro ⟨-, here, own⟩
    exact proves_drawn small (Nat.le_of_lt few) here own

/-- Three published transactions, in a tree with one padded leaf. -/
def three : List (U64 × Bytes) := [(0, [1]), (4, [2, 2]), (9, [])]

/-- The last of three transactions opens with its own path and at its own place only. -/
theorem last_of_three_opens : ∃ siblings, drawn MerkleTrie.hashing three 2 = some siblings ∧
    proves MerkleTrie.hashing (Batch.BatchTree.build MerkleTrie.hashing three).root.bytes 3 2 9 [] siblings = .ok true := by
  obtain ⟨siblings, own⟩ : ∃ siblings, drawn MerkleTrie.hashing three 2 = some siblings := drawn_of_lt (by decide)
  have apart : MerkleTrie.digestsApart MerkleTrie.hashing.sha256 (openings MerkleTrie.hashing three) = true := by
    decide +kernel
  refine ⟨siblings, own, ((batch_leaves_open_one_way MerkleTrie.hashing three).2 (by decide) (by decide) 2 9 [] siblings
    ?_).mpr ⟨by decide, rfl, own⟩⟩
  refine (MerkleTrie.collisionFree_of_digestsApart apart).inj.mono ?_
  rintro b (among | among)
  · exact opened_subset_openings rfl own among
  · exact among

end Sena.BatchVerifier
