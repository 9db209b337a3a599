import Sena.Batch

/-! Every published transaction can be opened: the root the contract computes is
the node's, and the path the node draws for a leaf is accepted for it. -/
namespace Sena.BatchVerifier

open Move TrieVerifier

theorem mapM_eq_ok {items : List α} {f : α → Move β} {g : α → β}
    (each : ∀ a ∈ items, f a = .ok (g a)) : items.mapM f = .ok (items.map g) := by
  induction items with
  | nil => rfl
  | cons a rest ih =>
    rw [List.mapM_cons, each a (by simp), ok_bind, ih fun b member => each b (by simp [member])]
    rfl

theorem exists_of_mapM_eq_ok {items : List α} {f : α → Move β} (accepted : items.mapM f = .ok out) :
    ∀ a ∈ items, ∃ b, f a = .ok b := by
  intro a member
  obtain ⟨i, inside, rfl⟩ := List.mem_iff_getElem.mp member
  obtain ⟨lengths, each⟩ := List.forall₂_iff_get.mp (mapM_ok_iff.mp accepted)
  exact ⟨_, each i inside (lengths ▸ inside)⟩

theorem leafHash_of_framable (crypto : Crypto) (index : Nat) (startPc : U64) (small : Framable tx) :
    leafHash crypto index startPc tx = .ok (Batch.leafHash crypto index startPc tx).bytes :=
  Codec.digest_eq_ok.mpr ⟨by simp [small, Codec.framable_be], rfl⟩

theorem nodeHash_bytes (crypto : Crypto) (left right : Hash256) :
    nodeHash crypto left.bytes right.bytes = .ok (Batch.nodeHash crypto left right).bytes :=
  Codec.digest_eq_ok.mpr ⟨by simp [framable_hash], rfl⟩

theorem above_bytes (crypto : Crypto) (level : List Hash256) (even : level.length = 2 * n) :
    above crypto (level.map (·.bytes)) =
      .ok ((PaddedTree.above (Batch.nodeHash crypto) level).map (·.bytes)) := by
  induction n generalizing level with
  | zero => rw [List.length_eq_zero_iff.mp even]; rfl
  | succ n ih =>
    match level, even with
    | left :: right :: rest, even =>
      have deeper := ih rest (by simp only [List.length_cons] at even; omega)
      simp only [List.map_cons, above, nodeHash_bytes, deeper, ok_bind, PaddedTree.above, pure_eq_ok]

theorem collapse_bytes (crypto : Crypto) (level : List Hash256) (sized : level.length = 2 ^ h) (enough : h ≤ fuel) :
    collapse crypto fuel (level.map (·.bytes)) =
      .ok (PaddedTree.root Hash256.zero
        (PaddedTree.levels (Batch.nodeHash crypto) fuel level)).bytes := by
  induction h generalizing level fuel with
  | zero =>
    obtain ⟨last, rfl⟩ := List.length_eq_one_iff.mp (show level.length = 1 by simpa using sized)
    rw [PaddedTree.levels_singleton _ fuel rfl]
    cases fuel <;> rfl
  | succ h ih =>
    obtain ⟨fuel, rfl⟩ : ∃ k, fuel = k + 1 := ⟨fuel - 1, by omega⟩
    have even : level.length = 2 * 2 ^ h := by rw [sized, pow_succ]; ring
    have wide : ¬ (level.map (·.bytes)).length ≤ 1 := by
      have positive : 0 < 2 ^ h := Nat.two_pow_pos h
      rw [List.length_map, even]
      omega
    rw [collapse, if_neg wide, above_bytes crypto level even, ok_bind,
      ih _ (PaddedTree.above_length _ level even) (by omega),
      PaddedTree.levels_pairs _ sized enough, Nat.add_sub_cancel,
      PaddedTree.root_cons _ _ (PaddedTree.levels_ne_nil _ _ _)]

section Published

variable {crypto : Crypto} {txs : List Bytes} {starts : List U64}

theorem leafHashes_bytes (paired : starts.length = txs.length) (small : ∀ tx ∈ txs, Framable tx) :
    leafHashes crypto txs starts =
      .ok ((Batch.leafHashes crypto (starts.zip txs)).map (·.bytes)) := by
  rw [leafHashes, mapM_eq_ok (g := fun e => (Batch.leafHash crypto e.2 (starts.getD e.2 0) e.1).bytes)]
  · congr 1
    apply List.ext_getElem
    · simp [Batch.leafHashes, paired]
    · intro i inside _
      have here : i < starts.length := by simpa [paired] using inside
      simp [Batch.leafHashes, List.getD, List.getElem?_eq_getElem here]
  · rintro ⟨tx, i⟩ member
    obtain ⟨-, inside, here⟩ := List.mem_zipIdx member
    have found : i < starts.length := by omega
    have member : tx ∈ txs := by
      rw [here]
      exact List.getElem_mem _
    simp only [borrow_eq_ok.mpr (List.getElem?_eq_getElem found), ok_bind,
      leafHash_of_framable crypto i _ (small tx member)]
    simp [List.getD, List.getElem?_eq_getElem found]

theorem framable_of_rootOf (computed : rootOf crypto txs starts = .ok root) : ∀ tx ∈ txs, Framable tx := by
  obtain ⟨level, hashed, -⟩ := bind_eq_ok.mp computed
  intro tx member
  obtain ⟨i, inside, rfl⟩ := List.mem_iff_getElem.mp member
  obtain ⟨_, leaf⟩ := exists_of_mapM_eq_ok hashed (txs[i], i)
    (List.mem_iff_getElem.mpr ⟨i, by simpa using inside, by simp⟩)
  obtain ⟨start, _, digest⟩ := bind_eq_ok.mp leaf
  exact (Codec.digest_eq_ok.mp digest).1 _ (by simp)

/-- The contract computes the root the node builds. -/
theorem rootOf_build (paired : starts.length = txs.length) (small : ∀ tx ∈ txs, Framable tx) :
    rootOf crypto txs starts =
      .ok (Batch.BatchTree.build crypto (starts.zip txs)).root.bytes := by
  obtain ⟨h, covered, covers, _⟩ := PaddedTree.cover_spec txs.length
  have count : (starts.zip txs).length = txs.length := by simp [paired]
  have sized : (Batch.padded crypto (starts.zip txs)).length = 2 ^ h := by
    simp [Batch.padded, Batch.leafHashes, paired, covered]
    omega
  have level : (Batch.leafHashes crypto (starts.zip txs)).map (·.bytes) ++
      List.replicate (2 ^ h - txs.length) zero =
        (Batch.padded crypto (starts.zip txs)).map (·.bytes) := by
    simp only [Batch.padded, count, covered, List.map_append, List.map_replicate]
    rfl
  simp only [rootOf, leafHashes_bytes paired small, ok_bind, covered, level,
    collapse_bytes crypto _ sized Nat.lt_two_pow_self.le, Batch.BatchTree.build, count,
    Batch.BatchTree.root]

theorem climbLeaf_bytes (crypto : Crypto) (index : Nat) (siblings : List Hash256) (leaf : Hash256) :
    climbLeaf crypto index (siblings.map (·.bytes)) leaf.bytes =
      .ok (PaddedTree.climb (Batch.nodeHash crypto) index siblings leaf).bytes := by
  induction siblings generalizing index leaf with
  | nil => rfl
  | cons sibling rest ih =>
    simp only [List.map_cons, climbLeaf, nodeHash_bytes, PaddedTree.climb]
    split <;> simp only [ok_bind, ih]

/-- The path drawn for any leaf of a published batch is accepted for it. -/
theorem proves_build (paired : starts.length = txs.length) (small : ∀ tx ∈ txs, Framable tx)
    (few : txs.length ≤ 2 ^ 32) (startAt : starts[i]? = some start) (txAt : txs[i]? = some tx)
    (drawn : (Batch.BatchTree.build crypto (starts.zip txs)).prove i = some siblings) :
    proves crypto (Batch.BatchTree.build crypto (starts.zip txs)).root.bytes txs.length i start tx
      (siblings.map (·.bytes)) = .ok true := by
  obtain ⟨h, covered, covers, least⟩ := PaddedTree.cover_spec txs.length
  have count : (starts.zip txs).length = txs.length := by simp [paired]
  have inside : i < txs.length := (List.getElem?_eq_some_iff.mp txAt).1
  have sized : (Batch.padded crypto (starts.zip txs)).length = 2 ^ h := by
    simp [Batch.padded, Batch.leafHashes, paired, covered]
    omega
  have leafAt : (Batch.padded crypto (starts.zip txs)).getD i Hash256.zero =
      Batch.leafHash crypto i start tx := by
    obtain ⟨insideS, rfl⟩ := List.getElem?_eq_some_iff.mp startAt
    obtain ⟨_, rfl⟩ := List.getElem?_eq_some_iff.mp txAt
    have within : i < (Batch.leafHashes crypto (starts.zip txs)).length := by
      simpa [Batch.leafHashes] using ⟨insideS, inside⟩
    rw [Batch.padded, List.getD_append _ _ _ _ within, List.getD_eq_getElem _ _ within]
    simp [Batch.leafHashes]
  simp only [Batch.BatchTree.prove, Batch.BatchTree.build, count, covered,
    if_neg (Nat.not_le.mpr inside), Option.some.injEq] at drawn
  have climbed := PaddedTree.climb_path (Batch.nodeHash crypto) Hash256.zero sized
    (show h ≤ 2 ^ h from Nat.lt_two_pow_self.le) (show i < 2 ^ h by omega)
  have length := PaddedTree.path_length (Batch.nodeHash crypto) Hash256.zero sized
    (show h ≤ 2 ^ h from Nat.lt_two_pow_self.le) i
  rw [drawn] at climbed length
  have shallow : (siblings.map (·.bytes)).length ≤ MAX_BATCH_DEPTH := by
    rw [List.length_map, length]
    exact least 32 few
  rw [leafAt] at climbed
  rw [proves, if_neg (Nat.not_le.mpr inside), if_neg (by simp [covered, length]),
    leafHash_of_framable crypto i start (small tx (List.mem_of_getElem? txAt)), ok_bind, rootFor,
    ensure_of shallow, ok_bind, climbLeaf_bytes, climbed, ok_bind]
  simp only [Batch.BatchTree.build, Batch.BatchTree.root, count, covered]
  simp

end Published
end Sena.BatchVerifier
