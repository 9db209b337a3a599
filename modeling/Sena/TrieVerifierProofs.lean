import Sena.TrieVerifier

/-! What the contract's trie verifier accepts against a root the node's trie has.

Completeness follows the recursion of the verifier on the digests the node
draws. Soundness peels the node's tree from the root: a path that reaches the
same root hashed the tree's own nodes all the way down. -/
namespace Sena.TrieVerifier

open Move

/-- A drawn proof, as the byte vectors of a call. -/
def ofTerminal : Sena.Terminal → Terminal
  | .empty => emptyTerminal
  | .leaf key valueHash => leafTerminal key.bytes valueHash.bytes

def ofProof (proof : MerkleProof) : Proof :=
  ⟨proof.siblings.map (·.bytes), ofTerminal proof.terminal⟩

theorem framable_hash (h : Hash256) : Framable h.bytes := by
  simp [Framable]

theorem bit_bytes (h : Hash256) (inside : i < MAX_DEPTH) : bit h.bytes i = .ok (h.bit i) := by
  have within : i / 8 < h.bytes.length := by
    rw [h.bytes_length]
    unfold MAX_DEPTH at inside
    omega
  simp [bit, borrow, Hash256.bit, List.getD, List.getElem?_eq_getElem within]

theorem hashLeaf_bytes (crypto : Crypto) (key value : Hash256) :
    hashLeaf crypto key.bytes value.bytes = .ok (Node.hash crypto (.leaf key value)).bytes :=
  Codec.digest_eq_ok.mpr ⟨by simp [framable_hash], rfl⟩

theorem hashInternal_bytes (crypto : Crypto) (left right : Hash256) :
    hashInternal crypto left.bytes right.bytes = .ok (Node.hash crypto (.internal left right)).bytes :=
  Codec.digest_eq_ok.mpr ⟨by simp [framable_hash], rfl⟩

theorem terminalHash_bytes (crypto : Crypto) (t : Sena.Terminal) :
    terminalHash crypto (ofTerminal t) = .ok ((trieScheme crypto).terminalRoot t).bytes := by
  cases t with
  | empty => rfl
  | leaf key value => exact hashLeaf_bytes crypto key value

theorem climb_bytes (crypto : Crypto) (key : Hash256) (siblings : List Hash256) (base : Hash256)
    (bound : level + siblings.length ≤ MAX_DEPTH) :
    climb crypto key.bytes level (siblings.map (·.bytes)) base.bytes =
      .ok ((trieScheme crypto).climb level key siblings base).bytes := by
  induction siblings generalizing level with
  | nil => rfl
  | cons sibling deeper ih =>
    rw [List.length_cons] at bound
    rw [List.map_cons, climb, ih (by omega)]
    simp only [ok_bind, bit_bytes key (show level < MAX_DEPTH by omega)]
    cases turn : key.bit level with
    | true => simp [hashInternal_bytes, HashTrie.Scheme.climb, turn]
    | false => simp [hashInternal_bytes, HashTrie.Scheme.climb, turn]

theorem forM_eq_ok {items : List α} {f : α → Move Unit} :
    items.forM f = .ok () ↔ ∀ item ∈ items, f item = .ok () := by
  induction items with
  | nil => simp
  | cons item rest ih =>
    rw [List.forM_eq_forM, List.forM_cons, bind_eq_ok]
    simp only [← List.forM_eq_forM, ih, List.mem_cons, forall_eq_or_imp]
    exact ⟨fun ⟨_, first, others⟩ => ⟨first, others⟩, fun ⟨first, others⟩ => ⟨(), first, others⟩⟩

theorem onPath_bytes (a b : Hash256) (bound : depth ≤ MAX_DEPTH)
    (agree : ∀ i < depth, a.bit i = b.bit i) : onPath a.bytes b.bytes depth = .ok () := by
  rw [onPath, forM_eq_ok]
  intro i member
  have below := List.mem_range.mp member
  simp only [bit_bytes a (show i < MAX_DEPTH by omega), bit_bytes b (show i < MAX_DEPTH by omega),
    ok_bind]
  exact ensure_of (agree i below)

theorem splitHash_bytes (crypto : Crypto) (a x b y : Hash256) (bound : depth + fuel ≤ MAX_DEPTH)
    (apart : ∃ i, depth ≤ i ∧ i < depth + fuel ∧ a.bit i ≠ b.bit i) :
    splitHash crypto fuel depth a.bytes x.bytes b.bytes y.bytes =
      .ok ((trieScheme crypto).root ((trieScheme crypto).split fuel depth a x b y)).bytes := by
  induction fuel generalizing depth with
  | zero =>
    obtain ⟨i, above, below, _⟩ := apart
    omega
  | succ fuel ih =>
    have inside : depth < MAX_DEPTH := by omega
    rw [splitHash, bit_bytes a inside, bit_bytes b inside, ok_bind, ok_bind]
    by_cases same : a.bit depth = b.bit depth
    · rw [if_pos same, ih (by omega) ((trieScheme crypto).apart_deeper apart same),
        show (trieScheme crypto).split (fuel + 1) depth a x b y = _ from if_pos same]
      cases turn : a.bit depth with
      | true =>
        simp only [ok_bind, trieScheme_bit, turn, if_true]
        exact hashInternal_bytes crypto Hash256.zero _
      | false =>
        simp only [ok_bind, trieScheme_bit, turn, Bool.false_eq_true, if_false]
        exact hashInternal_bytes crypto _ Hash256.zero
    · rw [if_neg same, hashLeaf_bytes, hashLeaf_bytes,
        show (trieScheme crypto).split (fuel + 1) depth a x b y = _ from if_neg same]
      cases turn : a.bit depth with
      | true =>
        simp only [ok_bind, trieScheme_bit, turn, if_true]
        exact hashInternal_bytes crypto _ _
      | false =>
        simp only [ok_bind, trieScheme_bit, turn, Bool.false_eq_true, if_false]
        exact hashInternal_bytes crypto _ _

/-- The strings hashed while folding a path up, the topmost first. -/
def pathImages (crypto : Crypto) (key : Bytes) : (level : Nat) → List Bytes → Bytes → List Bytes
  | _, [], base => [base]
  | level, sibling :: deeper, base =>
    let below := pathImages crypto key (level + 1) deeper base
    let running := (crypto.sha256 (below.headD [])).bytes
    (if bit key level = .ok true then canonical .trieInternal [sibling, running]
      else canonical .trieInternal [running, sibling]) :: below

section Sound

variable {crypto : Crypto} {tree : Tree} {images : Set Bytes}

theorem climb_eq_ok (climbed : climb crypto key level siblings (crypto.sha256 base).bytes = .ok out) :
    out = (crypto.sha256 ((pathImages crypto key level siblings base).headD [])).bytes := by
  induction siblings generalizing level out with
  | nil => exact (Except.ok.inj climbed).symm
  | cons sibling deeper ih =>
    rw [climb, bind_eq_ok] at climbed
    obtain ⟨below, under, climbed⟩ := climbed
    obtain ⟨turn, bitAt, climbed⟩ := bind_eq_ok.mp climbed
    rw [ih under] at climbed
    cases turn with
    | true => simpa [pathImages, bitAt] using (Codec.digest_eq_ok.mp climbed).2
    | false => simpa [pathImages, bitAt] using (Codec.digest_eq_ok.mp climbed).2

section
variable (free : CollisionFree crypto.sha256 images)
  (nodes : ∀ n ∈ (trieScheme crypto).nodes tree, Node.image n ∈ images)
include free nodes

theorem top_of_root (member : b ∈ images) (same : crypto.sha256 b = (trieScheme crypto).root tree) :
    (∃ k v, tree = .leaf k v ∧ b = Node.image (.leaf k v)) ∨
      ∃ l r, tree = .branch l r ∧
        b = Node.image (.internal ((trieScheme crypto).root l) ((trieScheme crypto).root r)) := by
  cases tree with
  | empty => exact absurd same (free.nonzero b member)
  | leaf k v =>
    exact .inl ⟨k, v, rfl, free.inj member (nodes (.leaf k v) (by simp [HashTrie.Scheme.nodes])) same⟩
  | branch l r =>
    exact .inr ⟨l, r, rfl, free.inj member (nodes _ (by simp [HashTrie.Scheme.nodes])) same⟩

theorem leaf_of_root (member : canonical .trieLeaf [key, value] ∈ images) (smallK : Framable key)
    (smallV : Framable value)
    (same : crypto.sha256 (canonical .trieLeaf [key, value]) = (trieScheme crypto).root tree) :
    ∃ k v, tree = .leaf k v ∧ key = k.bytes ∧ value = v.bytes := by
  rcases top_of_root free nodes member same with ⟨k, v, rfl, image⟩ | ⟨l, r, rfl, image⟩
  · obtain ⟨_, fields⟩ := canonical_inj (by simp [smallK, smallV]) (by simp [framable_hash]) image
    simp only [List.cons.injEq, and_true] at fields
    exact ⟨k, v, rfl, fields.1, fields.2⟩
  · exact absurd (canonical_inj (by simp [smallK, smallV]) (by simp [framable_hash]) image).1 (by simp)

theorem branch_of_root (member : canonical .trieInternal [left, right] ∈ images) (smallL : Framable left)
    (smallR : Framable right)
    (same : crypto.sha256 (canonical .trieInternal [left, right]) = (trieScheme crypto).root tree) :
    ∃ l r, tree = .branch l r ∧ left = ((trieScheme crypto).root l).bytes ∧
      right = ((trieScheme crypto).root r).bytes := by
  rcases top_of_root free nodes member same with ⟨k, v, rfl, image⟩ | ⟨l, r, rfl, image⟩
  · exact absurd (canonical_inj (by simp [smallL, smallR]) (by simp [framable_hash]) image).1 (by simp)
  · obtain ⟨_, fields⟩ := canonical_inj (by simp [smallL, smallR]) (by simp [framable_hash]) image
    simp only [List.cons.injEq, and_true] at fields
    exact ⟨l, r, rfl, fields.1, fields.2⟩

end

theorem climb_sound (key : Hash256) (siblings : List Bytes) (free : CollisionFree crypto.sha256 images)
    (nodes : ∀ n ∈ (trieScheme crypto).nodes tree, Node.image n ∈ images)
    (path : ∀ b ∈ pathImages crypto key.bytes level siblings
      (canonical .trieLeaf [key.bytes, value]), b ∈ images)
    (small : Framable value) (bound : level + siblings.length ≤ MAX_DEPTH)
    (climbed : climb crypto key.bytes level siblings
      (crypto.sha256 (canonical .trieLeaf [key.bytes, value])).bytes =
        .ok ((trieScheme crypto).root tree).bytes) :
    ∃ v, (trieScheme crypto).get level key tree = some v ∧ v.bytes = value := by
  induction siblings generalizing level tree with
  | nil =>
    have same := FixedBytes.ext (Except.ok.inj climbed)
    obtain ⟨k, v, rfl, here, rfl⟩ :=
      leaf_of_root free nodes (path _ (by simp [pathImages])) (framable_hash key) small same
    exact ⟨v, by simp [HashTrie.Scheme.get, FixedBytes.ext here], rfl⟩
  | cons sibling deeper ih =>
    rw [List.length_cons] at bound
    have top := FixedBytes.ext (climb_eq_ok climbed)
    rw [climb, bind_eq_ok] at climbed
    obtain ⟨below, under, climbed⟩ := climbed
    have folded := climb_eq_ok under
    rw [bit_bytes key (show level < MAX_DEPTH by omega), ok_bind] at climbed
    simp only [pathImages, List.mem_cons, forall_eq_or_imp,
      bit_bytes key (show level < MAX_DEPTH by omega), Except.ok.injEq, ← folded] at path top
    cases turn : key.bit level with
    | true =>
      simp only [turn, if_true, List.headD_cons] at path top climbed
      have framable := (Codec.digest_eq_ok.mp climbed).1
      obtain ⟨l, r, rfl, -, rfl⟩ := branch_of_root free nodes path.1
        (framable sibling (by simp)) (framable below (by simp)) top.symm
      obtain ⟨v, found, here⟩ := ih
        (fun n member => nodes n (by simp [HashTrie.Scheme.nodes, member])) path.2 (by omega) under
      exact ⟨v, by simpa [HashTrie.Scheme.get, turn] using found, here⟩
    | false =>
      simp only [turn, Bool.false_eq_true, if_false, List.headD_cons] at path top climbed
      have framable := (Codec.digest_eq_ok.mp climbed).1
      obtain ⟨l, r, rfl, rfl, -⟩ := branch_of_root free nodes path.1
        (framable below (by simp)) (framable sibling (by simp)) top.symm
      obtain ⟨v, found, here⟩ := ih
        (fun n member => nodes n (by simp [HashTrie.Scheme.nodes, member])) path.2 (by omega) under
      exact ⟨v, by simpa [HashTrie.Scheme.get, turn] using found, here⟩

/-- The strings an accepted inclusion proof hashed. -/
def inclusionImages (crypto : Crypto) (proof : Proof) (key valueHash : Bytes) : List Bytes :=
  pathImages crypto key 0 proof.siblings (canonical .trieLeaf [key, valueHash])

theorem verifyInclusion_eq_ok (accepted : verifyInclusion crypto proof root key valueHash = .ok ()) :
    proof.terminal = leafTerminal key valueHash ∧ reconstructRoot crypto proof key = .ok root := by
  simp only [verifyInclusion, bind_eq_ok, ensure_eq_ok] at accepted
  obtain ⟨_, reconstructed, _, rfl, _, leaf, _, rfl, rfl⟩ := accepted
  refine ⟨?_, reconstructed⟩
  rw [leafTerminal, ← leaf]

theorem verifyInclusion_sound (key : Hash256) (free : CollisionFree crypto.sha256 images)
    (nodes : ∀ n ∈ (trieScheme crypto).nodes tree, Node.image n ∈ images)
    (path : ∀ b ∈ inclusionImages crypto proof key.bytes valueHash, b ∈ images)
    (accepted : verifyInclusion crypto proof ((trieScheme crypto).root tree).bytes key.bytes
      valueHash = .ok ()) :
    ∃ v, (trieScheme crypto).get 0 key tree = some v ∧ v.bytes = valueHash := by
  obtain ⟨terminal, reconstructed⟩ := verifyInclusion_eq_ok accepted
  simp only [reconstructRoot, terminal, leafTerminal, terminalHash, if_true, bind_eq_ok,
    ensure_eq_ok] at reconstructed
  obtain ⟨_, bound, _, _, _, hashed, climbed⟩ := reconstructed
  obtain ⟨framable, rfl⟩ := Codec.digest_eq_ok.mp hashed
  exact climb_sound key proof.siblings free nodes path (framable valueHash (by simp))
    (by omega) climbed

end Sound

end Sena.TrieVerifier
