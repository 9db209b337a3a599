import Sena.WitnessProofs

/-! The trie over whole histories of writes and removals.

Its root is a function of what it holds, whatever the order it was written in,
and the nodes it keeps answer for every root it ever had: against such a root a
proof is accepted exactly if it is the one the trie draws today. -/
namespace Sena
namespace MerkleTrie

/-- One call on a trie. -/
inductive Edit where
  | insert (key : Hash256) (value : Bytes)
  | remove (key : Hash256)

/-- The trie after these calls on an empty one. -/
def history (crypto : Crypto) (edits : List Edit) : MerkleTrie :=
  edits.foldl (fun trie e => match e with
    | .insert key value => trie.insert crypto key value
    | .remove key => trie.remove crypto key) new

/-- The map these calls leave, whatever keeps it. -/
def contents (edits : List Edit) : Hash256 → Option Bytes :=
  edits.foldl (fun map e => match e with
    | .insert key value => Function.update map key (some value)
    | .remove key => Function.update map key none) fun _ => none

variable {crypto : Crypto}

section
variable (edits : List Edit)
include edits

@[simp] theorem history_concat_insert (key : Hash256) (value : Bytes) :
    history crypto (edits ++ [.insert key value]) = (history crypto edits).insert crypto key value := by
  simp [history]

@[simp] theorem history_concat_remove (key : Hash256) :
    history crypto (edits ++ [.remove key]) = (history crypto edits).remove crypto key := by
  simp [history]

@[simp] theorem contents_concat_insert (key : Hash256) (value : Bytes) :
    contents (edits ++ [.insert key value]) = Function.update (contents edits) key (some value) := by
  simp [contents]

@[simp] theorem contents_concat_remove (key : Hash256) :
    contents (edits ++ [.remove key]) = Function.update (contents edits) key none := by
  simp [contents]

theorem built_history : Built crypto (history crypto edits) := by
  induction edits using List.reverseRecOn with
  | nil => exact .new
  | append_singleton edits e ih =>
    cases e with
    | insert key value => simpa using Built.insert key value ih
    | remove key => simpa using Built.remove key ih

theorem sorted_history : SortedMap.Sorted Hash256.rank (history crypto edits).values := by
  induction edits using List.reverseRecOn with
  | nil => exact List.Pairwise.nil
  | append_singleton edits e ih =>
    cases e with
    | insert key value =>
      rw [history_concat_insert]
      exact SortedMap.sorted_insert _ ih
    | remove key =>
      rw [history_concat_remove, remove]
      split
      · exact ih
      · exact SortedMap.sorted_remove _ ih

/-- The trie holds the map its calls describe. -/
theorem get_history (key : Hash256) : (history crypto edits).get key = contents edits key := by
  induction edits using List.reverseRecOn with
  | nil => rfl
  | append_singleton edits e ih =>
    cases e with
    | insert other value =>
      rw [history_concat_insert, get_insert, contents_concat_insert, Function.update_apply, ih]
      simp only [eq_comm]
    | remove other =>
      rw [history_concat_remove, contents_concat_remove, Function.update_apply, ← ih, remove]
      split
      · rename_i absent
        split
        · rename_i same
          rw [same, absent]
        · rfl
      · rw [get, SortedMap.get_remove _ (sorted_history edits)]
        simp only [Hash256.rank_inj, eq_comm, get]

theorem history_grown (later : List Edit) :
    (history crypto edits).nodes <:+ (history crypto (edits ++ later)).nodes := by
  induction later using List.reverseRecOn with
  | nil => simp
  | append_singleton later e ih =>
    rw [← List.append_assoc]
    cases e with
    | insert key value =>
      rw [history_concat_insert]
      exact ih.trans (insert_grown crypto _ key value)
    | remove key =>
      rw [history_concat_remove]
      exact ih.trans (remove_grown crypto _ key)

end

/-- Strings that do not collide make nodes that do not. -/
theorem apart_of_free {images : Set Bytes} (free : CollisionFree crypto.sha256 images) :
    (trieScheme crypto).Apart {n | Node.image n ∈ images} where
  inj inA inB same := Node.image_inj (free.inj inA inB same)
  nonzero member := free.nonzero _ member

theorem Represents.image_mem (repr : Represents crypto trie tree) (member : n ∈ (trieScheme crypto).nodes tree) :
    Node.image n ∈ images trie.nodes :=
  ⟨_, repr.holds n member, rfl⟩

/-- `to_bytes` returns: neither its count nor a value overflows a length prefix. -/
structure Writable (trie : MerkleTrie) : Prop where
  few : trie.values.length < 2 ^ 32
  short : ∀ e ∈ trie.values, Framable e.2

theorem Represents.root_eq_zero_iff (repr : Represents crypto trie tree) (free : Free crypto trie) :
    trie.root = Hash256.zero ↔ ∀ key, trie.get key = none := by
  rw [repr.root_eq]
  constructor
  · intro zero key
    have empty := (apart_of_free free).empty_of_root (fun n member => repr.image_mem member) zero
    simpa [empty, HashTrie.Scheme.get] using (repr.bound key).symm
  · intro none
    cases tree with
    | empty => rfl
    | leaf key value =>
      have bound := repr.bound key
      simp [none key, HashTrie.Scheme.get] at bound
    | branch l r =>
      obtain ⟨_, two, _⟩ := repr.placed
      obtain ⟨e, member⟩ := List.exists_mem_of_length_pos (show 0 < (HashTrie.Tree.branch l r).entries.length by omega)
      have bound := repr.bound e.1
      rw [((trieScheme crypto).get_eq_some repr.placed).mpr member, none] at bound
      cases bound

/-- The root depends only on the contents. Histories that leave one map leave one
root; one root means one map of value hashes; only an empty trie has the zero
root; and a snapshot loads as the trie it was taken of. -/
theorem root_depends_only_on_contents (crypto : Crypto) (edits edits' : List Edit)
    (free : CollisionFree crypto.sha256 (images (history crypto edits).nodes ∪
      images (history crypto edits').nodes ∪ images (ofEntries crypto (history crypto edits).values).nodes)) :
    (contents edits = contents edits' → (history crypto edits).root = (history crypto edits').root ∧
      ∀ key, (history crypto edits).get key = (history crypto edits').get key) ∧
    ((history crypto edits).root = (history crypto edits').root →
      ∀ key, (contents edits key).map crypto.sha256 = (contents edits' key).map crypto.sha256) ∧
    ((history crypto edits).root = Hash256.zero ↔ ∀ key, contents edits key = none) ∧
    ((history crypto edits).Writable → ∃ loaded, fromBytes crypto (history crypto edits).toBytes = .ok loaded ∧
      loaded.root = (history crypto edits).root ∧ ∀ key, loaded.get key = contents edits key) := by
  have freeHere : Free crypto (history crypto edits) :=
    free.mono fun b member => .inl (.inl member)
  have freeThere : Free crypto (history crypto edits') :=
    free.mono fun b member => .inl (.inr member)
  obtain ⟨tree, repr⟩ := (built_history edits).represents freeHere
  obtain ⟨tree', repr'⟩ := (built_history edits').represents freeThere
  have holds : ∀ key, (history crypto edits).get key = contents edits key := get_history edits
  have holds' : ∀ key, (history crypto edits').get key = contents edits' key := get_history edits'
  refine ⟨fun same => ?_, fun same key => ?_, ?_, fun writable => ?_⟩
  · have gets : ∀ key, (history crypto edits).get key = (history crypto edits').get key := fun key => by
      rw [holds, holds', same]
    exact ⟨by rw [repr.root_eq, repr'.root_eq, repr.tree_eq repr' gets], gets⟩
  · rw [repr.root_eq, repr'.root_eq] at same
    have trees := (apart_of_free free).root_inj (fun n member => .inl (.inl (repr.image_mem member)))
      (fun n member => .inl (.inr (repr'.image_mem member))) same
    rw [← holds, ← holds', ← repr.bound, ← repr'.bound, trees]
  · simp only [repr.root_eq_zero_iff freeHere, holds]
  · obtain ⟨loads, rebuilt⟩ := repr.fromBytes_toBytes writable.few writable.short
      (free.mono fun b member => .inr member)
    refine ⟨_, loads, rebuilt.root_eq.trans repr.root_eq.symm, fun key => ?_⟩
    have values : (ofEntries crypto (history crypto edits).values).values = (history crypto edits).values := by
      rw [values_ofEntries]
      exact SortedMap.foldl_insert Hash256.rank (show SortedMap.Sorted _ ([] ++ _) from repr.sorted)
    rw [get, values]
    exact holds key

/-- SHA-256 as it is; a trie uses no other cryptography. -/
def hashing : Crypto := .accepting []

/-- What a store hashed, as a list that can be checked. -/
def imageList (store : List (Hash256 × Node)) : List Bytes := store.map (·.2.image)

theorem mem_imageList {store : List (Hash256 × Node)} (member : b ∈ images store) : b ∈ imageList store := by
  obtain ⟨e, stored, rfl⟩ := member
  exact List.mem_map_of_mem stored

/-- Strings told apart by their digests, compared as numbers. -/
def digestsApart (sha256 : Bytes → Hash256) (images : List Bytes) : Bool :=
  let numbers := images.map fun b => ((sha256 b).rank, b.length, ofBe b)
  numbers.all fun p => p.1 ≠ 0 && numbers.all fun q => p.1 ≠ q.1 || p.2 = q.2

theorem collisionFree_of_digestsApart {sha256 : Bytes → Hash256} {images : List Bytes}
    (apart : digestsApart sha256 images = true) : CollisionFree sha256 {b | b ∈ images} := by
  simp only [digestsApart, List.all_map, List.all_eq_true, Function.comp_apply, Bool.and_eq_true, Bool.or_eq_true,
    decide_eq_true_eq, Prod.mk.injEq] at apart
  refine ⟨fun a inA b inB same => ?_, fun b member zero => (apart b member).1 ?_⟩
  · rcases (apart a inA).2 b inB with differ | ⟨lengths, numbers⟩
    · exact absurd (Hash256.rank_inj.mpr same) differ
    · exact ofBe_inj lengths numbers
  · rw [zero]
    decide

/-- One key, and another written and removed again. -/
def once : List Edit := [.insert (.fill 32 1) [7]]

def twice : List Edit := [.insert (.fill 32 1) [7], .insert (.fill 32 128) [8], .remove (.fill 32 128)]

theorem removed_key_leaves_no_trace : (history hashing twice).root = (history hashing once).root := by
  have checked : CollisionFree hashing.sha256 {b | b ∈ imageList (history hashing twice).nodes ++
      imageList (history hashing once).nodes ++
      imageList (ofEntries hashing (history hashing twice).values).nodes} := by
    decide +kernel
  have free : CollisionFree hashing.sha256 (images (history hashing twice).nodes ∪
      images (history hashing once).nodes ∪ images (ofEntries hashing (history hashing twice).values).nodes) := by
    refine checked.mono fun b member => ?_
    rcases member with (first | second) | rebuilt
    · exact List.mem_append_left _ (List.mem_append_left _ (mem_imageList first))
    · exact List.mem_append_left _ (List.mem_append_right _ (mem_imageList second))
    · exact List.mem_append_right _ (mem_imageList rebuilt)
  refine ((root_depends_only_on_contents hashing twice once free).1 (funext fun key => ?_)).1
  have apart : (FixedBytes.fill 32 1 : Hash256) ≠ .fill 32 128 := by decide
  by_cases here : key = .fill 32 128
  · simp [contents, twice, once, here, apart.symm]
  · simp [contents, twice, once, here]

/-- The strings hashed while folding a proof up. -/
def proofImages (crypto : Crypto) (proof : MerkleProof) (key : Hash256) : Set Bytes :=
  {b | ∃ n ∈ (trieScheme crypto).climbNodes 0 key proof.siblings proof.terminal, Node.image n = b}

section
variable (repr : Represents crypto trie tree)
include repr

/-- Only the drawn proof reaches the root of a represented tree. -/
theorem Represents.reaches_iff {set : Set Bytes}
    (free : CollisionFree crypto.sha256 set) (stored : images trie.nodes ⊆ set)
    (hashed : proofImages crypto proof key ⊆ set) : proof.Reaches crypto key trie.root ↔
      proof = ⟨((trieScheme crypto).prove 0 key tree).1, ((trieScheme crypto).prove 0 key tree).2⟩ := by
  constructor
  · intro reaches
    have unique := (apart_of_free free).climb_unique (fun n member => stored (repr.image_mem member))
      (fun n member => hashed ⟨n, member, rfl⟩) (reaches.folds.trans repr.root_eq)
    rw [← unique]
  · rintro rfl
    refine ⟨?_, fun leafKey value ends => ?_, ?_⟩
    · simpa using (trieScheme crypto).prove_length (k := key) (Nat.zero_le _) repr.placed
    · simpa using ((trieScheme crypto).prove_terminal_on_path repr.placed
        ((trieScheme crypto).under_zero _ _) ends).2
    · rw [repr.root_eq]
      exact (trieScheme crypto).climb_prove

theorem Represents.terminal_eq_leaf_iff (key valueHash : Hash256) :
    ((trieScheme crypto).prove 0 key tree).2 = .leaf key valueHash ↔
      (trie.get key).map crypto.sha256 = some valueHash := by
  rw [← repr.bound, (trieScheme crypto).prove_terminal_get]
  cases ((trieScheme crypto).prove 0 key tree).2 with
  | empty => simp
  | leaf other value =>
    by_cases same : other = key
    · simp [same]
    · simp [same]

theorem Represents.get_eq_some_iff {set : Set Bytes}
    (free : CollisionFree crypto.sha256 set) (held : ∀ b, trie.get key = some b → b ∈ set) (shown : value ∈ set) :
    ((trieScheme crypto).prove 0 key tree).2 = .leaf key (crypto.sha256 value) ↔ trie.get key = some value := by
  rw [repr.terminal_eq_leaf_iff]
  cases found : trie.get key with
  | none => simp
  | some b =>
    simp only [Option.map_some, Option.some.injEq]
    exact ⟨free.inj (held b found) shown, fun same => by rw [same]⟩

theorem Represents.get_eq_none_iff :
    (∀ value, ((trieScheme crypto).prove 0 key tree).2 ≠ .leaf key value) ↔ trie.get key = none := by
  simp only [ne_eq, repr.terminal_eq_leaf_iff]
  cases trie.get key with
  | none => simp
  | some b => simp

end

theorem Represents.proveAt_grown {past : MerkleTrie} (repr : Represents crypto past tree)
    (now : Represents crypto trie later) (free : Free crypto trie) (grown : past.nodes <:+ trie.nodes)
    (key : Hash256) : trie.proveAt past.root key =
      ⟨((trieScheme crypto).prove 0 key tree).1, ((trieScheme crypto).prove 0 key tree).2⟩ := by
  simp only [proveAt, repr.root_eq,
    proveFrom_eq free now.keyed (repr.holds.mono grown) repr.placed (show MAX_DEPTH = _ from rfl)]

section
variable {past : MerkleTrie} (was : Built crypto past) (is : Built crypto trie) (grown : past.nodes <:+ trie.nodes)
include was is grown

theorem verify_grown_iff {set : Set Bytes} (free : CollisionFree crypto.sha256 set) (stored : images trie.nodes ⊆ set)
    (hashed : proofImages crypto proof key ⊆ set) (held : ∀ b, past.get key = some b → b ∈ set) (shown : value ∈ set) :
    (proof.verifyInclusion crypto past.root key value = .ok () ↔
      past.get key = some value ∧ proof = trie.proveAt past.root key) ∧
    (proof.verifyNonInclusion crypto past.root key = .ok () ↔
      past.get key = none ∧ proof = trie.proveAt past.root key) := by
  have freeNow : Free crypto trie := free.mono stored
  obtain ⟨_, now⟩ := is.represents freeNow
  obtain ⟨tree, repr⟩ := was.represents (freeNow.of_grown grown)
  have walked := repr.proveAt_grown now freeNow grown key
  have reaches : proof.Reaches crypto key past.root ↔ proof = _ :=
    repr.reaches_iff free ((images_mono grown).trans stored) hashed
  rw [MerkleProof.verifyInclusion_eq_ok, MerkleProof.verifyNonInclusion_eq_ok, reaches, ← walked]
  constructor
  · rw [← repr.get_eq_some_iff free held shown]
    constructor
    · rintro ⟨rfl, ends⟩
      exact ⟨by rw [← ends, walked], rfl⟩
    · rintro ⟨ends, rfl⟩
      exact ⟨rfl, by rw [walked]; exact ends⟩
  · rw [← repr.get_eq_none_iff]
    constructor
    · rintro ⟨rfl, ends⟩
      exact ⟨fun v => by rw [walked] at ends; exact ends v, rfl⟩
    · rintro ⟨ends, rfl⟩
      exact ⟨rfl, fun v => by rw [walked]; exact ends v⟩

theorem proofImages_proveAt (free : Free crypto trie) (key : Hash256) :
    proofImages crypto (trie.proveAt past.root key) key ⊆ images trie.nodes := by
  obtain ⟨_, now⟩ := is.represents free
  obtain ⟨tree, repr⟩ := was.represents (free.of_grown grown)
  rintro _ ⟨n, member, rfl⟩
  rw [repr.proveAt_grown now free grown] at member
  exact images_mono grown (repr.image_mem ((trieScheme crypto).mem_nodes_of_climbNodes member))

theorem verify_proveAt_iff {set : Set Bytes} (free : CollisionFree crypto.sha256 set) (stored : images trie.nodes ⊆ set)
    (held : ∀ b, past.get key = some b → b ∈ set) (shown : value ∈ set) :
    ((trie.proveAt past.root key).verifyInclusion crypto past.root key value = .ok () ↔ past.get key = some value) ∧
    ((trie.proveAt past.root key).verifyNonInclusion crypto past.root key = .ok () ↔ past.get key = none) := by
  have hashed := (proofImages_proveAt was is grown (free.mono stored) key).trans stored
  simpa only [and_true] using verify_grown_iff was is grown free stored hashed held shown

theorem proveAt_eq_prove (free : Free crypto trie) (key : Hash256) : trie.proveAt past.root key = past.prove key := by
  obtain ⟨_, now⟩ := is.represents free
  obtain ⟨tree, repr⟩ := was.represents (free.of_grown grown)
  rw [prove, repr.proveAt_grown now free grown, repr.proveAt_grown repr (free.of_grown grown) (List.suffix_refl _)]

end

theorem Built.terminal_spec (built : Built crypto trie) (free : Free crypto trie) (key : Hash256) :
    match (trie.prove key).terminal with
    | .empty => trie.get key = none
    | .leaf other valueHash =>
      if other = key then (trie.get key).map crypto.sha256 = some valueHash else trie.get key = none := by
  obtain ⟨tree, repr⟩ := built.represents free
  have bound := repr.bound key
  rw [(trieScheme crypto).prove_terminal_get] at bound
  rw [prove, repr.proveAt_grown repr free (List.suffix_refl _)]
  cases ends : ((trieScheme crypto).prove 0 key tree).2 with
  | empty =>
    rw [ends] at bound
    simpa [eq_comm] using bound
  | leaf other valueHash =>
    rw [ends] at bound
    by_cases same : other = key
    · simpa [same, eq_comm] using bound
    · simpa [same, eq_comm] using bound

/-- Proofs are exact, now and for old roots. Against any root the trie had, the
node accepts one proof for a key, the one the trie still draws, and accepts it
for what the trie held there then. -/
theorem proofs_are_exact (crypto : Crypto) (edits later : List Edit) (key : Hash256) (value : Bytes)
    (proof : MerkleProof) (free : CollisionFree crypto.sha256 (images (history crypto (edits ++ later)).nodes ∪
      proofImages crypto proof key ∪ {b | contents edits key = some b ∨ b = value})) :
    let past := (history crypto edits).root
    let drawn := (history crypto (edits ++ later)).proveAt past key
    (proof.verifyInclusion crypto past key value = .ok () ↔ contents edits key = some value ∧ proof = drawn) ∧
      (proof.verifyNonInclusion crypto past key = .ok () ↔ contents edits key = none ∧ proof = drawn) := by
  have holds : (history crypto edits).get key = contents edits key := get_history edits key
  rw [← holds] at free ⊢
  exact verify_grown_iff (built_history edits) (built_history (edits ++ later)) (history_grown edits later) free
    (fun b member => .inl (.inl member)) (fun b member => .inl (.inr member)) (fun b found => .inr (.inl found))
    (.inr (.inr rfl))

/-- The first root of a longer history is still proved against. -/
theorem old_root_still_proves : ((history hashing twice).proveAt (history hashing once).root
    (.fill 32 1)).verifyInclusion hashing (history hashing once).root (.fill 32 1) [7] = .ok () := by
  let drawn := (history hashing twice).proveAt (history hashing once).root (.fill 32 1)
  have checked : CollisionFree hashing.sha256 {b | b ∈ imageList (history hashing twice).nodes ++
      ((trieScheme hashing).climbNodes 0 (.fill 32 1) drawn.siblings drawn.terminal).map Node.image ++ [[7]]} := by
    decide +kernel
  have free : CollisionFree hashing.sha256 (images (history hashing twice).nodes ∪
      proofImages hashing drawn (.fill 32 1) ∪ {b | contents once (.fill 32 1) = some b ∨ b = [7]}) := by
    refine checked.mono fun b member => ?_
    rcases member with (stored | ⟨n, path, rfl⟩) | held
    · exact List.mem_append_left _ (List.mem_append_left _ (mem_imageList stored))
    · exact List.mem_append_left _ (List.mem_append_right _ (List.mem_map.mpr ⟨n, path, rfl⟩))
    · refine List.mem_append_right _ ?_
      rcases held with held | rfl
      · simpa [contents, once, eq_comm] using held
      · simp
  exact (proofs_are_exact hashing once [.insert (.fill 32 128) [8], .remove (.fill 32 128)] (.fill 32 1) [7]
    drawn free).1.mpr ⟨by simp [contents, once], rfl⟩

end MerkleTrie
end Sena
