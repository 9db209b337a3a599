import Mathlib.Data.List.Induction
import Sena.Trie

/-! The node's trie is the canonical hash trie of its bindings.

The collision assumption concerns only the nodes the store has ever held. Under
it the store resolves every digest of the tree it represents, insertion is
insertion into that tree, and a drawn proof is the tree's own. -/
namespace Sena

open HashTrie.Scheme (collapse)

theorem Node.image_inj {a b : Node} (same : a.image = b.image) : a = b := by
  have small (h : Hash256) : Framable h.bytes := by simp [Framable]
  cases a <;> cases b <;>
    obtain ⟨domain, fields⟩ := canonical_inj (by simp [small]) (by simp [small]) same <;>
    first
      | simpa using fields
      | cases domain

private theorem testBit_byte_ext {a b : UInt8} (same : ∀ i < 8, a.toNat.testBit i = b.toNat.testBit i) : a = b := by
  apply UInt8.toNat_inj.mp
  apply Nat.eq_of_testBit_eq
  intro i
  by_cases low : i < 8
  · exact same i low
  · have high (c : UInt8) : c.toNat.testBit i = false :=
      Nat.testBit_lt_two_pow (Nat.lt_of_lt_of_le c.toNat_lt
        (Nat.pow_le_pow_right (by decide) (Nat.le_of_not_lt low)))
    rw [high, high]

theorem Hash256.bit_ext (a b : Hash256) (same : ∀ i < 256, a.bit i = b.bit i) : a = b := by
  apply FixedBytes.ext
  apply List.ext_getElem (by simp)
  intro j inA inB
  apply testBit_byte_ext
  intro i low
  rw [FixedBytes.bytes_length] at inA
  have here := same (8 * j + (7 - i)) (by omega)
  have byte : (8 * j + (7 - i)) / 8 = j := by omega
  have shift : 7 - (8 * j + (7 - i)) % 8 = i := by omega
  simp only [Hash256.bit, byte, shift] at here
  simpa [inA] using here

theorem Hash256.rank_inj {a b : Hash256} : a.rank = b.rank ↔ a = b := by
  constructor
  · intro same
    apply FixedBytes.ext
    have lengths : a.bytes.length = b.bytes.length := by simp
    exact ofBe_inj lengths same
  · rintro rfl
    rfl

/-- The hash trie both sides of the protocol compute. -/
def trieScheme (crypto : Crypto) : HashTrie.Scheme Hash256 Hash256 Hash256 where
  depth := MAX_DEPTH
  bit := Hash256.bit
  bit_ext := Hash256.bit_ext
  zero := Hash256.zero
  hash := Node.hash crypto

section
variable (crypto : Crypto)

@[simp] theorem trieScheme_depth : (trieScheme crypto).depth = MAX_DEPTH := rfl
@[simp] theorem trieScheme_bit : (trieScheme crypto).bit = Hash256.bit := rfl
@[simp] theorem trieScheme_zero : (trieScheme crypto).zero = Hash256.zero := rfl
@[simp] theorem trieScheme_hash : (trieScheme crypto).hash = Node.hash crypto := rfl

end

namespace MerkleTrie

/-- The preimages of every node digest the store holds. -/
def images (nodes : List (Hash256 × Node)) : Set Bytes := {b | ∃ e ∈ nodes, e.2.image = b}

/-- The store lists each node under its own digest. -/
def Keyed (crypto : Crypto) (nodes : List (Hash256 × Node)) : Prop :=
  ∀ e ∈ nodes, e.1 = e.2.hash crypto

/-- The store lists every node of the tree. -/
def Holds (crypto : Crypto) (nodes : List (Hash256 × Node)) (tree : Tree) : Prop :=
  ∀ n ∈ (trieScheme crypto).nodes tree, (Node.hash crypto n, n) ∈ nodes

section Store
variable {crypto : Crypto} {nodes nodes' : List (Hash256 × Node)} {n : Node}

theorem images_mono (suffix : nodes <:+ nodes') : images nodes ⊆ images nodes' :=
  fun _ ⟨e, member, image⟩ => ⟨e, suffix.subset member, image⟩

section
variable (free : CollisionFree crypto.sha256 (images nodes)) (keyed : Keyed crypto nodes)
include free keyed

theorem lookup_eq_some_of_mem (member : (n.hash crypto, n) ∈ nodes) : nodes.lookup (n.hash crypto) = some n := by
  cases found : nodes.lookup (n.hash crypto) with
  | none =>
    have missing := List.lookup_eq_none_iff.mp found _ member
    simp at missing
  | some other =>
    obtain ⟨before, after, rfl, _⟩ := List.lookup_eq_some_iff.mp found
    have here : (n.hash crypto, other) ∈ before ++ (n.hash crypto, other) :: after := by simp
    have digests : n.hash crypto = other.hash crypto := keyed _ here
    have preimages : n.image = other.image :=
      free.inj ⟨_, member, rfl⟩ ⟨_, here, rfl⟩ digests
    rw [Node.image_inj preimages]

theorem lookup_zero : nodes.lookup Hash256.zero = none := by
  rw [List.lookup_eq_none_iff]
  intro e member
  have nonzero := free.nonzero _ ⟨e, member, rfl⟩
  rw [keyed e member]
  simpa [Node.hash] using Ne.symm nonzero

end

theorem Holds.left (held : Holds crypto nodes (.branch l r)) : Holds crypto nodes l :=
  fun n member => held n (by simp [HashTrie.Scheme.nodes, member])

theorem Holds.right (held : Holds crypto nodes (.branch l r)) : Holds crypto nodes r :=
  fun n member => held n (by simp [HashTrie.Scheme.nodes, member])

theorem Holds.mono (held : Holds crypto nodes tree) (suffix : nodes <:+ nodes') : Holds crypto nodes' tree :=
  fun n member => suffix.subset (held n member)

/-- What writing a subtree into the store leaves behind: the log grew, it lists
the subtree, and the digest returned is the subtree's root. -/
structure Stored (crypto : Crypto) (before : List (Hash256 × Node))
    (written : List (Hash256 × Node) × Hash256) (tree : Tree) : Prop where
  root_eq : written.2 = (trieScheme crypto).root tree
  grown : before <:+ written.1
  keyed : Keyed crypto before → Keyed crypto written.1
  holds : Holds crypto written.1 tree

theorem Stored.trans (first : nodes <:+ nodes') (keeps : Keyed crypto nodes → Keyed crypto nodes')
    (then_ : Stored crypto nodes' written tree) : Stored crypto nodes written tree :=
  ⟨then_.root_eq, first.trans then_.grown, fun keyed => then_.keyed (keeps keyed), then_.holds⟩

theorem keyed_store (keyed : Keyed crypto nodes) : Keyed crypto (store crypto nodes n).1 := by
  intro e member
  rcases List.mem_cons.mp member with rfl | member
  · rfl
  · exact keyed e member

theorem stored_leaf (crypto : Crypto) (nodes : List (Hash256 × Node)) (key value : Hash256) :
    Stored crypto nodes (store crypto nodes (.leaf key value)) (.leaf key value) where
  root_eq := rfl
  grown := List.suffix_cons _ _
  keyed := keyed_store
  holds n member := by
    simp only [HashTrie.Scheme.nodes, List.mem_singleton] at member
    simp [member, store]

theorem stored_branch (heldL : Holds crypto nodes l) (heldR : Holds crypto nodes r) :
    Stored crypto nodes (store crypto nodes (.internal ((trieScheme crypto).root l)
      ((trieScheme crypto).root r))) (.branch l r) where
  root_eq := rfl
  grown := List.suffix_cons _ _
  keyed := keyed_store
  holds n member := by
    simp only [HashTrie.Scheme.nodes, List.mem_cons, List.mem_append] at member
    rcases member with rfl | inL | inR
    · simp [store]
    · exact List.mem_cons_of_mem _ (heldL n inL)
    · exact List.mem_cons_of_mem _ (heldR n inR)

theorem holds_empty : Holds crypto nodes .empty := fun n member => by
  simp [HashTrie.Scheme.nodes] at member

theorem stored_split (fuel : Nat) (nodes : List (Hash256 × Node)) (d : Nat) (a x b y : Hash256) :
    Stored crypto nodes (split crypto fuel nodes d a x b y)
      ((trieScheme crypto).split fuel d a x b y) := by
  induction fuel generalizing nodes d with
  | zero => exact ⟨rfl, List.suffix_refl _, id, holds_empty⟩
  | succ fuel ih =>
    rw [split, HashTrie.Scheme.split, trieScheme_bit]
    split
    · have below := ih nodes (d + 1)
      simp only [below.root_eq]
      cases a.bit d with
      | true =>
        exact .trans below.grown below.keyed (stored_branch (l := .empty) holds_empty below.holds)
      | false =>
        exact .trans below.grown below.keyed (stored_branch (r := .empty) below.holds holds_empty)
    · have leafA := stored_leaf crypto nodes a x
      have leafB := stored_leaf crypto (store crypto nodes (.leaf a x)).1 b y
      have grown := leafA.grown.trans leafB.grown
      have keyed := leafB.keyed ∘ leafA.keyed
      have heldA := leafA.holds.mono leafB.grown
      simp only [leafA.root_eq, leafB.root_eq]
      cases a.bit d with
      | true => exact .trans grown keyed (stored_branch leafB.holds heldA)
      | false => exact .trans grown keyed (stored_branch heldA leafB.holds)

section
variable (free : CollisionFree crypto.sha256 (images nodes)) (keyed : Keyed crypto nodes)
include free keyed

theorem lookup_leaf (held : Holds crypto nodes (.leaf key value)) :
    nodes.lookup ((trieScheme crypto).root (.leaf key value)) = some (.leaf key value) :=
  lookup_eq_some_of_mem free keyed (held (.leaf key value) (by simp [HashTrie.Scheme.nodes]))

theorem lookup_branch (held : Holds crypto nodes (.branch l r)) :
    nodes.lookup ((trieScheme crypto).root (.branch l r)) =
      some (.internal ((trieScheme crypto).root l) ((trieScheme crypto).root r)) :=
  lookup_eq_some_of_mem free keyed
    (held (.internal _ _) (by rw [HashTrie.Scheme.nodes]; exact List.mem_cons_self))

end

theorem descend (placed : (trieScheme crypto).Placed d (.branch l r)) (fuelled : fuel = MAX_DEPTH - d) :
    ∃ less, fuel = less + 1 ∧ less = MAX_DEPTH - (d + 1) ∧ (trieScheme crypto).Placed (d + 1) l ∧
      (trieScheme crypto).Placed (d + 1) r := by
  obtain ⟨inside, _, _, _, placedL, placedR⟩ := placed
  rw [trieScheme_depth] at inside
  exact ⟨fuel - 1, by omega, by omega, placedL, placedR⟩

section
variable (free : CollisionFree crypto.sha256 (images nodes)) (keyed : Keyed crypto nodes)
  (held : Holds crypto nodes tree) (placed : (trieScheme crypto).Placed d tree) (fuelled : fuel = MAX_DEPTH - d)
include free keyed held placed fuelled

theorem stored_insertAt : Stored crypto nodes (insertAt crypto fuel nodes ((trieScheme crypto).root tree) d k v)
      ((trieScheme crypto).insert d k v tree) := by
  induction tree generalizing d fuel with
  | empty =>
    rw [insertAt, HashTrie.Scheme.root, trieScheme_zero, lookup_zero free keyed]
    exact stored_leaf crypto nodes k v
  | leaf other old =>
    rw [insertAt, lookup_leaf free keyed held, HashTrie.Scheme.insert]
    simp only
    split
    · exact stored_leaf crypto nodes k v
    · rw [fuelled]
      exact stored_split _ nodes d k v other old
  | branch l r ihl ihr =>
    obtain ⟨less, rfl, fuelled, placedL, placedR⟩ := descend placed fuelled
    rw [insertAt, lookup_branch free keyed held, HashTrie.Scheme.insert, trieScheme_bit]
    simp only
    cases k.bit d with
    | true =>
      have below := ihr held.right placedR fuelled
      simp only [if_true, below.root_eq]
      exact .trans below.grown below.keyed
        (stored_branch (held.left.mono below.grown) below.holds)
    | false =>
      have below := ihl held.left placedL fuelled
      simp only [Bool.false_eq_true, if_false, below.root_eq]
      exact .trans below.grown below.keyed
        (stored_branch below.holds (held.right.mono below.grown))

theorem proveFrom_eq :
    proveFrom nodes k fuel d ((trieScheme crypto).root tree) = (trieScheme crypto).prove d k tree := by
  induction tree generalizing d fuel with
  | empty =>
    rw [proveFrom, HashTrie.Scheme.root, trieScheme_zero, lookup_zero free keyed]
    rfl
  | leaf other old =>
    rw [proveFrom, lookup_leaf free keyed held]
    rfl
  | branch l r ihl ihr =>
    obtain ⟨less, rfl, fuelled, placedL, placedR⟩ := descend placed fuelled
    rw [proveFrom, lookup_branch free keyed held, HashTrie.Scheme.prove, trieScheme_bit]
    simp only
    cases k.bit d with
    | true =>
      simp only [if_true, ihr held.right placedR fuelled]
    | false =>
      simp only [Bool.false_eq_true, if_false, ihl held.left placedL fuelled]

end

end Store

theorem insertAt_grown (crypto : Crypto) (fuel : Nat) (nodes : List (Hash256 × Node))
    (h : Hash256) (d : Nat) (k v : Hash256) :
    nodes <:+ (insertAt crypto fuel nodes h d k v).1 := by
  induction fuel generalizing nodes h d with
  | zero =>
    rw [insertAt]
    split
    · exact List.suffix_cons _ _
    · split
      · exact List.suffix_cons _ _
      · exact (stored_split _ _ _ _ _ _ _).grown
    · exact List.suffix_refl _
  | succ fuel ih =>
    rw [insertAt]
    split
    · exact List.suffix_cons _ _
    · split
      · exact List.suffix_cons _ _
      · exact (stored_split _ _ _ _ _ _ _).grown
    · simp only
      split
      · exact (ih _ _ _).trans (List.suffix_cons _ _)
      · exact (ih _ _ _).trans (List.suffix_cons _ _)

theorem insert_grown (crypto : Crypto) (trie : MerkleTrie) (key : Hash256) (value : Bytes) :
    trie.nodes <:+ (trie.insert crypto key value).nodes :=
  insertAt_grown crypto _ _ _ _ _ _

@[simp] theorem get_insert (crypto : Crypto) (trie : MerkleTrie) (key other : Hash256)
    (value : Bytes) :
    (trie.insert crypto key value).get other =
      if key = other then some value else trie.get other := by
  simp only [get, insert, SortedMap.get_insert, Hash256.rank_inj]

section Removal
variable {crypto : Crypto} {nodes : List (Hash256 × Node)}

theorem root_ne_zero (free : CollisionFree crypto.sha256 (images nodes))
    (held : Holds crypto nodes tree) (inhabited : tree ≠ .empty) :
    (trieScheme crypto).root tree ≠ Hash256.zero := by
  cases tree with
  | empty => exact absurd rfl inhabited
  | leaf key value => exact free.nonzero _ ⟨_, held (.leaf key value) (by simp [HashTrie.Scheme.nodes]), rfl⟩
  | branch l r =>
    exact free.nonzero _ ⟨_, held (.internal _ _) (by rw [HashTrie.Scheme.nodes]; exact List.mem_cons_self),
      rfl⟩

theorem stored_of_held (held : Holds crypto nodes tree) :
    Stored crypto nodes (nodes, (trieScheme crypto).root tree) tree :=
  ⟨rfl, List.suffix_rfl, fun keyed => keyed, held⟩

theorem stored_joinChildren (free : CollisionFree crypto.sha256 (images nodes))
    (keyed : Keyed crypto nodes) (heldL : Holds crypto nodes l) (heldR : Holds crypto nodes r) :
    Stored crypto nodes (joinChildren crypto nodes ((trieScheme crypto).root l)
      ((trieScheme crypto).root r)) (collapse l r) := by
  have zero : (trieScheme crypto).root (.empty : Tree) = Hash256.zero := rfl
  have nonzeroL := root_ne_zero free heldL
  have nonzeroR := root_ne_zero free heldR
  unfold joinChildren loneChild
  cases l with
  | empty =>
    cases r with
    | empty => simpa [collapse, zero] using stored_of_held heldL
    | leaf key value =>
      have nonzero := nonzeroR (by simp)
      simpa [collapse, zero, nonzero, lookup_leaf free keyed heldR] using stored_of_held heldR
    | branch a b =>
      have nonzero := nonzeroR (by simp)
      simpa [collapse, zero, nonzero, lookup_branch free keyed heldR] using stored_branch heldL heldR
  | leaf key value =>
    have nonzero := nonzeroL (by simp)
    cases r with
    | empty => simpa [collapse, zero, nonzero, lookup_leaf free keyed heldL] using stored_of_held heldL
    | leaf => simpa [collapse, nonzero, nonzeroR (by simp)] using stored_branch heldL heldR
    | branch => simpa [collapse, nonzero, nonzeroR (by simp)] using stored_branch heldL heldR
  | branch a b =>
    have nonzero := nonzeroL (by simp)
    cases r with
    | empty => simpa [collapse, zero, nonzero, lookup_branch free keyed heldL] using stored_branch heldL heldR
    | leaf => simpa [collapse, nonzero, nonzeroR (by simp)] using stored_branch heldL heldR
    | branch => simpa [collapse, nonzero, nonzeroR (by simp)] using stored_branch heldL heldR

theorem joinChildren_grown (crypto : Crypto) (nodes : List (Hash256 × Node)) (left right : Hash256) :
    nodes <:+ (joinChildren crypto nodes left right).1 := by
  unfold joinChildren
  split
  · exact List.suffix_rfl
  · split
    · exact List.suffix_rfl
    · exact List.suffix_cons _ _

theorem removeAt_grown (crypto : Crypto) (fuel : Nat) (nodes : List (Hash256 × Node))
    (hash : Hash256) (d : Nat) (key : Hash256) :
    nodes <:+ (removeAt crypto fuel nodes hash d key).1 := by
  induction fuel generalizing hash d with
  | zero =>
    unfold removeAt
    split <;> exact List.suffix_rfl
  | succ fuel ih =>
    unfold removeAt
    split
    · exact List.suffix_rfl
    · exact List.suffix_rfl
    · simp only
      split
      · exact (ih _ _).trans (joinChildren_grown ..)
      · exact (ih _ _).trans (joinChildren_grown ..)

theorem stored_removeAt (keyed : Keyed crypto nodes) (held : Holds crypto nodes tree)
    (placed : (trieScheme crypto).Placed d tree) (fuelled : fuel = MAX_DEPTH - d)
    (free : CollisionFree crypto.sha256
      (images (removeAt crypto fuel nodes ((trieScheme crypto).root tree) d k).1)) :
    Stored crypto nodes (removeAt crypto fuel nodes ((trieScheme crypto).root tree) d k)
      ((trieScheme crypto).remove d k tree) := by
  have freeNow := free.mono (images_mono (removeAt_grown crypto fuel nodes _ d k))
  induction tree generalizing d fuel with
  | empty =>
    rw [removeAt, HashTrie.Scheme.root, trieScheme_zero, lookup_zero freeNow keyed]
    exact stored_of_held held
  | leaf other old =>
    rw [removeAt, lookup_leaf freeNow keyed held, HashTrie.Scheme.remove]
    simp only
    split
    · exact stored_of_held holds_empty
    · exact stored_of_held held
  | branch l r ihl ihr =>
    obtain ⟨less, rfl, fuelled, placedL, placedR⟩ := descend placed fuelled
    rw [removeAt, lookup_branch freeNow keyed held] at free ⊢
    rw [HashTrie.Scheme.remove, trieScheme_bit]
    simp only at free ⊢
    cases turn : k.bit d with
    | true =>
      simp only [turn, if_true] at free ⊢
      have freeBelow := free.mono (images_mono (joinChildren_grown ..))
      have below := ihr held.right placedR fuelled freeBelow
      rw [below.root_eq]
      exact .trans below.grown below.keyed (stored_joinChildren freeBelow (below.keyed keyed)
        (held.left.mono below.grown) below.holds)
    | false =>
      simp only [turn, Bool.false_eq_true, if_false] at free ⊢
      have freeBelow := free.mono (images_mono (joinChildren_grown ..))
      have below := ihl held.left placedL fuelled freeBelow
      rw [below.root_eq]
      exact .trans below.grown below.keyed (stored_joinChildren freeBelow (below.keyed keyed)
        below.holds (held.right.mono below.grown))

end Removal

/-- The trie stores exactly the bindings of the tree, and its root is the tree's. -/
structure Represents (crypto : Crypto) (trie : MerkleTrie) (tree : Tree) : Prop where
  root_eq : trie.root = (trieScheme crypto).root tree
  placed : (trieScheme crypto).Placed 0 tree
  keyed : Keyed crypto trie.nodes
  holds : Holds crypto trie.nodes tree
  bound : ∀ key, (trieScheme crypto).get 0 key tree = (trie.get key).map crypto.sha256
  sorted : SortedMap.Sorted Hash256.rank trie.values

/-- No two nodes the trie ever stored collide, and none hashes to the sentinel. -/
def Free (crypto : Crypto) (trie : MerkleTrie) : Prop :=
  CollisionFree crypto.sha256 (images trie.nodes)

theorem Free.of_grown (free : Free crypto trie') (grown : trie.nodes <:+ trie'.nodes) : Free crypto trie :=
  free.mono (images_mono grown)

theorem represents_new (crypto : Crypto) : Represents crypto new .empty where
  root_eq := rfl
  placed := trivial
  keyed e member := by simp [new] at member
  holds := holds_empty
  bound _ := rfl
  sorted := List.Pairwise.nil

theorem Represents.insert (repr : Represents crypto trie tree) (free : Free crypto trie)
    (key : Hash256) (value : Bytes) :
    Represents crypto (trie.insert crypto key value)
      ((trieScheme crypto).insert 0 key (crypto.sha256 value) tree) := by
  have stored := stored_insertAt (k := key) (v := crypto.sha256 value) free repr.keyed repr.holds
    repr.placed (show MAX_DEPTH = _ from rfl)
  rw [← repr.root_eq] at stored
  refine ⟨stored.root_eq, ?_, stored.keyed repr.keyed, stored.holds, ?_, ?_⟩
  · exact (trieScheme crypto).placed_insert (Nat.zero_le _) repr.placed
      ((trieScheme crypto).under_zero _ _)
  · intro other
    rw [(trieScheme crypto).get_insert (Nat.zero_le _) repr.placed
      ((trieScheme crypto).under_zero _ _), get_insert, repr.bound]
    by_cases same : other = key
    · simp [same]
    · simp [same, Ne.symm same]
  · exact SortedMap.sorted_insert _ repr.sorted

theorem remove_grown (crypto : Crypto) (trie : MerkleTrie) (key : Hash256) :
    trie.nodes <:+ (trie.remove crypto key).nodes := by
  unfold remove
  split
  · exact List.suffix_rfl
  · exact removeAt_grown ..

/-- A removal unbinds its key. -/
theorem Represents.remove (repr : Represents crypto trie tree) (key : Hash256)
    (free : Free crypto (trie.remove crypto key)) :
    ∃ tree', Represents crypto (trie.remove crypto key) tree' := by
  unfold MerkleTrie.remove at free ⊢
  split at free
  · exact ⟨tree, repr⟩
  · refine ⟨(trieScheme crypto).remove 0 key tree, ?_⟩
    rw [Free, repr.root_eq] at free
    have stored := stored_removeAt repr.keyed repr.holds repr.placed (show MAX_DEPTH = _ from rfl) free
    rw [← repr.root_eq] at stored
    refine ⟨stored.root_eq, (trieScheme crypto).placed_remove repr.placed, stored.keyed repr.keyed,
      stored.holds, fun other => ?_, SortedMap.sorted_remove _ repr.sorted⟩
    rw [(trieScheme crypto).get_remove repr.placed, repr.bound]
    simp only [get, SortedMap.get_remove Hash256.rank repr.sorted, Hash256.rank_inj]
    split <;> simp_all [eq_comm]

/-- A drawn proof is the tree's own. -/
theorem Represents.prove_eq (repr : Represents crypto trie tree) (free : Free crypto trie) (key : Hash256) :
    trie.prove key = ⟨((trieScheme crypto).prove 0 key tree).1,
      ((trieScheme crypto).prove 0 key tree).2⟩ := by
  simp only [prove, proveAt, repr.root_eq,
    proveFrom_eq free repr.keyed repr.holds repr.placed (show MAX_DEPTH = _ from rfl)]

/-- The trie that writing these bindings in turn builds. -/
def ofEntries (crypto : Crypto) (entries : List (Hash256 × Bytes)) : MerkleTrie :=
  entries.foldl (fun trie e => trie.insert crypto e.1 e.2) new

theorem ofEntries_concat (crypto : Crypto) (entries : List (Hash256 × Bytes)) (e : Hash256 × Bytes) :
    ofEntries crypto (entries ++ [e]) = (ofEntries crypto entries).insert crypto e.1 e.2 := by
  simp [ofEntries]

theorem represents_ofEntries (entries : List (Hash256 × Bytes)) (free : Free crypto (ofEntries crypto entries)) :
    ∃ tree, Represents crypto (ofEntries crypto entries) tree := by
  induction entries using List.reverseRecOn with
  | nil => exact ⟨.empty, represents_new crypto⟩
  | append_singleton entries e ih =>
    rw [ofEntries_concat] at free ⊢
    have before := free.of_grown (insert_grown crypto _ e.1 e.2)
    obtain ⟨tree, repr⟩ := ih before
    exact ⟨_, repr.insert before e.1 e.2⟩

/-- Tries that insertions and removals build from the empty one. -/
inductive Built (crypto : Crypto) : MerkleTrie → Prop
  | new : Built crypto new
  | insert (key : Hash256) (value : Bytes) (built : Built crypto trie) :
      Built crypto (trie.insert crypto key value)
  | remove (key : Hash256) (built : Built crypto trie) : Built crypto (trie.remove crypto key)

theorem Built.represents (built : Built crypto trie) (free : Free crypto trie) :
    ∃ tree, Represents crypto trie tree := by
  induction built with
  | new => exact ⟨.empty, represents_new crypto⟩
  | insert key value _ ih =>
    have before := free.of_grown (insert_grown crypto _ key value)
    obtain ⟨tree, repr⟩ := ih before
    exact ⟨_, repr.insert before key value⟩
  | remove key _ ih =>
    obtain ⟨tree, repr⟩ := ih (free.of_grown (remove_grown crypto _ key))
    exact repr.remove key free

theorem values_ofEntries (crypto : Crypto) (entries : List (Hash256 × Bytes)) : (ofEntries crypto entries).values =
      entries.foldl (fun map e => SortedMap.insert Hash256.rank e.1 e.2 map) [] := by
  induction entries using List.reverseRecOn with
  | nil => rfl
  | append_singleton entries e ih =>
    rw [ofEntries_concat, List.foldl_append, ← ih]
    rfl

theorem Represents.tree_eq (repr : Represents crypto trie tree)
    (repr' : Represents crypto trie' tree') (same : ∀ key, trie.get key = trie'.get key) :
    tree = tree' := by
  apply (trieScheme crypto).eq_of_entries repr.placed repr'.placed
  rintro ⟨key, value⟩
  rw [← (trieScheme crypto).get_eq_some repr.placed, ← (trieScheme crypto).get_eq_some repr'.placed,
    repr.bound, repr'.bound, same]

theorem readEntries_append (crypto : Crypto) (entries : List (Hash256 × Bytes))
    (small : ∀ e ∈ entries, Framable e.2) (trie : MerkleTrie) (rest : Bytes) :
    readEntries crypto entries.length trie
        ((entries.flatMap fun (key, value) => key.bytes ++ frame value) ++ rest) =
      .ok (entries.foldl (fun trie e => trie.insert crypto e.1 e.2) trie, rest) := by
  induction entries generalizing trie with
  | nil => rfl
  | cons e entries ih =>
    obtain ⟨key, value⟩ := e
    simp only [List.mem_cons, forall_eq_or_imp] at small
    simp only [List.length_cons, readEntries, List.flatMap_cons, List.append_assoc]
    rw [Reader.bind_ok (Reader.hash_append key _), Reader.bind_ok (Reader.bytes_append small.1 _)]
    exact ih small.2 _

theorem Represents.fromBytes_toBytes (repr : Represents crypto trie tree)
    (few : trie.values.length < 2 ^ 32) (small : ∀ e ∈ trie.values, Framable e.2)
    (free : Free crypto (ofEntries crypto trie.values)) :
    fromBytes crypto trie.toBytes = .ok (ofEntries crypto trie.values) ∧
      Represents crypto (ofEntries crypto trie.values) tree := by
  have values : (ofEntries crypto trie.values).values = trie.values := by
    rw [values_ofEntries]
    exact SortedMap.foldl_insert Hash256.rank (show SortedMap.Sorted _ ([] ++ _) from repr.sorted)
  obtain ⟨rebuilt, repr'⟩ := represents_ofEntries trie.values free
  have same : tree = rebuilt := repr.tree_eq repr' fun key => by simp only [get, values]
  subst same
  refine ⟨?_, repr'⟩
  have read : readTrie crypto trie.toBytes = .ok ((trie.root, ofEntries crypto trie.values), []) := by
    have entries := readEntries_append crypto trie.values small new []
    simp only [List.append_nil] at entries
    simp only [toBytes, List.append_assoc, readTrie]
    rw [Reader.bind_ok (Reader.hash_append trie.root _),
      Reader.bind_ok (Reader.u32_append ⟨trie.values.length, few⟩ _), Reader.bind_ok entries]
    rfl
  simp only [fromBytes, Reader.readAll, StateT.run', read]
  simp [repr.root_eq, repr'.root_eq]

end MerkleTrie

end Sena
