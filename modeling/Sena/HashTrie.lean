import Mathlib.Data.List.Basic
import Mathlib.Data.List.Nodup

/-! Binary Merkle tries in which a leaf sits at the shallowest depth where its
key is alone.

The trie is an ordinary tree here; a scheme says how keys spell paths and how
nodes are hashed. Content-addressed stores, provers and verifiers are related
to this tree, so that each is reasoned about once. -/
namespace Sena.HashTrie

/-- What a node's digest commits to. -/
inductive Node (K V H : Type) where
  | internal (left right : H)
  | leaf (key : K) (value : V)
deriving DecidableEq, Repr

/-- How keys are read as paths of at most `depth` bits and how nodes are hashed.
Two keys spelling the same path are the same key. -/
structure Scheme (K V H : Type) where
  depth : Nat
  bit : K → Nat → Bool
  bit_ext : ∀ a b, (∀ i < depth, bit a i = bit b i) → a = b
  zero : H
  hash : Node K V H → H

inductive Tree (K V : Type) where
  | empty
  | leaf (key : K) (value : V)
  | branch (left right : Tree K V)
deriving Repr

/-- What a walk along a key's path ends in. -/
inductive Terminal (K V : Type) where
  | empty
  | leaf (key : K) (value : V)
deriving DecidableEq, Repr

namespace Tree

/-- The bindings below, in path order. -/
def entries : Tree K V → List (K × V)
  | empty => []
  | leaf key value => [(key, value)]
  | branch left right => left.entries ++ right.entries

@[simp] theorem entries_empty : (empty : Tree K V).entries = [] := rfl
@[simp] theorem entries_leaf : (leaf k v : Tree K V).entries = [(k, v)] := rfl
@[simp] theorem entries_branch (l r : Tree K V) :
    (branch l r).entries = l.entries ++ r.entries := rfl

end Tree

namespace Scheme
open HashTrie.Tree

variable {K V H : Type} (S : Scheme K V H)

def root : Tree K V → H
  | .empty => S.zero
  | .leaf key value => S.hash (.leaf key value)
  | .branch left right => S.hash (.internal (root left) (root right))

/-- Every node a store has to hold for the tree to be walked. -/
def nodes : Tree K V → List (Node K V H)
  | .empty => []
  | .leaf key value => [.leaf key value]
  | .branch left right =>
    .internal (S.root left) (S.root right) :: (nodes left ++ nodes right)

/-- The tree at `depth` is the canonical one for its bindings: each binding lies
on its key's side of every branch, and no branch stands above a single binding. -/
def Placed : (depth : Nat) → Tree K V → Prop
  | _, .empty => True
  | _, .leaf _ _ => True
  | depth, .branch left right =>
    depth < S.depth ∧ 2 ≤ (branch left right).entries.length ∧
      (∀ e ∈ left.entries, S.bit e.1 depth = false) ∧
      (∀ e ∈ right.entries, S.bit e.1 depth = true) ∧
      Placed (depth + 1) left ∧ Placed (depth + 1) right

/-- All bindings of the tree share the first `depth` bits of `key`'s path. -/
def Under (depth : Nat) (key : K) (tree : Tree K V) : Prop :=
  ∀ e ∈ tree.entries, ∀ i < depth, S.bit e.1 i = S.bit key i

theorem under_zero (key : K) (tree : Tree K V) : S.Under 0 key tree :=
  fun _ _ _ below => absurd below (Nat.not_lt_zero _)

theorem Under.left (placed : S.Placed d (.branch l r)) (under : S.Under d k (.branch l r))
    (turn : S.bit k d = false) : S.Under (d + 1) k l := by
  intro e member i below
  rcases Nat.lt_succ_iff_lt_or_eq.mp below with below | rfl
  · exact under e (by simp [member]) i below
  · rw [placed.2.2.1 e member, turn]

theorem Under.right (placed : S.Placed d (.branch l r)) (under : S.Under d k (.branch l r))
    (turn : S.bit k d = true) : S.Under (d + 1) k r := by
  intro e member i below
  rcases Nat.lt_succ_iff_lt_or_eq.mp below with below | rfl
  · exact under e (by simp [member]) i below
  · rw [placed.2.2.2.1 e member, turn]

/-- The binding found by following the key's path from `depth`. -/
def get [DecidableEq K] (depth : Nat) (key : K) : Tree K V → Option V
  | .empty => none
  | .leaf other value => if other = key then some value else none
  | .branch left right =>
    if S.bit key depth then get (depth + 1) key right else get (depth + 1) key left

/-- The subtree separating two keys that agree above `depth`, of which at most
`fuel` bits remain. -/
def split : (fuel depth : Nat) → K → V → K → V → Tree K V
  | 0, _, _, _, _, _ => .empty
  | fuel + 1, depth, keyA, valueA, keyB, valueB =>
    if S.bit keyA depth = S.bit keyB depth then
      let child := split fuel (depth + 1) keyA valueA keyB valueB
      if S.bit keyA depth then .branch .empty child else .branch child .empty
    else if S.bit keyA depth then .branch (.leaf keyB valueB) (.leaf keyA valueA)
    else .branch (.leaf keyA valueA) (.leaf keyB valueB)

def insert [DecidableEq K] (depth : Nat) (key : K) (value : V) : Tree K V → Tree K V
  | .empty => .leaf key value
  | .leaf other old =>
    if other = key then .leaf key value
    else S.split (S.depth - depth) depth key value other old
  | .branch left right =>
    if S.bit key depth then .branch left (insert (depth + 1) key value right)
    else .branch (insert (depth + 1) key value left) right

/-- The tree over two subtrees, where a branch above a single binding is dropped. -/
def collapse : Tree K V → Tree K V → Tree K V
  | .empty, .empty => .empty
  | .empty, .leaf key value => .leaf key value
  | .leaf key value, .empty => .leaf key value
  | left, right => .branch left right

def remove [DecidableEq K] (depth : Nat) (key : K) : Tree K V → Tree K V
  | .empty => .empty
  | .leaf other value => if other = key then .empty else .leaf other value
  | .branch left right =>
    if S.bit key depth then collapse left (remove (depth + 1) key right)
    else collapse (remove (depth + 1) key left) right

/-- The sibling digests met along the key's path, root first, and its end. -/
def prove (depth : Nat) (key : K) : Tree K V → List H × Terminal K V
  | .empty => ([], .empty)
  | .leaf other value => ([], .leaf other value)
  | .branch left right =>
    if S.bit key depth then
      let below := prove (depth + 1) key right
      (S.root left :: below.1, below.2)
    else
      let below := prove (depth + 1) key left
      (S.root right :: below.1, below.2)

/-- The root that `siblings` imply for a subtree digest at the end of the key's
path. -/
def climb (depth : Nat) (key : K) : List H → H → H
  | [], base => base
  | sibling :: siblings, base =>
    let below := climb (depth + 1) key siblings base
    if S.bit key depth then S.hash (.internal sibling below)
    else S.hash (.internal below sibling)

def terminalRoot : Terminal K V → H
  | .empty => S.zero
  | .leaf key value => S.hash (.leaf key value)

/-- The subtree a write of `value` at `key` puts where the path ended. -/
def updated [DecidableEq K] (depth : Nat) (key : K) (value : V) : Terminal K V → Tree K V
  | .empty => .leaf key value
  | .leaf other old =>
    if other = key then .leaf key value
    else S.split (S.depth - depth) depth key value other old

/-- Keys that part below here part further down if they agree at this bit. -/
theorem apart_deeper (apart : ∃ i, d ≤ i ∧ i < d + (fuel + 1) ∧ S.bit a i ≠ S.bit b i) (same : S.bit a d = S.bit b d) :
    ∃ i, d + 1 ≤ i ∧ i < d + 1 + fuel ∧ S.bit a i ≠ S.bit b i := by
  obtain ⟨i, lower, upper, differ⟩ := apart
  have notHere : i ≠ d := by
    rintro rfl
    exact differ same
  exact ⟨i, by omega, by omega, differ⟩

theorem mem_entries_split (apart : ∃ i, d ≤ i ∧ i < d + fuel ∧ S.bit a i ≠ S.bit b i) :
    e ∈ (S.split fuel d a x b y).entries ↔ e = (a, x) ∨ e = (b, y) := by
  induction fuel generalizing d with
  | zero =>
    obtain ⟨i, lower, upper, _⟩ := apart
    omega
  | succ fuel ih =>
    rw [split]
    by_cases same : S.bit a d = S.bit b d
    · rw [if_pos same]
      split <;> simp [ih (S.apart_deeper apart same)]
    · rw [if_neg same]
      split <;> simp [or_comm]

theorem placed_split (bound : d + fuel ≤ S.depth) (apart : ∃ i, d ≤ i ∧ i < d + fuel ∧ S.bit a i ≠ S.bit b i) :
    S.Placed d (S.split fuel d a x b y) ∧ (S.split fuel d a x b y).entries.length = 2 := by
  induction fuel generalizing d with
  | zero =>
    obtain ⟨i, lower, upper, _⟩ := apart
    omega
  | succ fuel ih =>
    rw [split]
    by_cases same : S.bit a d = S.bit b d
    · have deeper := S.apart_deeper apart same
      obtain ⟨placed, two⟩ := ih (by omega) deeper
      have members := fun e => S.mem_entries_split (x := x) (y := y) (e := e) deeper
      rw [if_pos same]
      cases turn : S.bit a d with
      | true =>
        refine ⟨⟨by omega, by simp [two], by simp, ?_, trivial, placed⟩, by simp [two]⟩
        intro e member
        rcases (members e).mp member with rfl | rfl
        · exact turn
        · rw [← same, turn]
      | false =>
        refine ⟨⟨by omega, by simp [two], ?_, by simp, placed, trivial⟩, by simp [two]⟩
        intro e member
        rcases (members e).mp member with rfl | rfl
        · exact turn
        · rw [← same, turn]
    · rw [if_neg same]
      cases turn : S.bit a d with
      | true =>
        have other : S.bit b d = false := by
          rw [turn] at same
          simpa using Ne.symm same
        exact ⟨⟨by omega, by simp, by simp [other], by simp [turn], trivial, trivial⟩, by simp⟩
      | false =>
        have other : S.bit b d = true := by
          rw [turn] at same
          simpa using Ne.symm same
        exact ⟨⟨by omega, by simp, by simp [turn], by simp [other], trivial, trivial⟩, by simp⟩

theorem apart_of_ne (distinct : a ≠ b) (agree : ∀ i < d, S.bit a i = S.bit b i) (bound : d ≤ S.depth) :
    ∃ i, d ≤ i ∧ i < d + (S.depth - d) ∧ S.bit a i ≠ S.bit b i := by
  by_contra none
  simp only [not_exists, not_and, not_not] at none
  apply distinct
  apply S.bit_ext
  intro i below
  by_cases above : i < d
  · exact agree i above
  · exact none i (by omega) (by omega)

section Insertion
variable [DecidableEq K]

section
variable {k : K} {tree : Tree K V} (bound : d ≤ S.depth) (placed : S.Placed d tree) (under : S.Under d k tree)
include bound placed under

/-- An insertion binds exactly its key and leaves every other binding. -/
theorem mem_entries_insert : e ∈ (S.insert d k v tree).entries ↔ e = (k, v) ∨ (e ∈ tree.entries ∧ e.1 ≠ k) := by
  induction tree generalizing d with
  | empty => simp [insert]
  | leaf other old =>
    rw [insert]
    by_cases same : other = k
    · subst same
      simp only [if_pos, entries_leaf, List.mem_singleton]
      constructor
      · exact .inl
      · rintro (here | ⟨rfl, differ⟩)
        · exact here
        · exact absurd rfl differ
    · rw [if_neg same]
      have apart := S.apart_of_ne (Ne.symm same)
        (fun i below => (under (other, old) (by simp) i below).symm) bound
      rw [S.mem_entries_split apart]
      simp only [entries_leaf, List.mem_singleton]
      constructor
      · rintro (here | rfl)
        · exact .inl here
        · exact .inr ⟨rfl, same⟩
      · rintro (here | ⟨rfl, _⟩)
        · exact .inl here
        · exact .inr rfl
  | branch l r ihl ihr =>
    obtain ⟨inside, _, lefts, rights, placedL, placedR⟩ := id placed
    rw [insert]
    cases turn : S.bit k d with
    | true =>
      -- A binding on the other side has the other bit, so its key is not `k`.
      have off : ∀ e ∈ l.entries, e.1 ≠ k := by
        rintro e member rfl
        simp [lefts e member] at turn
      simp only [if_true, entries_branch, List.mem_append,
        ihr (by omega) placedR (under.right S placed turn)]
      have := off e
      tauto
    | false =>
      have off : ∀ e ∈ r.entries, e.1 ≠ k := by
        rintro e member rfl
        simp [rights e member] at turn
      simp only [Bool.false_eq_true, if_false, entries_branch, List.mem_append,
        ihl (by omega) placedL (under.left S placed turn)]
      have := off e
      tauto

theorem entries_length_insert : tree.entries.length ≤ (S.insert d k v tree).entries.length ∧
      1 ≤ (S.insert d k v tree).entries.length := by
  induction tree generalizing d with
  | empty => simp [insert]
  | leaf other old =>
    rw [insert]
    split
    · simp
    · rename_i differ
      have apart := S.apart_of_ne (Ne.symm differ)
        (fun i below => (under (other, old) (by simp) i below).symm) bound
      simp [(S.placed_split (x := v) (y := old) (by omega) apart).2]
  | branch l r ihl ihr =>
    obtain ⟨inside, two, _, _, placedL, placedR⟩ := id placed
    simp only [entries_branch, List.length_append] at two
    rw [insert]
    cases turn : S.bit k d with
    | true =>
      have grown := ihr (by omega) placedR (under.right S placed turn)
      simp only [if_true, entries_branch, List.length_append]
      omega
    | false =>
      have grown := ihl (by omega) placedL (under.left S placed turn)
      simp only [Bool.false_eq_true, if_false, entries_branch, List.length_append]
      omega

theorem placed_insert : S.Placed d (S.insert d k v tree) := by
  induction tree generalizing d with
  | empty => trivial
  | leaf other old =>
    rw [insert]
    split
    · trivial
    · rename_i differ
      have apart := S.apart_of_ne (Ne.symm differ)
        (fun i below => (under (other, old) (by simp) i below).symm) bound
      exact (S.placed_split (by omega) apart).1
  | branch l r ihl ihr =>
    obtain ⟨inside, two, lefts, rights, placedL, placedR⟩ := id placed
    simp only [entries_branch, List.length_append] at two
    rw [insert]
    cases turn : S.bit k d with
    | true =>
      have below := under.right S placed turn
      have grown := S.entries_length_insert (v := v) (by omega) placedR below
      simp only [if_true]
      refine ⟨inside, by simp; omega, lefts, ?_, placedL, ihr (by omega) placedR below⟩
      intro e member
      rcases (S.mem_entries_insert (by omega) placedR below).mp member with rfl | ⟨old, _⟩
      · exact turn
      · exact rights e old
    | false =>
      have below := under.left S placed turn
      have grown := S.entries_length_insert (v := v) (by omega) placedL below
      simp only [Bool.false_eq_true, if_false]
      refine ⟨inside, by simp; omega, ?_, rights, ihl (by omega) placedL below, placedR⟩
      intro e member
      rcases (S.mem_entries_insert (by omega) placedL below).mp member with rfl | ⟨old, _⟩
      · exact turn
      · exact lefts e old

end

/-- A walk along a key's path finds exactly the tree's binding for it. -/
theorem get_eq_some (placed : S.Placed d tree) : S.get d k tree = some v ↔ (k, v) ∈ tree.entries := by
  induction tree generalizing d with
  | empty => simp [get]
  | leaf other value =>
    simp only [get, entries_leaf, List.mem_singleton, Prod.mk.injEq]
    split
    · rename_i same
      simp [same, eq_comm]
    · rename_i differ
      simp [Ne.symm differ]
  | branch l r ihl ihr =>
    obtain ⟨_, _, lefts, rights, placedL, placedR⟩ := placed
    simp only [get, entries_branch, List.mem_append]
    cases turn : S.bit k d with
    | true =>
      have off : (k, v) ∉ l.entries := fun member => by simp [lefts _ member] at turn
      simp [ihr placedR, off]
    | false =>
      have off : (k, v) ∉ r.entries := fun member => by simp [rights _ member] at turn
      simp [ihl placedL, off]

theorem get_insert (bound : d ≤ S.depth) (placed : S.Placed d tree) (under : S.Under d k tree) :
    S.get d other (S.insert d k v tree) =
      if other = k then some v else S.get d other tree := by
  apply Option.ext
  intro value
  rw [S.get_eq_some (S.placed_insert bound placed under),
    S.mem_entries_insert bound placed under]
  split
  · rename_i same
    subst same
    simp [eq_comm]
  · rename_i differ
    simp [S.get_eq_some placed, differ]

omit [DecidableEq K] in
@[simp] theorem entries_collapse (l r : Tree K V) : (collapse l r).entries = l.entries ++ r.entries := by
  cases l <;> cases r <;> simp [collapse]

omit [DecidableEq K] in
theorem placed_collapse (inside : d < S.depth) (lefts : ∀ e ∈ l.entries, S.bit e.1 d = false)
    (rights : ∀ e ∈ r.entries, S.bit e.1 d = true) (placedL : S.Placed (d + 1) l)
    (placedR : S.Placed (d + 1) r) : S.Placed d (collapse l r) := by
  -- a branch that is kept has two leaves below it, or another branch
  have branch (two : 2 ≤ (branch l r).entries.length) : S.Placed d (.branch l r) :=
    ⟨inside, two, lefts, rights, placedL, placedR⟩
  cases l with
  | empty =>
    cases r with
    | empty | leaf => trivial
    | branch => exact branch (by simpa using placedR.2.1)
  | leaf =>
    cases r with
    | empty => trivial
    | leaf => exact branch (by simp)
    | branch =>
      have two := placedR.2.1
      simp only [entries_branch, List.length_append] at two
      exact branch (by simp; omega)
  | branch =>
    have two := placedL.2.1
    simp only [entries_branch, List.length_append] at two
    exact branch (by simp; omega)

/-- A removal drops exactly its key's binding. -/
theorem mem_entries_remove (placed : S.Placed d tree) :
    e ∈ (S.remove d k tree).entries ↔ e ∈ tree.entries ∧ e.1 ≠ k := by
  induction tree generalizing d with
  | empty => simp [remove]
  | leaf other value =>
    rw [remove]
    split
    · rename_i same
      simp only [entries_empty, List.not_mem_nil, entries_leaf, List.mem_singleton, false_iff, not_and]
      rintro rfl differ
      exact differ same
    · rename_i differ
      simp only [entries_leaf, List.mem_singleton, iff_self_and]
      rintro rfl
      exact differ
  | branch l r ihl ihr =>
    obtain ⟨_, _, lefts, rights, placedL, placedR⟩ := placed
    rw [remove]
    cases turn : S.bit k d with
    | true =>
      have off : ∀ e ∈ l.entries, e.1 ≠ k := by
        rintro e member rfl
        simp [lefts e member] at turn
      simp only [if_true, entries_collapse, entries_branch, List.mem_append, ihr placedR]
      have := off e
      tauto
    | false =>
      have off : ∀ e ∈ r.entries, e.1 ≠ k := by
        rintro e member rfl
        simp [rights e member] at turn
      simp only [Bool.false_eq_true, if_false, entries_collapse, entries_branch, List.mem_append,
        ihl placedL]
      have := off e
      tauto

theorem placed_remove (placed : S.Placed d tree) : S.Placed d (S.remove d k tree) := by
  induction tree generalizing d with
  | empty => trivial
  | leaf other value =>
    rw [remove]
    split <;> trivial
  | branch l r ihl ihr =>
    obtain ⟨inside, _, lefts, rights, placedL, placedR⟩ := placed
    rw [remove]
    split
    · exact S.placed_collapse inside lefts
        (fun e member => rights e ((S.mem_entries_remove placedR).mp member).1) placedL (ihr placedR)
    · exact S.placed_collapse inside
        (fun e member => lefts e ((S.mem_entries_remove placedL).mp member).1) rights (ihl placedL) placedR

theorem get_remove (placed : S.Placed d tree) :
    S.get d other (S.remove d k tree) = if other = k then none else S.get d other tree := by
  apply Option.ext
  intro value
  rw [S.get_eq_some (S.placed_remove placed), S.mem_entries_remove placed]
  split
  · rename_i same
    simp [same]
  · rename_i differ
    simp [S.get_eq_some placed, differ]

end Insertion

theorem nodup_entries (placed : S.Placed d tree) : tree.entries.Nodup := by
  induction tree generalizing d with
  | empty => simp
  | leaf => simp
  | branch l r ihl ihr =>
    obtain ⟨_, _, lefts, rights, placedL, placedR⟩ := placed
    refine List.Nodup.append (ihl placedL) (ihr placedR) ?_
    intro e inL inR
    have clash := lefts e inL
    rw [rights e inR] at clash
    cases clash

theorem eq_of_entries (placed : S.Placed d tree) (placed' : S.Placed d tree')
    (same : ∀ e, e ∈ tree.entries ↔ e ∈ tree'.entries) : tree = tree' := by
  induction tree generalizing d tree' with
  | empty =>
    have lengths := ((List.perm_ext_iff_of_nodup (S.nodup_entries placed)
      (S.nodup_entries placed')).mpr same).length_eq
    cases tree' with
    | empty => rfl
    | leaf => simp at lengths
    | branch l' r' =>
      have two := placed'.2.1
      rw [← lengths] at two
      simp at two
  | leaf k v =>
    have lengths := ((List.perm_ext_iff_of_nodup (S.nodup_entries placed)
      (S.nodup_entries placed')).mpr same).length_eq
    cases tree' with
    | empty => simp at lengths
    | leaf k' v' =>
      have here := (same (k, v)).mp (by simp)
      simp only [entries_leaf, List.mem_singleton, Prod.mk.injEq] at here
      rw [here.1, here.2]
    | branch l' r' =>
      have two := placed'.2.1
      rw [← lengths] at two
      simp at two
  | branch l r ihl ihr =>
    have lengths := ((List.perm_ext_iff_of_nodup (S.nodup_entries placed)
      (S.nodup_entries placed')).mpr same).length_eq
    have two := placed.2.1
    cases tree' with
    | empty =>
      rw [lengths] at two
      simp at two
    | leaf =>
      rw [lengths] at two
      simp at two
    | branch l' r' =>
      obtain ⟨_, _, lefts, rights, placedL, placedR⟩ := placed
      obtain ⟨_, _, lefts', rights', placedL', placedR'⟩ := placed'
      simp only [entries_branch, List.mem_append] at same
      -- The bit at this depth tells which side a binding is on, in both trees.
      have sameL : ∀ e, e ∈ l.entries ↔ e ∈ l'.entries := by
        intro e
        have := same e
        have := lefts e
        have := rights e
        have := lefts' e
        have := rights' e
        grind
      have sameR : ∀ e, e ∈ r.entries ↔ e ∈ r'.entries := by
        intro e
        have := same e
        have := lefts e
        have := rights e
        have := lefts' e
        have := rights' e
        grind
      rw [ihl placedL placedL' sameL, ihr placedR placedR' sameR]

theorem climb_prove : S.climb d k (S.prove d k tree).1 (S.terminalRoot (S.prove d k tree).2) = S.root tree := by
  induction tree generalizing d with
  | empty => rfl
  | leaf => rfl
  | branch l r ihl ihr =>
    rw [prove]
    cases turn : S.bit k d with
    | true => simp [climb, turn, root, ihr]
    | false => simp [climb, turn, root, ihl]

theorem prove_length (bound : d ≤ S.depth) (placed : S.Placed d tree) :
    d + (S.prove d k tree).1.length ≤ S.depth := by
  induction tree generalizing d with
  | empty => simpa [prove] using bound
  | leaf => simpa [prove] using bound
  | branch l r ihl ihr =>
    obtain ⟨inside, _, _, _, placedL, placedR⟩ := placed
    rw [prove]
    split
    · have below := ihr (by omega) placedR
      simp only [List.length_cons]
      omega
    · have below := ihl (by omega) placedL
      simp only [List.length_cons]
      omega

theorem prove_terminal_on_path (placed : S.Placed d tree) (under : S.Under d k tree)
    (ends : (S.prove d k tree).2 = .leaf k' v') :
    (k', v') ∈ tree.entries ∧
      ∀ i < d + (S.prove d k tree).1.length, S.bit k' i = S.bit k i := by
  induction tree generalizing d with
  | empty => simp [prove] at ends
  | leaf other value =>
    simp only [prove, Terminal.leaf.injEq] at ends
    obtain ⟨rfl, rfl⟩ := ends
    exact ⟨by simp, fun i below => under (other, value) (by simp) i (by simpa [prove] using below)⟩
  | branch l r ihl ihr =>
    obtain ⟨_, _, _, _, placedL, placedR⟩ := id placed
    rw [prove] at ends ⊢
    cases turn : S.bit k d with
    | true =>
      simp only [turn, if_true] at ends ⊢
      obtain ⟨member, agree⟩ := ihr placedR (under.right S placed turn) ends
      exact ⟨by simp [member], fun i below => agree i (by simp at below; omega)⟩
    | false =>
      simp only [turn, Bool.false_eq_true, if_false] at ends ⊢
      obtain ⟨member, agree⟩ := ihl placedL (under.left S placed turn) ends
      exact ⟨by simp [member], fun i below => agree i (by simp at below; omega)⟩

theorem prove_terminal_get [DecidableEq K] : S.get d k tree =
      match (S.prove d k tree).2 with
      | .empty => none
      | .leaf other value => if other = k then some value else none := by
  induction tree generalizing d with
  | empty => rfl
  | leaf => rfl
  | branch l r ihl ihr =>
    rw [get, prove]
    split
    · rw [ihr]
    · rw [ihl]

theorem climb_updated [DecidableEq K] : S.climb d k (S.prove d k tree).1
        (S.root (S.updated (d + (S.prove d k tree).1.length) k v (S.prove d k tree).2)) =
      S.root (S.insert d k v tree) := by
  induction tree generalizing d with
  | empty => rfl
  | leaf other value =>
    simp only [prove, List.length_nil, Nat.add_zero, climb, updated, insert]
  | branch l r ihl ihr =>
    rw [prove, insert]
    cases turn : S.bit k d with
    | true =>
      simp only [if_true, List.length_cons, climb, turn, root]
      rw [← ihr, Nat.add_right_comm]
      rfl
    | false =>
      simp only [Bool.false_eq_true, if_false, List.length_cons, climb, turn, root]
      rw [← ihl, Nat.add_right_comm]
      rfl

/-- Hashing tells these nodes apart, and each of them from the empty tree. -/
structure Apart (nodes : Set (Node K V H)) : Prop where
  inj : a ∈ nodes → b ∈ nodes → S.hash a = S.hash b → a = b
  nonzero : a ∈ nodes → S.hash a ≠ S.zero

/-- The nodes hashed while folding a path up, the topmost first. -/
def climbNodes (depth : Nat) (key : K) : List H → Terminal K V → List (Node K V H)
  | [], .empty => []
  | [], .leaf other value => [.leaf other value]
  | sibling :: siblings, terminal =>
    let below := S.climb (depth + 1) key siblings (S.terminalRoot terminal)
    (if S.bit key depth then .internal sibling below else .internal below sibling) ::
      climbNodes (depth + 1) key siblings terminal

theorem mem_nodes_of_climbNodes (member : n ∈ S.climbNodes d k (S.prove d k tree).1 (S.prove d k tree).2) :
    n ∈ S.nodes tree := by
  induction tree generalizing d with
  | empty => exact member
  | leaf => exact member
  | branch l r ihl ihr =>
    rw [prove] at member
    cases turn : S.bit k d with
    | true =>
      simp only [turn, if_true, climbNodes, S.climb_prove, List.mem_cons] at member
      rcases member with rfl | deeper
      · exact List.mem_cons_self
      · exact List.mem_cons_of_mem _ (List.mem_append_right _ (ihr deeper))
    | false =>
      simp only [turn, Bool.false_eq_true, if_false, climbNodes, S.climb_prove, List.mem_cons] at member
      rcases member with rfl | deeper
      · exact List.mem_cons_self
      · exact List.mem_cons_of_mem _ (List.mem_append_left _ (ihl deeper))

section Apart

variable {S} {set : Set (Node K V H)} (apart : S.Apart set)
include apart

section
variable {tree : Tree K V} (nodes : ∀ n ∈ S.nodes tree, n ∈ set)
include nodes

theorem Apart.empty_of_root (zero : S.root tree = S.zero) : tree = .empty := by
  cases tree with
  | empty => rfl
  | leaf k v => exact absurd zero (apart.nonzero (nodes _ (by simp [Scheme.nodes])))
  | branch l r => exact absurd zero (apart.nonzero (nodes _ (by simp [Scheme.nodes])))

theorem Apart.leaf_of_root (member : .leaf k v ∈ set) (same : S.hash (.leaf k v) = S.root tree) : tree = .leaf k v := by
  cases tree with
  | empty => exact absurd same (apart.nonzero member)
  | leaf k' v' =>
    cases apart.inj member (nodes _ (by simp [Scheme.nodes])) same
    rfl
  | branch l r => cases apart.inj member (nodes _ (by simp [Scheme.nodes])) same

theorem Apart.branch_of_root (member : .internal a b ∈ set) (same : S.hash (.internal a b) = S.root tree) :
    ∃ l r, tree = .branch l r ∧ a = S.root l ∧ b = S.root r := by
  cases tree with
  | empty => exact absurd same (apart.nonzero member)
  | leaf k v => cases apart.inj member (nodes _ (by simp [Scheme.nodes])) same
  | branch l r =>
    cases apart.inj member (nodes _ (by simp [Scheme.nodes])) same
    exact ⟨l, r, rfl, rfl, rfl⟩

/-- A tree is determined by its root. -/
theorem Apart.root_inj (nodes' : ∀ n ∈ S.nodes tree', n ∈ set) (same : S.root tree = S.root tree') : tree = tree' := by
  induction tree generalizing tree' with
  | empty => exact (apart.empty_of_root nodes' same.symm).symm
  | leaf k v => exact (apart.leaf_of_root nodes' (nodes _ (by simp [Scheme.nodes])) same).symm
  | branch l r ihl ihr =>
    obtain ⟨l', r', rfl, left, right⟩ := apart.branch_of_root nodes' (nodes _ (by simp [Scheme.nodes])) same
    rw [ihl (fun n member => nodes n (by simp [Scheme.nodes, member]))
        (fun n member => nodes' n (by simp [Scheme.nodes, member])) left,
      ihr (fun n member => nodes n (by simp [Scheme.nodes, member]))
        (fun n member => nodes' n (by simp [Scheme.nodes, member])) right]

theorem Apart.climb_unique (path : ∀ n ∈ S.climbNodes d k siblings terminal, n ∈ set)
    (folds : S.climb d k siblings (S.terminalRoot terminal) = S.root tree) :
    (siblings, terminal) = S.prove d k tree := by
  induction siblings generalizing d tree with
  | nil =>
    cases terminal with
    | empty =>
      rw [apart.empty_of_root nodes folds.symm]
      rfl
    | leaf other value =>
      rw [apart.leaf_of_root nodes (path _ (by simp [climbNodes])) folds]
      rfl
  | cons sibling deeper ih =>
    simp only [climbNodes, List.mem_cons, forall_eq_or_imp] at path
    simp only [climb] at folds
    cases turn : S.bit k d with
    | true =>
      simp only [turn, if_true] at path folds
      obtain ⟨l, r, rfl, rfl, below⟩ := apart.branch_of_root nodes path.1 folds
      have rest := ih (fun n member => nodes n (by simp [Scheme.nodes, member])) path.2 below
      simp only [prove, turn, if_true, ← rest]
    | false =>
      simp only [turn, Bool.false_eq_true, if_false] at path folds
      obtain ⟨l, r, rfl, below, rfl⟩ := apart.branch_of_root nodes path.1 folds
      have rest := ih (fun n member => nodes n (by simp [Scheme.nodes, member])) path.2 below
      simp only [prove, turn, Bool.false_eq_true, if_false, ← rest]

end

end Apart

end Scheme

end Sena.HashTrie
