import Mathlib.Data.List.Basic
import Mathlib.Data.List.Pairwise

/-! Ordered maps as association lists in ascending key order.

Keys are ordered by a rank into the natural numbers. The order is what an
encoding that walks the map depends on; lookups do not need it. -/
namespace Sena.SortedMap

variable {K V : Type} (rank : K → Nat) {map front : List (K × V)}

def get (key : K) : List (K × V) → Option V
  | [] => none
  | (other, value) :: rest => if rank other = rank key then some value else get key rest

/-- Binds a key, in order, replacing what it was bound to. -/
def insert (key : K) (value : V) : List (K × V) → List (K × V)
  | [] => [(key, value)]
  | (other, old) :: rest =>
    if rank key < rank other then (key, value) :: (other, old) :: rest
    else if rank key = rank other then (key, value) :: rest
    else (other, old) :: insert key value rest

def remove (key : K) : List (K × V) → List (K × V)
  | [] => []
  | (other, value) :: rest =>
    if rank other = rank key then rest else (other, value) :: remove key rest

/-- Keys strictly ascend. -/
def Sorted (map : List (K × V)) : Prop := map.Pairwise fun a b => rank a.1 < rank b.1

instance (map : List (K × V)) : Decidable (Sorted rank map) :=
  inferInstanceAs (Decidable (map.Pairwise _))

theorem get_insert (map : List (K × V)) : get rank other (insert rank key value map) =
      if rank key = rank other then some value else get rank other map := by
  induction map with
  | nil => simp [insert, get]
  | cons entry rest ih =>
    obtain ⟨first, old⟩ := entry
    rw [insert]
    split
    · simp [get]
    · split
      · rename_i same
        by_cases here : rank key = rank other
        · simp [get, here]
        · simp [get, here, ← same]
      · simp only [get, ih]
        rename_i differ
        by_cases here : rank first = rank other
        · have elsewhere : rank key ≠ rank other := fun same => differ (same.trans here.symm)
          simp [here, elsewhere]
        · simp [here]

theorem mem_insert (member : e ∈ insert rank key value map) : e = (key, value) ∨ e ∈ map := by
  induction map with
  | nil => simpa [insert] using member
  | cons entry rest ih =>
    rw [insert] at member
    split at member
    · simpa using member
    · split at member
      · rcases List.mem_cons.mp member with here | later
        · exact .inl here
        · exact .inr (by simp [later])
      · rcases List.mem_cons.mp member with here | later
        · exact .inr (by simp [here])
        · rcases ih later with here | later
          · exact .inl here
          · exact .inr (by simp [later])

theorem sorted_insert (sorted : Sorted rank map) : Sorted rank (insert rank key value map) := by
  induction map with
  | nil => simp [insert, Sorted]
  | cons entry rest ih =>
    obtain ⟨first, old⟩ := entry
    obtain ⟨after, sortedRest⟩ := List.pairwise_cons.mp sorted
    rw [insert]
    split
    · rename_i below
      refine List.pairwise_cons.mpr ⟨?_, sorted⟩
      intro e member
      rcases List.mem_cons.mp member with rfl | later
      · exact below
      · exact Nat.lt_trans below (after e later)
    · split
      · rename_i same
        exact List.pairwise_cons.mpr ⟨fun e later => same ▸ after e later, sortedRest⟩
      · refine List.pairwise_cons.mpr ⟨?_, ih sortedRest⟩
        intro e member
        rcases mem_insert rank member with rfl | later
        · simp only
          omega
        · exact after e later

theorem insert_last (above : ∀ e ∈ map, rank e.1 < rank key) : insert rank key value map = map ++ [(key, value)] := by
  induction map with
  | nil => rfl
  | cons entry rest ih =>
    obtain ⟨first, old⟩ := entry
    have here := above (first, old) (by simp)
    simp only at here
    rw [insert, if_neg (by omega), if_neg (by omega),
      ih fun e later => above e (by simp [later])]
    rfl

theorem foldl_insert (sorted : Sorted rank (front ++ map)) :
    map.foldl (fun built e => insert rank e.1 e.2 built) front = front ++ map := by
  induction map generalizing front with
  | nil => simp
  | cons entry rest ih =>
    have above : ∀ e ∈ front, rank e.1 < rank entry.1 := fun e member =>
      (List.pairwise_append.mp sorted).2.2 e member entry (by simp)
    rw [List.foldl_cons, insert_last rank above, ih (by simpa using sorted)]
    simp

theorem mem_of_mem_remove (member : e ∈ remove rank key map) : e ∈ map := by
  induction map with
  | nil => exact member
  | cons entry rest ih =>
    rw [remove] at member
    split at member
    · simp [member]
    · rcases List.mem_cons.mp member with here | later
      · simp [here]
      · simp [ih later]

theorem remove_length_le (map : List (K × V)) : (remove rank key map).length ≤ map.length := by
  induction map with
  | nil => simp [remove]
  | cons entry rest ih =>
    rw [remove]
    split <;> simp [ih]

theorem get_eq_none (above : ∀ e ∈ map, rank e.1 ≠ rank key) : get rank key map = none := by
  induction map with
  | nil => rfl
  | cons entry rest ih =>
    rw [get, if_neg (above entry (by simp))]
    exact ih fun e member => above e (by simp [member])

theorem mem_of_get (found : get rank key map = some value) : ∃ e ∈ map, e.2 = value := by
  induction map with
  | nil => cases found
  | cons entry rest ih =>
    rw [get] at found
    split at found
    · exact ⟨entry, List.mem_cons_self, Option.some.inj found⟩
    · obtain ⟨e, member, same⟩ := ih found
      exact ⟨e, List.mem_cons_of_mem _ member, same⟩

theorem get_of_mem (sorted : Sorted rank map) (member : (key, value) ∈ map) : get rank key map = some value := by
  induction map with
  | nil => cases member
  | cons entry rest ih =>
    obtain ⟨after, sortedRest⟩ := List.pairwise_cons.mp sorted
    rw [get]
    rcases List.mem_cons.mp member with rfl | later
    · rw [if_pos rfl]
    · rw [if_neg (Nat.ne_of_lt (after _ later))]
      exact ih sortedRest later

theorem remove_eq_self (apart : ∀ e ∈ map, rank e.1 ≠ rank key) : remove rank key map = map := by
  induction map with
  | nil => rfl
  | cons entry rest ih =>
    rw [remove, if_neg (apart entry (by simp)), ih fun e member => apart e (by simp [member])]

theorem get_remove (sorted : Sorted rank map) :
    get rank other (remove rank key map) = if rank key = rank other then none else get rank other map := by
  induction map with
  | nil => simp [remove, get]
  | cons entry rest ih =>
    obtain ⟨first, value⟩ := entry
    obtain ⟨after, sortedRest⟩ := List.pairwise_cons.mp sorted
    simp only at after
    rw [remove]
    split
    · rename_i found
      split
      · rename_i same
        refine get_eq_none rank fun e member => ?_
        have later := after e member
        omega
      · rename_i elsewhere
        rw [get, if_neg fun here => elsewhere (found.symm.trans here)]
    · rename_i missed
      rw [get, get, ih sortedRest]
      by_cases here : rank first = rank other
      · have elsewhere : rank key ≠ rank other := fun same => missed (here.trans same.symm)
        simp [here, elsewhere]
      · simp [here]

theorem sorted_remove (sorted : Sorted rank map) : Sorted rank (remove rank key map) := by
  induction map with
  | nil => exact sorted
  | cons entry rest ih =>
    obtain ⟨after, sortedRest⟩ := List.pairwise_cons.mp sorted
    rw [remove]
    split
    · exact sortedRest
    · refine List.pairwise_cons.mpr ⟨fun e member => after e ?_, ih sortedRest⟩
      exact mem_of_mem_remove rank member

theorem insert_length_le (map : List (K × V)) : (insert rank key value map).length ≤ map.length + 1 := by
  induction map with
  | nil => simp [insert]
  | cons entry rest ih =>
    rw [insert]
    split
    · simp
    · split <;> simp [ih]

theorem forall_lt_iff_last (sorted : Sorted rank map) :
    (∀ e ∈ map, rank e.1 < n) ↔ ∀ e ∈ map.getLast?, rank e.1 < n := by
  rcases List.eq_nil_or_concat map with rfl | ⟨front, last, rfl⟩
  · simp
  · have below := (List.pairwise_append.mp (List.concat_eq_append ▸ sorted)).2.2
    simp only [List.concat_eq_append, List.mem_append, List.mem_singleton, List.getLast?_append,
      List.getLast?_singleton, Option.some_or, Option.mem_some_iff, forall_eq']
    constructor
    · intro all
      exact all last (.inr rfl)
    · rintro small e (earlier | rfl)
      · exact Nat.lt_trans (below e earlier last (by simp)) small
      · exact small

end Sena.SortedMap

namespace Sena

/-- A map that keeps its entries in ascending order of the keys' ranks. -/
structure BTreeMap {K : Type} (rank : K → Nat) (V : Type) where
  entries : List (K × V)
  sorted : SortedMap.Sorted rank entries
deriving DecidableEq

namespace BTreeMap

variable {K V : Type} {rank : K → Nat}

@[ext] theorem ext {a b : BTreeMap rank V} (same : a.entries = b.entries) : a = b := by
  cases a
  cases b
  simp_all

def empty : BTreeMap rank V := ⟨[], List.Pairwise.nil⟩

def get (map : BTreeMap rank V) (key : K) : Option V := SortedMap.get rank key map.entries

def insert (map : BTreeMap rank V) (key : K) (value : V) : BTreeMap rank V :=
  ⟨SortedMap.insert rank key value map.entries, SortedMap.sorted_insert rank map.sorted⟩

def remove (map : BTreeMap rank V) (key : K) : BTreeMap rank V :=
  ⟨SortedMap.remove rank key map.entries, SortedMap.sorted_remove rank map.sorted⟩

end BTreeMap
end Sena
