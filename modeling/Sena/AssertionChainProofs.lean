import Mathlib.Logic.Relation
import Mathlib.Data.List.Perm.Subperm
import Sena.AssertionChain
import Sena.L1Proofs
import Sena.LabelledRuns

/-! What the calls on the node's assertion chain do, and what they keep.

A challenger's win searches the descendants of an assertion through those that are not
rejected yet. Each is visited once, so no more turns are made than there are records,
and when the search ends exactly the descendants have fallen. -/
namespace Sena.Fraudproof

open Relation

/-- The record of a rejected assertion. -/
def Record.fallen (r : Record) : Record := { r with status := .rejected, openChallenges := 0 }

namespace AssertionChain

/-! ### Searching from a stack -/

section Explored

variable {α : Type} {child : α → α → Prop} {root current : α} {done waiting rest stack : List α}

/-- What a search that takes the top off a stack and pushes its children is through
with, and what still waits. -/
structure Explored (child : α → α → Prop) (root : α) (done waiting : List α) : Prop where
  nodup : (done ++ waiting).Nodup
  reached : ∀ x ∈ done ++ waiting, ReflTransGen child root x
  start : done = [] → waiting = [root]
  pushed : done ≠ [] → ∀ x ∈ waiting, ∃ p ∈ done, child p x
  covered : ∀ x ∈ done, ∀ y, child x y → y ∈ done ++ waiting
  root : root ∈ done ++ waiting

theorem Explored.init : Explored child root [] [root] where
  nodup := by simp
  reached x inside := by
    obtain rfl : x = root := by simpa using inside
    exact .refl
  start _ := rfl
  pushed some' := absurd rfl some'
  covered x inside := by simp at inside
  root := by simp

/-- Where nothing has two parents the search goes on with the children it has not seen. -/
theorem Explored.next (explored : Explored child root done (current :: rest))
    (parent : ∀ {p q x}, child p x → child q x → p = q) (own : stack.Nodup)
    (pushed : ∀ y, y ∈ stack ↔ y ∉ done ++ [current] ∧ child current y) :
    Explored child root (done ++ [current]) (stack ++ rest) := by
  have earlier : ∀ x ∈ rest, ∃ p ∈ done, child p x := by
    intro x waits
    by_cases first : done = []
    · obtain ⟨-, rfl⟩ := List.cons.inj (explored.start first)
      cases waits
    · exact explored.pushed first x (List.mem_cons_of_mem _ waits)
  have all : ∀ {x}, x ∈ done ++ [current] ++ (stack ++ rest) ↔ x ∈ stack ∨ x ∈ done ++ current :: rest := by
    intro x
    rw [(List.perm_append_comm_assoc _ _ _).mem_iff, List.mem_append, ← List.append_cons]
  refine ⟨?_, fun x inside => ?_, fun none' => by simp at none', fun _ x inside => ?_, fun x inside y related => ?_,
    all.mpr (.inr explored.root)⟩
  · rw [(List.perm_append_comm_assoc _ _ _).nodup_iff, ← List.append_cons]
    refine own.append explored.nodup fun y inside seen => ?_
    obtain ⟨unseen, related⟩ := (pushed y).mp inside
    rw [List.append_cons, List.mem_append] at seen
    -- what waits was pushed by another parent
    obtain ⟨p, before, related'⟩ := earlier y (seen.resolve_left unseen)
    rw [parent related' related] at before
    exact (List.nodup_append.mp explored.nodup).2.2 current before current List.mem_cons_self rfl
  · rcases all.mp inside with inside | inside
    · exact (explored.reached current (by simp)).tail ((pushed x).mp inside).2
    · exact explored.reached x inside
  · rcases List.mem_append.mp inside with inside | inside
    · exact ⟨current, by simp, ((pushed x).mp inside).2⟩
    · obtain ⟨p, before, related⟩ := earlier x inside
      exact ⟨p, List.mem_append_left _ before, related⟩
  · refine all.mpr ?_
    rcases List.mem_append.mp inside with before | now
    · exact .inr (explored.covered x before y related)
    · obtain rfl : x = current := by simpa using now
      by_cases seen : y ∈ done ++ [x]
      · rw [List.append_cons]
        exact .inr (List.mem_append_left _ seen)
      · exact .inl ((pushed y).mpr ⟨seen, related⟩)

end Explored

section Search

variable {start : List (Hash256 × Record)} {id x y : Hash256} {s : Search}

/-- An assertion that is not rejected, built on another. -/
def LiveChild (records : List (Hash256 × Record)) (parent child : Hash256) : Prop :=
  ∃ r, SortedMap.get Hash256.rank child records = some r ∧ r.assertion.parent = parent ∧ r.status ≠ .rejected

/-- An assertion that falls with another. -/
def Falls (records : List (Hash256 × Record)) : Hash256 → Hash256 → Prop := ReflTransGen (LiveChild records)

variable {records : List (Hash256 × Record)} {current : Hash256} {rest : List Hash256}

theorem mem_of_lookup (found : SortedMap.get Hash256.rank id records = some r) : (id, r) ∈ records := by
  induction records with
  | nil => cases found
  | cons entry rest ih =>
    obtain ⟨key, value⟩ := entry
    rw [SortedMap.get] at found
    split at found
    · rename_i same
      obtain rfl := Hash256.rank_inj.mp same
      cases found
      exact List.mem_cons_self
    · exact List.mem_cons_of_mem _ (ih found)

/-- What a search that set out from `id` over the records `start` has done so far. -/
structure Searching (start : List (Hash256 × Record)) (id : Hash256) (s : Search) : Prop where
  sorted : SortedMap.Sorted Hash256.rank s.records
  records : ∀ x, SortedMap.get Hash256.rank x s.records =
    if x ∈ s.rejected then (SortedMap.get Hash256.rank x start).map Record.fallen
    else SortedMap.get Hash256.rank x start
  explored : Explored (LiveChild start) id s.rejected s.frontier

theorem LiveChild.parent (first : LiveChild records x child) (second : LiveChild records y child) : x = y := by
  obtain ⟨r, found, rfl, _⟩ := first
  obtain ⟨r', found', rfl, _⟩ := second
  rw [Option.some.inj (found.symm.trans found')]

/-- The children that are left are those of the start that have not fallen. -/
theorem liveChild_iff {down : List Hash256} (lookup : ∀ x, SortedMap.get Hash256.rank x records =
      if x ∈ down then (SortedMap.get Hash256.rank x start).map Record.fallen
      else SortedMap.get Hash256.rank x start) :
    LiveChild records x y ↔ y ∉ down ∧ LiveChild start x y := by
  unfold LiveChild
  rw [lookup]
  by_cases fallen : y ∈ down
  · simp only [fallen, if_true, not_true, false_and, iff_false, Option.map_eq_some_iff]
    rintro ⟨_, ⟨_, _, rfl⟩, _, standing⟩
    exact standing rfl
  · simp only [fallen, if_false, not_false_eq_true, true_and]

theorem mem_children (sorted : SortedMap.Sorted Hash256.rank records) :
    y ∈ (records.filter fun e => e.2.assertion.parent = x ∧ e.2.status ≠ .rejected).map (·.1) ↔
      LiveChild records x y := by
  simp only [List.mem_map, List.mem_filter, decide_eq_true_eq, Prod.exists]
  constructor
  · rintro ⟨key, r, ⟨member, parent, live⟩, rfl⟩
    exact ⟨r, SortedMap.get_of_mem Hash256.rank sorted member, parent, live⟩
  · rintro ⟨r, found, parent, live⟩
    exact ⟨y, r, ⟨mem_of_lookup found, parent, live⟩, rfl⟩

theorem nodup_children (sorted : SortedMap.Sorted Hash256.rank records)
    (p : Hash256 × Record → Bool) : ((records.filter p).map (·.1)).Nodup := by
  have apart : (records.filter p).Pairwise fun a b => a.1 ≠ b.1 :=
    (List.Pairwise.filter p sorted).imp fun below same => by
      rw [same] at below
      exact Nat.lt_irrefl _ below
  exact List.pairwise_map.mpr apart

section
variable (found : SortedMap.get Hash256.rank id start = some r) (searching : Searching start id s)
include found

theorem record_of_falls (falls : Falls start id x) : ∃ r, SortedMap.get Hash256.rank x start = some r := by
  cases falls with
  | refl => exact ⟨r, found⟩
  | tail _ child =>
    obtain ⟨r', found', _⟩ := child
    exact ⟨r', found'⟩

include searching

theorem Searching.top (top : s.frontier = current :: rest) : current ∉ s.rejected ∧
    ∃ r, SortedMap.get Hash256.rank current start = some r ∧ SortedMap.get Hash256.rank current s.records = some r := by
  have explored := searching.explored
  rw [top] at explored
  have fresh : current ∉ s.rejected := fun inside =>
    (List.nodup_append.mp explored.nodup).2.2 current inside current List.mem_cons_self rfl
  obtain ⟨r', found'⟩ := record_of_falls found (explored.reached current (by simp))
  exact ⟨fresh, r', found', by rw [searching.records, if_neg fresh, found']⟩

theorem Searching.pop (top : s.frontier = current :: rest) : Searching start id (s.pop current rest) := by
  obtain ⟨fresh, r', found', here⟩ := searching.top found top
  have explored := searching.explored
  rw [top] at explored
  have popped : s.pop current rest = ⟨SortedMap.insert Hash256.rank current r'.fallen s.records,
      (((SortedMap.insert Hash256.rank current r'.fallen s.records).filter fun e =>
        e.2.assertion.parent = current ∧ e.2.status ≠ .rejected).map (·.1)).reverse ++ rest,
      s.rejected ++ [current]⟩ := by
    simp only [Search.pop, here]
    rfl
  rw [popped]
  have sorted : SortedMap.Sorted Hash256.rank (SortedMap.insert Hash256.rank current r'.fallen s.records) :=
    SortedMap.sorted_insert Hash256.rank searching.sorted
  have lookup : ∀ x, SortedMap.get Hash256.rank x (SortedMap.insert Hash256.rank current r'.fallen s.records) =
      if x ∈ s.rejected ++ [current] then (SortedMap.get Hash256.rank x start).map Record.fallen
      else SortedMap.get Hash256.rank x start := by
    intro x
    simp only [SortedMap.get_insert, Hash256.rank_inj, searching.records]
    by_cases same : current = x
    · subst same
      simp [found']
    · simp [same, Ne.symm same]
  refine ⟨sorted, lookup, explored.next LiveChild.parent (List.nodup_reverse.mpr (nodup_children sorted _)) fun y => ?_⟩
  rw [List.mem_reverse, mem_children sorted, liveChild_iff lookup]

/-- Records are visited once, so the search ends with enough turns left. -/
theorem Searching.run (enough : start.length ≤ s.rejected.length + fuel) :
    Searching start id (s.run fuel) ∧ (s.run fuel).frontier = [] := by
  induction fuel generalizing s with
  | zero =>
    refine ⟨searching, ?_⟩
    have known : s.rejected ++ s.frontier ⊆ start.map (·.1) := by
      intro x inside
      obtain ⟨r, found⟩ := record_of_falls found (searching.explored.reached x inside)
      exact List.mem_map.mpr ⟨(x, r), mem_of_lookup found, rfl⟩
    have bound := (List.subperm_of_subset searching.explored.nodup known).length_le
    simp only [List.length_append, List.length_map] at bound
    exact List.length_eq_zero_iff.mp (by simp only [Search.run]; omega)
  | succ fuel ih =>
    rw [Search.run]
    split
    · rename_i done
      exact ⟨searching, done⟩
    · rename_i current rest top
      refine ih (searching.pop found top) ?_
      obtain ⟨_, r, _, here⟩ := searching.top found top
      simp only [Search.pop, here, List.length_append, List.length_singleton]
      omega

end

theorem search_spec (sorted : SortedMap.Sorted Hash256.rank start)
    (found : SortedMap.get Hash256.rank id start = some r) :
    let done := Search.run start.length ⟨start, [id], []⟩
    done.frontier = [] ∧ SortedMap.Sorted Hash256.rank done.records ∧ (∀ x, x ∈ done.rejected ↔ Falls start id x) ∧
      ∀ x, SortedMap.get Hash256.rank x done.records =
        if x ∈ done.rejected then (SortedMap.get Hash256.rank x start).map Record.fallen
        else SortedMap.get Hash256.rank x start := by
  intro done
  have first : Searching start id ⟨start, [id], []⟩ := ⟨sorted, fun x => by simp, .init⟩
  obtain ⟨⟨sorted, records, explored⟩, ended⟩ := first.run found (Nat.le_add_left start.length 0)
  rw [ended] at explored
  refine ⟨ended, sorted, fun x => ⟨fun inside => ?_, fun falls => ?_⟩, records⟩
  · exact explored.reached x (by simpa using inside)
  · induction falls with
    | refl => simpa using explored.root
    | tail _ child ih => simpa using explored.covered _ ih _ child

end Search
@[simp] theorem get_write (chain : AssertionChain) (id other : Hash256) (r : Record) :
    (chain.write id r).get other = if id = other then some r else chain.get other := by
  simp only [get, write, SortedMap.get_insert, Hash256.rank_inj]

theorem sorted_write {chain : AssertionChain} (sorted : SortedMap.Sorted Hash256.rank chain.records) (id : Hash256) (r : Record) :
    SortedMap.Sorted Hash256.rank (chain.write id r).records :=
  SortedMap.sorted_insert Hash256.rank sorted

/-- The search a challenger's win makes. -/
def searched (chain : AssertionChain) (id : Hash256) : Search :=
  Search.run chain.records.length ⟨chain.records, [id], []⟩

/-- The chain a challenger's win leaves. -/
def afterWin (chain : AssertionChain) (id : Hash256) : AssertionChain :=
  { chain with records := (chain.searched id).records }

section
variable {chain : AssertionChain} {id : Hash256} {r : Record} (sorted : SortedMap.Sorted Hash256.rank chain.records)
  (found : chain.get id = some r)
include sorted found

theorem mem_searched : x ∈ (chain.searched id).rejected ↔ Falls chain.records id x :=
  (search_spec sorted found).2.2.1 x

theorem get_afterWin : (chain.afterWin id).get x =
      if x ∈ (chain.searched id).rejected then (chain.get x).map Record.fallen else chain.get x :=
  (search_spec sorted found).2.2.2 x

end

/-- A call that changes the chain. -/
inductive Call where
  | post (a : Assertion)
  | openChallenge (id : Hash256)
  | defenderWon (id : Hash256)
  | challengerWon (id : Hash256)
  | finalize (id : Hash256)
  | advanceTo (time : U64)

def call (crypto : Crypto) (chain : AssertionChain) : Call → Except ChainError AssertionChain
  | .post a => (chain.post crypto a).map (·.1)
  | .openChallenge id => chain.openChallenge id
  | .defenderWon id => chain.defenderWon id
  | .challengerWon id => (chain.challengerWon id).map (·.1)
  | .finalize id => chain.finalize id
  | .advanceTo time => chain.advanceTo time

/-- What an accepted call does. -/
inductive Called (crypto : Crypto) (chain : AssertionChain) : Call → AssertionChain → Prop
  | posted (a : Assertion) (known : chain.get a.parent = some parent) (standing : parent.status ≠ .rejected)
      (continues : parent.assertion.postStateRoot = a.preStateRoot) (bonded : chain.minimumBond.val ≤ a.bond.val) :
      Called crypto chain (.post a) (chain.write (a.id crypto) ⟨a, .pending, chain.now, 0⟩)
  | challenged {id : Hash256} (found : chain.get id = some r) (live : r.status = .pending ∨ r.status = .challenged) (count : U32)
      (counted : count.val = min (r.openChallenges.val + 1) (2 ^ 32 - 1)) :
      Called crypto chain (.openChallenge id)
        (chain.write id { r with status := .challenged, openChallenges := count })
  | defended {id : Hash256} (found : chain.get id = some r) (challenged : r.status = .challenged) (left : U32)
      (counted : left.val = r.openChallenges.val - 1) :
      Called crypto chain (.defenderWon id)
        (chain.write id { r with status := if left.val = 0 then .pending else .challenged, openChallenges := left })
  | rejected {id : Hash256} (found : chain.get id = some r) (challenged : r.status = .challenged) :
      Called crypto chain (.challengerWon id) (chain.afterWin id)
  | finalized {id : Hash256} (found : chain.get id = some r) (pending : r.status = .pending)
      (known : chain.get r.assertion.parent = some parent) (final : parent.status = .finalized)
      (waited : chain.challengeWindow.val ≤ chain.now.val - r.postedAt.val) :
      Called crypto chain (.finalize id)
        { chain.write id { r with status := .finalized } with latestFinalized := some id }
  | advanced (time : U64) (later : chain.now.val ≤ time.val) :
      Called crypto chain (.advanceTo time) { chain with now := time }

variable {crypto : Crypto} {chain chain' : AssertionChain} {id : Hash256} {r : Record}

theorem map_eq_ok {x : Except ε α} {f : α → β} : x.map f = .ok b ↔ ∃ a, x = .ok a ∧ f a = b := by
  cases x <;> simp [Except.map]

theorem called_of_call (accepted : chain.call crypto c = .ok chain') : Called crypto chain c chain' := by
  cases c with
  | post a =>
    obtain ⟨⟨_, _⟩, posted, rfl⟩ := map_eq_ok.mp accepted
    unfold post at posted
    split at posted
    · cases posted
    · rename_i parent known
      split_ifs at posted with rejected broken small
      cases posted
      exact .posted a known rejected (not_not.mp broken) (Nat.not_lt.mp small)
  | openChallenge id =>
    simp only [call, openChallenge] at accepted
    split at accepted
    · cases accepted
    · rename_i r found
      split at accepted
      · rename_i pending
        cases accepted
        exact .challenged found (.inl pending) _ rfl
      · rename_i challenged
        cases accepted
        exact .challenged found (.inr challenged) _ rfl
      · cases accepted
  | defenderWon id =>
    simp only [call, defenderWon] at accepted
    split at accepted
    · cases accepted
    · rename_i r found
      split at accepted
      · cases accepted
      · rename_i other
        have challenged : r.status = .challenged := not_not.mp other
        cases accepted
        rw [challenged]
        exact .defended found challenged ⟨r.openChallenges.val - 1, by omega⟩ rfl
  | challengerWon id =>
    obtain ⟨⟨_, _⟩, won, rfl⟩ := map_eq_ok.mp accepted
    simp only [challengerWon] at won
    split at won
    · cases won
    · rename_i r found
      split_ifs at won with other
      cases won
      exact .rejected found (not_not.mp other)
  | finalize id =>
    simp only [call, finalize] at accepted
    split at accepted
    · cases accepted
    · rename_i r found
      split_ifs at accepted with other orphan early
      cases accepted
      obtain ⟨parent, known, final⟩ := Option.map_eq_some_iff.mp (not_not.mp orphan)
      exact .finalized found (not_not.mp other) known final (Nat.not_lt.mp early)
  | advanceTo time =>
    simp only [call, advanceTo] at accepted
    split_ifs at accepted with back
    cases accepted
    exact .advanced time (Nat.not_lt.mp back)

/-- What holds of a chain on which no assertion is posted twice: a record counts its
challenges, and a final assertion stands on a final one, or on the parent of genesis,
which has no record. -/
structure Grounded (chain : AssertionChain) : Prop where
  sorted : SortedMap.Sorted Hash256.rank chain.records
  counted : ∀ id r, chain.get id = some r → (0 < r.openChallenges.val ↔ r.status = .challenged)
  final : ∀ id r, chain.get id = some r → r.status = .finalized →
    r.assertion.parent = Hash256.zero ∨ ∃ p, chain.get r.assertion.parent = some p ∧ p.status = .finalized
  rootless : chain.get Hash256.zero = none

theorem grounded_new (crypto : Crypto) (genesisRoot : Hash256) (window : U64) (bond : U128)
    (nonzero : (Assertion.mk Hash256.zero 0 Hash256.zero genesisRoot Hash256.zero 0 0).id crypto ≠ Hash256.zero) :
    Grounded (new crypto genesisRoot window bond) := by
  have only : ∀ id r, (new crypto genesisRoot window bond).get id = some r →
      r = ⟨⟨Hash256.zero, 0, Hash256.zero, genesisRoot, Hash256.zero, 0, 0⟩, .finalized, 0, 0⟩ := by
    intro id r found
    obtain ⟨e, member, rfl⟩ := SortedMap.mem_of_get Hash256.rank found
    obtain rfl := List.mem_singleton.mp member
    rfl
  refine ⟨List.pairwise_singleton _ _, fun id r found => ?_, fun id r found _ => ?_, ?_⟩
  · obtain rfl := only id r found
    simp
  · obtain rfl := only id r found
    exact .inl rfl
  · simp [get, new, SortedMap.get, Hash256.rank_inj, nonzero]

/-- What may become of a record in one call: it keeps its assertion and its time, and its
status once that is final. -/
structure Record.Ages (r r' : Record) : Prop where
  assertion : r'.assertion = r.assertion
  postedAt : r'.postedAt = r.postedAt
  settled : r.status = .finalized ∨ r.status = .rejected → r'.status = r.status

theorem Record.Ages.refl (r : Record) : Record.Ages r r := ⟨rfl, rfl, fun _ => rfl⟩

theorem Record.Ages.trans (first : Record.Ages r r') (second : Record.Ages r' r'') : Record.Ages r r'' := by
  refine ⟨second.assertion.trans first.assertion, second.postedAt.trans first.postedAt, fun settled => ?_⟩
  have same := first.settled settled
  rw [second.settled (same ▸ settled), same]

/-- A post of an assertion that has no record yet, under an id that is not the one
genesis names as its parent. -/
def Fresh (crypto : Crypto) (chain : AssertionChain) : Call → Prop
  | .post a => chain.get (a.id crypto) = none ∧ a.id crypto ≠ Hash256.zero
  | _ => True

section
variable (grounded : Grounded chain)
include grounded

/-- No final assertion falls with one that is not final. -/
theorem Grounded.spares (found : chain.get id = some r) (open' : r.status ≠ .finalized)
    (falls : Falls chain.records id x) : ∀ r', chain.get x = some r' → r'.status ≠ .finalized := by
  induction falls with
  | refl =>
    intro r' found'
    obtain rfl : r = r' := by simpa [found] using found'
    exact open'
  | @tail y z before child ih =>
    intro r' found' final
    obtain ⟨r'', found'', parent, _⟩ := child
    obtain rfl : r' = r'' := by simpa [found'] using (show chain.get z = some r'' from found'')
    rcases grounded.final z r' found' final with zero | ⟨p, known, stands⟩
    · -- a fallen assertion has a record, and the zero id has none
      have recorded : ∃ p, chain.get y = some p := by
        cases before with
        | refl => exact ⟨r, found⟩
        | tail _ last =>
          obtain ⟨p, known, _⟩ := last
          exact ⟨p, known⟩
      obtain ⟨p, known⟩ := recorded
      rw [← parent, zero, grounded.rootless] at known
      cases known
    · exact ih p (parent ▸ known) stands

/-- A write over a record that was there. -/
theorem Grounded.write {written : Record} (found : chain.get id = some r)
    (same : written.assertion = r.assertion) (counted : 0 < written.openChallenges.val ↔ written.status = .challenged)
    (stays : r.status = .finalized → written.status = .finalized)
    (final : written.status = .finalized → ∃ p, chain.get r.assertion.parent = some p ∧ p.status = .finalized) :
    Grounded (chain.write id written) := by
  have kept : ∀ key p, chain.get key = some p → p.status = .finalized →
      ∃ p', (chain.write id written).get key = some p' ∧ p'.status = .finalized := by
    intro key p known stands
    by_cases here : id = key
    · subst here
      obtain rfl : r = p := by simpa [found] using known
      exact ⟨written, by simp, stays stands⟩
    · exact ⟨p, by simpa [here] using known, stands⟩
  refine ⟨sorted_write grounded.sorted _ _, fun key r' found' => ?_, fun key r' found' stands => ?_, ?_⟩
  · by_cases here : id = key
    · obtain rfl : written = r' := by simpa [here] using found'
      exact counted
    · exact grounded.counted key r' (by simpa [here] using found')
  · by_cases here : id = key
    · obtain rfl : written = r' := by simpa [here] using found'
      obtain ⟨p, known, above⟩ := final stands
      rw [same]
      exact .inr (kept _ p known above)
    · refine (grounded.final key r' (by simpa [here] using found') stands).imp_right ?_
      rintro ⟨p, known, above⟩
      exact kept _ p known above
  · have apart : id ≠ Hash256.zero := by
      rintro rfl
      simp [grounded.rootless] at found
    simpa [apart] using grounded.rootless

theorem Grounded.posted (new : chain.get key = none)
    (nonzero : key ≠ Hash256.zero) {written : Record} (pending : written.status = .pending)
    (none' : written.openChallenges = 0) : Grounded (chain.write key written) := by
  have kept : ∀ other p, chain.get other = some p → (chain.write key written).get other = some p := by
    intro other p known
    have apart : key ≠ other := by
      rintro rfl
      simp [new] at known
    simpa [apart] using known
  refine ⟨sorted_write grounded.sorted _ _, fun other r' found' => ?_, fun other r' found' stands => ?_, ?_⟩
  · by_cases here : key = other
    · obtain rfl : written = r' := by simpa [here] using found'
      simp [pending, none']
    · exact grounded.counted other r' (by simpa [here] using found')
  · by_cases here : key = other
    · obtain rfl : written = r' := by simpa [here] using found'
      simp [pending] at stands
    · refine (grounded.final other r' (by simpa [here] using found') stands).imp_right ?_
      rintro ⟨p, known, above⟩
      exact ⟨p, kept _ p known, above⟩
  · simpa [nonzero] using grounded.rootless

theorem Grounded.rejected (found : chain.get id = some r)
    (challenged : r.status = .challenged) : Grounded (chain.afterWin id) := by
  have after x : (chain.afterWin id).get x = _ := get_afterWin grounded.sorted found
  -- a final record that is left was final before, and so was its parent, which is left too
  have final : ∀ x p, chain.get x = some p → p.status = .finalized → (chain.afterWin id).get x = some p := by
    intro x p known stands
    rw [after, if_neg, known]
    intro inside
    exact grounded.spares found (by simp [challenged]) ((mem_searched grounded.sorted found).mp inside) p known
      stands
  refine ⟨(search_spec grounded.sorted found).2.1, fun x r' found' => ?_, fun x r' found' stands => ?_, ?_⟩
  · rw [after] at found'
    split at found'
    · obtain ⟨r'', _, rfl⟩ := Option.map_eq_some_iff.mp found'
      simp [Record.fallen]
    · exact grounded.counted x r' found'
  · rw [after] at found'
    split at found'
    · obtain ⟨r'', _, rfl⟩ := Option.map_eq_some_iff.mp found'
      cases stands
    · refine (grounded.final x r' found' stands).imp_right ?_
      rintro ⟨p, known, above⟩
      exact ⟨p, final _ p known above, above⟩
  · rw [after, grounded.rootless]
    split <;> rfl

theorem Grounded.called (fresh : Fresh crypto chain c) (called : Called crypto chain c chain') : Grounded chain' := by
  cases called with
  | posted a => exact grounded.posted fresh.1 fresh.2 rfl rfl
  | challenged found live count counted =>
    refine grounded.write found rfl ⟨fun _ => rfl, fun _ => ?_⟩ (fun stands => ?_) (fun stands => nomatch stands)
    · simp only
      omega
    · rcases live with status | status <;> simp [status] at stands
  | defended found challenged left counted =>
    refine grounded.write found rfl ?_ (fun stands => by simp [challenged] at stands) (fun stands => ?_)
    · by_cases last : left.val = 0
      · simp [last]
      · simp only [last, if_false, iff_true]
        omega
    · by_cases last : left.val = 0 <;> simp [last] at stands
  | rejected found challenged => exact grounded.rejected found challenged
  | @finalized r parent id found pending known final waited =>
    have uncounted : ¬0 < r.openChallenges.val := by
      rw [grounded.counted id r found, pending]
      decide
    have written : Grounded (chain.write id { r with status := .finalized }) := by
      refine grounded.write found rfl ?_ (fun _ => rfl) (fun _ => ⟨parent, known, final⟩)
      simpa using uncounted
    exact ⟨written.sorted, written.counted, written.final, written.rootless⟩
  | advanced time later => exact ⟨grounded.sorted, grounded.counted, grounded.final, grounded.rootless⟩

end

theorem ages_write (found : chain.get id = some r) (ages : Record.Ages r written) (x : Hash256)
    (p : Record) (known : chain.get x = some p) : ∃ p', (chain.write id written).get x = some p' ∧ Record.Ages p p' := by
  by_cases here : id = x
  · subst here
    obtain rfl : r = p := by simpa [found] using known
    exact ⟨written, by simp, ages⟩
  · exact ⟨p, by simpa [here] using known, .refl p⟩

theorem Called.ages (called : Called crypto chain c chain') (grounded : Grounded chain) (fresh : Fresh crypto chain c)
    (x : Hash256) (p : Record) (known : chain.get x = some p) : ∃ p', chain'.get x = some p' ∧ Record.Ages p p' := by
  cases called with
  | posted a =>
    have apart : a.id crypto ≠ x := by
      rintro rfl
      simp [fresh.1] at known
    exact ⟨p, by simpa [apart] using known, .refl p⟩
  | challenged found live count counted =>
    refine ages_write found ?_ x p known
    refine ⟨rfl, rfl, fun settled => ?_⟩
    rcases live with status | status <;> simp [status] at settled
  | defended found challenged left counted =>
    refine ages_write found ?_ x p known
    exact ⟨rfl, rfl, fun settled => by simp [challenged] at settled⟩
  | @rejected r id found challenged =>
    rw [get_afterWin grounded.sorted found]
    split
    · rename_i inside
      refine ⟨p.fallen, by rw [known]; rfl, rfl, rfl, fun settled => ?_⟩
      have spared := grounded.spares found (by simp [challenged])
        ((mem_searched grounded.sorted found).mp inside) p known
      exact (settled.resolve_left spared).symm
    · exact ⟨p, known, .refl p⟩
  | finalized found pending =>
    refine ages_write found ?_ x p known
    exact ⟨rfl, rfl, fun settled => by simp [pending] at settled⟩
  | advanced => exact ⟨p, known, .refl p⟩

/-- An assertion stops being challenged when a challenge against it is lost, or when it
falls. -/
theorem Called.leaves {p' : Record} (called : Called crypto chain c chain') (fresh : Fresh crypto chain c)
    (known : chain.get x = some p) (challenged : p.status = .challenged) (known' : chain'.get x = some p')
    (left : p'.status ≠ .challenged) : c = .defenderWon x ∨ ∃ id, c = .challengerWon id := by
  have elsewhere {written : Record} {id : Hash256} (apart : id ≠ x) (after : (chain.write id written).get x = some p') :
      False := by
    obtain rfl : p = p' := by simpa [apart, known] using after
    exact left challenged
  cases called with
  | posted a =>
    refine (elsewhere ?_ known').elim
    rintro rfl
    simp [fresh.1] at known
  | @challenged r id found live count counted =>
    by_cases here : id = x
    · subst here
      obtain rfl : { r with status := .challenged, openChallenges := count } = p' := by simpa using known'
      exact absurd rfl left
    · exact (elsewhere here known').elim
  | @defended r id found _ left counted =>
    by_cases here : id = x
    · exact .inl (by rw [here])
    · exact (elsewhere here known').elim
  | rejected => exact .inr ⟨_, rfl⟩
  | @finalized r _ id found pending =>
    by_cases here : id = x
    · subst here
      obtain rfl : r = p := by simpa [found] using known
      simp [pending] at challenged
    · exact (elsewhere here known').elim
  | advanced =>
    obtain rfl : p = p' := by simpa using (known.symm.trans known')
    exact absurd challenged left

/-- One call of a sequence, made when `allowed`. A refused call changes nothing. -/
def Calls (crypto : Crypto) (allowed : AssertionChain → Call → Prop) (chain : AssertionChain) (c : Call)
    (chain' : AssertionChain) : Prop :=
  allowed chain c ∧ (chain.call crypto c = .ok chain' ∨ ∃ e, chain.call crypto c = .error e ∧ chain' = chain)

theorem Grounded.calls (grounded : Grounded chain) (calls : Calls crypto (Fresh crypto) chain c chain') :
    Grounded chain' := by
  obtain ⟨fresh, accepted | ⟨_, _, rfl⟩⟩ := calls
  · exact grounded.called fresh (called_of_call accepted)
  · exact grounded

theorem ages_of_run (grounded : Grounded chain)
    (ran : Run (Calls crypto (Fresh crypto)) chain calls chain') (known : chain.get x = some p) :
    ∃ p', chain'.get x = some p' ∧ Record.Ages p p' := by
  induction calls generalizing chain p with
  | nil => exact ⟨p, ran ▸ known, .refl p⟩
  | cons c calls ih =>
    obtain ⟨middle, first, rest⟩ := ran
    have next := grounded.calls first
    obtain ⟨fresh, accepted | ⟨_, _, rfl⟩⟩ := first
    · obtain ⟨p₁, known₁, ages⟩ := (called_of_call accepted).ages grounded fresh x p known
      obtain ⟨p', known', later⟩ := ih next rest known₁
      exact ⟨p', known', ages.trans later⟩
    · exact ih next rest known

/-- On a chain where no assertion is posted twice, final statuses and the times of
posting stay, a challenge ends in one of two ways, and records count their challenges. -/
theorem statuses_are_final {genesisRoot : Hash256} {window : U64} {bond : U128} {before : List Call}
    (nonzero : (Assertion.mk Hash256.zero 0 Hash256.zero genesisRoot Hash256.zero 0 0).id crypto ≠ Hash256.zero)
    (ran : Run (Calls crypto (Fresh crypto)) (new crypto genesisRoot window bond) before chain) :
    (∀ id r, chain.get id = some r → (0 < r.openChallenges.val ↔ r.status = .challenged)) ∧
    (∀ after chain', Run (Calls crypto (Fresh crypto)) chain after chain' → ∀ id r, chain.get id = some r →
      ∃ r', chain'.get id = some r' ∧ r'.postedAt = r.postedAt ∧
        (r.status = .finalized → r'.status = .finalized) ∧ (r.status = .rejected → r'.status = .rejected)) ∧
    (∀ c next, Calls crypto (Fresh crypto) chain c next → ∀ id r r', chain.get id = some r → r.status = .challenged →
      next.get id = some r' → r'.status ≠ .challenged → c = .defenderWon id ∨ ∃ other, c = .challengerWon other) := by
  have grounded : Grounded chain := ran.invariant Grounded (fun _ _ _ _ grounded calls => grounded.calls calls)
    (grounded_new crypto genesisRoot window bond nonzero)
  refine ⟨grounded.counted, fun _ _ later id r known => ?_, fun _ _ calls id r r' known challenged known' left => ?_⟩
  · obtain ⟨r', known', ages⟩ := ages_of_run grounded later known
    exact ⟨r', known', ages.postedAt, fun final => (ages.settled (.inl final)).trans final,
      fun down => (ages.settled (.inr down)).trans down⟩
  · obtain ⟨fresh, accepted | ⟨_, _, rfl⟩⟩ := calls
    · exact (called_of_call accepted).leaves fresh known challenged known' left
    · obtain rfl : r = r' := by simpa [known] using known'
      exact absurd challenged left

instance (crypto : Crypto) (chain : AssertionChain) : DecidablePred (Fresh crypto chain)
  | .post a => inferInstanceAs (Decidable (chain.get (a.id crypto) = none ∧ a.id crypto ≠ Hash256.zero))
  | .openChallenge _ | .defenderWon _ | .challengerWon _ | .finalize _ | .advanceTo _ => isTrue trivial

/-- Makes a call if it is allowed. -/
def play (crypto : Crypto) (allowed : AssertionChain → Call → Prop) [∀ chain, DecidablePred (allowed chain)]
    (chain : AssertionChain) (c : Call) : Option AssertionChain :=
  if allowed chain c then
    match chain.call crypto c with
    | .ok next => some next
    | .error _ => some chain
  else none

variable {allowed : AssertionChain → Call → Prop}

theorem calls_of_play [∀ chain, DecidablePred (allowed chain)]
    (played : play crypto allowed chain c = some chain') : Calls crypto allowed chain c chain' := by
  unfold play at played
  split at played
  · rename_i meets
    refine ⟨meets, ?_⟩
    split at played
    · rename_i next accepted
      exact .inl (Option.some.inj played ▸ accepted)
    · rename_i e refused
      exact .inr ⟨e, refused, (Option.some.inj played).symm⟩
  · cases played

theorem run_of_plays [∀ chain, DecidablePred (allowed chain)]
    {calls : List Call} (played : calls.foldlM (play crypto allowed) chain = some chain') :
    Run (Calls crypto allowed) chain calls chain' := by
  have ran := Run.foldlM_eq_some.mp played
  induction calls generalizing chain with
  | nil => exact ran
  | cons c calls ih =>
    obtain ⟨middle, first, rest⟩ := ran
    exact ⟨middle, calls_of_play first, ih (Run.foldlM_eq_some.mpr rest) rest⟩

/-- A chain over the empty ledger. -/
def emptyLedger : AssertionChain := new L1.hashing Hash256.zero 0 0

/-- An assertion on genesis that changes nothing. -/
def idleAssertion : Assertion where
  parent := (Assertion.mk Hash256.zero 0 Hash256.zero Hash256.zero Hash256.zero 0 0).id L1.hashing
  proposer := 0
  preStateRoot := Hash256.zero
  postStateRoot := Hash256.zero
  batchCommitment := Hash256.zero
  traceLength := 0
  bond := 0

/-- It is posted, and final a window later. -/
def finalizing : List Call :=
  [.post idleAssertion, .advanceTo 86400, .finalize (idleAssertion.id L1.hashing)]

/-- A challenge against a final assertion is refused, and it stays final. -/
theorem final_assertion_withstands_challenge : ∃ chain chain' r r',
    Run (Calls L1.hashing (Fresh L1.hashing)) emptyLedger finalizing chain ∧
    chain.get (idleAssertion.id L1.hashing) = some r ∧ r.status = .finalized ∧
    Run (Calls L1.hashing (Fresh L1.hashing)) chain [.openChallenge (idleAssertion.id L1.hashing)] chain' ∧
    chain'.get (idleAssertion.id L1.hashing) = some r' ∧ r'.status = .finalized ∧ r'.postedAt = r.postedAt := by
  have nonzero : (Assertion.mk Hash256.zero 0 Hash256.zero Hash256.zero Hash256.zero 0 0).id L1.hashing ≠
      Hash256.zero := by decide +kernel
  obtain ⟨chain, first, ⟨r, known, final⟩, chain', second, -⟩ :
      ∃ chain ∈ finalizing.foldlM (play L1.hashing (Fresh L1.hashing)) emptyLedger,
        (∃ r ∈ chain.get (idleAssertion.id L1.hashing), r.status = .finalized) ∧
        ∃ chain' ∈ List.foldlM (play L1.hashing (Fresh L1.hashing)) chain
          [.openChallenge (idleAssertion.id L1.hashing)], True := by decide +kernel
  have before := run_of_plays first
  have after := run_of_plays second
  obtain ⟨r', known', postedAt, stays, _⟩ :=
    (statuses_are_final nonzero before).2.1 _ _ after _ r known
  exact ⟨chain, chain', r, r', before, known, final, after, known', stays final, postedAt⟩

/-- Posting a final assertion again makes it pending, from now on. -/
theorem reposting_undoes_finality : ∃ chain chain' r r',
    Run (Calls L1.hashing fun _ _ => True) emptyLedger finalizing chain ∧
    chain.get (idleAssertion.id L1.hashing) = some r ∧ r.status = .finalized ∧ r.postedAt = 0 ∧
    chain.call L1.hashing (.post idleAssertion) = .ok chain' ∧
    chain'.get (idleAssertion.id L1.hashing) = some r' ∧ r'.status = .pending ∧ r'.postedAt = 86400 := by
  obtain ⟨chain, ran, ⟨r, known, final, early⟩, chain', again, r', known', pending, late⟩ :
      ∃ chain ∈ finalizing.foldlM (play L1.hashing fun _ _ => True) emptyLedger,
        (∃ r ∈ chain.get (idleAssertion.id L1.hashing), r.status = .finalized ∧ r.postedAt = 0) ∧
        ∃ chain', chain.call L1.hashing (.post idleAssertion) = .ok chain' ∧
          ∃ r ∈ chain'.get (idleAssertion.id L1.hashing), r.status = .pending ∧ r.postedAt = 86400 := by
    decide +kernel
  exact ⟨chain, chain', r, r', run_of_plays ran, known, final, early, again, known', pending, late⟩

end AssertionChain
end Sena.Fraudproof
