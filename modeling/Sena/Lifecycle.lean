import Sena.Clocks
import Sena.Finality

/-! The life of an assertion.

A rejection is followed by one pass over the posting order, not by a search of
the tree. One pass is enough because a child stands after its parent: when the
pass reaches an assertion, everything above it has been dealt with. -/
namespace Sena.Assertions

open Move Relation

variable {c c' : Chain} {key : Bytes} {r record written : Assertion}

theorem isRejected_iff : isRejected c key = true ↔ ∃ p, c.assertions key = some p ∧ p.status = .rejected := by
  unfold isRejected
  cases c.assertions key <;> simp

/-- Of the first `n` assertions, none but genesis outlives its parent. -/
def ClosedBelow (c : Chain) (n : Nat) : Prop :=
  ∀ i key r, i + 1 < n → c.order[i + 1]? = some key → c.assertions key = some r →
    isRejected c r.parent = true → r.status = .rejected

/-- No assertion but genesis outlives its parent. -/
def Closed (c : Chain) : Prop :=
  ∀ i key r, c.order[i + 1]? = some key → c.assertions key = some r →
    isRejected c r.parent = true → r.status = .rejected

theorem isRejected_write (wrote : c'.assertions = Function.update c.assertions key (some written))
    (apart : other ≠ key) : isRejected c' other = isRejected c other := by
  simp [isRejected, wrote, apart]

/-- A turn of the sweep settles the assertion it looks at, and none before it. -/
theorem closedBelow_of_sweep (ordered : Ordered c) (closed : ClosedBelow c n)
    (listed : c.order[n]? = some key) (swept : sweep c key = .ok c') : ClosedBelow c' (n + 1) := by
  obtain ⟨record, recordAt, ⟨rfl, left⟩ | ⟨_, rejected, _⟩⟩ := rejected_of_sweep swept
  · intro i other r below listed' found fallen
    rcases Nat.lt_or_ge (i + 1) n with earlier | here
    · exact closed i other r earlier listed' found fallen
    · obtain rfl : i + 1 = n := by omega
      obtain rfl : key = other := by simpa [listed] using listed'
      obtain rfl : record = r := by simpa [recordAt] using found
      -- it is settled, and what is final stands on something final
      rcases left fallen with status | status
      · exact status
      · obtain ⟨_, p, _, _, parentAt, final⟩ := ordered.parents i key record listed recordAt
        obtain ⟨p', parentAt', down⟩ := isRejected_iff.mp fallen
        obtain rfl : p = p' := by simpa [parentAt] using parentAt'
        rw [final status] at down
        cases down
  · obtain ⟨_, _, _, _, _, _, rfl⟩ := rejected
    intro i other r below listed' found fallen
    change c.order[i + 1]? = some other at listed'
    rcases Nat.lt_or_ge (i + 1) n with earlier | here
    · have inside := (List.getElem?_eq_some_iff.mp listed').1
      have apart : other ≠ key := by
        rintro rfl
        have := (List.getElem?_inj inside ordered.nodup).mp (listed'.trans listed.symm)
        omega
      have found : c.assertions other = some r := by simpa [reject, apart] using found
      obtain ⟨j, p, before, parentAt, _⟩ := ordered.parents i other r listed' found
      have above : r.parent ≠ key := by
        intro same
        have bound := (List.getElem?_eq_some_iff.mp parentAt).1
        have := (List.getElem?_inj bound ordered.nodup).mp (parentAt.trans (same ▸ listed.symm))
        omega
      rw [isRejected_write rfl above] at fallen
      exact closed i other r earlier listed' found fallen
    · obtain rfl : i + 1 = n := by omega
      obtain rfl : key = other := by simpa [listed] using listed'
      obtain rfl : _ = r := by simpa [reject] using found
      rfl

theorem closedBelow_of_sweeps {candidates : List Bytes} (ordered : Ordered c) (closed : ClosedBelow c n)
    (left : c.order.drop n = candidates) (swept : candidates.foldlM sweep c = .ok c') : Closed c' := by
  induction candidates generalizing c n with
  | nil =>
    cases swept
    intro i key r listed
    have inside := (List.getElem?_eq_some_iff.mp listed).1
    have short := List.drop_eq_nil_iff.mp left
    exact closed i key r (by omega) listed
  | cons candidate rest ih =>
    rw [List.foldlM_cons, bind_eq_ok] at swept
    obtain ⟨middle, first, others⟩ := swept
    have listed : c.order[n]? = some candidate := by
      rw [← List.head?_drop, left]
      rfl
    have next := closedBelow_of_sweep ordered closed listed first
    have left' : c.order.drop (n + 1) = rest := by rw [← List.tail_drop, left, List.tail_cons]
    obtain ⟨record, _, ⟨rfl, _⟩ | ⟨_, rejected, _⟩⟩ := rejected_of_sweep first
    · exact ih ordered next left' others
    · exact ih (rejected.ordered ordered) next (rejected.order ▸ left') others

theorem closed_of_challengerWon (ordered : Ordered c) (accepted : challengerWon c key winner = .ok c') :
    Closed c' := by
  obtain ⟨_, _, _, rejected, _, _, _, swept⟩ := rejected_of_challengerWon accepted
  exact closedBelow_of_sweeps (rejected.ordered ordered) (fun _ _ _ below => absurd below (by omega))
    (List.drop_zero) swept

/-- A write that rejects nothing, over a record that was not rejected. -/
theorem Closed.write (closed : Closed c) (recordAt : c.assertions key = some record) (same : c'.order = c.order)
    (wrote : c'.assertions = Function.update c.assertions key (some written))
    (claim : written.parent = record.parent) (before : record.status ≠ .rejected)
    (after : written.status ≠ .rejected) : Closed c' := by
  have kept : ∀ other, isRejected c' other = isRejected c other := by
    intro other
    by_cases here : other = key
    · subst here
      rw [Bool.eq_iff_iff, isRejected_iff, isRejected_iff]
      simp [wrote, recordAt, before, after]
    · exact isRejected_write wrote here
  intro i other r listed found fallen
  rw [same] at listed
  rw [kept] at fallen
  by_cases here : other = key
  · subst here
    obtain rfl : written = r := by simpa [wrote] using found
    exact absurd (closed i other record listed recordAt (claim ▸ fallen)) before
  · exact closed i other r listed (by simpa [wrote, here] using found) fallen

theorem Closed.posted (closed : Closed c) (ordered : Ordered c)
    (posted : Posted crypto c now proposer args parent txRoot commitment key) :
    Closed (c.posted now proposer args txRoot commitment key) := by
  have apart : ∀ other p, c.assertions other = some p → other ≠ key := by
    rintro other p found rfl
    simp [posted.fresh] at found
  intro i other r listed found fallen
  by_cases here : other = key
  · subst here
    obtain rfl : args.record proposer now txRoot commitment = r := by simpa [Chain.posted] using found
    obtain ⟨p, parentAt, down⟩ := isRejected_iff.mp
      ((isRejected_write rfl (apart _ _ posted.parentAt)).symm.trans fallen)
    obtain rfl : parent = p := by simpa [posted.parentAt] using parentAt
    exact absurd down posted.parentLive
  · have found : c.assertions other = some r := by simpa [Chain.posted, here] using found
    have listed := listed_of_posted listed here
    obtain ⟨_, p, _, _, parentAt, _⟩ := ordered.parents i other r listed found
    exact closed i other r listed found ((isRejected_write rfl (apart _ _ parentAt)).symm.trans fallen)

end Sena.Assertions

namespace Sena.L1

open Move Assertions Disputes Relation

variable {crypto : Crypto} {w w' start : L1} {who : Address} {c : Call}

theorem closed_of_settles {before after : Chain} (ordered : Ordered before) (closed : Closed before)
    (settles : Settles before d winner after) : Closed after := by
  cases settles with
  | moot => exact closed
  | won won => exact closed_of_challengerWon ordered won
  | lost lost =>
    obtain ⟨_, recordAt, challenged, _, _, _, _, count, _, _, _, rfl⟩ := defended_of_defenderWon lost
    refine closed.write recordAt rfl rfl rfl (by simp [challenged]) ?_
    simp only [challenged]
    split <;> simp

theorem Effect.closed (effect : Effect crypto w who c w') (ordered : Ordered w.chain)
    (closed : Closed w.chain) : Closed w'.chain := by
  cases effect with
  | posted posted => exact closed.posted ordered posted
  | challenged challenged =>
    refine closed.write challenged.recordAt rfl rfl rfl ?_ (by simp)
    rcases challenged.live with live | live <;> simp [live]
  | finalized finalized =>
    obtain ⟨recordAt, pending, _, _, _, _, _, rfl⟩ := finalized
    exact closed.write recordAt rfl rfl rfl (by simp [pending]) (by simp)
  | created | worked | opened | dissected | selected => exact closed
  | stepped _ _ _ _ settles => exact closed_of_settles ordered closed settles
  | timedOut _ _ _ settles => exact closed_of_settles ordered closed settles
  | proved _ proved => exact closed_of_challengerWon ordered proved.won

theorem closed_of_steps (sound : Sound crypto start.chain) (closed : Closed start.chain)
    (steps : ReflTransGen (Step crypto) start w) : Closed w.chain := by
  induction steps with
  | refl => exact closed
  | tail earlier last ih =>
    have ordered := (sound_of_moves sound (moves_of_steps earlier)).ordered
    cases last with
    | call who c _ _ accepted => exact (effect_of_call accepted).closed ordered ih
    | tick => exact ih

theorem closed_of_deploy (deployed : deploy crypto d time = .ok start) : Closed start.chain := by
  simp only [deploy, initializeChain, bind_eq_ok, pure_iff, initializeRegistry_eq_ok] at deployed
  obtain ⟨_, ⟨_, _, rfl⟩, _, _, rfl⟩ := deployed
  intro i key r listed
  simp at listed

theorem Reachable.closed (reachable : Reachable crypto d w) : Closed w.chain := by
  obtain ⟨_, _, deployed, steps⟩ := reachable
  exact closed_of_steps (deploy_eq_ok deployed).1 (closed_of_deploy deployed) steps

/-- The moment a run finalized an assertion: its window had passed and nobody was
challenging it. -/
def FinalizedInTime (crypto : Crypto) (start w : L1) (key : Bytes) : Prop :=
  ∃ before after r, ReflTransGen (Step crypto) start before ∧ Step crypto before after ∧
    ReflTransGen (Step crypto) after w ∧ before.chain.assertions key = some r ∧ r.status = .pending ∧
    after.chain.assertions key = some { r with status := .finalized } ∧
    before.chain.openOn key = [] ∧
    before.chain.challengeWindow.val + r.postedAt.val ≤ before.now.val

theorem FinalizedInTime.tail (finalized : FinalizedInTime crypto start w key) (step : Step crypto w w') :
    FinalizedInTime crypto start w' key := by
  obtain ⟨before, after, r, earlier, last, later, rest⟩ := finalized
  exact ⟨before, after, r, earlier, last, later.tail step, rest⟩

theorem finalizedInTime_of_steps (sound : Sound crypto start.chain)
    (steps : ReflTransGen (Step crypto) start w) (new : start.chain.assertions key = none)
    (found : w.chain.assertions key = some r) (final : r.status = .finalized) :
    FinalizedInTime crypto start w key := by
  induction steps generalizing r with
  | refl => simp [new] at found
  | tail earlier last ih =>
    have books := (sound_of_moves sound (moves_of_steps earlier)).books
    have step := last
    cases last with
    | call who c encodable kept accepted =>
      rcases (effect_of_call accepted).finalizes with nothing | ⟨at', record, parent, rfl, finalized⟩
      · exact (ih (nothing key r found final) final).tail step
      · obtain ⟨recordAt, pending, _, _, waited, _, wallets, same⟩ := finalized
        rw [same] at found
        by_cases here : key = at'
        · subst here
          refine ⟨_, _, record, earlier, step, .refl, recordAt, pending, ?_, ?_, waited⟩
          · rw [same]
            exact Function.update_self ..
          · simpa [pending] using books.contested key record recordAt
        · exact (ih (by simpa [here] using found) final).tail step
    | tick => exact (ih found final).tail step

/-- The life of an assertion in any run: it falls with its parent; it is final
only on something final, once its window has passed, unchallenged; what is
settled stays as it is; and its status and counter tell the open challenges. -/
theorem assertions_follow_their_lifecycle (deployed : deploy crypto d time = .ok start)
    (steps : ReflTransGen (Step crypto) start w) :
    (∀ key r, w.chain.assertions key = some r → start.chain.assertions key = none →
      ∃ p, w.chain.assertions r.parent = some p ∧
        (p.status = .rejected → r.status = .rejected) ∧
        (r.status = .finalized → p.status = .finalized ∧ FinalizedInTime crypto start w key)) ∧
    (∀ key r, w.chain.assertions key = some r →
      (r.status = .challenged ↔ w.chain.openOn key ≠ []) ∧
      (r.status = .pending ∨ r.status = .challenged →
        r.openChallenges.val = (w.chain.openOn key).length) ∧
      (r.status = .finalized ∨ r.status = .rejected →
        ∀ w', ReflTransGen (Step crypto) w w' → w'.chain.assertions key = some r)) := by
  have sound := (deploy_eq_ok deployed).1
  have moves := moves_of_steps steps
  have sound' := sound_of_moves sound moves
  refine ⟨fun key r found new => ?_, fun key r found => ⟨sound'.books.contested key r found,
    fun _ => sound'.books.counted key r found, fun settled w' later => ?_⟩⟩
  · obtain ⟨n, listed⟩ := List.getElem?_of_mem ((sound'.ordered.listed key).mpr (by simp [found]))
    cases n with
    | zero =>
      -- the first entry is genesis, and that was deployed
      obtain ⟨first, _, at0, there, _⟩ := sound.ordered.first
      have same := getElem?_of_longer (evolves_of_moves moves).order at0
      obtain rfl : key = first := by simpa [listed] using same
      simp [new] at there
    | succ i =>
      obtain ⟨_, p, _, _, parentAt, final⟩ := sound'.ordered.parents i key r listed found
      refine ⟨p, parentAt, fun fallen => ?_, fun status =>
        ⟨final status, finalizedInTime_of_steps sound steps new found status⟩⟩
      exact closed_of_steps sound (closed_of_deploy deployed) steps i key r listed found (isRejected_iff.mpr ⟨p, parentAt, fallen⟩)
  · obtain ⟨r', found', updates⟩ := (evolves_of_moves (moves_of_steps later)).records key r found
    rwa [updates.settled settled] at found'

/-- An assertion and its child. The defender of the first lets its clock run out
in the dispute of account 3. -/
def fallScript : List (L1 → Event) :=
  [fun w => .call (.fill 32 2) w.twoSteps,
   fun w => .call (.fill 32 4) (w.idle 1 1),
   fun w => .call (.fill 32 3) (.openChallenge (w.idAt 1) 0),
   fun w => .call (.fill 32 3) (.openDispute (.fill 32 1) (w.idAt 1)),
   fun _ => .tick 21601,
   fun w => .call (.fill 32 5) (.claimTimeout w.gameKey)]

theorem child_falls_and_stays_down : ∃ (w : L1) (r : Assertion),
    w.chain.assertions (w.idAt 2) = some r ∧ r.parent = w.idAt 1 ∧ r.status = .rejected ∧
    ∀ w', ReflTransGen (Step hashing) w w' → w'.chain.assertions (w.idAt 2) = some r := by
  obtain ⟨w, played, r, found, parent, fallen⟩ : ∃ w ∈ scenario (fun _ _ _ => True) hashing floorDeployment 0 fallScript,
      ∃ r ∈ w.chain.assertions (w.idAt 2), r.parent = w.idAt 1 ∧ r.status = .rejected := by
    decide +kernel
  obtain ⟨start, deployed, steps⟩ := steps_of_scenario played
  have life := (assertions_follow_their_lifecycle deployed steps).2 _ r found
  exact ⟨w, r, found, parent, fallen, life.2.2 (.inr fallen)⟩

end Sena.L1
