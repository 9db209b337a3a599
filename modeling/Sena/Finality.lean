import Sena.L1Proofs

/-! Finalized assertions and their ancestry.

`finalize` checks that the parent is final, not that it is the parent's only
final child. Where no call finalizes a second child, finalized history is one
chain. -/
namespace Sena.Assertions

open Relation

variable {c c' : Chain}

/-- An assertion of this id is finalized. -/
def Chain.Final (c : Chain) (key : Bytes) : Prop :=
  ∃ r, c.assertions key = some r ∧ r.status = .finalized

/-- A parent link. -/
def Chain.Links (c : Chain) (parent child : Bytes) : Prop :=
  ∃ r, c.assertions child = some r ∧ r.parent = parent

/-- No two finalized assertions have the same parent. -/
def Chain.Unforked (c : Chain) : Prop :=
  ∀ a b ra rb, c.assertions a = some ra → c.assertions b = some rb → ra.status = .finalized →
    rb.status = .finalized → ra.parent = rb.parent → a = b

/-- Any two finalized assertions are related by ancestry, and none share a parent. -/
structure Chain.OneHistory (c : Chain) : Prop where
  related : ∀ a b, c.Final a → c.Final b → ReflTransGen c.Links a b ∨ ReflTransGen c.Links b a
  unforked : c.Unforked

/-- A parent link between finalized assertions. -/
def Chain.FinalLink (c : Chain) (parent child : Bytes) : Prop := c.Final child ∧ c.Links parent child

theorem line_of_unforked (ordered : Ordered c) (unforked : c.Unforked) (n : Nat) :
    ∀ i j a b, i + j ≤ n → c.order[i]? = some a → c.order[j]? = some b → c.Final a → c.Final b →
      ReflTransGen c.FinalLink a b ∨ ReflTransGen c.FinalLink b a := by
  induction n with
  | zero =>
    intro i j a b within atA atB _ _
    obtain ⟨rfl, rfl⟩ : i = 0 ∧ j = 0 := by omega
    obtain rfl : a = b := by simpa [atA] using atB
    exact .inl .refl
  | succ n ih =>
    -- the older of the two and the younger one's parent are related already
    have younger : ∀ i j a b, i < j → i + j ≤ n + 1 → c.order[i]? = some a → c.order[j]? = some b →
        c.Final a → c.Final b → ReflTransGen c.FinalLink a b ∨ ReflTransGen c.FinalLink b a := by
      intro i j a b before within atA atB finalA finalB
      obtain ⟨j, rfl⟩ : ∃ k, j = k + 1 := ⟨j - 1, by omega⟩
      obtain ⟨rb, foundB, statusB⟩ := finalB
      obtain ⟨k, p, least, atP, foundP, finalP⟩ := ordered.parents j b rb atB foundB
      have link : c.FinalLink rb.parent b := ⟨⟨rb, foundB, statusB⟩, rb, foundB, rfl⟩
      rcases ih i k a rb.parent (by omega) atA atP finalA ⟨p, foundP, finalP statusB⟩ with down | up
      · exact .inl (down.tail link)
      · rcases up.cases_head with rfl | ⟨x, first, rest⟩
        · exact .inl (.single link)
        · obtain ⟨⟨rx, foundX, statusX⟩, rx', foundX', parentX⟩ := first
          obtain rfl : rx = rx' := by simpa [foundX] using foundX'
          obtain rfl := unforked x b rx rb foundX foundB statusX statusB parentX
          exact .inr rest
    intro i j a b within atA atB finalA finalB
    rcases Nat.lt_trichotomy i j with before | rfl | after
    · exact younger i j a b before within atA atB finalA finalB
    · obtain rfl : a = b := by simpa [atA] using atB
      exact .inl .refl
    · exact (younger j i b a after (by omega) atB atA finalB finalA).symm

theorem oneHistory_of_unforked (ordered : Ordered c) (unforked : c.Unforked) : c.OneHistory := by
  refine ⟨fun a b finalA finalB => ?_, unforked⟩
  have listed : ∀ key, c.Final key → ∃ i : Nat, c.order[i]? = some key := by
    rintro key ⟨r, found, _⟩
    exact List.getElem?_of_mem ((ordered.listed key).mpr (by simp [found]))
  obtain ⟨i, atA⟩ := listed a finalA
  obtain ⟨j, atB⟩ := listed b finalB
  have forget : c.FinalLink ≤ c.Links := fun _ _ link => link.2
  rcases line_of_unforked ordered unforked (i + j) i j a b (Nat.le_refl _) atA atB finalA finalB with
    down | up
  · exact .inl (ReflTransGen.mono forget _ _ down)
  · exact .inr (ReflTransGen.mono forget _ _ up)

theorem unrelated_of_siblings (foundA : c.assertions a = some ra) (foundB : c.assertions b = some rb)
    (foundG : c.assertions g = some rg) (parentA : ra.parent = g) (parentB : rb.parent = g)
    (top : c.assertions rg.parent = none) (apart : a ≠ b) : ¬ReflTransGen c.Links a b := by
  have below : a ≠ g := by
    rintro rfl
    obtain rfl : ra = rg := by simpa [foundA] using foundG
    rw [parentA, foundA] at top
    cases top
  have known : a ≠ rg.parent := by
    rintro rfl
    rw [foundA] at top
    cases top
  -- walking up from `b` one passes `g` and then leaves the chain
  intro path
  rcases path.cases_tail with rfl | ⟨x, path, r, found, parent⟩
  · exact apart rfl
  obtain rfl : rb = r := by simpa [foundB] using found
  obtain rfl : g = x := parentB.symm.trans parent
  rcases path.cases_tail with same | ⟨y, path, r, found, parent⟩
  · exact below same.symm
  obtain rfl : rg = r := by simpa [foundG] using found
  obtain rfl : rg.parent = y := parent
  rcases path.cases_tail with same | ⟨_, _, r, found, _⟩
  · exact known same.symm
  · rw [top] at found
    cases found

theorem lone_write {P : Assertion → Prop} {table : Bytes → Option Assertion} {written : Assertion}
    (lone : ∀ a b ra rb, table a = some ra → table b = some rb → P ra → P rb → ra.parent = rb.parent → a = b)
    (alone : ∀ a r, table a = some r → P r → r.parent ≠ written.parent) (a b : Bytes) (ra rb : Assertion)
    (foundA : Function.update table key (some written) a = some ra)
    (foundB : Function.update table key (some written) b = some rb) (holdsA : P ra) (holdsB : P rb)
    (same : ra.parent = rb.parent) : a = b := by
  have cases' {a : Bytes} {r : Assertion} (found : Function.update table key (some written) a = some r) :
      (a = key ∧ r = written) ∨ table a = some r := by
    by_cases here : a = key
    · exact .inl ⟨here, by simpa [here, eq_comm] using found⟩
    · exact .inr (by simpa [here] using found)
  rcases cases' foundA with ⟨rfl, rfl⟩ | oldA
  · rcases cases' foundB with ⟨rfl, rfl⟩ | oldB
    · rfl
    · exact absurd same.symm (alone b rb oldB holdsB)
  · rcases cases' foundB with ⟨rfl, rfl⟩ | oldB
    · exact absurd same (alone a ra oldA holdsA)
    · exact lone a b ra rb oldA oldB holdsA holdsB same

/-- Whatever is finalized afterwards was so before, with the same record. -/
def FinalizesNothing (c c' : Chain) : Prop :=
  ∀ key r, c'.assertions key = some r → r.status = .finalized → c.assertions key = some r

theorem FinalizesNothing.trans (first : FinalizesNothing c c') (second : FinalizesNothing c' c'') :
    FinalizesNothing c c'' :=
  fun key r found final => first key r (second key r found final) final

theorem finalizesNothing_of_write {written : Assertion}
    (wrote : c'.assertions = Function.update c.assertions key (some written))
    (status : written.status ≠ .finalized) : FinalizesNothing c c' := by
  intro other r found final
  rw [wrote] at found
  by_cases here : other = key
  · obtain rfl : written = r := by simpa [here] using found
    exact absurd final status
  · simpa [here] using found

theorem finalizesNothing_of_rejections (rejections : ReflTransGen Rejection c c') : FinalizesNothing c c' := by
  induction rejections with
  | refl => exact fun _ _ found _ => found
  | tail _ last ih =>
    obtain ⟨key, record, _, _, _, _, _, _, rfl⟩ := last
    exact ih.trans (finalizesNothing_of_write rfl (by simp))

theorem finalizesNothing_of_defended (defended : Defended c key loser record c') : FinalizesNothing c c' := by
  obtain ⟨recordAt, contested, _, _, _, _, count, _, _, _, rfl⟩ := defended
  refine finalizesNothing_of_write rfl ?_
  simp only [contested]
  split <;> simp

theorem Chain.Unforked.keep (unforked : c.Unforked) (nothing : FinalizesNothing c c') : c'.Unforked :=
  fun a b ra rb foundA foundB finalA finalB =>
    unforked a b ra rb (nothing a ra foundA finalA) (nothing b rb foundB finalB) finalA finalB

end Sena.Assertions

namespace Sena

open Move Assertions Disputes Relation

/-- A finalize call extends the line: no child of the assertion's parent is
finalized yet. -/
def Call.ExtendsLine (w : L1) (_who : Address) : Call → Prop
  | .finalize key => ∀ sibling ∈ w.chain.order, ∀ r ∈ w.chain.assertions key,
      ∀ s ∈ w.chain.assertions sibling, s.status = .finalized → s.parent ≠ r.parent
  | _ => True

instance (w : L1) (who : Address) : DecidablePred (Call.ExtendsLine w who) := fun c => by
  induction c using Call.casesOn <;>
    first | exact isTrue trivial | exact inferInstanceAs (Decidable (∀ sibling ∈ w.chain.order, _))

namespace L1

variable {crypto : Crypto} {w w' : L1} {who : Address} {c : Call}

theorem finalizesNothing_of_settles (settles : Settles before d winner after) : FinalizesNothing before after := by
  cases settles with
  | moot => exact fun _ _ found _ => found
  | won won => exact finalizesNothing_of_rejections (rejections_of_challengerWon won)
  | lost lost =>
    obtain ⟨_, defended⟩ := defended_of_defenderWon lost
    exact finalizesNothing_of_defended defended

/-- Only a finalize call finalizes anything. -/
theorem Effect.finalizes (effect : Effect crypto w who c w') :
    FinalizesNothing w.chain w'.chain ∨ ∃ key record parent, c = .finalize key ∧
      Finalized w.chain w.now key record parent w'.chain := by
  cases effect with
  | posted posted => exact .inl (finalizesNothing_of_write rfl (by simp [Posting.record]))
  | challenged challenged => exact .inl (finalizesNothing_of_write rfl (by simp))
  | finalized finalized => exact .inr ⟨_, _, _, rfl, finalized⟩
  | created | worked | opened | dissected | selected => exact .inl fun _ _ found _ => found
  | stepped _ _ _ _ settles => exact .inl (finalizesNothing_of_settles settles)
  | timedOut _ _ _ settles => exact .inl (finalizesNothing_of_settles settles)
  | proved _ proved => exact .inl (finalizesNothing_of_rejections (rejections_of_challengerWon proved.won))

theorem unforked_of_step (sound : Sound crypto w.chain) (unforked : w.chain.Unforked)
    (step : StepWhen crypto Call.ExtendsLine w w') : w'.chain.Unforked := by
  cases step with
  | tick => exact unforked
  | call who c encodable extends' accepted =>
    rcases (effect_of_call accepted).finalizes with nothing | ⟨key, record, parent, rfl, finalized⟩
    · exact unforked.keep nothing
    obtain ⟨recordAt, _, _, _, _, _, _, after⟩ := finalized
    -- the one new final assertion has no final sibling; all others are as before
    rw [Chain.Unforked, after]
    exact lone_write unforked fun sibling s found final =>
      extends' sibling ((sound.ordered.listed sibling).mpr (by simp [found])) record recordAt s found final

theorem unforked_of_deploy (deployed : deploy crypto d start = .ok w) : w.chain.Unforked := by
  simp only [deploy, initializeChain, bind_eq_ok, pure_iff, initializeRegistry_eq_ok] at deployed
  obtain ⟨_, ⟨key, _, rfl⟩, _, _, rfl⟩ := deployed
  have only : ∀ a r, Function.update (fun _ => none) key (some (genesis d.admin d.genesisRoot)) a =
      some r → a = key := by
    intro a r found
    by_contra elsewhere
    simp [elsewhere] at found
  intro a b ra rb foundA foundB _ _ _
  rw [only a ra foundA, only b rb foundB]

/-- Where every accepted finalization extends the line, finalized history is one
chain in every state reached. -/
theorem finalized_history_is_one_chain (deployed : deploy crypto d start = .ok w)
    (run : ReflTransGen (StepWhen crypto Call.ExtendsLine) w w') : w'.chain.OneHistory := by
  have both : Sound crypto w'.chain ∧ w'.chain.Unforked := by
    induction run with
    | refl => exact ⟨(deploy_eq_ok deployed).1, unforked_of_deploy deployed⟩
    | tail _ last ih => exact ⟨sound_of_moves ih.1 last.moves, unforked_of_step ih.1 ih.2 last⟩
  exact oneHistory_of_unforked both.1.ordered both.2

/-- Whether the assertion posted at `index` is finalized, and on which parent. -/
def finalOn (w : L1) (index parent : Nat) : Bool :=
  (w.chain.assertions (w.idAt index)).any fun r => r.status = .finalized ∧ r.parent = w.idAt parent

/-- Two assertions, the second on the first, finalized in turn. -/
def lineScript : List (L1 → Event) :=
  [fun w => .call (.fill 32 2) (w.idle 0 0),
   fun w => .call (.fill 32 3) (w.idle 1 1),
   fun _ => .tick 86400,
   fun w => .call (.fill 32 2) (.finalize (w.idAt 1)),
   fun w => .call (.fill 32 4) (.finalize (w.idAt 2))]

theorem line_of_two_is_one_chain : ∃ w, scenario Call.ExtendsLine hashing floorDeployment 0 lineScript =
    some w ∧ w.finalOn 1 0 = true ∧ w.finalOn 2 1 = true ∧ w.chain.OneHistory := by
  obtain ⟨w, played, first, second⟩ : ∃ w ∈ scenario Call.ExtendsLine hashing floorDeployment 0 lineScript,
      w.finalOn 1 0 = true ∧ w.finalOn 2 1 = true := by
    decide +kernel
  obtain ⟨start, deployed, steps⟩ := steps_of_scenario played
  exact ⟨w, played, first, second, finalized_history_is_one_chain deployed steps⟩

/-- Two assertions on genesis that differ in their bond. Nobody challenges them,
and both are finalized. -/
def siblingScript : List (L1 → Event) :=
  [fun w => .call (.fill 32 2) (w.idle 0 0),
   fun w => .call (.fill 32 3) (w.idle 0 1),
   fun _ => .tick 86400,
   fun w => .call (.fill 32 2) (.finalize (w.idAt 1)),
   fun w => .call (.fill 32 3) (.finalize (w.idAt 2))]

theorem siblings_both_finalized : ∃ w a b, Reachable hashing floorDeployment w ∧
    w.chain.Final a ∧ w.chain.Final b ∧ a ≠ b ∧ (∃ p, w.chain.Links p a ∧ w.chain.Links p b) ∧
    ¬ReflTransGen w.chain.Links a b ∧ ¬ReflTransGen w.chain.Links b a := by
  obtain ⟨w, played, ⟨ra, foundA, finalA, parentA⟩, ⟨rb, foundB, finalB, parentB⟩, apart, g, foundG, top⟩ :
      ∃ w ∈ scenario (fun _ _ _ => True) hashing floorDeployment 0 siblingScript,
        (∃ r ∈ w.chain.assertions (w.idAt 1), r.status = .finalized ∧ r.parent = w.idAt 0) ∧
        (∃ r ∈ w.chain.assertions (w.idAt 2), r.status = .finalized ∧ r.parent = w.idAt 0) ∧ w.idAt 1 ≠ w.idAt 2 ∧
        ∃ g ∈ w.chain.assertions (w.idAt 0), w.chain.assertions g.parent = none := by
    decide +kernel
  exact ⟨w, w.idAt 1, w.idAt 2, reachable_of_scenario played, ⟨ra, foundA, finalA⟩, ⟨rb, foundB, finalB⟩,
    apart, ⟨w.idAt 0, ⟨ra, foundA, parentA⟩, rb, foundB, parentB⟩,
    unrelated_of_siblings foundA foundB foundG parentA parentB top apart,
    unrelated_of_siblings foundB foundA foundG parentB parentA top apart.symm⟩

end L1
end Sena
