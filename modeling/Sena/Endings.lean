import Sena.Clocks
import Sena.Payouts

/-! Every dispute ends.

The clocks of a game run down together by exactly the time that passes up to its
last move, whichever way the turn goes. So when twice a budget has passed since the
opening, the party to move has overdrawn its clock. Its forfeit is accepted then if the
game's challenge stands or the assertion has fallen. That is so while nobody plays one
challenge in two registries at once: the first outcome takes the challenge away, and
the other game has none left to end with. -/
namespace Sena

open Move Assertions Disputes Relation

/-- Nobody opens a game over an assertion while an undecided game of theirs over it
stands in another registry. -/
def Call.OneGame (w : L1) (who : Address) : Call → Prop
  | .openDispute registry assertion => ∀ other d, other ≠ registry →
      w.games ⟨other, disputeId assertion who⟩ = some d → d.stage = .resolved
  | _ => True

/-- The opening of a game. -/
def Call.opens : Call → Bool
  | .openDispute _ _ => true
  | _ => false

namespace L1

variable {crypto : Crypto} {w w' : L1} {who : Address} {c : Call} {g : GameId} {d d' : Dispute}

/-- What the two parties have used of their budgets is the time from the opening to
the last move. -/
structure Timed (opening budget : Nat) (d : Dispute) : Prop where
  defender : d.defenderClock.val ≤ budget
  challenger : d.challengerClock.val ≤ budget
  spent : d.lastMoveAt.val + d.defenderClock.val + d.challengerClock.val = opening + 2 * budget

theorem Timed.opened (opened : Opened crypto w who registry assertion record d) :
    Timed w.now.val (w.chain.challengeWindow.val / CLOCK_BUDGET_DIVISOR) d := by
  obtain ⟨defender, challenger, last, _⟩ := opened.clocks
  have budget : (clockBudget w.chain.challengeWindow).val = w.chain.challengeWindow.val / CLOCK_BUDGET_DIVISOR := rfl
  refine ⟨?_, ?_, ?_⟩
  · rw [defender, budget]
  · rw [challenger, budget]
  · rw [defender, challenger, last, budget]
    omega

/-- A game that is not decided by a call is timed after it if it was before. -/
theorem Timed.plays (timed : Timed opening budget d) (plays : Plays crypto w who c g d d')
    (unresolved : d'.stage ≠ .resolved) : Timed opening budget d' := by
  obtain ⟨defender, challenger, spent⟩ := timed
  cases plays with
  | kept => exact ⟨defender, challenger, spent⟩
  | dissected _ _ dissected =>
    obtain ⟨left, deadline, charged, _, rfl⟩ := dissected.result
    have paid : left.val = d.defenderClock.val - (w.now.val - d.lastMoveAt.val) := charged.left_eq
    have affordable : w.now.val - d.lastMoveAt.val ≤ d.defenderClock.val := charged.affordable
    have since := charged.since
    refine ⟨?_, challenger, ?_⟩
    · dsimp only
      omega
    · dsimp only
      omega
  | selected _ _ selected =>
    obtain ⟨_, left, _, _, _, _, _, _, _, _, _, _, _, charged, _, _, rfl⟩ := selected.result
    have paid : left.val = d.challengerClock.val - (w.now.val - d.lastMoveAt.val) := charged.left_eq
    have affordable : w.now.val - d.lastMoveAt.val ≤ d.challengerClock.val := charged.affordable
    have since := charged.since
    refine ⟨defender, ?_, ?_⟩
    · dsimp only
      omega
    · dsimp only
      omega
  | stepped | timedOut | closed => exact absurd rfl unresolved

theorem timed_of_steps (found : w.games g = some d)
    (timed : d.stage ≠ .resolved → Timed opening budget d) (steps : ReflTransGen (StepWhen crypto allowed) w w') :
    ∃ d', w'.games g = some d' ∧ (d'.stage ≠ .resolved → Timed opening budget d') := by
  induction steps with
  | refl => exact ⟨d, found, timed⟩
  | tail _ last ih =>
    obtain ⟨d₁, found, timed⟩ := ih
    cases last with
    | tick => exact ⟨d₁, found, timed⟩
    | call who c _ _ accepted =>
      obtain ⟨d', found', plays⟩ := (effect_of_call accepted).plays found
      exact ⟨d', found', fun unresolved =>
        (timed fun resolved => unresolved (plays.resolved resolved)).plays plays unresolved⟩

/-- What the outcome of a game can still be applied to: its challenge, or nothing any
more. -/
def Standing (c : Chain) (d : Dispute) : Prop :=
  hasOpenChallenge c d.assertion d.challenger = true ∨ c.Fallen d.assertion

section
variable (playing : Playing crypto w) (found : w.games g = some d) (unresolved : d.stage ≠ .resolved)
include playing found unresolved

theorem resolveInternal_accepts (free : w.chain.Unblocked) (winner : Party) :
    (∃ w', resolveInternal w g winner = .ok w') ↔ Standing w.chain d := by
  have payable := playing.sound.payable free w.now
  constructor
  · rintro ⟨w', resolved⟩
    obtain ⟨d', _, found', _, settles, _⟩ := settles_of_resolveInternal resolved
    obtain rfl : d' = d := by simpa [found] using found'.symm
    cases settles with
    | moot _ recordAt rejected => exact .inr ⟨_, recordAt, rejected⟩
    | won won => exact .inl ((payable.won _ _).mp ⟨_, won⟩)
    | lost lost => exact .inl ((payable.lost _ _).mp ⟨_, lost⟩)
  · intro standing
    obtain ⟨r, recordAt, _, _⟩ := (playing.games g d found).record
    simp only [resolveInternal, disputeView, bind_eq_ok, fetch_eq_ok, game_eq_ok, ensure_eq_ok]
    by_cases rejected : r.status = .rejected
    · exact ⟨_, d, found, (), unresolved, r, recordAt, by rw [if_pos rejected]; rfl⟩
    have opened : hasOpenChallenge w.chain d.assertion d.challenger = true := by
      refine standing.resolve_right ?_
      rintro ⟨r', recordAt', fallen⟩
      rw [recordAt] at recordAt'
      exact rejected (Option.some.inj recordAt' ▸ fallen)
    cases winner with
    | challenger =>
      obtain ⟨chain, won⟩ := (payable.won _ _).mpr opened
      exact ⟨_, d, found, (), unresolved, r, recordAt, by rw [if_neg rejected]; exact bind_eq_ok.mpr ⟨chain, won, rfl⟩⟩
    | defender =>
      obtain ⟨chain, lost⟩ := (payable.lost _ _).mpr opened
      exact ⟨_, d, found, (), unresolved, r, recordAt, by rw [if_neg rejected]; exact bind_eq_ok.mpr ⟨chain, lost, rfl⟩⟩

theorem claimTimeout_accepts (free : w.chain.Unblocked) : (∃ w', claimTimeout w g = .ok w') ↔
    (d.deadline.val < w.now.val ∨ (d.clock d.turn).val < w.now.val - d.lastMoveAt.val) ∧ Standing w.chain d := by
  have since := (playing.games g d found).since
  rw [← resolveInternal_accepts playing found unresolved free d.turn.other]
  have read {w' : L1} : claimTimeout w g = .ok w' ↔ (d.deadline.val < w.now.val ∨
      (d.clock d.turn).val < w.now.val - d.lastMoveAt.val) ∧ resolveInternal w g d.turn.other = .ok w' := by
    simp only [claimTimeout, bind_eq_ok, game_eq_ok, ensure_eq_ok, found, Option.some.injEq, exists_eq_left',
      exists_const, unresolved, ne_eq, not_false_eq_true, true_and]
    split
    · rename_i late
      exact ⟨fun resolved => ⟨.inl late, resolved⟩, fun both => both.2⟩
    · rename_i inTime
      simp only [bind_eq_ok, sub_eq_ok, ensure_eq_ok, exists_const]
      constructor
      · rintro ⟨waited, ⟨_, spent⟩, overdrawn, resolved⟩
        exact ⟨.inr (spent ▸ overdrawn), resolved⟩
      · rintro ⟨due, resolved⟩
        exact ⟨⟨w.now.val - d.lastMoveAt.val, by omega⟩, ⟨since, rfl⟩, due.resolve_left inTime, resolved⟩
  simp only [read, exists_and_left]

end

/-- No challenge is played in two registries, and what is played can be decided. -/
structure Orderly (w : L1) : Prop where
  single : ∀ id a b d d', w.games ⟨a, id⟩ = some d → w.games ⟨b, id⟩ = some d' →
    d.stage ≠ .resolved → d'.stage ≠ .resolved → a = b
  standing : ∀ g d, w.games g = some d → d.stage ≠ .resolved → Standing w.chain d

theorem Orderly.step (orderly : Orderly w) (playing : Playing crypto w)
    (step : StepWhen crypto Call.OneGame w w') : Orderly w' := by
  cases step with
  | tick => exact ⟨orderly.single, orderly.standing⟩
  | call who c encodable one accepted =>
    have effect := effect_of_call accepted
    have named g d found := (playing.games g d found).named
    -- an undecided game was undecided before, or this call opened it
    have before {g : GameId} {d' : Dispute} (found : w'.games g = some d') (open' : d'.stage ≠ .resolved) :
        (∃ d, w.games g = some d ∧ d.stage ≠ .resolved ∧ Plays crypto w who c g d d') ∨
          ∃ assertion record, c = .openDispute g.registry assertion ∧ g.id = disputeId assertion who ∧
            Opened crypto w who g.registry assertion record d' ∧ w'.chain = w.chain := by
      cases known : w.games g with
      | none => exact .inr (effect.opens known found)
      | some d =>
        obtain ⟨d₁, found₁, plays⟩ := effect.plays known
        obtain rfl : d₁ = d' := by simpa [found₁] using found
        exact .inl ⟨d, rfl, fun resolved => open' (plays.resolved resolved), plays⟩
    refine ⟨fun id a b d d' found found' open₁ open₂ => ?_, fun g d' found open' => ?_⟩
    · by_contra apart
      rcases before found open₁ with ⟨x, old, undecided, _⟩ | ⟨assertion, _, rfl, rfl, _⟩
      · rcases before found' open₂ with ⟨y, old', undecided', _⟩ | ⟨assertion, _, rfl, rfl, _⟩
        · exact apart (orderly.single id a b x y old old' undecided undecided')
        · exact undecided (one a x apart old)
      · rcases before found' open₂ with ⟨y, old', undecided', _⟩ | ⟨_, _, same, _⟩
        · exact undecided' (one b y (Ne.symm apart) old')
        · cases same
          exact apart rfl
    · rcases before found open' with ⟨d, old, undecided, plays⟩ | ⟨assertion, record, _, _, opened, same⟩
      · have game := playing.games g d old
        obtain ⟨assertion, challenger, -⟩ := plays.parties game.shape
        rw [Standing, assertion, challenger]
        rcases orderly.standing g d old undecided with standing | fallen
        · rcases effect.standing named standing with still | fallen | ⟨other, x, y, old', undecided', found', resolved⟩
          · exact .inl still
          · exact .inr fallen
          · -- the game that was decided is this one
            rw [← game.named] at old' found'
            obtain rfl := orderly.single g.id other g.registry x d old' old undecided' undecided
            exact absurd ((Option.some.inj (found'.symm.trans found)) ▸ resolved) open'
        · exact .inr (fallen.evolve (evolves_of_moves (effect.moves encodable)))
      · rw [Standing, same, opened.parties.1, opened.parties.2.2]
        exact .inl opened.challenging

theorem orderly_of_deploy (deployed : deploy crypto plan start = .ok w) : Orderly w := by
  have none' := (deploy_eq_ok deployed).2.2.1
  exact ⟨fun id a b d d' found => by simp [none'] at found, fun g d found => by simp [none'] at found⟩

theorem orderly_of_steps (playing : Playing crypto w) (orderly : Orderly w)
    (steps : ReflTransGen (StepWhen crypto Call.OneGame) w w') : Orderly w' := by
  induction steps with
  | refl => exact orderly
  | tail before last ih => exact ih.step (playing.steps before) last

/-- Where nobody plays one challenge in two registries at once, a dispute opened at
`w.now` takes its time from two budgets of a quarter of the window, and later than that
anyone can end it. -/
theorem dispute_ends_within_half_the_window {plan : Deployment} (deployed : deploy crypto plan time = .ok start)
    (earlier : ReflTransGen (StepWhen crypto Call.OneGame) start w)
    (single : Call.OneGame w who (.openDispute registry assertion))
    (opened : w.call crypto who (.openDispute registry assertion) = .ok w₁)
    (steps : ReflTransGen (StepWhen crypto Call.OneGame) w₁ w')
    (found : w'.games ⟨registry, disputeId assertion who⟩ = some d) (unresolved : d.stage ≠ .resolved) :
    let budget := w.chain.challengeWindow.val / 4
    (d.defenderClock.val ≤ budget ∧ d.challengerClock.val ≤ budget ∧ w.now.val ≤ d.lastMoveAt.val ∧
      (budget - d.defenderClock.val) + (budget - d.challengerClock.val) = d.lastMoveAt.val - w.now.val) ∧
    (w'.chain.Unblocked → w.now.val + 2 * budget < w'.now.val → ∀ anyone, ∃ w'' d',
      w'.call crypto anyone (.claimTimeout ⟨registry, disputeId assertion who⟩) = .ok w'' ∧
        w''.games ⟨registry, disputeId assertion who⟩ = some d' ∧ d'.stage = .resolved) := by
  intro budget
  have step : StepWhen crypto Call.OneGame w w₁ := .call who (.openDispute registry assertion) trivial single opened
  have run := (earlier.tail step).trans steps
  have playing : Playing crypto w' := (playing_of_deploy deployed).steps run
  have orderly : Orderly w' := orderly_of_steps (playing_of_deploy deployed) (orderly_of_deploy deployed) run
  obtain ⟨record, d₁, game, wrote, -⟩ := opened_of_call opened
  obtain ⟨d', found', timed⟩ :=
    timed_of_steps (by rw [wrote, Function.update_self]) (fun _ => Timed.opened game) steps
  obtain rfl : d = d' := by simpa [found] using found'
  obtain ⟨defender, challenger, spent⟩ := timed unresolved
  have quarter : w.chain.challengeWindow.val / CLOCK_BUDGET_DIVISOR = budget := rfl
  rw [quarter] at defender challenger spent
  refine ⟨⟨defender, challenger, by omega, by omega⟩, fun free late anyone => ?_⟩
  have overdrawn : (d.clock d.turn).val < w'.now.val - d.lastMoveAt.val := by
    cases d.turn with
    | defender =>
      change d.defenderClock.val < _
      omega
    | challenger =>
      change d.challengerClock.val < _
      omega
  obtain ⟨w'', claimed⟩ := (claimTimeout_accepts playing found unresolved free).mpr
    ⟨.inr overdrawn, orderly.standing _ d found unresolved⟩
  obtain ⟨d₂, chain, found₂, _, _, _, rfl⟩ := settles_of_claimTimeout claimed
  exact ⟨_, _, claimed, by rw [games_settled found₂, Function.update_self], rfl⟩

theorem games_of_steps (none' : w.games = fun _ => none)
    (steps : ReflTransGen (StepWhen crypto fun _ _ c => c.opens = false) w w') : w'.games = fun _ => none := by
  induction steps with
  | refl => exact none'
  | tail _ last ih =>
    cases last with
    | tick => exact ih
    | call who c _ quiet accepted =>
      funext g
      by_contra played
      obtain ⟨d, found⟩ := Option.ne_none_iff_exists'.mp played
      obtain ⟨_, _, rfl, _⟩ := (effect_of_call accepted).opens (congrFun ih g) found
      cases quiet

/-- An assertion of two steps, and a challenge against it. -/
def challengeScript : List (L1 → Event) :=
  [fun w => .call (.fill 32 2) w.twoSteps, fun w => .call (.fill 32 3) (.openChallenge (w.idAt 1) 0)]

/-- A game that nobody plays can be ended one second after both budgets. -/
theorem idle_game_is_ended : ∃ w w₁ w'' d d', Reachable hashing floorDeployment w ∧ w.now = 0 ∧
    w.call hashing (.fill 32 3) (.openDispute (.fill 32 1) (w.idAt 1)) = .ok w₁ ∧
    w₁.games w.gameKey = some d ∧ d.stage ≠ .resolved ∧
    { w₁ with now := 43201 }.call hashing (.fill 32 9) (.claimTimeout w.gameKey) = .ok w'' ∧
    w''.games w.gameKey = some d' ∧ d'.stage = .resolved := by
  obtain ⟨w, played, zero, window, w₁, opened, d, found, unresolved⟩ :
      ∃ w ∈ scenario (fun _ _ c => c.opens = false) hashing floorDeployment 0 challengeScript,
        w.now = 0 ∧ w.chain.challengeWindow = 86400 ∧
        ∃ w₁, w.call hashing (.fill 32 3) (.openDispute (.fill 32 1) (w.idAt 1)) = .ok w₁ ∧
          ∃ d ∈ w₁.games w.gameKey, d.stage ≠ .resolved := by
    decide +kernel
  obtain ⟨start, deployed, steps⟩ := steps_of_scenario played
  have now : w₁.now = 0 := (effect_of_call opened).now.trans zero
  have quiet {w : L1} {who : Address} {c : Call} (none' : c.opens = false) : c.OneGame w who := by
    cases c with
    | openDispute => cases none'
    | _ => trivial
  have earlier : ReflTransGen (StepWhen hashing Call.OneGame) start w :=
    ReflTransGen.mono (fun _ _ step => step.mono fun _ _ _ => quiet) _ _ steps
  have single : Call.OneGame w (.fill 32 3) (.openDispute (.fill 32 1) (w.idAt 1)) := by
    intro other d' _ found'
    simp [games_of_steps (deploy_eq_ok deployed).2.2.1 steps] at found'
  have tick : StepWhen hashing Call.OneGame w₁ { w₁ with now := 43201 } := .tick 43201 (by rw [now]; decide)
  have ends := dispute_ends_within_half_the_window deployed earlier single opened (.single tick) found unresolved
  have late : w.now.val + 2 * (w.chain.challengeWindow.val / 4) < (43201 : U64).val := by
    rw [zero, window]
    decide
  have reachable : Reachable hashing floorDeployment w :=
    ⟨0, start, deployed, ReflTransGen.mono (fun _ _ step => step.mono fun _ _ _ _ => trivial) _ _ steps⟩
  have free : w₁.chain.Unblocked :=
    unblocked_of_steps deployed (earlier.tail (.call _ (.openDispute _ _) trivial single opened)) fun _ _ => rfl
  obtain ⟨w'', d', claimed, found', resolved⟩ := ends.2 free late (.fill 32 9)
  exact ⟨w, w₁, w'', d, d', reachable, zero, opened, found, unresolved, claimed, found', resolved⟩

/-- Account 3 plays its challenge in the deployer's registry and in one of its own. It
loses the first game by its clock, and the assertion is finalized. -/
def twoGamesScript : List (L1 → Event) :=
  challengeScript ++
  [fun _ => .call (.fill 32 3) (.initializeRegistry 0),
   fun w => .call (.fill 32 3) (.openDispute (.fill 32 1) (w.idAt 1)),
   fun w => .call (.fill 32 3) (.openDispute (.fill 32 3) (w.idAt 1)),
   fun w => .call (.fill 32 2) (.dissect w.gameKey [[]]),
   fun _ => .tick 21601,
   fun w => .call (.fill 32 2) (.claimTimeout w.gameKey),
   fun _ => .tick 86400,
   fun w => .call (.fill 32 2) (.finalize (w.idAt 1))]

/-- The game in the other registry is due since long and can never be ended. -/
theorem second_game_is_never_ended : ∃ (w : L1) (g : GameId) (d : Dispute), Reachable hashing floorDeployment w ∧
    w.games g = some d ∧ d.stage ≠ .resolved ∧ d.lastMoveAt = 0 ∧ w.chain.challengeWindow = 86400 ∧
    43200 < w.now.val ∧ ∀ w', ReflTransGen (Step hashing) w w' → ∀ anyone w'',
      w'.call hashing anyone (.claimTimeout g) ≠ .ok w'' := by
  obtain ⟨w, played, d, found, unresolved, opening, window, late, r, recordAt, final⟩ :
      ∃ w ∈ scenario (fun _ _ _ => True) hashing floorDeployment 0 twoGamesScript,
        ∃ d ∈ w.games ⟨.fill 32 3, w.gameKey.id⟩, d.stage ≠ .resolved ∧ d.lastMoveAt = 0 ∧
          w.chain.challengeWindow = 86400 ∧ 43200 < w.now.val ∧
          ∃ r ∈ w.chain.assertions d.assertion, r.status = .finalized := by
    decide +kernel
  have reachable := reachable_of_scenario played
  refine ⟨w, _, d, reachable, found, unresolved, opening, window, late, fun w' steps anyone w'' claimed => ?_⟩
  -- the game stays over this assertion, and the assertion stays final
  obtain ⟨d₁, _, found₁, _, _, settles, _⟩ := settles_of_claimTimeout claimed
  obtain ⟨r', recordAt', updates⟩ := (evolves_of_moves (moves_of_steps steps)).records _ r recordAt
  obtain rfl := updates.settled (.inl final)
  have same : d₁.assertion = d.assertion := by
    have named := ((reachable.playing.steps steps).games _ _ found₁).named
    rw [(reachable.playing.games _ _ found).named] at named
    exact (disputeId_inj.mp named).1.symm
  rw [← same] at recordAt'
  generalize d₁.turn.other = winner at settles
  cases settles with
  | moot _ fallenAt rejected =>
    cases recordAt'.symm.trans fallenAt
    cases final.symm.trans rejected
  | won won =>
    obtain ⟨_, _, _, ⟨openAt, live, _⟩, _⟩ := rejected_of_challengerWon won
    cases recordAt'.symm.trans openAt
    simp [final] at live
  | lost lost =>
    obtain ⟨_, openAt, live, _⟩ := defended_of_defenderWon lost
    cases recordAt'.symm.trans openAt
    cases final.symm.trans live

/-- The player to move in an undecided game can be timed out exactly when its time is
over and the outcome can be applied, and the other party wins then. -/
theorem timeout_is_accepted_iff_due {plan : Deployment} (reachable : Reachable crypto plan w)
    (free : w.chain.Unblocked) (found : w.games g = some d) (unresolved : d.stage ≠ .resolved) (who : Address) :
    ((∃ w', w.call crypto who (.claimTimeout g) = .ok w') ↔
      (d.deadline.val < w.now.val ∨ (d.clock d.turn).val < w.now.val - d.lastMoveAt.val) ∧
        Standing w.chain d) ∧
    ∀ w', w.call crypto who (.claimTimeout g) = .ok w' →
      w'.games = Function.update w.games g (some (d.resolve d.turn.other)) := by
  refine ⟨claimTimeout_accepts reachable.playing found unresolved free, fun w' claimed => ?_⟩
  obtain ⟨d', _, found', _, _, _, rfl⟩ := settles_of_claimTimeout claimed
  obtain rfl : d' = d := by simpa [found] using found'.symm
  exact games_settled found

theorem opened_spec : ∃ w d, Reachable hashing floorDeployment w ∧ w.games w.gameKey = some d ∧
    d.stage = .bisecting ∧ w.now = 0 := by
  obtain ⟨w, played, d, found, stage, now⟩ : ∃ w ∈ scenario (fun _ _ _ => True) hashing floorDeployment 0
      (challengeScript ++ [fun w => .call (.fill 32 3) (.openDispute (.fill 32 1) (w.idAt 1))]),
      ∃ d ∈ w.games w.gameKey, d.stage = .bisecting ∧ w.now = 0 := by
    decide +kernel
  exact ⟨w, d, reachable_of_scenario played, found, stage, now⟩

/-- Nobody can be timed out in it. -/
theorem opened_game_is_in_time : ∃ (w : L1) (d : Dispute), w.games w.gameKey = some d ∧ d.stage = .bisecting ∧
    ¬∃ w', w.call hashing (.fill 32 9) (.claimTimeout w.gameKey) = .ok w' := by
  obtain ⟨w, d, reachable, found, stage, zero⟩ := opened_spec
  refine ⟨w, d, found, stage, fun accepted => ?_⟩
  have due := (timeout_is_accepted_iff_due reachable (reachable.unblocked fun _ _ => rfl) found
    (by simp [stage]) _).1.mp accepted
  simp [zero] at due

/-- A game is always between the proposer of an assertion and somebody else, over steps of
that assertion's trace, and waits for one of the two. Its challenge stands while it is
undecided, unless the assertion fell or the challenge was decided in another registry. -/
theorem games_stay_well_formed {plan : Deployment} (reachable : Reachable crypto plan w)
    (found : w.games g = some d) : GameSound w g d :=
  reachable.playing.games g d found

theorem opened_game_is_well_formed : ∃ (w : L1) (d : Dispute), w.games w.gameKey = some d ∧ d.stage = .bisecting ∧
    GameSound w w.gameKey d := by
  obtain ⟨w, d, reachable, found, stage, -⟩ := opened_spec
  exact ⟨w, d, found, stage, games_stay_well_formed reachable found⟩

end L1
end Sena
