import Sena.L1Proofs

/-! The clocks of a dispute.

Every move sets the deadline from the clock of the party whose turn comes next.
A selection that narrows the game to one step keeps the turn with the challenger
after the deadline was set for the defender, so there the deadline is the
challenger's own only if both have the same time left. -/
namespace Sena.Disputes

open Move

/-- The deadline is the mover's own: its last move plus the smaller of the move
timeout and what is left of its clock. -/
def Dispute.OwnDeadline (d : Dispute) : Prop :=
  d.deadline.val = d.lastMoveAt.val + min MOVE_TIMEOUT.val (d.clock d.turn).val

instance : DecidablePred Dispute.OwnDeadline := fun d =>
  inferInstanceAs (Decidable (d.deadline.val = d.lastMoveAt.val + min MOVE_TIMEOUT.val (d.clock d.turn).val))

theorem allowance_val (budget : U64) : (allowance budget).val = min MOVE_TIMEOUT.val budget.val := by
  unfold allowance
  split <;> omega

theorem Opened.ownDeadline (opened : Opened crypto w who registry assertion record d) : d.OwnDeadline := by
  obtain ⟨defender, challenger, last, deadline⟩ := opened.clocks
  have clock : d.clock d.turn = clockBudget w.chain.challengeWindow := by
    cases d.turn
    · exact defender
    · exact challenger
  rw [Dispute.OwnDeadline, clock, last, deadline, allowance_val]

theorem Dissected.ownDeadline (dissected : Dissected d now commitments d') : d'.OwnDeadline := by
  obtain ⟨left, deadline, charged, set, rfl⟩ := dissected.result
  rw [Dispute.OwnDeadline, set, allowance_val]
  rfl

/-- Whether selecting a segment leaves one step. -/
def Dispute.narrows (d : Dispute) (index : Nat) : Bool :=
  match boundaries d.lo d.hi with
  | .error _ => false
  | .ok bounds =>
    match bounds[index]?, bounds[index + 1]? with
    | some lo, some hi => hi.val - lo.val = 1
    | _, _ => false

theorem Selected.ownDeadline_iff (selected : Selected d now index d') : d'.OwnDeadline ↔
    (d.narrows index = true → min MOVE_TIMEOUT.val d.defenderClock.val =
      min MOVE_TIMEOUT.val (d.challengerClock.val - (now.val - d.lastMoveAt.val))) := by
  obtain ⟨bounds, left, deadline, lo, hi, _, _, bounded, _, loAt, hiAt, _, _, charged, _, set, rfl⟩ :=
    selected.result
  have spent : left.val = d.challengerClock.val - (now.val - d.lastMoveAt.val) := charged.left_eq
  have narrows : d.narrows index = decide (hi.val - lo.val = 1) := by
    simp [Dispute.narrows, bounded, loAt, hiAt]
  rw [allowance_val] at set
  rw [narrows, decide_eq_true_eq]
  by_cases one : hi.val - lo.val = 1
  · simp only [Dispute.OwnDeadline, one, if_true, Dispute.clock, set, spent, true_implies]
    omega
  · simp [Dispute.OwnDeadline, one, Dispute.clock, set]

end Sena.Disputes

namespace Sena

open Move Assertions Disputes Relation

/-- A selection that leaves one step is made when both parties have the same
allowance left. -/
def Call.EvenAtOneStep (w : L1) (_who : Address) : Call → Prop
  | .select game index => ∀ d ∈ w.games game, d.narrows index.val = true →
      min MOVE_TIMEOUT.val d.defenderClock.val =
        min MOVE_TIMEOUT.val (d.challengerClock.val - (w.now.val - d.lastMoveAt.val))
  | _ => True

instance (w : L1) (who : Address) : DecidablePred (Call.EvenAtOneStep w who) := fun c => by
  induction c using Call.casesOn <;> first | exact isTrue trivial | exact inferInstanceAs (Decidable (∀ d ∈ w.games _, _))

namespace L1

variable {crypto : Crypto} {w w' : L1} {who : Address} {c : Call}

/-- In every unresolved dispute the deadline is the mover's own, and a timeout can
be claimed against a party only after it let its own allowance pass. -/
structure OwnClocks (crypto : Crypto) (w : L1) : Prop where
  deadlines : ∀ g d, w.games g = some d → d.stage ≠ .resolved → d.OwnDeadline
  timeouts : ∀ g d who w', w.games g = some d →
    w.call crypto who (.claimTimeout g) = .ok w' →
      min MOVE_TIMEOUT.val (d.clock d.turn).val < w.now.val - d.lastMoveAt.val

section
variable (deadlines : ∀ g d, w.games g = some d → d.stage ≠ .resolved → d.OwnDeadline)
include deadlines

theorem ownClocks_of_deadlines : w.OwnClocks crypto := by
  refine ⟨deadlines, fun g d who w' found accepted => ?_⟩
  obtain ⟨d', _, found', unresolved, late, _⟩ := settles_of_claimTimeout accepted
  obtain rfl : d = d' := by simpa [found] using found'
  have own := deadlines g d found unresolved
  rw [Dispute.OwnDeadline] at own
  omega

theorem deadlines_of_write {after : GameId → Option Dispute}
    (wrote : after = Function.update w.games g (some written))
    (own : written.stage ≠ .resolved → written.OwnDeadline) :
    ∀ other d, after other = some d → d.stage ≠ .resolved → d.OwnDeadline := by
  intro other d found unresolved
  rw [wrote] at found
  by_cases here : other = g
  · obtain rfl : written = d := by simpa [here] using found
    exact own unresolved
  · exact deadlines other d (by simpa [here] using found) unresolved

end

theorem deadlines_of_effect (effect : Effect crypto w who c w') (even : c.EvenAtOneStep w who)
    (deadlines : ∀ g d, w.games g = some d → d.stage ≠ .resolved → d.OwnDeadline) :
    ∀ g d, w'.games g = some d → d.stage ≠ .resolved → d.OwnDeadline := by
  cases effect with
  | posted | challenged | finalized => exact deadlines
  | created fresh => rwa [games_created fresh]
  | worked known => rwa [games_worked known]
  | opened opened =>
    obtain ⟨_, known⟩ := opened.created
    exact deadlines_of_write deadlines (games_withGame known) fun _ => opened.ownDeadline
  | dissected found _ dissected =>
    exact deadlines_of_write deadlines (games_rewrite found) fun _ => dissected.ownDeadline
  | selected found _ _ selected =>
    exact deadlines_of_write deadlines (games_rewrite found) fun _ => selected.ownDeadline_iff.mpr (even _ found)
  | stepped found => exact deadlines_of_write deadlines (games_settled found) fun open' => absurd rfl open'
  | timedOut found => exact deadlines_of_write deadlines (games_settled found) fun open' => absurd rfl open'
  | @proved registry assertion _ _ _ proved =>
    obtain ⟨c', _, rfl⟩ := proved.result
    rcases closeGame_cases { w with chain := c' } ⟨registry, disputeId assertion who⟩ with
      ⟨_, same⟩ | ⟨d, found, closed⟩
    · rw [same]
      exact deadlines
    · exact deadlines_of_write deadlines (closed ▸ games_rewrite found) fun open' => absurd rfl open'

/-- Where every selection that leaves one step is made with equal allowances, each
party keeps its own clock in every state reached. -/
theorem parties_keep_their_own_clock (deployed : deploy crypto d start = .ok w)
    (run : ReflTransGen (StepWhen crypto Call.EvenAtOneStep) w w') : w'.OwnClocks crypto := by
  refine ownClocks_of_deadlines ?_
  induction run with
  | refl =>
    intro g d found
    simp [(deploy_eq_ok deployed).2.2.1] at found
  | tail _ last ih =>
    cases last with
    | tick => exact ih
    | call who c _ even accepted => exact deadlines_of_effect (effect_of_call accepted) even ih

/-- One transaction, said to take `length` steps. -/
def lasting (length : U64) (w : L1) : Call := .post {
  parent := w.idAt 0
  preStateRoot := TrieVerifier.zero
  postStateRoot := TrieVerifier.zero
  timestamp := w.now
  baseFee := 0
  feeRecipient := TrieVerifier.zero
  txBytes := [[]]
  txStarts := [0]
  traceLength := length
  bond := 0 }

def twoSteps (w : L1) : Call := w.lasting 2

/-- The game of account 3 against the assertion posted first, in the deployer's registry. -/
def gameKey (w : L1) : GameId := ⟨.fill 32 1, disputeId (w.idAt 1) (.fill 32 3)⟩

/-- A game of two steps: opened at 0, dissected at `dissectAt`, narrowed at once. -/
def narrowScript (dissectAt : U64) : List (L1 → Event) :=
  [fun w => .call (.fill 32 2) w.twoSteps,
   fun w => .call (.fill 32 3) (.openChallenge (w.idAt 1) 0),
   fun w => .call (.fill 32 3) (.openDispute (.fill 32 1) (w.idAt 1)),
   fun _ => .tick dissectAt,
   fun w => .call (.fill 32 2) (.dissect w.gameKey [[]]),
   fun w => .call (.fill 32 3) (.select w.gameKey 0)]

/-- A dissection without delay leaves both parties their whole clock. -/
theorem prompt_game_keeps_clocks : ∃ w,
    scenario Call.EvenAtOneStep hashing floorDeployment 0 (narrowScript 0) = some w ∧
    ((w.games w.gameKey).any fun d => d.stage = .oneStep) = true ∧ w.OwnClocks hashing := by
  obtain ⟨w, played, narrowed⟩ : ∃ w ∈ scenario Call.EvenAtOneStep hashing floorDeployment 0 (narrowScript 0),
      ((w.games w.gameKey).any fun d => d.stage = .oneStep) = true := by
    decide +kernel
  obtain ⟨start, deployed, steps⟩ := steps_of_scenario played
  exact ⟨w, played, narrowed, parties_keep_their_own_clock deployed steps⟩

/-- The same game with a dissection at the last moment, one second later. -/
def lateScript : List (L1 → Event) := narrowScript 21600 ++ [fun _ => .tick 21601]

/-- The defender uses up its clock before it dissects. The challenger selects at
once, is left a deadline that is already due, and loses one second later with its
whole clock unspent. -/
theorem spent_defender_clock_times_challenger_out : ∃ w w' d, Reachable hashing floorDeployment w ∧
    w.games w.gameKey = some d ∧ d.stage ≠ .resolved ∧ d.turn = .challenger ∧
    ¬d.OwnDeadline ∧ (d.clock d.turn).val = MOVE_TIMEOUT.val ∧ w.now.val - d.lastMoveAt.val = 1 ∧
    w.call hashing (.fill 32 2) (.claimTimeout w.gameKey) = .ok w' := by
  obtain ⟨w, played, d, found, unresolved, turn, foreign, clock, waited, w', accepted⟩ :
      ∃ w ∈ scenario (fun _ _ _ => True) hashing floorDeployment 0 lateScript, ∃ d ∈ w.games w.gameKey,
        d.stage ≠ .resolved ∧ d.turn = .challenger ∧ ¬d.OwnDeadline ∧ (d.clock d.turn).val = MOVE_TIMEOUT.val ∧
        w.now.val - d.lastMoveAt.val = 1 ∧
        ∃ w', w.call hashing (.fill 32 2) (.claimTimeout w.gameKey) = .ok w' := by
    decide +kernel
  exact ⟨w, w', d, reachable_of_scenario played, found, unresolved, turn, foreign, clock, waited, accepted⟩

end L1
end Sena
