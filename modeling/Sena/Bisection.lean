import Mathlib.Order.Fin.Basic
import Sena.Games
import Sena.LabelledRuns
import Sena.Search

/-! The node's own model of the bisection game.

A move first checks the turn and charges the mover's clock, then looks at what is
played. A refusal found by the second part leaves the charge in place: the dispute
is returned beside the result of each move. A result of `none` is an aborted
process: a product of the boundaries overflowed. -/
namespace Sena.Fraudproof

open Disputes (Party)

inductive Resolution where
  | timeout
  | clockExhausted
  | oneStepAdjudicated
deriving DecidableEq

inductive Stage where
  /-- Holds the defender's latest unanswered division. -/
  | bisecting (offered : Option (List Hash256))
  | oneStep
  | resolved (winner : Party) (reason : Resolution)
deriving DecidableEq

inductive MoveError where
  | alreadyResolved
  | wrongTurn (expected actual : Party)
  | wrongStage
  | wrongDissectionLength (expected got : Nat)
  | segmentOutOfRange (index segments : Nat)
  | noDisagreement
  | timeWentBackwards
deriving DecidableEq

/-- The terms a dispute opens on. -/
structure Opening where
  assertion : Hash256
  defender : U32
  challenger : U32
  traceLength : U64
  loCommitment : Hash256
  hiCommitment : Hash256
  challengeWindow : U64

/-- `Dispute`: the interval in dispute, the offer on the table and both clocks. -/
structure Dispute where
  assertion : Hash256
  defender : U32
  challenger : U32
  lo : U64
  hi : U64
  loCommitment : Hash256
  hiCommitment : Hash256
  stage : Stage
  turn : Party
  deadline : U64
  clockBudget : U64
  defenderClock : U64
  challengerClock : U64
  lastMoveAt : U64
  arity : U64
deriving DecidableEq

def MOVE_TIMEOUT : U64 := 21600
def CLOCK_BUDGET_DIVISOR : Nat := 4
def DEFAULT_ARITY : U64 := 8

/-- `clock_budget`. -/
def clockBudget (challengeWindow : U64) : U64 :=
  ⟨challengeWindow.val / CLOCK_BUDGET_DIVISOR,
    Nat.lt_of_le_of_lt (Nat.div_le_self _ _) challengeWindow.isLt⟩

def saturatingAdd (a b : U64) : U64 := ⟨min (a.val + b.val) (2 ^ 64 - 1), by omega⟩

/-- `boundaries`: where the segments of an interval begin and end. -/
def boundaries (lo hi arity : U64) : Option (List U64) :=
  if lo.val ≤ hi.val then
    let span := hi.val - lo.val
    let segments := max (min arity.val span) 1
    (List.range (segments + 1)).mapM fun i =>
      if fits : span * i < 2 ^ 64 ∧ lo.val + span * i / segments < 2 ^ 64 then some ⟨_, fits.2⟩ else none
  else none

namespace Dispute

variable (d : Dispute)

/-- The challenger produces the one-step proof, so the turn is theirs whoever
moved last. -/
def enterOneStepIfNarrow : Dispute :=
  if d.hi.val - d.lo.val = 1 then { d with stage := .oneStep, turn := .challenger } else d

/-- `Dispute::open`. -/
def «open» (opening : Opening) (now : U64) : Dispute :=
  let budget := Fraudproof.clockBudget opening.challengeWindow
  enterOneStepIfNarrow {
    assertion := opening.assertion
    defender := opening.defender
    challenger := opening.challenger
    lo := 0
    hi := opening.traceLength
    loCommitment := opening.loCommitment
    hiCommitment := opening.hiCommitment
    stage := .bisecting none
    turn := .defender
    clockBudget := budget
    deadline := saturatingAdd now (min MOVE_TIMEOUT budget)
    defenderClock := budget
    challengerClock := budget
    lastMoveAt := now
    arity := DEFAULT_ARITY }

def boundaries : Option (List U64) := Fraudproof.boundaries d.lo d.hi d.arity

def isResolved : Bool :=
  match d.stage with
  | .resolved _ _ => true
  | _ => false

def clock : Party → U64
  | .defender => d.defenderClock
  | .challenger => d.challengerClock

def setClock (party : Party) (left : U64) : Dispute :=
  match party with
  | .defender => { d with defenderClock := left }
  | .challenger => { d with challengerClock := left }

/-- Charges the mover's clock and checks it is their turn. A late move ends the
dispute. -/
def beginMove (now : U64) (party : Party) : Dispute × Except MoveError Unit :=
  if d.isResolved then (d, .error .alreadyResolved)
  else if now.val < d.lastMoveAt.val then (d, .error .timeWentBackwards)
  else if d.turn ≠ party then (d, .error (.wrongTurn d.turn party))
  else if now.val > d.deadline.val then
    ({ d with stage := .resolved party.other .timeout }, .error .alreadyResolved)
  else if now.val - d.lastMoveAt.val > (d.clock party).val then
    ({ d with stage := .resolved party.other .clockExhausted }, .error .alreadyResolved)
  else (d.setClock party (d.clock party - (now - d.lastMoveAt)), .ok ())

/-- `Dispute::pass_turn`. -/
def passTurn (now : U64) : Dispute :=
  { d with
    turn := d.turn.other
    lastMoveAt := now
    deadline := saturatingAdd now (min MOVE_TIMEOUT d.clockBudget) }

/-- `Dispute::dissect`: the defender commits to the states between the segments. -/
def dissect (now : U64) (commitments : List Hash256) : Option (Dispute × Except MoveError Unit) :=
  match d.beginMove now .defender with
  | (d, .error e) => some (d, .error e)
  | (d, .ok ()) =>
    match d.stage with
    | .bisecting _ => do
      let bounds ← d.boundaries
      let expected := bounds.length - 2
      if commitments.length ≠ expected then
        return (d, .error (.wrongDissectionLength expected commitments.length))
      return ({ d with stage := .bisecting (some commitments) }.passTurn now, .ok ())
    | _ => some (d, .error .wrongStage)

/-- `Dispute::select`: the challenger names the segment it denies. -/
def select (now : U64) (index : Nat) : Option (Dispute × Except MoveError Unit) :=
  match d.beginMove now .challenger with
  | (d, .error e) => some (d, .error e)
  | (d, .ok ()) =>
    match d.stage with
    | .bisecting (some offered) => do
      let bounds ← d.boundaries
      let segments := bounds.length - 1
      if index ≥ segments then return (d, .error (.segmentOutOfRange index segments))
      -- the commitments at every boundary: agreed, offered, disputed
      let all := d.loCommitment :: offered ++ [d.hiCommitment]
      let lo ← bounds[index]?
      let hi ← bounds[index + 1]?
      let loCommitment ← all[index]?
      let hiCommitment ← all[index + 1]?
      let d := { d with lo, hi, loCommitment, hiCommitment, stage := .bisecting none }
      return ((d.passTurn now).enterOneStepIfNarrow, .ok ())
    | _ => some (d, .error .wrongStage)

/-- Applies a timeout, if one is due: the party whose turn it is forfeits. -/
def checkTimeout (now : U64) : Dispute × Option Party :=
  if d.isResolved = true ∨ now.val ≤ d.deadline.val then (d, none)
  else ({ d with stage := .resolved d.turn.other .timeout }, some d.turn.other)

end Dispute

/-- What a party plays. -/
inductive Play where
  | dissect (commitments : List Hash256)
  | select (index : U64)

def Play.mover : Play → Party
  | .dissect _ => .defender
  | .select _ => .challenger

namespace Dispute

def play (d : Dispute) (now : U64) : Play → Option (Dispute × Except MoveError Unit)
  | .dissect commitments => d.dissect now commitments
  | .select index => d.select now index.val

variable {d d' : Dispute} {now : U64} {p : Play}

/-- The mover was in time, and pays for the time taken. -/
structure Charged (d : Dispute) (now : U64) (party : Party) (left : U64) : Prop where
  unresolved : d.isResolved = false
  since : d.lastMoveAt.val ≤ now.val
  turn : d.turn = party
  inTime : now.val ≤ d.deadline.val
  affordable : now.val - d.lastMoveAt.val ≤ (d.clock party).val
  left_eq : left.val = (d.clock party).val - (now.val - d.lastMoveAt.val)

/-- How the checks before a move end. -/
inductive Began (d : Dispute) (now : U64) (party : Party) : Dispute → Except MoveError Unit → Prop
  | refused (e : MoveError) (untimely : now.val < d.lastMoveAt.val ∨ d.turn ≠ party) : Began d now party d (.error e)
  | decided (stage : Stage) : Began d now party { d with stage } (.error .alreadyResolved)
  | charged (charged : Charged d now party left) : Began d now party (d.setClock party left) (.ok ())

theorem began (d : Dispute) (now : U64) (party : Party) :
    Began d now party (d.beginMove now party).1 (d.beginMove now party).2 := by
  unfold beginMove
  split_ifs with resolved backwards turn late exhausted
  · exact .decided d.stage
  · exact .refused _ (.inl backwards)
  · exact .refused _ (.inr turn)
  · exact .decided _
  · exact .decided _
  · have since : d.lastMoveAt ≤ now := by
      rw [Fin.le_def]
      omega
    have elapsed : (now - d.lastMoveAt).val = now.val - d.lastMoveAt.val := Fin.sub_val_of_le since
    have affordable : now - d.lastMoveAt ≤ d.clock party := by
      rw [Fin.le_def, elapsed]
      omega
    refine .charged ⟨by simpa using resolved, Fin.le_def.mp since, not_not.mp turn, by omega, by omega, ?_⟩
    rw [Fin.sub_val_of_le affordable, elapsed]

theorem beginMove_of_charged (charged : Charged d now party left) :
    d.beginMove now party = (d.setClock party left, .ok ()) := by
  obtain ⟨unresolved, since, turn, inTime, affordable, left_eq⟩ := charged
  have elapsed : (now - d.lastMoveAt).val = now.val - d.lastMoveAt.val := Fin.sub_val_of_le since
  have paid : d.clock party - (now - d.lastMoveAt) = left := by
    apply Fin.ext
    rw [Fin.sub_val_of_le (by rw [Fin.le_def, elapsed]; exact affordable), elapsed, left_eq]
  rw [beginMove, if_neg (by simp [unresolved]), if_neg (by omega), if_neg (by simp [turn]), if_neg (by omega),
    if_neg (by omega), paid]

@[simp] theorem setClock_stage (d : Dispute) (party : Party) (left : U64) : (d.setClock party left).stage = d.stage := by
  cases party <;> rfl

@[simp] theorem setClock_boundaries (d : Dispute) (party : Party) (left : U64) :
    (d.setClock party left).boundaries = d.boundaries := by
  cases party <;> rfl

/-- What is played fits the stage and the interval. -/
def Fits (d : Dispute) : Play → Prop
  | .dissect commitments => ∃ offered bounds, d.stage = .bisecting offered ∧ d.boundaries = some bounds ∧
      commitments.length = bounds.length - 2
  | .select index => ∃ offered bounds, d.stage = .bisecting (some offered) ∧ d.boundaries = some bounds ∧
      index.val < bounds.length - 1

/-- How a move ends. -/
inductive Ended (d : Dispute) (now : U64) (p : Play) : Dispute → Except MoveError Unit → Prop
  | refused (e : MoveError) (untimely : now.val < d.lastMoveAt.val ∨ d.turn ≠ p.mover) : Ended d now p d (.error e)
  | decided (stage : Stage) : Ended d now p { d with stage } (.error .alreadyResolved)
  /-- Refused, but the time is paid. -/
  | misfit (e : MoveError) (charged : Charged d now p.mover left) (misfit : ¬d.Fits p) :
      Ended d now p (d.setClock p.mover left) (.error e)
  | accepted {next : Dispute} (charged : Charged d now p.mover left)
      (clocks : next.defenderClock = (d.setClock p.mover left).defenderClock ∧
        next.challengerClock = (d.setClock p.mover left).challengerClock)
      (moved : next.lastMoveAt = now) : Ended d now p next (.ok ())

@[simp] theorem enterOneStepIfNarrow_clocks (d : Dispute) :
    d.enterOneStepIfNarrow.defenderClock = d.defenderClock ∧
      d.enterOneStepIfNarrow.challengerClock = d.challengerClock ∧
      d.enterOneStepIfNarrow.lastMoveAt = d.lastMoveAt := by
  unfold enterOneStepIfNarrow
  split <;> exact ⟨rfl, rfl, rfl⟩

/-- The interval in dispute, and what is claimed at its ends. -/
def span (d : Dispute) : Search.Span U64 Hash256 := ⟨d.lo, d.hi, d.loCommitment, d.hiCommitment⟩

/-- The dispute once a segment is selected. -/
def narrowed (d : Dispute) (now left : U64) (s : Search.Span U64 Hash256) : Dispute :=
  ({ d.setClock .challenger left with
    lo := s.lo, hi := s.hi, loCommitment := s.atLo, hiCommitment := s.atHi,
    stage := .bisecting none }.passTurn now).enterOneStepIfNarrow

@[simp] theorem enterOneStepIfNarrow_span (d : Dispute) : d.enterOneStepIfNarrow.span = d.span := by
  unfold enterOneStepIfNarrow
  split <;> rfl

@[simp] theorem span_narrowed (d : Dispute) (now left : U64) (s : Search.Span U64 Hash256) :
    (d.narrowed now left s).span = s :=
  enterOneStepIfNarrow_span _

/-- The claims at the boundaries of an interval once a division is offered: agreed,
offered, disputed. -/
def claims (d : Dispute) (offered : List Hash256) : List Hash256 :=
  d.loCommitment :: offered ++ [d.hiCommitment]

theorem dissect_spec (played : d.dissect now commitments = some (d', result)) :
    Ended d now (.dissect commitments) d' result ∧ (result = .ok () →
      ∃ left offered bounds, Charged d now .defender left ∧ d.stage = .bisecting offered ∧
        d.boundaries = some bounds ∧ commitments.length = bounds.length - 2 ∧
        d' = { d.setClock .defender left with stage := .bisecting (some commitments) }.passTurn now) := by
  unfold dissect at played
  have checks := began d now .defender
  generalize d.beginMove now .defender = out at checks played
  obtain ⟨d₁, checked⟩ := out
  dsimp only at checks
  cases checks with
  | refused e untimely =>
    cases played
    exact ⟨.refused e untimely, nofun⟩
  | decided stage =>
    cases played
    exact ⟨.decided stage, nofun⟩
  | @charged left charged =>
    simp only [setClock_stage, setClock_boundaries] at played
    split at played
    · rename_i offered stage
      obtain ⟨bounds, bounded, played⟩ := Option.bind_eq_some_iff.mp played
      split at played
      · rename_i different
        cases played
        refine ⟨.misfit _ charged ?_, nofun⟩
        rintro ⟨_, bounds', _, bounded', fits⟩
        obtain rfl : bounds = bounds' := by simpa [bounded] using bounded'
        exact different fits
      · rename_i fits
        cases played
        exact ⟨.accepted charged ⟨rfl, rfl⟩ rfl,
          fun _ => ⟨left, offered, bounds, charged, stage, bounded, not_not.mp fits, rfl⟩⟩
    · rename_i other
      cases played
      refine ⟨.misfit _ charged ?_, nofun⟩
      rintro ⟨offered, _, stage, _⟩
      exact other offered stage

theorem select_spec (played : d.select now index = some (d', result)) :
    (∀ i : U64, i.val = index → Ended d now (.select i) d' result) ∧ (result = .ok () →
      ∃ left offered bounds, ∃ s : Search.Span U64 Hash256, Charged d now .challenger left ∧
        d.stage = .bisecting (some offered) ∧ d.boundaries = some bounds ∧ index < bounds.length - 1 ∧
        Search.SegmentAt bounds (d.claims offered) index s ∧ d' = d.narrowed now left s) := by
  unfold select at played
  have checks := began d now .challenger
  generalize d.beginMove now .challenger = out at checks played
  obtain ⟨d₁, checked⟩ := out
  dsimp only at checks
  cases checks with
  | refused e untimely =>
    cases played
    exact ⟨fun _ _ => .refused e untimely, nofun⟩
  | decided stage =>
    cases played
    exact ⟨fun _ _ => .decided stage, nofun⟩
  | @charged left charged =>
    simp only [setClock_stage, setClock_boundaries] at played
    split at played
    · rename_i offered stage
      obtain ⟨bounds, bounded, played⟩ := Option.bind_eq_some_iff.mp played
      split at played
      · rename_i outside
        cases played
        refine ⟨fun i same => .misfit _ charged ?_, nofun⟩
        rintro ⟨_, bounds', _, bounded', inside⟩
        obtain rfl : bounds = bounds' := by simpa [bounded] using bounded'
        omega
      · rename_i inside
        simp only [Option.bind_eq_bind, Option.bind_eq_some_iff] at played
        obtain ⟨lo, loAt, hi, hiAt, loCommitment, loCommitmentAt, hiCommitment, hiCommitmentAt, played⟩ := played
        cases played
        have clocks := enterOneStepIfNarrow_clocks
          ({ d.setClock .challenger left with lo, hi, loCommitment, hiCommitment, stage := .bisecting none }.passTurn now)
        exact ⟨fun _ _ => .accepted charged ⟨clocks.1, clocks.2.1⟩ clocks.2.2,
          fun _ => ⟨left, offered, bounds, ⟨lo, hi, loCommitment, hiCommitment⟩, charged, stage, bounded, by omega,
            ⟨loAt, hiAt, loCommitmentAt, hiCommitmentAt⟩, rfl⟩⟩
    · rename_i other
      cases played
      refine ⟨fun _ _ => .misfit _ charged ?_, nofun⟩
      rintro ⟨offered, _, stage, _⟩
      exact other offered stage

theorem ended_of_play (played : d.play now p = some (d', result)) : Ended d now p d' result := by
  cases p with
  | dissect commitments => exact (dissect_spec played).1
  | select index => exact (select_spec played).1 index rfl

theorem dissect_eq_ok {commitments : List Hash256} : d.dissect now commitments = some (d', .ok ()) ↔
    ∃ left offered bounds, Charged d now .defender left ∧ d.stage = .bisecting offered ∧
      d.boundaries = some bounds ∧ commitments.length = bounds.length - 2 ∧
      d' = { d.setClock .defender left with stage := .bisecting (some commitments) }.passTurn now := by
  refine ⟨fun played => (dissect_spec played).2 rfl, ?_⟩
  rintro ⟨left, offered, bounds, charged, stage, bounded, fits, rfl⟩
  simp [dissect, beginMove_of_charged charged, stage, bounded, fits]

theorem select_eq_ok : d.select now index = some (d', .ok ()) ↔
    ∃ left offered bounds, ∃ s : Search.Span U64 Hash256, Charged d now .challenger left ∧
      d.stage = .bisecting (some offered) ∧ d.boundaries = some bounds ∧ index < bounds.length - 1 ∧
      Search.SegmentAt bounds (d.claims offered) index s ∧ d' = d.narrowed now left s := by
  refine ⟨fun played => (select_spec played).2 rfl, ?_⟩
  rintro ⟨left, offered, bounds, s, charged, stage, bounded, inside, segment, rfl⟩
  have same : (d.setClock .challenger left).loCommitment :: offered ++ [(d.setClock .challenger left).hiCommitment] =
      d.claims offered := rfl
  simp only [select, beginMove_of_charged charged, setClock_stage, setClock_boundaries, stage, bounded, same,
    if_neg (Nat.not_le.mpr inside), segment.lo, segment.hi, segment.atLo, segment.atHi, Option.bind_eq_bind,
    Option.bind_some, Option.pure_def]
  rfl

/-- What the parties have used of their budgets is the time from the opening to the
last move. -/
structure Spent (start budget : Nat) (d : Dispute) : Prop where
  defender : d.defenderClock.val ≤ budget
  challenger : d.challengerClock.val ≤ budget
  total : d.lastMoveAt.val + d.defenderClock.val + d.challengerClock.val = start + 2 * budget

theorem spent_open (opening : Opening) (start : U64) :
    Spent start.val (Fraudproof.clockBudget opening.challengeWindow).val (Dispute.open opening start) := by
  have clocks : (Dispute.open opening start).defenderClock = Fraudproof.clockBudget opening.challengeWindow ∧
      (Dispute.open opening start).challengerClock = Fraudproof.clockBudget opening.challengeWindow ∧
      (Dispute.open opening start).lastMoveAt = start := enterOneStepIfNarrow_clocks _
  obtain ⟨defender, challenger, last⟩ := clocks
  refine ⟨by rw [defender], by rw [challenger], ?_⟩
  rw [defender, challenger, last]
  omega

/-- A move that does not fit is only made when it costs nothing. -/
def Prompt (d : Dispute) (now : U64) (p : Play) : Prop :=
  now.val ≤ d.lastMoveAt.val ∨ d.turn ≠ p.mover ∨ d.Fits p

/-- One move of a sequence of accepted and refused ones. -/
def Plays (allowed : Dispute → U64 → Play → Prop) (d : Dispute) (m : U64 × Play) (d' : Dispute) : Prop :=
  allowed d m.1 m.2 ∧ ∃ result, d.play m.1 m.2 = some (d', result)

theorem setClock_eq_self_iff (charged : Charged d now party left) :
    d.setClock party left = d ↔ now.val ≤ d.lastMoveAt.val := by
  have paid := charged.left_eq
  have affordable := charged.affordable
  have same : d.setClock party left = d ↔ left = d.clock party := by
    cases party with
    | defender =>
      constructor
      · exact fun same => congrArg defenderClock same
      · rintro rfl
        rfl
    | challenger =>
      constructor
      · exact fun same => congrArg challengerClock same
      · rintro rfl
        rfl
  rw [same, Fin.ext_iff]
  omega

theorem Spent.plays (spent : Spent start budget d) (plays : Plays Prompt d m d') : Spent start budget d' := by
  obtain ⟨prompt, result, played⟩ := plays
  cases ended_of_play played with
  | refused | decided => exact ⟨spent.defender, spent.challenger, spent.total⟩
  | misfit e charged misfit =>
    have free : m.1.val ≤ d.lastMoveAt.val := by
      rcases prompt with early | other | fits
      · exact early
      · exact absurd charged.turn other
      · exact absurd fits misfit
    rw [(setClock_eq_self_iff charged).mpr free]
    exact spent
  | @accepted left _ charged clocks moved =>
    obtain ⟨defender, challenger, total⟩ := spent
    obtain ⟨_, since, _, _, affordable, paid⟩ := charged
    have clock : ∀ party, (d.setClock party left).defenderClock.val + (d.setClock party left).challengerClock.val +
        (d.clock party).val = d.defenderClock.val + d.challengerClock.val + left.val := by
      intro party
      cases party with
      | defender =>
        simp only [setClock, Dispute.clock]
        omega
      | challenger =>
        simp only [setClock, Dispute.clock]
        omega
    have less : ∀ party, left.val ≤ (d.clock party).val →
        (d.setClock party left).defenderClock.val ≤ d.defenderClock.val ∧
          (d.setClock party left).challengerClock.val ≤ d.challengerClock.val := by
      intro party less
      cases party with
      | defender => exact ⟨less, Nat.le_refl _⟩
      | challenger => exact ⟨Nat.le_refl _, less⟩
    have sum := clock m.2.mover
    obtain ⟨lessDefender, lessChallenger⟩ := less m.2.mover (by omega)
    refine ⟨?_, ?_, ?_⟩
    · rw [clocks.1]
      omega
    · rw [clocks.2]
      omega
    · rw [clocks.1, clocks.2, moved]
      omega

/-- A refused move leaves the dispute as it is exactly when it took no time or was
not the mover's to make. Where every move that does not fit is of that kind, the
clocks are charged for the time from the opening to the last move. -/
theorem refusals_cost_no_time_iff (opening : Opening) (start : U64) :
    (∀ (d d' : Dispute) (now : U64) (p : Play) (e : MoveError),
      d.play now p = some (d', .error e) → e ≠ .alreadyResolved →
        (d' = d ↔ now.val ≤ d.lastMoveAt.val ∨ d.turn ≠ p.mover)) ∧
    ∀ (moves : List (U64 × Play)) (d : Dispute),
      Run (Plays Prompt) (Dispute.open opening start) moves d →
        let budget := (Fraudproof.clockBudget opening.challengeWindow).val
        d.defenderClock.val ≤ budget ∧ d.challengerClock.val ≤ budget ∧ start.val ≤ d.lastMoveAt.val ∧
          (budget - d.defenderClock.val) + (budget - d.challengerClock.val) = d.lastMoveAt.val - start.val := by
  refine ⟨fun d d' now p e played refused => ?_, fun moves d ran => ?_⟩
  · cases ended_of_play played with
    | refused _ untimely => exact ⟨fun _ => untimely.imp_left Nat.le_of_lt, fun _ => rfl⟩
    | decided => exact absurd rfl refused
    | misfit _ charged _ =>
      rw [setClock_eq_self_iff charged]
      exact ⟨.inl, fun free => free.resolve_right (not_not.mpr charged.turn)⟩
  · have spent := ran.invariant (Spent start.val (Fraudproof.clockBudget opening.challengeWindow).val)
      (fun _ _ _ _ spent plays => spent.plays plays) (spent_open opening start)
    obtain ⟨defender, challenger, total⟩ := spent
    exact ⟨defender, challenger, by omega, by omega⟩

end Dispute

/-- Sixteen steps at the shortest window. -/
def sixteenSteps : Opening where
  assertion := Hash256.zero
  defender := 1
  challenger := 2
  traceLength := 16
  loCommitment := Hash256.zero
  hiCommitment := .fill 32 1
  challengeWindow := 86400

/-- A division of the whole interval into eight segments. -/
def division : List Hash256 := List.replicate 7 (.fill 32 2)

/-- A division refused when the dispute opens costs nothing, and a good one a hundred
seconds later costs a hundred seconds. -/
theorem retried_division_costs_its_time : ∃ d,
    (Dispute.open sixteenSteps 5).play 5 (.dissect []) =
      some (Dispute.open sixteenSteps 5, .error (.wrongDissectionLength 7 0)) ∧
    ((5 : U64).val ≤ (Dispute.open sixteenSteps 5).lastMoveAt.val ∨ (Dispute.open sixteenSteps 5).turn ≠ .defender) ∧
    (Dispute.open sixteenSteps 5).play 105 (.dissect division) = some (d, .ok ()) ∧
    (21600 - d.defenderClock.val) + (21600 - d.challengerClock.val) = d.lastMoveAt.val - 5 := by
  have refused : (Dispute.open sixteenSteps 5).play 5 (.dissect []) =
      some (Dispute.open sixteenSteps 5, .error (.wrongDissectionLength 7 0)) := by decide +kernel
  obtain ⟨⟨d, _⟩, accepted, rfl⟩ : ∃ r ∈ (Dispute.open sixteenSteps 5).play 105 (.dissect division), r.2 = .ok () := by
    decide +kernel
  obtain ⟨unchanged, charged⟩ := Dispute.refusals_cost_no_time_iff sixteenSteps 5
  have free := (unchanged _ _ _ _ _ refused (by decide)).mp rfl
  have ran : Run (Dispute.Plays Dispute.Prompt) (Dispute.open sixteenSteps 5)
      [(5, .dissect []), (105, .dissect division)] d := by
    refine ⟨_, ⟨.inl (by decide +kernel), _, refused⟩, d, ⟨.inr (.inr ?_), _, accepted⟩, rfl⟩
    refine ⟨none, [0, 2, 4, 6, 8, 10, 12, 14, 16], ?_, ?_, ?_⟩ <;> decide +kernel
  exact ⟨d, refused, free, accepted, (charged _ _ ran).2.2.2⟩

/-- The same refusal a hundred seconds into the dispute is charged to the defender, and
the good division that follows it charged again. -/
theorem refused_division_is_charged_twice : ∃ d₁ d₂,
    (Dispute.open sixteenSteps 0).play 100 (.dissect []) = some (d₁, .error (.wrongDissectionLength 7 0)) ∧
    d₁ ≠ Dispute.open sixteenSteps 0 ∧ d₁.play 100 (.dissect division) = some (d₂, .ok ()) ∧
    (21600 - d₂.defenderClock.val) + (21600 - d₂.challengerClock.val) = 200 ∧ d₂.lastMoveAt = 100 := by
  obtain ⟨⟨d₁, _⟩, refused, rfl, changed, ⟨d₂, _⟩, accepted, rfl, charged, last⟩ :
      ∃ r ∈ (Dispute.open sixteenSteps 0).play 100 (.dissect []), r.2 = .error (.wrongDissectionLength 7 0) ∧
        r.1 ≠ Dispute.open sixteenSteps 0 ∧ ∃ q ∈ r.1.play 100 (.dissect division), q.2 = .ok () ∧
          (21600 - q.1.defenderClock.val) + (21600 - q.1.challengerClock.val) = 200 ∧ q.1.lastMoveAt = 100 := by
    decide +kernel
  exact ⟨d₁, d₂, refused, changed, accepted, charged, last⟩

end Sena.Fraudproof
