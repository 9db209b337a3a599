import Mathlib.Algebra.Order.Floor.Div
import Mathlib.Data.Nat.Log
import Mathlib.GroupTheory.GroupAction.Ring
import Sena.BisectionProofs

/-! How long a game takes.

A round leaves at most an eighth of the interval, rounded up, whichever segment is
selected. So a game over `n` steps is down to one of them after as many rounds as
eight has to be multiplied by itself to reach `n`. -/
namespace Sena

open Move Assertions

namespace Disputes

variable {w : L1} {g : GameId} {d d' : Dispute} {now : U64}

theorem dissect_of_dissected (found : w.games g = some d) (dissected : Dissected d w.now commitments d') :
    dissect w d.defender g commitments = .ok (w.withGame g d') := by
  obtain ⟨bounds, bounded, fits⟩ := dissected.bounded
  obtain ⟨left, deadline, charged, set, rfl⟩ := dissected.result
  have turn := charged.turn
  simp only [dissect, bind_eq_ok, L1.game_eq_ok, ensure_eq_ok, beginMove_eq_ok, passTurn_eq_ok,
    pure_iff]
  refine ⟨d, found, .defender, partyOf_eq_defender.mpr rfl, (), rfl, _, ⟨left, charged, rfl⟩, (), dissected.stage,
    bounds, bounded, (), fits, _, ⟨deadline, ?_, rfl⟩, ?_⟩
  · simpa [Dispute.setClock, turn, Party.other, Dispute.clock] using set
  · simp [Dispute.setClock, turn, Party.other]

theorem select_of_selected {index : U64} (found : w.games g = some d) (apart : d.challenger ≠ d.defender)
    (selected : Selected d w.now index.val d') :
    select w d.challenger g index = .ok (w.withGame g d') := by
  obtain ⟨bounds, left, deadline, lo, hi, loCommitment, hiCommitment, bounded, inside, loAt, hiAt, loCommitmentAt,
    hiCommitmentAt, charged, ordered, set, rfl⟩ := selected.result
  have turn := charged.turn
  have stage := selected.stage
  simp only [select, bind_eq_ok, L1.game_eq_ok, ensure_eq_ok, beginMove_eq_ok, passTurn_eq_ok,
    borrow_eq_ok, enterOneStepIfNarrow, sub_eq_ok, pure_iff]
  refine ⟨d, found, .challenger, partyOf_eq_challenger.mpr ⟨apart, rfl⟩, (), rfl, _, ⟨left, charged, rfl⟩, (),
    ⟨stage, selected.offer⟩, bounds, bounded, (), inside, lo, loAt, hi, hiAt, loCommitment, loCommitmentAt,
    hiCommitment, hiCommitmentAt, _, ⟨deadline, ?_, rfl⟩, _, ⟨⟨hi.val - lo.val, by omega⟩, ⟨ordered, rfl⟩, ?_⟩, rfl⟩
  · simpa [Dispute.setClock, turn, Party.other, Dispute.clock] using set
  · by_cases one : hi.val - lo.val = 1
    · simp [one, Dispute.setClock]
    · simp [one, Dispute.setClock, turn, Party.other, stage]

theorem dissected_then_selected {index : U64} (bisecting : d.stage = .bisecting) (turn : d.turn = .defender)
    (shape : Shape d) (since : d.lastMoveAt.val ≤ now.val) (inTime : now.val ≤ d.deadline.val)
    (affordable : now.val - d.lastMoveAt.val ≤ d.defenderClock.val) (later : now.val + MOVE_TIMEOUT.val < 2 ^ 64)
    (room : 8 * (d.hi.val - d.lo.val) < 2 ^ 64)
    (offered : commitments.length + 1 = segments (d.hi.val - d.lo.val))
    (inside : index.val < segments (d.hi.val - d.lo.val)) :
    ∃ d₁ d₂, Dissected d now commitments d₁ ∧ Selected d₁ now index.val d₂ := by
  obtain ⟨bounds, bounded⟩ := exists_boundaries shape.proper (show _ * 8 < 2 ^ 64 by omega)
  have length := length_boundaries bounded
  have allowed (clock : U64) : now.val + (allowance clock).val < 2 ^ 64 := by
    have least := allowance_val clock
    omega
  have dissected : Dissected d now commitments { d with
      defenderClock := ⟨d.defenderClock.val - (now.val - d.lastMoveAt.val), by omega⟩
      offered := commitments, hasOffer := true, turn := .challenger
      lastMoveAt := now, deadline := ⟨_, allowed d.challengerClock⟩ } :=
    ⟨bisecting, ⟨bounds, bounded, by omega⟩, _, _,
      ⟨by simp [bisecting], turn, inTime, since, affordable, rfl⟩, rfl, rfl⟩
  obtain ⟨lo, loAt⟩ : ∃ lo, bounds[index.val]? = some lo := ⟨_, List.getElem?_eq_getElem (by omega)⟩
  obtain ⟨hi, hiAt⟩ : ∃ hi, bounds[index.val + 1]? = some hi := ⟨_, List.getElem?_eq_getElem (by omega)⟩
  have ordered : lo.val ≤ hi.val := by
    rw [getElem?_boundaries bounded loAt, getElem?_boundaries bounded hiAt]
    exact (boundaryAt_lt shape.proper _).le
  refine ⟨_, _, dissected, bisecting, rfl, bounds, d.challengerClock, ⟨_, allowed _⟩, lo, hi, _, _, bounded,
    by omega, loAt, hiAt, List.getElem?_eq_getElem ?_, List.getElem?_eq_getElem ?_,
    ⟨by simp [bisecting], rfl, ?_, le_rfl, ?_, ?_⟩, ordered, rfl, rfl⟩
  · simp only [Dispute.all, List.length_append, List.length_cons, List.length_nil]
    omega
  · simp only [Dispute.all, List.length_append, List.length_cons, List.length_nil]
    omega
  · exact Nat.le_add_right _ _
  · simp
  · simp [Dispute.clock]

/-- After `rounds` selections in a game over `n` steps, the interval is no longer than
`n` divided by eight that often, rounded up. -/
structure Narrowed (n rounds : Nat) (d : Dispute) : Prop where
  shape : Shape d
  share : ∀ m, n ≤ 8 ^ rounds * m → d.hi.val - d.lo.val ≤ m
  few : rounds ≤ Nat.clog 8 n

theorem Narrowed.opened (opened : Opened crypto w who registry assertion record d) : Narrowed record.traceLength.val 0 d := by
  obtain ⟨lo, hi⟩ := opened.interval
  refine ⟨.opened opened, fun m enough => ?_, Nat.zero_le _⟩
  rw [lo, hi]
  simpa using enough

theorem Narrowed.selected (narrowed : Narrowed n rounds d) (selected : Selected d now index d') :
    Narrowed n (rounds + 1) d' := by
  obtain ⟨shape, share, few⟩ := narrowed
  have wide := shape.wide selected.stage
  refine ⟨shape.selected selected, fun m enough => ?_, ?_⟩
  · obtain ⟨bounds, _, _, lo, hi, _, _, bounded, _, loAt, hiAt, _, _, _, _, _, rfl⟩ := selected.result
    have before := share (8 * m) (by rwa [← Nat.mul_assoc, ← Nat.pow_succ])
    have segment := boundaryAt_le_add shape.proper before index
    rw [← getElem?_boundaries bounded loAt, ← getElem?_boundaries bounded hiAt] at segment
    dsimp only
    omega
  · -- an interval that was still to be divided had two steps
    rw [Nat.succ_le_iff, Nat.lt_clog_iff_pow_lt (by decide)]
    refine Nat.lt_of_not_le fun reached => ?_
    have one := share 1 (by omega)
    omega

theorem Narrowed.same (narrowed : Narrowed n rounds d) (shape : Shape d') (lo : d'.lo = d.lo) (hi : d'.hi = d.hi) :
    Narrowed n rounds d' :=
  ⟨shape, by rw [lo, hi]; exact narrowed.share, narrowed.few⟩

theorem Narrowed.one_left (narrowed : Narrowed n (Nat.clog 8 n) d) : d.hi.val = d.lo.val + 1 := by
  have one := narrowed.share 1 (by simpa using Nat.le_pow_clog (show 1 < 8 by decide) n)
  have proper := narrowed.shape.proper
  omega

end Disputes

namespace L1

open Disputes

variable {crypto : Crypto} {w w' : L1} {g : GameId} {d d' : Dispute}

/-- Anything but a selection in the game. -/
def Elsewhere (g : GameId) (_w : L1) (_who : Address) (c : Call) : Prop := ∀ index, c ≠ .select g index

/-- L1 gets from `w` to a later state, with that many rounds of the game played
in between. -/
inductive Rounds (crypto : Crypto) (g : GameId) (w : L1) : Nat → L1 → Prop
  | start : Rounds crypto g w 0 w
  | other (played : Rounds crypto g w rounds w₁) (step : StepWhen crypto (Elsewhere g) w₁ w₂) :
      Rounds crypto g w rounds w₂
  | round (played : Rounds crypto g w rounds w₁) (index : U64)
      (selected : w₁.call crypto who (.select g index) = .ok w₂) : Rounds crypto g w (rounds + 1) w₂

theorem Playing.rounds {rounds : Nat} (playing : Playing crypto w) (played : Rounds crypto g w rounds w') :
    Playing crypto w' := by
  induction played with
  | start => exact playing
  | other _ step ih => exact ih.step step
  | round _ index selected ih =>
    exact ih.step (show Step crypto _ _ from .call _ (.select g index) trivial trivial selected)

theorem narrowed_of_plays (narrowed : Narrowed n rounds d) (plays : Plays crypto w who c g d d')
    (elsewhere : Elsewhere g w who c) : Narrowed n rounds d' := by
  have shape := (plays.parties narrowed.shape).2.2.2.2.1
  cases plays with
  | kept => exact narrowed
  | dissected _ _ dissected =>
    obtain ⟨_, _, _, _, rfl⟩ := dissected.result
    exact narrowed.same shape rfl rfl
  | selected call => exact absurd call (elsewhere _)
  | stepped | timedOut | closed => exact narrowed.same shape rfl rfl

theorem narrowed_of_rounds (found : w.games g = some d) (narrowed : Narrowed n 0 d)
    (played : Rounds crypto g w rounds w') :
    ∃ d', w'.games g = some d' ∧ Narrowed n rounds d' := by
  induction played with
  | start => exact ⟨d, found, narrowed⟩
  | other _ step ih =>
    obtain ⟨d₁, found₁, narrowed₁⟩ := ih
    cases step with
    | tick => exact ⟨d₁, found₁, narrowed₁⟩
    | call who c _ elsewhere accepted =>
      obtain ⟨d₂, found₂, plays⟩ := (effect_of_call accepted).plays found₁
      exact ⟨d₂, found₂, narrowed_of_plays narrowed₁ plays elsewhere⟩
  | round _ index selected ih =>
    obtain ⟨d₁, found₁, narrowed₁⟩ := ih
    obtain ⟨d₀, d₂, found₀, _, _, moved, rfl⟩ := selected_of_select selected
    obtain rfl : d₀ = d₁ := by simpa [found₁] using found₀.symm
    exact ⟨d₂, by rw [games_rewrite found₀, Function.update_self], narrowed₁.selected moved⟩

theorem round_of_moves {index : U64} (found : w.games g = some d) (apart : d.challenger ≠ d.defender)
    (dissected : Dissected d w.now commitments d₁) (selected : Selected d₁ w.now index.val d₂) :
    ∃ w₂ w₃, w.call crypto d.defender (.dissect g commitments) = .ok w₂ ∧
      w₂.call crypto d.challenger (.select g index) = .ok w₃ := by
  have parties : d₁.challenger = d.challenger ∧ d₁.defender = d.defender := by
    obtain ⟨_, _, _, _, rfl⟩ := dissected.result
    exact ⟨rfl, rfl⟩
  have between : (w.withGame g d₁).games g = some d₁ := by rw [games_rewrite found, Function.update_self]
  have selects := select_of_selected between (by rw [parties.1, parties.2]; exact apart) selected
  rw [parties.1] at selects
  exact ⟨w.withGame g d₁, _, dissect_of_dissected found dissected, selects⟩

end L1

namespace Fraudproof

open Disputes L1

/-- The node and the contract divide an interval alike. -/
theorem boundaries_spec {lo hi : U64} (proper : lo.val < hi.val) (room : 8 * (hi.val - lo.val) < 2 ^ 64) :
    ∃ bounds, boundaries lo hi DEFAULT_ARITY = some bounds ∧ Disputes.boundaries lo hi = .ok bounds ∧
      bounds.head? = some lo ∧ bounds.getLast? = some hi ∧ bounds.Pairwise (· < ·) ∧
      bounds.length = min 8 (hi.val - lo.val) + 1 ∧
      ∀ i a b, bounds[i]? = some a → bounds[i + 1]? = some b → b.val - a.val ≤ (hi.val - lo.val) ⌈/⌉ 8 := by
  obtain ⟨bounds, bounded⟩ := exists_boundaries proper (show _ * 8 < 2 ^ 64 by omega)
  obtain ⟨-, -, values⟩ := boundaries_eq_ok.mp bounded
  refine ⟨bounds, boundaries_of_contract bounded, bounded, ?_, ?_, ?_, ?_, fun i a b aAt bAt => ?_⟩
  · rw [List.head?_eq_getElem?, boundaries_first bounded]
  · rw [List.getLast?_eq_getElem?, boundaries_last bounded]
  · have increasing : (bounds.map (·.val)).Pairwise (· < ·) := by
      rw [values]
      exact List.pairwise_lt_range.map _ fun _ _ => (strictMono_nat_of_lt_succ (boundaryAt_lt proper) ·)
    exact (List.pairwise_map (f := fun p : U64 => p.val)).mp increasing
  · have arity : DEFAULT_ARITY.val = 8 := rfl
    rw [length_boundaries bounded, segments_eq, arity]
    omega
  · have share : hi.val - lo.val ≤ 8 * ((hi.val - lo.val) ⌈/⌉ 8) := by
      rw [Nat.ceilDiv_eq_add_pred_div]
      omega
    have segment := boundaryAt_le_add proper share i
    rw [← getElem?_boundaries bounded aAt, ← getElem?_boundaries bounded bAt] at segment
    omega

/-- An interval is divided into at most eight segments of about the same length, by the
node as by the contract. However the challenger selects, and whatever else happens on
L1, a game is played in at most as many rounds as eight has to be multiplied by itself
to reach its length. Until then the two can play on while they are in time. -/
theorem bisection_always_narrows (crypto : Crypto) :
    (∀ lo hi : U64, lo.val < hi.val → 8 * (hi.val - lo.val) < 2 ^ 64 →
      ∃ bounds, boundaries lo hi DEFAULT_ARITY = some bounds ∧ Disputes.boundaries lo hi = .ok bounds ∧
        bounds.head? = some lo ∧ bounds.getLast? = some hi ∧ bounds.Pairwise (· < ·) ∧
        bounds.length = min 8 (hi.val - lo.val) + 1 ∧
        ∀ i a b, bounds[i]? = some a → bounds[i + 1]? = some b → b.val - a.val ≤ (hi.val - lo.val) ⌈/⌉ 8) ∧
    ∀ plan w who registry assertion w₁ record, Reachable crypto plan w →
      w.call crypto who (.openDispute registry assertion) = .ok w₁ → w.chain.assertions assertion = some record →
      record.traceLength.val < 2 ^ 61 → ∀ rounds w', Rounds crypto ⟨registry, disputeId assertion who⟩ w₁ rounds w' →
      ∃ d, w'.games ⟨registry, disputeId assertion who⟩ = some d ∧
        rounds ≤ Nat.clog 8 record.traceLength.val ∧
        (rounds = Nat.clog 8 record.traceLength.val → d.hi.val = d.lo.val + 1) ∧
        (d.stage ≠ .resolved → (d.stage = .oneStep ↔ d.hi.val = d.lo.val + 1)) ∧
        (d.stage = .bisecting → d.turn = .defender → w'.now.val ≤ d.deadline.val →
          w'.now.val - d.lastMoveAt.val ≤ d.defenderClock.val → w'.now.val + MOVE_TIMEOUT.val < 2 ^ 64 →
          ∀ (commitments : List Bytes) (index : U64), commitments.length + 1 = min 8 (d.hi.val - d.lo.val) →
            index.val < min 8 (d.hi.val - d.lo.val) →
            ∃ w₂ w₃, w'.call crypto d.defender (.dissect ⟨registry, disputeId assertion who⟩ commitments) = .ok w₂ ∧
              w₂.call crypto d.challenger (.select ⟨registry, disputeId assertion who⟩ index) = .ok w₃) := by
  refine ⟨fun lo hi proper room => boundaries_spec proper room, ?_⟩
  intro plan w who registry assertion w₁ record reachable called recordAt short rounds w' played
  obtain ⟨record', d₀, opened, wrote, -⟩ := opened_of_call called
  obtain rfl : record' = record := by simpa [recordAt] using opened.recordAt.symm
  obtain ⟨d, found, narrowed⟩ :=
    narrowed_of_rounds (by rw [wrote, Function.update_self]) (.opened opened) played
  have step : Step crypto w w₁ := .call who (.openDispute registry assertion) trivial trivial called
  have game := ((reachable.playing.step step).rounds played).games _ d found
  refine ⟨d, found, narrowed.few, fun last => (last ▸ narrowed).one_left, fun unresolved => ⟨?_, ?_⟩, ?_⟩
  · exact fun oneStep => (narrowed.shape.narrow oneStep).1
  · intro single
    cases stage : d.stage with
    | bisecting =>
      have wide := narrowed.shape.wide stage
      omega
    | oneStep => rfl
    | resolved => exact absurd stage unresolved
  · intro bisecting turn inTime affordable later commitments index offered inside
    have width := narrowed.share record'.traceLength.val (Nat.le_mul_of_pos_left _ (by positivity))
    have each : segments (d.hi.val - d.lo.val) = min 8 (d.hi.val - d.lo.val) := by
      have arity : DEFAULT_ARITY.val = 8 := rfl
      have proper := narrowed.shape.proper
      rw [segments_eq, arity]
      omega
    rw [← each] at offered inside
    obtain ⟨d₁, d₂, dissected, selected⟩ := dissected_then_selected bisecting turn narrowed.shape game.since inTime
      affordable later (by omega) offered inside
    exact round_of_moves found game.apart dissected selected

/-- A transaction of ten steps is posted and challenged. -/
def tenStepsScript : List (L1 → Event) :=
  [fun w => .call (.fill 32 2) (w.lasting 10), fun w => .call (.fill 32 3) (.openChallenge (w.idAt 1) 0)]

/-- A game over ten steps is down to one of them after two rounds. -/
theorem ten_steps_take_two_rounds : ∃ w w₁ w' d, Reachable hashing floorDeployment w ∧
    w.call hashing (.fill 32 3) (.openDispute (.fill 32 1) (w.idAt 1)) = .ok w₁ ∧ Rounds hashing w.gameKey w₁ 2 w' ∧
    w'.games w.gameKey = some d ∧ d.hi.val = d.lo.val + 1 := by
  obtain ⟨w, played, ⟨record, recordAt, length⟩, w₁, opened, w₂, dissected, w₃, selected, w₄, dissected', w₅, selected'⟩ :
      ∃ w ∈ scenario (fun _ _ _ => True) hashing floorDeployment 0 tenStepsScript,
        (∃ record ∈ w.chain.assertions (w.idAt 1), record.traceLength = 10) ∧
        ∃ w₁, w.call hashing (.fill 32 3) (.openDispute (.fill 32 1) (w.idAt 1)) = .ok w₁ ∧
        ∃ w₂, w₁.call hashing (.fill 32 2) (.dissect w.gameKey (.replicate 7 [])) = .ok w₂ ∧
        ∃ w₃, w₂.call hashing (.fill 32 3) (.select w.gameKey 3) = .ok w₃ ∧
        ∃ w₄, w₃.call hashing (.fill 32 2) (.dissect w.gameKey [[]]) = .ok w₄ ∧
        ∃ w₅, w₄.call hashing (.fill 32 3) (.select w.gameKey 1) = .ok w₅ := by
    decide +kernel
  have reachable := reachable_of_scenario played
  have first : Rounds hashing w.gameKey w₁ 1 w₃ :=
    .round (.other .start (.call _ (.dissect w.gameKey _) trivial (fun _ => nofun) dissected)) 3 selected
  have both : Rounds hashing w.gameKey w₁ 2 w₅ :=
    .round (.other first (.call _ (.dissect w.gameKey _) trivial (fun _ => nofun) dissected')) 1 selected'
  obtain ⟨d, found, -, narrow, -⟩ := (bisection_always_narrows hashing).2 floorDeployment w _ _ _ w₁ record reachable
    opened recordAt (by rw [length]; decide) 2 w₅ both
  exact ⟨w, w₁, w₅, d, reachable, opened, both, found, narrow (by rw [length]; rfl)⟩

end Fraudproof
end Sena
