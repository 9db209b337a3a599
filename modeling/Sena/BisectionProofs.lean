import Sena.Bisection
import Sena.Endings

/-! The node's dispute beside the contract's.

The two agree on everything but the deadline, whatever is played. The contract
shortens a deadline to what is left of a clock, the node to a whole budget: the
deadlines agree while the party a deadline is set for has a full turn left. -/
namespace Sena.Fraudproof

open Move
open Disputes (Party segments Dissected Selected Opened Charged)
open L1 (Reachable Playing Step)

theorem mapM_eq_some_of_forall₂ {f : α → Option β} {as : List α}
    (each : List.Forall₂ (fun a b => f a = some b) as bs) : as.mapM f = some bs := by
  induction each with
  | nil => rfl
  | cons first _ ih => simp [first, ih]

theorem segments_eq (span : Nat) : segments span = max (min DEFAULT_ARITY.val span) 1 := by
  have arity : Disputes.ARITY.val = DEFAULT_ARITY.val := rfl
  unfold segments
  split <;> omega

theorem boundaries_of_contract (bounded : Disputes.boundaries lo hi = .ok bounds) :
    boundaries lo hi DEFAULT_ARITY = some bounds := by
  obtain ⟨ordered, each⟩ := Disputes.bounds_iff_forall₂.mp (Disputes.boundaries_eq_ok.mp bounded)
  rw [boundaries, if_pos ordered]
  simp only [← segments_eq]
  refine mapM_eq_some_of_forall₂ (each.imp ?_)
  rintro i p ⟨product, here⟩
  have fits : lo.val + (hi.val - lo.val) * i / segments (hi.val - lo.val) < 2 ^ 64 := by
    rw [← Disputes.boundaryAt, ← here]
    exact p.isLt
  rw [dif_pos ⟨product, fits⟩]
  exact congrArg some (Fin.ext here.symm)

/-- The stage as the contract stores it: the stage, whether a division is offered, and
which. -/
def Stage.stored : Stage → Disputes.Stage × Bool × List Bytes
  | .bisecting none => (.bisecting, false, [])
  | .bisecting (some offered) => (.bisecting, true, offered.map (·.bytes))
  | .oneStep => (.oneStep, false, [])
  | .resolved _ _ => (.resolved, false, [])

/-- The two disputes agree on everything but the deadline. -/
structure Mirrors (d : Disputes.Dispute) (r : Dispute) : Prop where
  lo : d.lo = r.lo
  hi : d.hi = r.hi
  loCommitment : d.loCommitment = r.loCommitment.bytes
  hiCommitment : d.hiCommitment = r.hiCommitment.bytes
  stage : (d.stage, d.hasOffer, d.offered) = r.stage.stored
  turn : d.turn = r.turn
  defenderClock : d.defenderClock = r.defenderClock
  challengerClock : d.challengerClock = r.challengerClock
  lastMoveAt : d.lastMoveAt = r.lastMoveAt

/-- How the node's deadline comes about. -/
structure Timely (d : Disputes.Dispute) (r : Dispute) : Prop where
  unresolved : d.stage ≠ .resolved
  arity : r.arity = DEFAULT_ARITY
  budget : MOVE_TIMEOUT.val ≤ r.clockBudget.val
  deadline : r.deadline = saturatingAdd r.lastMoveAt (min MOVE_TIMEOUT r.clockBudget)
  within : d.deadline.val ≤ r.deadline.val

variable {d d' : Disputes.Dispute} {r r' : Dispute} {now : U64}

theorem Mirrors.clock (mirrors : Mirrors d r) (party : Party) : d.clock party = r.clock party := by
  cases party
  · exact mirrors.defenderClock
  · exact mirrors.challengerClock

theorem Mirrors.isResolved (mirrors : Mirrors d r) : r.isResolved = true ↔ d.stage = .resolved := by
  have stage : d.stage = r.stage.stored.1 := congrArg Prod.fst mirrors.stage
  rw [stage, Dispute.isResolved]
  cases r.stage with
  | bisecting offered => cases offered <;> simp [Stage.stored]
  | oneStep => simp [Stage.stored]
  | resolved => simp [Stage.stored]

/-- A mover the contract charges is charged the same. -/
theorem Mirrors.charged (mirrors : Mirrors d r) (timely : Timely d r) (charged : Charged d now party left) :
    Dispute.Charged r now party left := by
  obtain ⟨unresolved, turn, inTime, since, affordable, paid⟩ := charged
  rw [mirrors.clock] at affordable paid
  rw [mirrors.lastMoveAt] at since affordable paid
  refine ⟨?_, since, mirrors.turn ▸ turn, Nat.le_trans inTime timely.within, affordable, paid⟩
  rw [← Bool.not_eq_true, mirrors.isResolved]
  exact unresolved

theorem deadline_le {budget : U64} (full : MOVE_TIMEOUT.val ≤ budget.val) {deadline : U64}
    (set : deadline.val = now.val + (Disputes.allowance clock).val) :
    deadline.val ≤ (saturatingAdd now (min MOVE_TIMEOUT budget)).val := by
  have turn : min MOVE_TIMEOUT budget = MOVE_TIMEOUT := min_eq_left full
  have timeout : Disputes.MOVE_TIMEOUT.val = MOVE_TIMEOUT.val := rfl
  have bounded := deadline.isLt
  rw [Disputes.allowance_val] at set
  rw [turn]
  simp only [saturatingAdd]
  omega

theorem Mirrors.dissected {commitments : List Hash256} (mirrors : Mirrors d r) (timely : Timely d r)
    (dissected : Dissected d now (commitments.map (·.bytes)) d') :
    ∃ r', r.dissect now commitments = some (r', .ok ()) ∧ Mirrors d' r' ∧ Timely d' r' := by
  obtain ⟨bounds, bounded, length⟩ := dissected.bounded
  obtain ⟨left, deadline, charged, set, rfl⟩ := dissected.result
  have stage := dissected.stage
  have turn : r.turn = .defender := mirrors.turn ▸ charged.turn
  have bisecting : ∃ offered, r.stage = .bisecting offered := by
    have same : d.stage = r.stage.stored.1 := congrArg Prod.fst mirrors.stage
    rw [stage] at same
    cases at' : r.stage with
    | bisecting offered => exact ⟨offered, rfl⟩
    | oneStep => simp [at', Stage.stored] at same
    | resolved => simp [at', Stage.stored] at same
  obtain ⟨offered, bisecting⟩ := bisecting
  have bounds_eq : r.boundaries = some bounds := by
    rw [Dispute.boundaries, timely.arity, ← mirrors.lo, ← mirrors.hi]
    exact boundaries_of_contract bounded
  rw [List.length_map] at length
  have played : r.dissect now commitments =
      some ({ r.setClock .defender left with stage := .bisecting (some commitments) }.passTurn now, .ok ()) := by
    simp only [Dispute.dissect, Dispute.beginMove_of_charged (mirrors.charged timely charged),
      Dispute.setClock_stage, bisecting, Dispute.setClock_boundaries, bounds_eq, length]
    simp
  refine ⟨_, played, ?_, ?_⟩
  · exact ⟨mirrors.lo, mirrors.hi, mirrors.loCommitment, mirrors.hiCommitment, by simp [stage, Stage.stored, Dispute.passTurn],
      by simp [Dispute.passTurn, Dispute.setClock, turn, Party.other], rfl, mirrors.challengerClock, rfl⟩
  · exact ⟨by simp [stage], timely.arity, timely.budget, rfl, deadline_le timely.budget set⟩

theorem Mirrors.selected {index : U64} (mirrors : Mirrors d r) (timely : Timely d r)
    (selected : Selected d now index.val d') :
    ∃ r', r.select now index.val = some (r', .ok ()) ∧ Mirrors d' r' ∧ Timely d' r' := by
  obtain ⟨bounds, left, deadline, lo, hi, loCommitment, hiCommitment, bounded, inside, loAt, hiAt, loCommitmentAt,
    hiCommitmentAt, charged, _, set, rfl⟩ := selected.result
  have stage := selected.stage
  have offer := selected.offer
  have turn : r.turn = .challenger := mirrors.turn ▸ charged.turn
  have offering : ∃ offered : List Hash256, r.stage = .bisecting (some offered) ∧ d.offered = offered.map (·.bytes) := by
    have same := mirrors.stage
    rw [stage, offer] at same
    cases at' : r.stage with
    | bisecting offered =>
      cases offered with
      | none => simp [at', Stage.stored] at same
      | some offered => exact ⟨offered, rfl, by simpa [at', Stage.stored] using same⟩
    | oneStep => simp [at', Stage.stored] at same
    | resolved => simp [at', Stage.stored] at same
  obtain ⟨offered, offering, offers⟩ := offering
  have bounds_eq : r.boundaries = some bounds := by
    rw [Dispute.boundaries, timely.arity, ← mirrors.lo, ← mirrors.hi]
    exact boundaries_of_contract bounded
  have all : d.all = (r.loCommitment :: offered ++ [r.hiCommitment]).map (·.bytes) := by
    simp [Disputes.Dispute.all, offers, mirrors.loCommitment, mirrors.hiCommitment]
  rw [all, List.getElem?_map, Option.map_eq_some_iff] at loCommitmentAt hiCommitmentAt
  obtain ⟨loHash, loHashAt, rfl⟩ := loCommitmentAt
  obtain ⟨hiHash, hiHashAt, rfl⟩ := hiCommitmentAt
  have played : r.select now index.val = some (({ r.setClock .challenger left with
      lo, hi, loCommitment := loHash, hiCommitment := hiHash, stage := .bisecting none }.passTurn now).enterOneStepIfNarrow,
        .ok ()) := by
    have begun := Dispute.beginMove_of_charged (mirrors.charged timely charged)
    have commitments : (r.setClock .challenger left).loCommitment = r.loCommitment ∧
      (r.setClock .challenger left).hiCommitment = r.hiCommitment := ⟨rfl, rfl⟩
    simp only [Dispute.select, begun, Dispute.setClock_stage, offering, Dispute.setClock_boundaries, bounds_eq,
      commitments.1, commitments.2, Option.bind_eq_bind, Option.bind_some, if_neg (Nat.not_le.mpr inside), loAt, hiAt,
      loHashAt, hiHashAt, Option.pure_def]
  refine ⟨_, played, ?_, ?_⟩
  · by_cases one : hi.val - lo.val = 1
    · simp only [Dispute.enterOneStepIfNarrow, Dispute.passTurn, one, if_true]
      exact ⟨rfl, rfl, rfl, rfl, rfl, rfl, mirrors.defenderClock, rfl, rfl⟩
    · simp only [Dispute.enterOneStepIfNarrow, Dispute.passTurn, one, if_false]
      exact ⟨rfl, rfl, rfl, rfl, rfl, by simp [Dispute.setClock, turn, Party.other], mirrors.defenderClock, rfl, rfl⟩
  · by_cases one : hi.val - lo.val = 1
    · simp only [Dispute.enterOneStepIfNarrow, Dispute.passTurn, one, if_true]
      exact ⟨by simp, timely.arity, timely.budget, rfl, deadline_le timely.budget set⟩
    · simp only [Dispute.enterOneStepIfNarrow, Dispute.passTurn, one, if_false]
      exact ⟨by simp, timely.arity, timely.budget, rfl, deadline_le timely.budget set⟩

/-- Both disputes as they open on the same terms. -/
structure SameTerms (crypto : Crypto) (w : L1) (record : Assertions.Assertion) (opening : Opening) : Prop where
  traceLength : opening.traceLength = record.traceLength
  window : opening.challengeWindow = w.chain.challengeWindow
  agreed : Osp.commitMachineState crypto ⟨record.preStateRoot, 0⟩ = .ok opening.loCommitment.bytes
  disputed : Osp.commitMachineState crypto ⟨record.postStateRoot, record.traceLength⟩ = .ok opening.hiCommitment.bytes

variable {crypto : Crypto} {w w' : L1} {who : Address} {assertion : Bytes} {record : Assertions.Assertion}
  {opening : Opening}

theorem mirrors_opened (opened : Opened crypto w who registry assertion record d) (terms : SameTerms crypto w record opening) :
    Mirrors d (Dispute.open opening w.now) := by
  obtain ⟨lo, hi⟩ := opened.interval
  obtain ⟨offered, hasOffer⟩ := opened.noOffer
  obtain ⟨defender, challenger, last, _⟩ := opened.clocks
  have agreed : d.loCommitment = opening.loCommitment.bytes := Except.ok.inj (opened.agreed.symm.trans terms.agreed)
  have disputed : d.hiCommitment = opening.hiCommitment.bytes := Except.ok.inj (opened.disputed.symm.trans terms.disputed)
  have budget : Disputes.clockBudget w.chain.challengeWindow = clockBudget opening.challengeWindow := by
    rw [terms.window]
    rfl
  rw [budget] at defender challenger
  have span : opening.traceLength.val - (0 : U64).val = record.traceLength.val := by
    rw [terms.traceLength]
    rfl
  have starts := opened.starts
  split at starts
  · rename_i single
    simp only [Dispute.open, Dispute.enterOneStepIfNarrow, span, single, if_true]
    exact ⟨lo, hi.trans terms.traceLength.symm, agreed, disputed, by rw [starts.1, hasOffer, offered]; rfl, starts.2,
      defender, challenger, last⟩
  · rename_i several
    simp only [Dispute.open, Dispute.enterOneStepIfNarrow, span, several, if_false]
    exact ⟨lo, hi.trans terms.traceLength.symm, agreed, disputed, by rw [starts.1, hasOffer, offered]; rfl, starts.2,
      defender, challenger, last⟩

theorem full_turn {window : U64} (floor : Assertions.CHALLENGE_WINDOW_FLOOR.val ≤ window.val) :
    MOVE_TIMEOUT.val ≤ (clockBudget window).val := by
  have timeout : MOVE_TIMEOUT.val = 21600 := rfl
  have least : Assertions.CHALLENGE_WINDOW_FLOOR.val = 86400 := rfl
  have quarter : (clockBudget window).val = window.val / 4 := rfl
  omega

theorem timely_opened (opened : Opened crypto w who registry assertion record d) (terms : SameTerms crypto w record opening)
    (floor : Assertions.CHALLENGE_WINDOW_FLOOR.val ≤ w.chain.challengeWindow.val) :
    Timely d (Dispute.open opening w.now) := by
  obtain ⟨_, _, _, set⟩ := opened.clocks
  rw [← terms.window] at floor
  have unresolved : d.stage ≠ .resolved := by
    have starts := opened.starts
    split at starts <;> simp [starts.1]
  have within := deadline_le (full_turn floor) set
  simp only [Dispute.open, Dispute.enterOneStepIfNarrow]
  split <;> exact ⟨unresolved, rfl, full_turn floor, rfl, within⟩

/-- The deadline leaves a full turn, and the party to move can afford it. -/
structure Roomy (d : Disputes.Dispute) : Prop where
  deadline : d.deadline.val = d.lastMoveAt.val + MOVE_TIMEOUT.val
  clock : MOVE_TIMEOUT.val ≤ (d.clock d.turn).val

/-- The party the next deadline is set for has a full turn left on its clock, and so has
the challenger when it keeps the turn. -/
def Unhurried (d : Disputes.Dispute) (now : U64) : Play → Prop
  | .dissect _ => MOVE_TIMEOUT.val ≤ d.challengerClock.val
  | .select index => MOVE_TIMEOUT.val ≤ d.defenderClock.val ∧
      (d.narrows index.val = true → MOVE_TIMEOUT.val + (now.val - d.lastMoveAt.val) ≤ d.challengerClock.val)

theorem allowance_of_full {clock : U64} (full : MOVE_TIMEOUT.val ≤ clock.val) :
    (Disputes.allowance clock).val = MOVE_TIMEOUT.val := by
  rw [Disputes.allowance_val]
  exact Nat.min_eq_left full

theorem roomy_opened (opened : Opened crypto w who registry assertion record d)
    (floor : Assertions.CHALLENGE_WINDOW_FLOOR.val ≤ w.chain.challengeWindow.val) : Roomy d := by
  obtain ⟨defender, challenger, last, set⟩ := opened.clocks
  have full : MOVE_TIMEOUT.val ≤ (Disputes.clockBudget w.chain.challengeWindow).val := full_turn floor
  rw [allowance_of_full full, ← last] at set
  refine ⟨set, ?_⟩
  cases d.turn with
  | defender =>
    change _ ≤ d.defenderClock.val
    rwa [defender]
  | challenger =>
    change _ ≤ d.challengerClock.val
    rwa [challenger]

theorem roomy_dissected (dissected : Dissected d now commitments d')
    (full : MOVE_TIMEOUT.val ≤ d.challengerClock.val) : Roomy d' := by
  obtain ⟨_, _, _, set, rfl⟩ := dissected.result
  rw [allowance_of_full full] at set
  exact ⟨set, full⟩

theorem roomy_selected {index : U64} (selected : Selected d now index.val d') (unhurried : Unhurried d now (.select index)) :
    Roomy d' := by
  obtain ⟨full, narrow⟩ := unhurried
  obtain ⟨bounds, left, deadline, lo, hi, _, _, bounded, _, loAt, hiAt, _, _, charged, _, set, rfl⟩ := selected.result
  have paid : left.val = d.challengerClock.val - (now.val - d.lastMoveAt.val) := charged.left_eq
  rw [allowance_of_full full] at set
  refine ⟨set, ?_⟩
  by_cases one : hi.val - lo.val = 1
  · have narrows : d.narrows index.val = true := by simp [Disputes.Dispute.narrows, bounded, loAt, hiAt, one]
    have enough := narrow narrows
    simp only [one, if_true, Disputes.Dispute.clock]
    omega
  · simp only [one, if_false, Disputes.Dispute.clock]
    exact full

theorem same_deadline (mirrors : Mirrors d r) (timely : Timely d r) (roomy : Roomy d) : d.deadline = r.deadline := by
  have turn : min MOVE_TIMEOUT r.clockBudget = MOVE_TIMEOUT := min_eq_left timely.budget
  have bounded := d.deadline.isLt
  have set := roomy.deadline
  apply Fin.ext
  rw [timely.deadline, turn, ← mirrors.lastMoveAt]
  simp only [saturatingAdd]
  omega

/-- The call on L1 that plays a move. -/
def Play.call (g : Disputes.GameId) : Play → Call
  | .dissect commitments => .dissect g (commitments.map (·.bytes))
  | .select index => .select g index

/-- A move that L1 accepts, at a time not before the last, made when `allowed`. -/
def PlaysOnL1 (crypto : Crypto) (g : Disputes.GameId) (allowed : Disputes.Dispute → U64 → Play → Prop) (w : L1)
    (m : U64 × Play) (w' : L1) : Prop :=
  w.now.val ≤ m.1.val ∧ (∀ d, w.games g = some d → allowed d m.1 m.2) ∧
    ∃ mover, { w with now := m.1 }.call crypto mover (m.2.call g) = .ok w'

/-- A move the node's dispute accepts. -/
def Accepts (r : Dispute) (m : U64 × Play) (r' : Dispute) : Prop := r.play m.1 m.2 = some (r', .ok ())

/-- The contract's game beside the node's. -/
structure Beside (crypto : Crypto) (g : Disputes.GameId) (w : L1) (r : Dispute) : Prop where
  playing : Playing crypto w
  game : ∃ d, w.games g = some d ∧ Mirrors d r ∧ Timely d r ∧ L1.Standing w.chain d

variable {g : Disputes.GameId} {m : U64 × Play}

/-- A move on L1 is one turn of the game. -/
theorem plays_cases (found : w.games g = some d)
    (plays : PlaysOnL1 crypto g allowed w m w') : ∃ d', w'.games g = some d' ∧
    (L1.Standing w.chain d → L1.Standing w'.chain d') ∧
    ((∃ commitments, m.2 = .dissect commitments ∧ Dissected d m.1 (commitments.map (·.bytes)) d') ∨
      ∃ index, m.2 = .select index ∧ Selected d m.1 index.val d') := by
  obtain ⟨_, _, mover, called⟩ := plays
  obtain ⟨now, p⟩ := m
  cases p with
  | dissect commitments =>
    obtain ⟨d₀, d', found', _, dissected, rfl⟩ := Disputes.dissected_of_dissect called
    obtain rfl : d₀ = d := Option.some.inj (found'.symm.trans found)
    refine ⟨d', by rw [L1.games_rewrite found', Function.update_self], ?_, .inl ⟨commitments, rfl, dissected⟩⟩
    obtain ⟨_, _, _, _, rfl⟩ := dissected.result
    exact fun standing => standing
  | select index =>
    obtain ⟨d₀, d', found', _, _, selected, rfl⟩ := Disputes.selected_of_select called
    obtain rfl : d₀ = d := Option.some.inj (found'.symm.trans found)
    refine ⟨d', by rw [L1.games_rewrite found', Function.update_self], ?_, .inr ⟨index, rfl, selected⟩⟩
    obtain ⟨_, _, _, _, _, _, _, _, _, _, _, _, _, _, _, _, rfl⟩ := selected.result
    exact fun standing => standing

/-- The node's dispute accepts what L1 accepts. -/
theorem Beside.plays (beside : Beside crypto g w r)
    (plays : PlaysOnL1 crypto g allowed w m w') : ∃ r', Accepts r m r' ∧ Beside crypto g w' r' := by
  obtain ⟨playing, d, found, mirrors, timely, standing⟩ := beside
  obtain ⟨d', found', kept, turn⟩ := plays_cases found plays
  obtain ⟨later, _, mover, called⟩ := plays
  have encodable : (m.2.call g).Encodable := by cases m.2 <;> trivial
  have tick : Step crypto w { w with now := m.1 } := .tick m.1 later
  have playing' := (playing.step tick).step (show Step crypto _ w' from .call mover _ encodable trivial called)
  rcases turn with ⟨commitments, same, dissected⟩ | ⟨index, same, selected⟩
  · obtain ⟨r', played, mirrors', timely'⟩ := mirrors.dissected timely dissected
    exact ⟨r', by rw [Accepts, same]; exact played, playing', d', found', mirrors', timely', kept standing⟩
  · obtain ⟨r', played, mirrors', timely'⟩ := mirrors.selected timely selected
    exact ⟨r', by rw [Accepts, same]; exact played, playing', d', found', mirrors', timely', kept standing⟩

theorem roomy_plays (found : w.games g = some d) (plays : PlaysOnL1 crypto g Unhurried w m w') :
    ∃ d', w'.games g = some d' ∧ Roomy d' := by
  obtain ⟨d', found', _, turn⟩ := plays_cases found plays
  have unhurried := plays.2.1 d found
  refine ⟨d', found', ?_⟩
  rcases turn with ⟨commitments, same, dissected⟩ | ⟨index, same, selected⟩
  · rw [same] at unhurried
    exact roomy_dissected dissected unhurried
  · rw [same] at unhurried
    exact roomy_selected selected unhurried

theorem beside_opened {w₁ : L1} (reachable : Reachable crypto plan w)
    (floor : Assertions.CHALLENGE_WINDOW_FLOOR.val ≤ w.chain.challengeWindow.val)
    (opened : w.call crypto who (.openDispute registry assertion) = .ok w₁)
    (recordAt : w.chain.assertions assertion = some record) (terms : SameTerms crypto w record opening) :
    Beside crypto ⟨registry, Disputes.disputeId assertion who⟩ w₁ (Dispute.open opening w.now) ∧
      ∃ d, w₁.games ⟨registry, Disputes.disputeId assertion who⟩ = some d ∧ Roomy d := by
  have step : Step crypto w w₁ := .call who (.openDispute registry assertion) trivial trivial opened
  obtain ⟨record', d, game, wrote, rfl⟩ := L1.opened_of_call opened
  obtain rfl : record' = record := by simpa [recordAt] using game.recordAt.symm
  have found := congrFun wrote ⟨registry, Disputes.disputeId assertion who⟩
  rw [Function.update_self] at found
  have standing : L1.Standing w.chain d := by
    rw [L1.Standing, game.parties.1, game.parties.2.2]
    exact .inl game.challenging
  exact ⟨⟨reachable.playing.step step, d, found, mirrors_opened game terms, timely_opened game terms floor, standing⟩,
    d, found, roomy_opened game floor⟩

/-- A timeout is accepted on L1 when the node's dispute is resolved by one, for the same
winner. -/
theorem Beside.timeout (beside : Beside crypto g w r) (free : w.chain.Unblocked) (found : w.games g = some d)
    (roomy : Roomy d) (anyone : Address) (winner : Party) :
    (∃ w' d', w.call crypto anyone (.claimTimeout g) = .ok w' ∧ w'.games g = some d' ∧
      d'.winner = some winner) ↔ (r.checkTimeout w.now).2 = some winner := by
  obtain ⟨playing, d₁, found₁, mirrors, timely, standing⟩ := beside
  obtain rfl : d = d₁ := by simpa [found] using found₁
  have same := same_deadline mirrors timely roomy
  have turn := mirrors.turn
  have unresolved : r.isResolved = false := by
    rw [← Bool.not_eq_true, mirrors.isResolved]
    exact timely.unresolved
  have due : d.deadline.val < w.now.val ∨ (d.clock d.turn).val < w.now.val - d.lastMoveAt.val ↔
      r.deadline.val < w.now.val := by
    obtain ⟨deadline, clock⟩ := roomy
    rw [← same]
    omega
  have checked : (r.checkTimeout w.now).2 = some winner ↔ r.deadline.val < w.now.val ∧ r.turn.other = winner := by
    by_cases late : r.deadline.val < w.now.val
    · simp [Dispute.checkTimeout, unresolved, Nat.not_le.mpr late, late]
    · simp [Dispute.checkTimeout, Nat.not_lt.mp late, late]
  rw [checked, ← due, ← turn]
  constructor
  · rintro ⟨w', d', claimed, found', won⟩
    obtain ⟨d₀, _, found₀, _, late, _, rfl⟩ := Disputes.settles_of_claimTimeout claimed
    obtain rfl : d = d₀ := by simpa [found] using found₀
    rw [L1.games_settled found, Function.update_self, Option.some.injEq] at found'
    subst found'
    exact ⟨late, Option.some.inj won⟩
  · rintro ⟨late, rfl⟩
    obtain ⟨w', claimed⟩ := (L1.claimTimeout_accepts playing found timely.unresolved free).mpr ⟨late, standing⟩
    obtain ⟨d₀, _, found₀, _, _, _, rfl⟩ := Disputes.settles_of_claimTimeout claimed
    obtain rfl : d = d₀ := by simpa [found] using found₀
    exact ⟨_, _, claimed, by rw [L1.games_settled found, Function.update_self], rfl⟩

/-- While each deadline is set for a party with a full turn left, the node's dispute
accepts what L1 accepts and stays the same in every field, and a timeout is due on both
at the same time. -/
theorem dispute_keeps_l1_time_rules {plan : L1.Deployment} {w₁ : L1} {moves : List (U64 × Play)}
    (reachable : Reachable crypto plan w)
    (floor : Assertions.CHALLENGE_WINDOW_FLOOR.val ≤ w.chain.challengeWindow.val)
    (opened : w.call crypto who (.openDispute registry assertion) = .ok w₁)
    (recordAt : w.chain.assertions assertion = some record) (terms : SameTerms crypto w record opening)
    (ran : Run (PlaysOnL1 crypto ⟨registry, Disputes.disputeId assertion who⟩ Unhurried) w₁ moves w') :
    ∃ d r, w'.games ⟨registry, Disputes.disputeId assertion who⟩ = some d ∧
      Run Accepts (Dispute.open opening w.now) moves r ∧ Mirrors d r ∧ d.deadline = r.deadline ∧
      (w'.chain.Unblocked → ∀ later : U64, w'.now.val ≤ later.val → ∀ anyone winner,
        (∃ w'' d'', { w' with now := later }.call crypto anyone
          (.claimTimeout ⟨registry, Disputes.disputeId assertion who⟩) = .ok w'' ∧
            w''.games ⟨registry, Disputes.disputeId assertion who⟩ = some d'' ∧ d''.winner = some winner) ↔
          (r.checkTimeout later).2 = some winner) := by
  obtain ⟨r, accepted, after, d, found, roomy⟩ := ran.simulate
    (fun w r => Beside crypto ⟨registry, Disputes.disputeId assertion who⟩ w r ∧
      ∃ d, w.games ⟨registry, Disputes.disputeId assertion who⟩ = some d ∧ Roomy d)
    (fun _ _ _ _ _ beside plays => by
      obtain ⟨beside, d, found, _⟩ := beside
      obtain ⟨r', accepted, after⟩ := beside.plays plays
      exact ⟨r', accepted, after, roomy_plays found plays⟩)
    (beside_opened reachable floor opened recordAt terms)
  obtain ⟨d', found', mirrors, timely, standing⟩ := after.game
  obtain rfl : d' = d := by simpa [found] using found'.symm
  refine ⟨d', r, found, accepted, mirrors, same_deadline mirrors timely roomy,
    fun free later waited anyone winner => ?_⟩
  have waits : Beside crypto ⟨registry, Disputes.disputeId assertion who⟩ { w' with now := later } r :=
    ⟨after.playing.step (show Step crypto w' _ from .tick later waited), d', found, mirrors, timely, standing⟩
  exact waits.timeout free found roomy anyone winner

theorem exists_sameTerms (opened : Opened crypto w who registry assertion record d) :
    ∃ opening, SameTerms crypto w record opening := by
  have agreed := opened.agreed
  have disputed := opened.disputed
  unfold Osp.commitMachineState at agreed disputed
  obtain ⟨_, lo⟩ := Codec.digest_eq_ok.mp agreed
  obtain ⟨_, hi⟩ := Codec.digest_eq_ok.mp disputed
  exact ⟨⟨Hash256.zero, 0, 0, record.traceLength, _, _, w.chain.challengeWindow⟩, rfl, rfl, lo ▸ opened.agreed,
    hi ▸ opened.disputed⟩

/-- The one inner commitment of a game over two steps. -/
def middle : Hash256 := .fill 32 2

/-- A game of two steps played without delay: a timeout is due on both sides a second
after the challenger's turn has passed. -/
theorem prompt_game_is_mirrored : ∃ w w₁ w' d r w'' d'', Reachable L1.hashing L1.floorDeployment w ∧
    w.call L1.hashing (.fill 32 3) (.openDispute (.fill 32 1) (w.idAt 1)) = .ok w₁ ∧
    { w₁ with now := 0 }.call L1.hashing (.fill 32 2) (.dissect w.gameKey [middle.bytes]) = .ok w' ∧
    w'.games w.gameKey = some d ∧ Mirrors d r ∧ d.deadline = r.deadline ∧
    (r.checkTimeout 21601).2 = some .defender ∧
    { w' with now := 21601 }.call L1.hashing (.fill 32 9) (.claimTimeout w.gameKey) = .ok w'' ∧
    w''.games w.gameKey = some d'' ∧ d''.winner = some .defender := by
  obtain ⟨w, played, zero, window, w₁, opened, ⟨d₁, found₁, full⟩, w', dissects, d, found, deadline, turn, stage⟩ :
      ∃ w ∈ L1.scenario (fun _ _ _ => True) L1.hashing L1.floorDeployment 0 L1.challengeScript,
        w.now = 0 ∧ w.chain.challengeWindow = 86400 ∧
        ∃ w₁, w.call L1.hashing (.fill 32 3) (.openDispute (.fill 32 1) (w.idAt 1)) = .ok w₁ ∧
          (∃ d ∈ w₁.games w.gameKey, 21600 ≤ d.challengerClock.val) ∧
          ∃ w', { w₁ with now := 0 }.call L1.hashing (.fill 32 2) (.dissect w.gameKey [middle.bytes]) = .ok w' ∧
            ∃ d ∈ w'.games w.gameKey, d.deadline = 21600 ∧ d.turn = .challenger ∧ d.stage = .bisecting := by
    decide +kernel
  have reachable := L1.reachable_of_scenario played
  have now : w₁.now = 0 := (L1.effect_of_call opened).now.trans zero
  obtain ⟨record, d₀, game⟩ : ∃ record d₀, Opened L1.hashing w (.fill 32 3) (.fill 32 1) (w.idAt 1) record d₀ := by
    obtain ⟨_, _, game, _⟩ := L1.opened_of_call opened
    exact ⟨_, _, game⟩
  obtain ⟨opening, terms⟩ := exists_sameTerms game
  have plays : PlaysOnL1 L1.hashing w.gameKey Unhurried w₁ (0, .dissect [middle]) w' := by
    refine ⟨by rw [now], fun d₂ found₂ => ?_, .fill 32 2, dissects⟩
    obtain rfl : d₁ = d₂ := Option.some.inj (found₁.symm.trans found₂)
    exact full
  have floor : Assertions.CHALLENGE_WINDOW_FLOOR.val ≤ w.chain.challengeWindow.val := by
    rw [window]
    decide
  obtain ⟨d', r, found', _, mirrors, same, timeouts⟩ :=
    dispute_keeps_l1_time_rules reachable floor opened game.recordAt terms (Run.singleton_iff.mpr plays)
  obtain rfl : d = d' := Option.some.inj (found.symm.trans found')
  have later : w'.now.val ≤ (21601 : U64).val := by
    have same : w'.now = 0 := (L1.effect_of_call dissects).now
    rw [same]
    decide
  have unresolved : r.isResolved = false := by
    rw [← Bool.not_eq_true, mirrors.isResolved]
    simp [stage]
  have due : (r.checkTimeout 21601).2 = some .defender := by
    have late : ¬(21601 : U64).val ≤ r.deadline.val := by
      rw [← same, deadline]
      decide
    rw [Dispute.checkTimeout, if_neg (by simp only [unresolved, late]; decide), ← mirrors.turn, turn]
    rfl
  have free : w'.chain.Unblocked := by
    obtain ⟨_, _, _, _, rfl⟩ := L1.opened_of_call opened
    obtain ⟨_, _, _, _, _, rfl⟩ := Disputes.dissected_of_dissect dissects
    exact reachable.unblocked fun _ _ => rfl
  obtain ⟨w'', d'', claimed, found'', won⟩ := (timeouts free 21601 later (.fill 32 9) .defender).mpr due
  exact ⟨w, w₁, w', d, r, w'', d'', reachable, opened, dissects, found, mirrors, same, due, claimed, found'', won⟩

/-- The defender divides the interval after a second and the challenger narrows it at
once. L1 takes the second off the next deadline, the node does not. -/
theorem spent_second_shortens_deadline : ∃ w w₁ w' record opening d r w'', Reachable L1.hashing L1.floorDeployment w ∧
    w.call L1.hashing (.fill 32 3) (.openDispute (.fill 32 1) (w.idAt 1)) = .ok w₁ ∧
    w.chain.assertions (w.idAt 1) = some record ∧ SameTerms L1.hashing w record opening ∧
    Run (PlaysOnL1 L1.hashing w.gameKey fun _ _ _ => True) w₁ [(1, .dissect [middle]), (1, .select 0)] w' ∧
    Run Accepts (Dispute.open opening w.now) [(1, .dissect [middle]), (1, .select 0)] r ∧
    w'.games w.gameKey = some d ∧ d.deadline = 21600 ∧ r.deadline = 21601 ∧
    { w' with now := 21601 }.call L1.hashing (.fill 32 9) (.claimTimeout w.gameKey) = .ok w'' ∧
    (r.checkTimeout 21601).2 = none := by
  obtain ⟨w, played, zero, window, w₁, opened, w₂, dissects, w', selects, ⟨d, found, deadline, last⟩, w'', claimed⟩ :
      ∃ w ∈ L1.scenario (fun _ _ _ => True) L1.hashing L1.floorDeployment 0 L1.challengeScript,
        w.now = 0 ∧ w.chain.challengeWindow = 86400 ∧
        ∃ w₁, w.call L1.hashing (.fill 32 3) (.openDispute (.fill 32 1) (w.idAt 1)) = .ok w₁ ∧
        ∃ w₂, { w₁ with now := 1 }.call L1.hashing (.fill 32 2) (.dissect w.gameKey [middle.bytes]) = .ok w₂ ∧
        ∃ w', { w₂ with now := 1 }.call L1.hashing (.fill 32 3) (.select w.gameKey 0) = .ok w' ∧
          (∃ d ∈ w'.games w.gameKey, d.deadline = 21600 ∧ d.lastMoveAt = 1) ∧
          ∃ w'', { w' with now := 21601 }.call L1.hashing (.fill 32 9) (.claimTimeout w.gameKey) = .ok w'' := by
    decide +kernel
  have reachable := L1.reachable_of_scenario played
  have now₁ : w₁.now = 0 := (L1.effect_of_call opened).now.trans zero
  have now₂ : w₂.now = 1 := (L1.effect_of_call dissects).now
  obtain ⟨record, d₁, game⟩ : ∃ record d₁, Opened L1.hashing w (.fill 32 3) (.fill 32 1) (w.idAt 1) record d₁ := by
    obtain ⟨_, _, game, _⟩ := L1.opened_of_call opened
    exact ⟨_, _, game⟩
  obtain ⟨opening, terms⟩ := exists_sameTerms game
  have floor : Assertions.CHALLENGE_WINDOW_FLOOR.val ≤ w.chain.challengeWindow.val := by
    rw [window]
    decide
  have onL1 : Run (PlaysOnL1 L1.hashing w.gameKey fun _ _ _ => True) w₁ [(1, .dissect [middle]), (1, .select 0)] w' := by
    refine ⟨w₂, ⟨?_, fun _ _ => trivial, _, dissects⟩, w', ⟨?_, fun _ _ => trivial, _, selects⟩, rfl⟩
    · rw [now₁]
      decide
    · rw [now₂]
  obtain ⟨r, accepted, _, d', found', mirrors, timely, _⟩ := onL1.simulate (Beside L1.hashing w.gameKey)
    (fun _ _ _ _ _ beside plays => beside.plays plays)
    (beside_opened reachable floor opened game.recordAt terms).1
  obtain rfl : d = d' := Option.some.inj (found.symm.trans found')
  have due : r.deadline = 21601 := by
    have turn : min MOVE_TIMEOUT r.clockBudget = MOVE_TIMEOUT := min_eq_left timely.budget
    rw [timely.deadline, turn, ← mirrors.lastMoveAt, last]
    decide
  have waits : (r.checkTimeout 21601).2 = none := by simp [Dispute.checkTimeout, due]
  exact ⟨w, w₁, w', record, opening, d, r, w'', reachable, opened, game.recordAt, terms, onL1, accepted, found,
    deadline, due, claimed, waits⟩

end Sena.Fraudproof
