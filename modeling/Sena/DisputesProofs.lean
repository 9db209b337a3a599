import Sena.ChainInvariant
import Sena.Disputes

/-! What an accepted call on a dispute registry did.

Every call on a game changes that game: it opens it, plays a turn of it or resolves it. -/
namespace Sena

open Move Assertions

namespace L1

open Disputes

variable {w : L1} {g : GameId} {d : Dispute}

@[simp] theorem game_eq_ok : w.game g = .ok d ↔ w.games g = some d := by
  simp [game, games, bind_eq_ok, fetch_eq_ok, Option.bind_eq_some_iff]

theorem games_eq_some : w.games g = some d ↔
    ∃ r, w.registries g.registry = some r ∧ r.disputes g.id = some d := Option.bind_eq_some_iff

/-- A write at one game, in a registry that exists, leaves all the others. -/
theorem games_withGame (known : w.registries g.registry = some r) :
    (w.withGame g d).games = Function.update w.games g (some d) := by
  funext other
  by_cases here : other.registry = g.registry
  · by_cases same : other.id = g.id
    · obtain rfl : other = g := by
        cases other
        cases g
        simp_all
      simp [games, withGame, known]
    · have apart : other ≠ g := fun equal => same (equal ▸ rfl)
      simp [games, withGame, here, known, same, apart]
  · have apart : other ≠ g := fun equal => here (equal ▸ rfl)
    simp [games, withGame, here, apart]

theorem games_rewrite (found : w.games g = some before) :
    (w.withGame g d).games = Function.update w.games g (some d) := by
  obtain ⟨_, known, _⟩ := games_eq_some.mp found
  exact games_withGame known

theorem games_settled (found : w.games g = some before) :
    ({ w with chain := c }.withGame g d).games = Function.update w.games g (some d) :=
  games_rewrite (w := { w with chain := c }) found

theorem withGame_withGame (w : L1) (g : GameId) (d d' : Dispute) :
    (w.withGame g d).withGame g d' = w.withGame g d' := by
  cases known : w.registries g.registry <;> simp [withGame, known]

end L1

namespace Disputes

variable {crypto : Crypto} {w w' : L1} {d d' : Dispute} {now : U64} {g : GameId}

/-- The mover was in time, and pays for the time taken. -/
structure Charged (d : Dispute) (now : U64) (party : Party) (left : U64) : Prop where
  unresolved : d.stage ≠ .resolved
  turn : d.turn = party
  inTime : now.val ≤ d.deadline.val
  since : d.lastMoveAt.val ≤ now.val
  affordable : now.val - d.lastMoveAt.val ≤ (d.clock party).val
  left_eq : left.val = (d.clock party).val - (now.val - d.lastMoveAt.val)

theorem beginMove_eq_ok : beginMove d now party = .ok d' ↔
    ∃ left, Charged d now party left ∧ d' = d.setClock party left := by
  simp only [beginMove, bind_eq_ok, ensure_eq_ok, sub_eq_ok, pure_iff]
  constructor
  · rintro ⟨_, unresolved, _, turn, _, inTime, elapsed, ⟨since, spent⟩, _, affordable, left, ⟨_, rest⟩, rfl⟩
    rw [spent] at affordable rest
    exact ⟨left, ⟨unresolved, turn, inTime, since, affordable, rest⟩, rfl⟩
  · rintro ⟨left, ⟨unresolved, turn, inTime, since, affordable, rest⟩, rfl⟩
    have fits : now.val - d.lastMoveAt.val < 2 ^ 64 := by omega
    exact ⟨(), unresolved, (), turn, (), inTime, ⟨_, fits⟩, ⟨since, rfl⟩, (), affordable, left,
      ⟨affordable, rest⟩, rfl⟩

theorem passTurn_eq_ok : passTurn d now = .ok d' ↔
    ∃ deadline : U64, deadline.val = now.val + (allowance (d.clock d.turn.other)).val ∧
      d' = { d with turn := d.turn.other, lastMoveAt := now, deadline } := by
  simp only [passTurn, bind_eq_ok, add_eq_ok, pure_iff]
  constructor
  · rintro ⟨deadline, set, rfl⟩
    exact ⟨deadline, set, rfl⟩
  · rintro ⟨deadline, set, rfl⟩
    exact ⟨deadline, set, rfl⟩

theorem partyOf_eq_challenger : partyOf d who = .ok .challenger ↔ who ≠ d.defender ∧ who = d.challenger := by
  unfold partyOf
  split
  · simp_all
  · split <;> simp_all

theorem partyOf_eq_defender : partyOf d who = .ok .defender ↔ who = d.defender := by
  unfold partyOf
  split
  · simp_all
  · split <;> simp_all

/-- An accepted dissection: the defender paid for its time, offered one
commitment for each inner boundary, and the turn is the challenger's. -/
structure Dissected (d : Dispute) (now : U64) (commitments : List Bytes) (d' : Dispute) : Prop where
  stage : d.stage = .bisecting
  bounded : ∃ bounds, boundaries d.lo d.hi = .ok bounds ∧ commitments.length = bounds.length - 2
  result : ∃ left deadline : U64, Charged d now .defender left ∧
    deadline.val = now.val + (allowance d.challengerClock).val ∧
    d' = { d with
      defenderClock := left, offered := commitments, hasOffer := true, turn := .challenger,
      lastMoveAt := now, deadline }

variable {assertion : Bytes} {registry : Address}

theorem dissected_of_dissect (accepted : dissect w who g commitments = .ok w') :
    ∃ d d', w.games g = some d ∧ who = d.defender ∧ Dissected d w.now commitments d' ∧
      w' = w.withGame g d' := by
  simp only [dissect, bind_eq_ok, L1.game_eq_ok, ensure_eq_ok, beginMove_eq_ok, passTurn_eq_ok,
    pure_iff] at accepted
  obtain ⟨d, found, party, mover, _, rfl, _, ⟨left, charged, rfl⟩, _, stage, bounds, bounded, _, fits, _,
    ⟨deadline, set, rfl⟩, rfl⟩ := accepted
  have turn := charged.turn
  simp only [Dispute.setClock, turn, Party.other, Dispute.clock] at *
  exact ⟨d, _, found, partyOf_eq_defender.mp mover,
    ⟨stage, ⟨bounds, bounded, fits⟩, left, deadline, charged, set, rfl⟩, rfl⟩

/-- The agreed, the offered and the disputed commitment, one for each boundary. -/
def Dispute.all (d : Dispute) : List Bytes := d.loCommitment :: d.offered ++ [d.hiCommitment]

/-- An accepted selection: the game narrows to the chosen segment. The deadline is
the one set for the defender, also where the turn stays with the challenger. -/
structure Selected (d : Dispute) (now : U64) (index : Nat) (d' : Dispute) : Prop where
  stage : d.stage = .bisecting
  offer : d.hasOffer = true
  result : ∃ (bounds : List U64) (left deadline lo hi : U64) (loCommitment hiCommitment : Bytes),
    boundaries d.lo d.hi = .ok bounds ∧ index < bounds.length - 1 ∧
    bounds[index]? = some lo ∧ bounds[index + 1]? = some hi ∧
    d.all[index]? = some loCommitment ∧ d.all[index + 1]? = some hiCommitment ∧
    Charged d now .challenger left ∧ lo.val ≤ hi.val ∧
    deadline.val = now.val + (allowance d.defenderClock).val ∧
    d' = { d with
      challengerClock := left, lo, hi, loCommitment, hiCommitment, offered := [], hasOffer := false,
      stage := if hi.val - lo.val = 1 then .oneStep else .bisecting
      turn := if hi.val - lo.val = 1 then .challenger else .defender
      lastMoveAt := now, deadline }

theorem selected_of_select (accepted : select w who g index = .ok w') :
    ∃ d d', w.games g = some d ∧ who ≠ d.defender ∧ who = d.challenger ∧
      Selected d w.now index.val d' ∧ w' = w.withGame g d' := by
  simp only [select, bind_eq_ok, L1.game_eq_ok, ensure_eq_ok, beginMove_eq_ok, passTurn_eq_ok,
    borrow_eq_ok, enterOneStepIfNarrow, sub_eq_ok, pure_iff] at accepted
  obtain ⟨d, found, party, mover, _, rfl, _, ⟨left, charged, rfl⟩, _, ⟨stage, offer⟩, bounds, bounded, _,
    inside, lo, loAt, hi, hiAt, loCommitment, loCommitmentAt, hiCommitment, hiCommitmentAt, _,
    ⟨deadline, set, rfl⟩, d', ⟨span, ⟨ordered, width⟩, narrowed⟩, rfl⟩ := accepted
  have turn := charged.turn
  obtain ⟨notDefender, challenger⟩ := partyOf_eq_challenger.mp mover
  simp only [Dispute.setClock, turn, Party.other, Dispute.clock] at *
  refine ⟨d, d', found, notDefender, challenger, ⟨stage, offer, bounds, left, deadline, lo, hi,
    loCommitment, hiCommitment, bounded, inside, loAt, hiAt, loCommitmentAt, hiCommitmentAt, charged,
    ordered, set, ?_⟩, rfl⟩
  rw [width] at narrowed
  split at narrowed
  · rename_i one
    cases narrowed
    simp [one]
  · rename_i wide
    cases narrowed
    simp [wide, stage]

/-- An accepted opening: the challenger has a challenge open against the
assertion, and the game spans its whole trace. -/
structure Opened (crypto : Crypto) (w : L1) (who registry : Address) (assertion : Bytes)
    (record : Assertion) (d : Dispute) : Prop where
  created : ∃ r, w.registries registry = some r
  recordAt : w.chain.assertions assertion = some record
  challenged : record.status = .challenged
  challenging : hasOpenChallenge w.chain assertion who = true
  traced : 0 < record.traceLength.val
  fresh : w.games ⟨registry, disputeId assertion who⟩ = none
  parties : d.assertion = assertion ∧ d.defender = record.proposer ∧ d.challenger = who
  interval : d.lo = 0 ∧ d.hi = record.traceLength
  agreed : Osp.commitMachineState crypto ⟨record.preStateRoot, 0⟩ = .ok d.loCommitment
  disputed : Osp.commitMachineState crypto ⟨record.postStateRoot, record.traceLength⟩ = .ok d.hiCommitment
  noOffer : d.offered = [] ∧ d.hasOffer = false
  clocks : d.defenderClock = clockBudget w.chain.challengeWindow ∧
    d.challengerClock = clockBudget w.chain.challengeWindow ∧ d.lastMoveAt = w.now ∧
    d.deadline.val = w.now.val + (allowance (clockBudget w.chain.challengeWindow)).val
  starts : if record.traceLength.val = 1 then d.stage = .oneStep ∧ d.turn = .challenger
    else d.stage = .bisecting ∧ d.turn = .defender
  undecided : d.winner = none

theorem opened_of_openDispute (accepted : openDispute crypto w who registry assertion = .ok w') :
    ∃ record d, Opened crypto w who registry assertion record d ∧
      w' = w.withGame ⟨registry, disputeId assertion who⟩ d := by
  simp only [openDispute, disputeView, bind_eq_ok, fetch_eq_ok, ensure_eq_ok, add_eq_ok, pure_iff] at accepted
  obtain ⟨r, created, record, recordAt, _, challenged, _, challenging, _, traced, deadline, set, lo, agreed,
    hi, disputed, _, fresh, rfl⟩ := accepted
  refine ⟨record, _, ⟨⟨r, created⟩, recordAt, challenged, challenging, traced,
    by simpa [L1.games, created] using fresh, ⟨rfl, rfl, rfl⟩,
    ⟨rfl, rfl⟩, agreed, disputed, ⟨rfl, rfl⟩, ⟨rfl, rfl, rfl, set⟩, ?_, rfl⟩, rfl⟩
  split <;> simp_all

/-- A resolved game. -/
def Dispute.resolve (d : Dispute) (winner : Party) : Dispute :=
  { d with stage := .resolved, winner := some winner }

/-- What a resolved game does to the chain: nothing if the assertion has been
rejected already, else what its outcome calls for. -/
inductive Settles (c : Chain) (d : Dispute) : Party → Chain → Prop
  | moot (winner : Party) (recordAt : c.assertions d.assertion = some record)
      (rejected : record.status = .rejected) : Settles c d winner c
  | won (won : challengerWon c d.assertion d.challenger = .ok c') : Settles c d .challenger c'
  | lost (lost : defenderWon c d.assertion d.challenger = .ok c') : Settles c d .defender c'

theorem settles_of_resolveInternal (accepted : resolveInternal w g winner = .ok w') :
    ∃ d chain, w.games g = some d ∧ d.stage ≠ .resolved ∧
      Settles w.chain d winner chain ∧ w' = { w with chain }.withGame g (d.resolve winner) := by
  simp only [resolveInternal, disputeView, bind_eq_ok, fetch_eq_ok, L1.game_eq_ok, ensure_eq_ok] at accepted
  obtain ⟨d, found, _, unresolved, record, recordAt, accepted⟩ := accepted
  split at accepted
  · rename_i rejected
    cases accepted
    exact ⟨d, w.chain, found, unresolved, .moot winner recordAt rejected, rfl⟩
  · cases winner with
    | challenger =>
      obtain ⟨chain, settled, ⟨⟩⟩ := bind_eq_ok.mp accepted
      exact ⟨d, chain, found, unresolved, .won settled, rfl⟩
    | defender =>
      obtain ⟨chain, settled, ⟨⟩⟩ := bind_eq_ok.mp accepted
      exact ⟨d, chain, found, unresolved, .lost settled, rfl⟩

/-- An accepted one-step proof: the challenger was in time, the leaf is in the
batch, and the step's own winner gets the game. -/
structure Stepped (crypto : Crypto) (w : L1) (registry : Address) (d : Dispute) (leafIndex : Nat)
    (leaf : LeafArgs) (witness : WitnessArgs) (left : U64) (winner : Party) : Prop where
  charged : Charged d w.now .challenger left
  stage : d.stage = .oneStep
  proven : ∃ r record, w.registries registry = some r ∧ w.chain.assertions d.assertion = some record ∧
    proveLeaf crypto record leafIndex leaf = .ok () ∧
    oneStepWinner crypto r record d leaf witness = .ok winner

theorem stepped_of_oneStep (accepted : oneStep crypto w who g leafIndex leaf witness = .ok w') :
    ∃ d left winner chain, w.games g = some d ∧ who ≠ d.defender ∧ who = d.challenger ∧
      Stepped crypto w g.registry d leafIndex.val leaf witness left winner ∧
      Settles w.chain d winner chain ∧
      w' = { w with chain }.withGame g ((d.setClock .challenger left).resolve winner) := by
  simp only [oneStep, disputeView, bind_eq_ok, fetch_eq_ok, L1.game_eq_ok, ensure_eq_ok,
    beginMove_eq_ok] at accepted
  obtain ⟨r, known, d, found, party, mover, _, rfl, _, ⟨left, charged, rfl⟩, _, stage, record, recordAt, _,
    proven, winner, decided, resolved⟩ := accepted
  obtain ⟨notDefender, challenger⟩ := partyOf_eq_challenger.mp mover
  obtain ⟨d', chain, found', _, settled, rfl⟩ := settles_of_resolveInternal resolved
  obtain rfl : d.setClock .challenger left = d' := by simpa [L1.games_withGame known] using found'
  refine ⟨d, left, winner, chain, found, notDefender, challenger,
    ⟨charged, stage, r, record, known, recordAt, proven, decided⟩, ?_,
    L1.withGame_withGame { w with chain } g _ _⟩
  cases settled with
  | moot _ recordAt rejected => exact .moot _ recordAt rejected
  | won won => exact .won won
  | lost lost => exact .lost lost

/-- A timeout is claimed against the party to move, after its deadline or after
its clock ran out. -/
theorem settles_of_claimTimeout (accepted : claimTimeout w g = .ok w') :
    ∃ d chain, w.games g = some d ∧ d.stage ≠ .resolved ∧
      (d.deadline.val < w.now.val ∨ (d.clock d.turn).val < w.now.val - d.lastMoveAt.val) ∧
      Settles w.chain d d.turn.other chain ∧
      w' = { w with chain }.withGame g (d.resolve d.turn.other) := by
  simp only [claimTimeout, bind_eq_ok, L1.game_eq_ok, ensure_eq_ok] at accepted
  obtain ⟨d, found, _, unresolved, accepted⟩ := accepted
  split at accepted
  · rename_i late
    obtain ⟨d', chain, found', _, settled, rfl⟩ := settles_of_resolveInternal accepted
    obtain rfl : d = d' := by simpa [found] using found'
    exact ⟨d, chain, found, unresolved, .inl late, settled, rfl⟩
  · simp only [bind_eq_ok, sub_eq_ok, ensure_eq_ok] at accepted
    obtain ⟨waited, ⟨since, spent⟩, _, late, accepted⟩ := accepted
    obtain ⟨d', chain, found', _, settled, rfl⟩ := settles_of_resolveInternal accepted
    obtain rfl : d = d' := by simpa [found] using found'
    exact ⟨d, chain, found, unresolved, .inr (by omega), settled, rfl⟩

/-- A structural proof rejects the assertion and closes the prover's own game in the
registry it is made in. -/
structure Proved (w : L1) (who registry : Address) (assertion : Bytes) (w' : L1) : Prop where
  challenging : hasOpenChallenge w.chain assertion who = true
  result : ∃ chain, challengerWon w.chain assertion who = .ok chain ∧
    w' = closeGame { w with chain } ⟨registry, disputeId assertion who⟩

theorem closeGame_cases (w : L1) (g : GameId) :
    (w.games g = none ∧ closeGame w g = w) ∨ ∃ d, w.games g = some d ∧
      closeGame w g = w.withGame g (d.resolve .challenger) := by
  unfold closeGame
  split
  · rename_i none'
    exact .inl ⟨none', rfl⟩
  · rename_i d found
    exact .inr ⟨d, found, rfl⟩

@[simp] theorem chain_closeGame (w : L1) (g : GameId) : (closeGame w g).chain = w.chain := by
  unfold closeGame
  split <;> rfl

@[simp] theorem now_closeGame (w : L1) (g : GameId) : (closeGame w g).now = w.now := by
  unfold closeGame
  split <;> rfl

theorem Proved.won (proved : Proved w who registry assertion w') :
    challengerWon w.chain assertion who = .ok w'.chain := by
  obtain ⟨_, won, rfl⟩ := proved.result
  simpa using won

theorem proved_of_applyStructuralWin
    (accepted : applyStructuralWin w registry assertion who = .ok w') : Proved w who registry assertion w' := by
  simp only [applyStructuralWin, bind_eq_ok, ensure_eq_ok, pure_iff] at accepted
  obtain ⟨_, challenging, chain, won, rfl⟩ := accepted
  exact ⟨challenging, chain, won, rfl⟩

theorem proved_of_proveUncompilable
    (accepted : proveUncompilable crypto w who registry assertion index leaf = .ok w') :
    Proved w who registry assertion w' := by
  simp only [proveUncompilable, bind_eq_ok] at accepted
  obtain ⟨_, _, _, _, _, _, _, _, accepted⟩ := accepted
  exact proved_of_applyStructuralWin accepted

theorem proved_of_proveStartGap (accepted : proveStartGap crypto w who registry assertion index a b = .ok w') :
    Proved w who registry assertion w' := by
  simp only [proveStartGap, bind_eq_ok] at accepted
  obtain ⟨_, _, _, _, length, _, _, _, _, _, accepted⟩ := accepted
  cases length with
  | none => exact proved_of_applyStructuralWin accepted
  | some length =>
    obtain ⟨_, _, accepted⟩ := bind_eq_ok.mp accepted
    obtain ⟨_, _, accepted⟩ := bind_eq_ok.mp accepted
    exact proved_of_applyStructuralWin accepted

theorem proved_of_proveTraceLength (accepted : proveTraceLength crypto w who registry assertion leaf = .ok w') :
    Proved w who registry assertion w' := by
  simp only [proveTraceLength, bind_eq_ok] at accepted
  obtain ⟨_, _, _, _, _, _, length, _, accepted⟩ := accepted
  cases length with
  | none => exact proved_of_applyStructuralWin accepted
  | some length =>
    obtain ⟨_, _, accepted⟩ := bind_eq_ok.mp accepted
    obtain ⟨_, _, accepted⟩ := bind_eq_ok.mp accepted
    exact proved_of_applyStructuralWin accepted

/-- A registry as it is created. -/
def Registry.new (setup : UInt8) : Registry := ⟨fun _ => none, setup, fun _ => none⟩

theorem initializeRegistry_eq_ok : initializeRegistry w who setup = .ok w' ↔
    w.registries who = none ∧ setup ≤ MoveKeyless.SETUP_APTOS_DEVNET_INSECURE ∧
      w' = { w with registries := Function.update w.registries who (some (.new setup)) } := by
  simp [initializeRegistry, bind_eq_ok, Registry.new, eq_comm (a := w')]

/-- A new registry has no games in it. -/
theorem games_created (fresh : w.registries who = none) :
    L1.games { w with registries := Function.update w.registries who (some (.new setup)) } = w.games := by
  funext g
  by_cases here : g.registry = who <;> simp [L1.games, here, fresh, Registry.new]

/-- A job touches no game. -/
theorem games_worked (known : w.registries registry = some r) :
    L1.games { w with registries := Function.update w.registries registry (some { r with jobs }) } = w.games := by
  funext g
  by_cases here : g.registry = registry <;> simp [L1.games, here, known]

theorem worked_of_runJob (accepted : runJob crypto w registry tx timestamp setup = .ok w') :
    ∃ r job verdict, w.registries registry = some r ∧
      MoveKeyless.jobId crypto tx timestamp setup = .ok job ∧
      jobVerdict crypto tx timestamp setup = .ok verdict ∧
      w' = { w with
        registries := Function.update w.registries registry
          (some { r with jobs := Function.update r.jobs job (some verdict) }) } := by
  simp only [runJob, bind_eq_ok, fetch_eq_ok, ensure_eq_ok, pure_iff] at accepted
  obtain ⟨r, known, job, named, _, _, verdict, judged, rfl⟩ := accepted
  exact ⟨r, job, verdict, known, named, judged, rfl⟩

end Disputes
end Sena
