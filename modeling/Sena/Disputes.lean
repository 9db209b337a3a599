import Sena.Assertions
import Sena.Compiler

/-! The bisection game and the batch-structure proofs of `sena::disputes`, over the
state of L1 they read and change.

Anyone may create a registry, and every call names the one it goes to. -/
namespace Sena

namespace Disputes

open Move Assertions

def E_RESOLVED : Nat := 50
def E_WRONG_TURN : Nat := 51
def E_WRONG_STAGE : Nat := 52
def E_WRONG_DISSECTION : Nat := 53
def E_SEGMENT_OUT_OF_RANGE : Nat := 54
def E_NO_SUCH_DISPUTE : Nat := 55
def E_NOT_A_PARTY : Nat := 56
def E_ALREADY_INITIALIZED : Nat := 57
def E_NOT_CHALLENGING : Nat := 58
def E_NOT_CHALLENGED : Nat := 59
def E_DEADLINE_PASSED : Nat := 60
def E_BAD_LEAF : Nat := 61
def E_LEAF_DOES_NOT_COVER_STEP : Nat := 62
def E_NOT_FRAUD : Nat := 63
def E_EMPTY_TRACE : Nat := 64
def E_KEYLESS_NOT_VERIFIED : Nat := 65

def ARITY : U64 := 8
def MOVE_TIMEOUT : U64 := 21600
def CLOCK_BUDGET_DIVISOR : Nat := 4

inductive Party
  | defender | challenger
deriving DecidableEq, Repr

inductive Stage
  | bisecting | oneStep | resolved
deriving DecidableEq, Repr

/-- `Dispute`: one game, as its registry stores it. -/
structure Dispute where
  assertion : Bytes
  defender : Address
  challenger : Address
  lo : U64
  hi : U64
  loCommitment : Bytes
  hiCommitment : Bytes
  offered : List Bytes
  hasOffer : Bool
  stage : Stage
  turn : Party
  deadline : U64
  defenderClock : U64
  challengerClock : U64
  lastMoveAt : U64
  winner : Option Party
deriving DecidableEq

/-- A registry of games over the chain, with the job store created with it. -/
structure Registry where
  disputes : Bytes → Option Dispute
  /-- The keyless parameter set L2 runs with, as the registry's creator named it. -/
  keylessSetup : UInt8
  /-- The verdicts of finished keyless jobs. -/
  jobs : Bytes → Option Bool

/-- A game, by the registry it is played in and its id there. -/
structure GameId where
  registry : Address
  id : Bytes
deriving DecidableEq

end Disputes

/-- What the contracts hold: the clock, the assertion chain, and the registries over
this chain by the account each was created by. -/
structure L1 where
  now : U64
  chain : Assertions.Chain
  registries : Address → Option Disputes.Registry

namespace L1

open Move Assertions Disputes

/-- The game a call names. -/
def games (w : L1) (g : GameId) : Option Dispute := (w.registries g.registry).bind (·.disputes g.id)

def game (w : L1) (g : GameId) : Move Dispute := do
  let r ← fetch w.registries g.registry .resource
  fetch r.disputes g.id (.code .disputes E_NO_SUCH_DISPUTE)

/-- Writes one game. -/
def withGame (w : L1) (g : GameId) (d : Dispute) : L1 :=
  { w with
    registries := Function.update w.registries g.registry ((w.registries g.registry).map fun r =>
      { r with disputes := Function.update r.disputes g.id (some d) }) }

end L1

namespace Disputes

open Move Assertions

/-- `initialize`, over this chain. Permissionless: whoever creates a registry names its keyless setup. -/
def initializeRegistry (w : L1) (admin : Address) (keylessSetup : UInt8) : Move L1 := do
  ensure ((w.registries admin).isNone) (.code .disputes E_ALREADY_INITIALIZED)
  ensure (keylessSetup ≤ MoveKeyless.SETUP_APTOS_DEVNET_INSECURE)
    (.code .keyless MoveKeyless.E_UNKNOWN_SETUP)
  return { w with
    registries := Function.update w.registries admin (some ⟨fun _ => none, keylessSetup, fun _ => none⟩) }

/-- `clock_budget`: a quarter of the challenge window. -/
def clockBudget (challengeWindow : U64) : U64 :=
  ⟨challengeWindow.val / CLOCK_BUDGET_DIVISOR,
    Nat.lt_of_le_of_lt (Nat.div_le_self _ _) challengeWindow.isLt⟩

/-- No single move is given longer than what is left of a budget. -/
def allowance (budget : U64) : U64 := if MOVE_TIMEOUT.val < budget.val then MOVE_TIMEOUT else budget

/-- The number of segments an interval of `span` steps is divided into. -/
def segments (span : Nat) : Nat := if min ARITY.val span = 0 then 1 else min ARITY.val span

/-- `boundaries`: where the segments of an interval begin and end. -/
def boundaries (lo hi : U64) : Move (List U64) := do
  let span ← sub hi lo
  (List.range (segments span.val + 1)).mapM fun i => do
    let scaled ← checked 64 (span.val * i)
    checked 64 (lo.val + scaled.val / segments span.val)

/-- `dispute_id`: in a registry, one game per assertion and challenger. -/
def disputeId (assertion : Bytes) (challenger : Address) : Bytes := assertion ++ challenger.bytes

variable (crypto : Crypto)

/-- `open`: a game over an assertion the caller has challenged, read from its record. -/
def openDispute (w : L1) (challenger registry : Address) (assertion : Bytes) : Move L1 := do
  let r ← fetch w.registries registry .resource
  let record ← disputeView w.chain assertion
  ensure (record.status = .challenged) (.code .disputes E_NOT_CHALLENGED)
  ensure (hasOpenChallenge w.chain assertion challenger = true) (.code .disputes E_NOT_CHALLENGING)
  ensure (record.traceLength.val > 0) (.code .disputes E_EMPTY_TRACE)
  let budget := clockBudget w.chain.challengeWindow
  let single := record.traceLength.val = 1
  let deadline ← add w.now (allowance budget)
  let loCommitment ← Osp.commitMachineState crypto ⟨record.preStateRoot, 0⟩
  let hiCommitment ← Osp.commitMachineState crypto ⟨record.postStateRoot, record.traceLength⟩
  ensure ((r.disputes (disputeId assertion challenger)).isNone) .table
  return w.withGame ⟨registry, disputeId assertion challenger⟩ {
    assertion := assertion
    defender := record.proposer
    challenger := challenger
    lo := 0
    hi := record.traceLength
    loCommitment := loCommitment
    hiCommitment := hiCommitment
    offered := []
    hasOffer := false
    stage := if single then .oneStep else .bisecting
    turn := if single then .challenger else .defender
    deadline := deadline
    defenderClock := budget
    challengerClock := budget
    lastMoveAt := w.now
    winner := none }

/-- `party_of`: which side of a game the caller is. -/
def partyOf (d : Dispute) (who : Address) : Move Party :=
  if who = d.defender then .ok .defender
  else if who = d.challenger then .ok .challenger
  else .error (.code .disputes E_NOT_A_PARTY)

/-- What is left of a party's clock. -/
def Dispute.clock (d : Dispute) : Party → U64
  | .defender => d.defenderClock
  | .challenger => d.challengerClock

def Dispute.setClock (d : Dispute) (party : Party) (left : U64) : Dispute :=
  match party with
  | .defender => { d with defenderClock := left }
  | .challenger => { d with challengerClock := left }

/-- `begin_move`: charges the mover's clock and checks the turn. -/
def beginMove (d : Dispute) (now : U64) (party : Party) : Move Dispute := do
  ensure (d.stage ≠ .resolved) (.code .disputes E_RESOLVED)
  ensure (d.turn = party) (.code .disputes E_WRONG_TURN)
  ensure (now.val ≤ d.deadline.val) (.code .disputes E_DEADLINE_PASSED)
  let elapsed ← sub now d.lastMoveAt
  ensure (elapsed.val ≤ (d.clock party).val) (.code .disputes E_DEADLINE_PASSED)
  let left ← sub (d.clock party) elapsed
  return d.setClock party left

def Party.other : Party → Party
  | .defender => .challenger
  | .challenger => .defender

/-- `pass_turn`: the other party is to move, in its own time. -/
def passTurn (d : Dispute) (now : U64) : Move Dispute := do
  let turn := d.turn.other
  let deadline ← add now (allowance (d.clock turn))
  return { d with turn, lastMoveAt := now, deadline }

/-- `enter_one_step_if_narrow`: the challenger produces the one-step proof, so the
turn is theirs whoever moved last. -/
def enterOneStepIfNarrow (d : Dispute) : Move Dispute := do
  let span ← sub d.hi d.lo
  if span.val = 1 then return { d with stage := .oneStep, turn := .challenger } else return d

/-- `dissect`: the defender's move. -/
def dissect (w : L1) (mover : Address) (g : GameId) (commitments : List Bytes) : Move L1 := do
  let d ← w.game g
  let party ← partyOf d mover
  ensure (party = .defender) (.code .disputes E_WRONG_TURN)
  let d ← beginMove d w.now .defender
  ensure (d.stage = .bisecting) (.code .disputes E_WRONG_STAGE)
  let bounds ← boundaries d.lo d.hi
  ensure (commitments.length = bounds.length - 2) (.code .disputes E_WRONG_DISSECTION)
  let d ← passTurn { d with offered := commitments, hasOffer := true } w.now
  return w.withGame g d

/-- `select`: the challenger's move. -/
def select (w : L1) (mover : Address) (g : GameId) (index : U64) : Move L1 := do
  let d ← w.game g
  let party ← partyOf d mover
  ensure (party = .challenger) (.code .disputes E_WRONG_TURN)
  let d ← beginMove d w.now .challenger
  ensure (d.stage = .bisecting ∧ d.hasOffer = true) (.code .disputes E_WRONG_STAGE)
  let bounds ← boundaries d.lo d.hi
  ensure (index.val < bounds.length - 1) (.code .disputes E_SEGMENT_OUT_OF_RANGE)
  -- the commitments at every boundary: agreed, offered, disputed
  let all := d.loCommitment :: d.offered ++ [d.hiCommitment]
  let lo ← borrow bounds index.val
  let hi ← borrow bounds (index.val + 1)
  let loCommitment ← borrow all index.val
  let hiCommitment ← borrow all (index.val + 1)
  let d ← passTurn { d with lo, hi, loCommitment, hiCommitment, offered := [], hasOffer := false } w.now
  let d ← enterOneStepIfNarrow d
  return w.withGame g d

/-- `resolve_internal`: records the outcome of a game and applies it, unless the
assertion was rejected in the meantime. -/
def resolveInternal (w : L1) (g : GameId) (winner : Party) : Move L1 := do
  let d ← w.game g
  ensure (d.stage ≠ .resolved) (.code .disputes E_RESOLVED)
  let w := w.withGame g { d with stage := .resolved, winner := some winner }
  let record ← disputeView w.chain d.assertion
  if record.status = .rejected then return w
  else
    let chain ← match winner with
      | .challenger => challengerWon w.chain d.assertion d.challenger
      | .defender => defenderWon w.chain d.assertion d.challenger
    return { w with chain }

def E_ALREADY_STARTED : Nat := 1
def E_NOT_KEYLESS : Nat := 5

/-- The verdict `keyless_jobs` leaves once a job ran to its end. -/
def jobVerdict (txBytes : Bytes) (timestamp : U64) (setup : UInt8) : Move Bool :=
  match TxCodec.decode txBytes with
  | some tx =>
    match tx.auth with
    | .keyless sig => do
      let digest ← TxCodec.signingDigest crypto tx
      MoveKeyless.verify crypto setup sig tx.sender digest timestamp
    | .ed25519 _ _ => .error (.code .keylessJobs E_NOT_KEYLESS)
  | none => .error (.code .keylessJobs E_NOT_KEYLESS)

/-- The `start`, `advance` and `finish` of one job, as one call. Permissionless. -/
def runJob (w : L1) (registry : Address) (txBytes : Bytes) (timestamp : U64) (setup : UInt8) : Move L1 := do
  let r ← fetch w.registries registry .resource
  let job ← MoveKeyless.jobId crypto txBytes timestamp setup
  ensure ((r.jobs job).isNone) (.code .keylessJobs E_ALREADY_STARTED)
  let verdict ← jobVerdict crypto txBytes timestamp setup
  return { w with
    registries := Function.update w.registries registry
      (some { r with jobs := Function.update r.jobs job (some verdict) }) }

/-- `compile_leaf`: compiles a published transaction for adjudication. A keyless one
uses the verdict computed for it at this batch time under this registry's setup. -/
def compileLeaf (r : Registry) (record : Assertion) (txBytes : Bytes) : Move (Option (List Osp.Instruction)) := do
  let setup := r.keylessSetup
  if Compiler.isKeyless txBytes = false then
    Compiler.compile crypto txBytes record.timestamp record.baseFee record.feeRecipient setup
  else
    let job ← MoveKeyless.jobId crypto txBytes record.timestamp setup
    match r.jobs job with
    | none => .error (.code .disputes E_KEYLESS_NOT_VERIFIED)
    | some verdict =>
      Compiler.compileWithKeylessVerdict crypto txBytes record.timestamp record.baseFee
        record.feeRecipient setup verdict

/-- A published transaction with its path in the batch. -/
structure LeafArgs where
  startPc : U64
  txBytes : Bytes
  siblings : List Bytes
deriving DecidableEq

/-- The slot a step touches, its contents and their proof, as a call passes them. -/
structure WitnessArgs where
  preStateRoot : Bytes
  slot : Bytes
  present : Bool
  value : Bytes
  trieSiblings : List Bytes
  terminalIsLeaf : Bool
  terminalKey : Bytes
  terminalValueHash : Bytes
deriving DecidableEq

/-- The proof a call's arguments spell out. -/
def WitnessArgs.proof (args : WitnessArgs) : TrieVerifier.Proof :=
  ⟨args.trieSiblings,
    if args.terminalIsLeaf then TrieVerifier.leafTerminal args.terminalKey args.terminalValueHash
    else TrieVerifier.emptyTerminal⟩

/-- The leaf is at its place in the published batch. -/
def proveLeaf (record : Assertion) (index : Nat) (leaf : LeafArgs) : Move Unit := do
  let proven ← BatchVerifier.proves crypto record.txRoot record.txCount index leaf.startPc leaf.txBytes
    leaf.siblings
  ensure (proven = true) (.code .disputes E_BAD_LEAF)

/-- Who wins the step the game has narrowed to. -/
def oneStepWinner (r : Registry) (record : Assertion) (d : Dispute) (leaf : LeafArgs)
    (witness : WitnessArgs) : Move Party := do
  let compiled ← compileLeaf crypto r record leaf.txBytes
  match compiled with
  | none => return .challenger
  | some program =>
    let past ← checked 64 (leaf.startPc.val + program.length)
    ensure (leaf.startPc.val ≤ d.lo.val ∧ d.lo.val < past.val)
      (.code .disputes E_LEAF_DOES_NOT_COVER_STEP)
    let instruction ← borrow program (d.lo.val - leaf.startPc.val)
    let outcome ← Osp.adjudicate crypto ⟨witness.preStateRoot, d.lo⟩ d.loCommitment d.hiCommitment
      instruction witness.slot witness.present witness.value witness.proof
    match outcome with
    | .challengerWins => return .challenger
    | .defenderWins => return .defender

/-- `one_step`: settles a game that has narrowed to one step. -/
def oneStep (w : L1) (mover : Address) (g : GameId) (leafIndex : U64)
    (leaf : LeafArgs) (witness : WitnessArgs) : Move L1 := do
  let r ← fetch w.registries g.registry .resource
  let d ← w.game g
  let party ← partyOf d mover
  ensure (party = .challenger) (.code .disputes E_WRONG_TURN)
  let d ← beginMove d w.now .challenger
  ensure (d.stage = .oneStep) (.code .disputes E_WRONG_STAGE)
  let w := w.withGame g d
  let record ← disputeView w.chain d.assertion
  proveLeaf crypto record leafIndex.val leaf
  let winner ← oneStepWinner crypto r record d leaf witness
  resolveInternal w g winner

/-- `leaf_program`: whether a published leaf compiles, and the length of its program. -/
def leafProgram (r : Registry) (record : Assertion) (index : Nat) (leaf : LeafArgs) : Move (Option Nat) := do
  proveLeaf crypto record index leaf
  let program ← compileLeaf crypto r record leaf.txBytes
  return program.map List.length

/-- A game the same challenger had open in this registry is moot. -/
def closeGame (w : L1) (g : GameId) : L1 :=
  match w.games g with
  | none => w
  | some d => w.withGame g { d with stage := .resolved, winner := some .challenger }

/-- `apply_structural_win`: rejects the assertion on behalf of an open challenge. -/
def applyStructuralWin (w : L1) (registry : Address) (assertion : Bytes) (who : Address) : Move L1 := do
  ensure (hasOpenChallenge w.chain assertion who = true) (.code .disputes E_NOT_CHALLENGING)
  let chain ← challengerWon w.chain assertion who
  return closeGame { w with chain } ⟨registry, disputeId assertion who⟩

/-- `prove_uncompilable`: a published transaction does not compile. -/
def proveUncompilable (w : L1) (challenger registry : Address) (assertion : Bytes)
    (index : U64) (leaf : LeafArgs) : Move L1 := do
  let r ← fetch w.registries registry .resource
  let record ← disputeView w.chain assertion
  let length ← leafProgram crypto r record index.val leaf
  ensure (length = none) (.code .disputes E_NOT_FRAUD)
  applyStructuralWin w registry assertion challenger

/-- `prove_start_gap`: a transaction does not start where the one before it ends. -/
def proveStartGap (w : L1) (challenger registry : Address) (assertion : Bytes) (index : U64)
    (a b : LeafArgs) : Move L1 := do
  let r ← fetch w.registries registry .resource
  let record ← disputeView w.chain assertion
  let length ← leafProgram crypto r record index.val a
  let next ← add index 1
  proveLeaf crypto record next.val b
  -- an uncompilable transaction is fraud in itself
  match length with
  | none => applyStructuralWin w registry assertion challenger
  | some length =>
    let past ← checked 64 (a.startPc.val + length)
    ensure (b.startPc.val ≠ past.val) (.code .disputes E_NOT_FRAUD)
    applyStructuralWin w registry assertion challenger

/-- `prove_trace_length`: the last transaction does not end where the trace does. -/
def proveTraceLength (w : L1) (challenger registry : Address) (assertion : Bytes) (leaf : LeafArgs) : Move L1 := do
  let r ← fetch w.registries registry .resource
  let record ← disputeView w.chain assertion
  ensure (record.txCount > 0) (.code .disputes E_NOT_FRAUD)
  let length ← leafProgram crypto r record (record.txCount - 1) leaf
  match length with
  | none => applyStructuralWin w registry assertion challenger
  | some length =>
    let past ← checked 64 (leaf.startPc.val + length)
    ensure (past.val ≠ record.traceLength.val) (.code .disputes E_NOT_FRAUD)
    applyStructuralWin w registry assertion challenger

/-- `claim_timeout`: resolves a game whose party failed to move in time. Anyone may
call it. -/
def claimTimeout (w : L1) (g : GameId) : Move L1 := do
  let d ← w.game g
  ensure (d.stage ≠ .resolved) (.code .disputes E_RESOLVED)
  if w.now.val > d.deadline.val then resolveInternal w g d.turn.other
  else
    let waited ← sub w.now d.lastMoveAt
    ensure (waited.val > (d.clock d.turn).val) (.code .disputes E_WRONG_STAGE)
    resolveInternal w g d.turn.other

end Disputes
end Sena
