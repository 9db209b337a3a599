import Sena.RpcProofs
import Sena.TracePlayerProofs

/-! A node in verifier mode.

It executes every block it is shown on a copy of its replica and keeps the trace to
play a dispute from. A block that does not execute has no trace: the one of an
earlier block is kept, and a dispute is opened from that. -/
namespace Sena

open Execute (BatchError ExecutionTrace executeBatch)
open Fraudproof (Finding TracePlayer checkAssertion)

/-- `VerifierNode`: a replica that follows the posted batches. -/
structure VerifierNode where
  state : MerkleTrie
  identity : U32
  /-- The trace it last computed. -/
  lastTrace : Option TracePlayer
  keyless : Option KeylessConfig

namespace VerifierNode

/-- What following a block produced. -/
inductive Outcome where
  | accepted
  | divergent (finding : Finding)
  | unexecutable (error : BatchError)
deriving DecidableEq

/-- `VerifierNode::new`. -/
def new (genesisState : MerkleTrie) (identity : U32) (keyless : Option KeylessConfig) : VerifierNode :=
  ⟨genesisState, identity, none, keyless⟩

section
variable (crypto : Crypto)

/-- Executes a block and compares it with the assertion. On agreement the replica
advances. None if the process aborts. -/
def follow (v : VerifierNode) (block : Block) (a : Fraudproof.Assertion) : Option (VerifierNode × Outcome) :=
  match executeBatch crypto v.state (block.context v.keyless) block.transactions with
  | .error .panicked => none
  | .error error => some (v, .unexecutable error)
  | .ok (next, trace) =>
    if started : trace.states ≠ [] then
      let finding := checkAssertion a trace started
      let v := { v with lastTrace := some ⟨trace, v.state, started⟩ }
      if finding ≠ .agrees then some (v, .divergent finding) else some ({ v with state := next }, .accepted)
    else none

/-- A player for the last batch executed. -/
def player (v : VerifierNode) : Option TracePlayer := v.lastTrace

/-- `VerifierNode::open_dispute`. -/
def openDispute (v : VerifierNode) (assertionId : Hash256) (a : Fraudproof.Assertion) (challengeWindow now : U64) :
    Option Fraudproof.Dispute :=
  v.lastTrace.map fun player => player.openDispute crypto v.identity assertionId a challengeWindow now

end

variable {crypto : Crypto} {v v' : VerifierNode} {block : Block} {a : Fraudproof.Assertion} {outcome : Outcome}

/-- A block and an assertion followed. -/
def Follows (crypto : Crypto) (v : VerifierNode) (shown : Block × Fraudproof.Assertion) (v' : VerifierNode) : Prop :=
  ∃ outcome, v.follow crypto shown.1 shown.2 = some (v', outcome)

/-- The player replays the block from the node's state. -/
def Replays (crypto : Crypto) (v : VerifierNode) (block : Block) (player : TracePlayer) : Prop :=
  player.preState = v.state ∧
    ∃ post, executeBatch crypto v.state (block.context v.keyless) block.transactions = .ok (post, player.trace)

theorem follow_of_executes (executed : executeBatch crypto v.state (block.context v.keyless) block.transactions = .ok (post, trace))
    (followed : v.follow crypto block a = some (v', outcome)) (rejected : outcome ≠ .accepted) :
    ∃ started, v' = { v with lastTrace := some ⟨trace, v.state, started⟩ } := by
  rw [follow, executed] at followed
  dsimp only at followed
  split at followed
  · rename_i started
    split at followed
    · cases followed
      exact ⟨started, rfl⟩
    · cases followed
      exact absurd rfl rejected
  · cases followed

theorem executes_of_divergent (followed : v.follow crypto block a = some (v', .divergent finding)) :
    ∃ post trace, executeBatch crypto v.state (block.context v.keyless) block.transactions = .ok (post, trace) := by
  cases executed : executeBatch crypto v.state (block.context v.keyless) block.transactions with
  | ok run => exact ⟨run.1, run.2, rfl⟩
  | error e =>
    rw [follow, executed] at followed
    cases e <;> cases followed

theorem state_of_follow (followed : v.follow crypto block a = some (v', outcome)) (rejected : outcome ≠ .accepted) :
    v'.state = v.state ∧ v'.keyless = v.keyless := by
  cases executed : executeBatch crypto v.state (block.context v.keyless) block.transactions with
  | ok run =>
    obtain ⟨_, rfl⟩ := follow_of_executes executed followed rejected
    exact ⟨rfl, rfl⟩
  | error e =>
    rw [follow, executed] at followed
    cases e <;> cases followed <;> exact ⟨rfl, rfl⟩

theorem loCommitment_openDispute (player : TracePlayer)
    (executed : executeBatch crypto player.preState ctx txs = .ok (post, player.trace))
    (identity : U32) (assertionId : Hash256) (challengeWindow now : U64) :
    (player.openDispute crypto identity assertionId a challengeWindow now).loCommitment =
      MachineState.commitment crypto ⟨player.preState.root, 0⟩ := by
  obtain ⟨trie, ran, here⟩ := TracePlayer.stateAt_of_traced (Execute.traced_of_executeBatch executed).1 0 (Nat.zero_le _)
  obtain rfl : player.preState = trie := by simpa using ran
  have opened : (player.openDispute crypto identity assertionId a challengeWindow now).loCommitment =
      player.commitmentAt crypto 0 := by
    simp only [TracePlayer.openDispute, Fraudproof.Dispute.open, Fraudproof.Dispute.enterOneStepIfNarrow]
    split <;> rfl
  rw [opened, TracePlayer.commitmentAt, here]

/-- Whatever a node has followed: it can dispute a block it rejects, from a replay of that
block on its replica, exactly if the block executes there. -/
theorem verifier_disputes_rejected_block_iff {genesisState : MerkleTrie} {identity : U32}
    {keyless : Option KeylessConfig} {shown : List (Block × Fraudproof.Assertion)}
    (_ran : Run (Follows crypto) (new genesisState identity keyless) shown v)
    (shared : a.preStateRoot = v.state.root) (followed : v.follow crypto block a = some (v', outcome))
    (rejected : outcome ≠ .accepted) (assertionId : Hash256) (challengeWindow now : U64) :
    (∃ d player, v'.openDispute crypto assertionId a challengeWindow now = some d ∧
      d.loCommitment = MachineState.commitment crypto ⟨a.preStateRoot, 0⟩ ∧
      v'.player = some player ∧ v'.Replays crypto block player) ↔
    ∃ post trace, executeBatch crypto v.state (block.context v.keyless) block.transactions = .ok (post, trace) := by
  constructor
  · rintro ⟨_, player, _, _, _, _, post, executed⟩
    obtain ⟨state, keyless⟩ := state_of_follow followed rejected
    rw [state, keyless] at executed
    exact ⟨post, player.trace, executed⟩
  · rintro ⟨post, trace, executed⟩
    obtain ⟨started, rfl⟩ := follow_of_executes executed followed rejected
    have agreed := loCommitment_openDispute (a := a) ⟨trace, v.state, started⟩ executed v.identity assertionId challengeWindow now
    rw [← shared] at agreed
    exact ⟨_, _, rfl, agreed, rfl, rfl, post, executed⟩

section
variable {state next : MerkleTrie} {trace : ExecutionTrace} {shown : List (Block × Fraudproof.Assertion)}

/-- A block and an assertion accepted. -/
def Accepts (crypto : Crypto) (v : VerifierNode) (shown : Block × Fraudproof.Assertion) (v' : VerifierNode) : Prop :=
  v.follow crypto shown.1 shown.2 = some (v', .accepted)

/-- The assertion claims what the block comes to. -/
def Claims (shown : Block × Fraudproof.Assertion) : Prop :=
  shown.2.postStateRoot = shown.1.postStateRoot ∧ shown.2.traceLength = shown.1.trace.instructions.length

theorem finalState_of_executes (executed : executeBatch crypto state ctx txs = .ok (next, trace)) :
    ∃ started : trace.states ≠ [], (trace.finalState started).stateRoot = next.root := by
  obtain ⟨length, states, ran⟩ := (Execute.traced_of_executeBatch executed).1
  obtain ⟨mid, reached, last⟩ := states _ (Nat.le_refl _)
  rw [List.take_length] at reached
  have same := (TracePlayer.foldlM_of_run reached).symm.trans (TracePlayer.foldlM_of_run ran)
  have started : trace.states ≠ [] := List.ne_nil_of_length_pos (by omega)
  have final : some (trace.finalState started) = trace.states[trace.instructions.length]? := by
    rw [ExecutionTrace.finalState, ← List.getLast?_eq_some_getLast, List.getLast?_eq_getElem?, length]
    rfl
  rw [last, Option.some.injEq] at final
  exact ⟨started, by rw [final, Except.ok.inj same]⟩

theorem accepts_iff (seals : Sequencer.Seals crypto v.keyless v.state block next) :
    Accepts crypto v (block, a) v' ↔ Claims (block, a) ∧
      ∃ started, v' = { v with state := next, lastTrace := some ⟨block.trace, v.state, started⟩ } := by
  obtain ⟨started, final⟩ := finalState_of_executes seals.executed
  have agrees : checkAssertion a block.trace started = .agrees ↔ Claims (block, a) := by
    simp only [checkAssertion, final, Claims, seals.postRoot]
    split_ifs <;> simp_all
  rw [Accepts, follow, seals.executed]
  dsimp only
  rw [dif_pos started]
  by_cases right : Claims (block, a)
  · rw [if_neg (not_not.mpr (agrees.mpr right))]
    simp [right, started, eq_comm]
  · rw [if_pos (mt agrees.mp right)]
    simp [right]

theorem accepts_run_iff (ran : Run (Sequencer.Seals crypto v.keyless) v.state (shown.map Prod.fst) next) :
    (∃ v', Run (Accepts crypto) v shown v' ∧ v'.state = next) ↔ ∀ e ∈ shown, Claims e := by
  induction shown generalizing v with
  | nil => simpa using ran
  | cons e shown ih =>
    obtain ⟨mid, seals, rest⟩ := ran
    obtain ⟨started, -⟩ := finalState_of_executes seals.executed
    rw [List.forall_mem_cons, ← ih (v := { v with state := mid, lastTrace := some ⟨e.1.trace, v.state, started⟩ }) rest]
    constructor
    · rintro ⟨v', ⟨_, accepted, followed⟩, ends⟩
      obtain ⟨claims, _, rfl⟩ := (accepts_iff seals).mp accepted
      exact ⟨claims, v', followed, ends⟩
    · rintro ⟨claims, v', followed, ends⟩
      exact ⟨v', ⟨_, (accepts_iff seals).mpr ⟨claims, started, rfl⟩, followed⟩, ends⟩

/-- A verifier that starts at a node's genesis accepts all of the node's blocks, and is then
in the node's state, exactly if it is shown true claims about them. -/
theorem verifier_follows_node_iff {s : Sequencer} (reachable : s.Reachable crypto genesis) (identity : U32)
    (blocks : shown.map Prod.fst = s.blocks) :
    (∃ v, Run (Accepts crypto) (new genesis identity s.keyless) shown v ∧ v.state = s.state) ↔
      ∀ e ∈ shown, Claims e :=
  accepts_run_iff (v := new genesis identity s.keyless) (blocks ▸ reachable.sealed.ran)

end

/-- A verifier follows the node's payment by the node's own claim. -/
theorem payment_is_followed : ∃ (genesis : MerkleTrie) (s : Sequencer) (v : VerifierNode), s.blocks.length = 1 ∧
    s.Reachable Devnet.paying genesis ∧
    Run (Accepts Devnet.paying) (new genesis 7 s.keyless) (s.blocks.map fun b => (b, s.assertion Devnet.paying b)) v ∧
      v.state = s.state := by
  obtain ⟨genesis, s, _, _, _, reachable, _, moved⟩ := Devnet.moved_spec
  have shown : (s.blocks.map fun b => (b, s.assertion Devnet.paying b)).map Prod.fst = s.blocks := by
    simp [Function.comp_def]
  obtain ⟨v, ran, same⟩ := (verifier_follows_node_iff reachable 7 shown).mpr fun e among => by
    obtain ⟨block, _, rfl⟩ := List.mem_map.mp among
    exact ⟨rfl, rfl⟩
  exact ⟨genesis, s, v, moved.heights.1, reachable, ran, same⟩

end VerifierNode

namespace Devnet

open VerifierNode

/-- The payment, as a block. What it says of its roots and trace is not read. -/
def paymentBlock : Block where
  height := 1
  timestamp := context.timestamp
  baseFee := context.baseFee
  feeRecipient := context.feeRecipient
  transactions := [payment]
  preStateRoot := Hash256.zero
  postStateRoot := Hash256.zero
  trace := ⟨[], [], []⟩

/-- The state of the devnet with one funded account. -/
def smallGenesis : MerkleTrie := (small.buildState crypto hashing).toOption.getD .new

/-- A claim about the payment's eight steps. -/
def claimed (pre post : Hash256) : Fraudproof.Assertion := ⟨Hash256.zero, 0, pre, post, Hash256.zero, 8, 1⟩

def freshVerifier : VerifierNode := new smallGenesis 7 none

/-- A claim that the payment empties the state. -/
def falseClaim : Fraudproof.Assertion := claimed smallGenesis.root Hash256.zero

/-- The dispute over a false root is opened at the genesis, from a replay of the payment. -/
theorem false_root_is_disputed : ∃ v' finding d player, falseClaim.preStateRoot = freshVerifier.state.root ∧
    freshVerifier.follow crypto paymentBlock falseClaim = some (v', .divergent finding) ∧
      v'.openDispute crypto Hash256.zero falseClaim 86400 5 = some d ∧
      d.loCommitment = MachineState.commitment crypto ⟨falseClaim.preStateRoot, 0⟩ ∧
      v'.player = some player ∧ v'.Replays crypto paymentBlock player := by
  have ran : ((freshVerifier.follow crypto paymentBlock falseClaim).any fun r => match r.2 with
      | .divergent _ => true
      | _ => false) = true := by
    decide +kernel
  obtain ⟨⟨v', outcome⟩, followed, parted⟩ := (Option.any_eq_true _ _).mp ran
  split at parted
  · rename_i finding same
    obtain rfl : outcome = .divergent finding := same
    have start : Run (Follows crypto) (new smallGenesis 7 none) [] freshVerifier := rfl
    have shared : falseClaim.preStateRoot = freshVerifier.state.root := by
      simp only [falseClaim, claimed, freshVerifier, new]
    obtain ⟨d, player, opened, agreed, held, replays⟩ :=
      (verifier_disputes_rejected_block_iff start shared followed (by simp) Hash256.zero 86400 5).mpr
        (executes_of_divergent followed)
    exact ⟨v', finding, d, player, shared, followed, opened, agreed, held, replays⟩
  · cases parted

/-- The payment is followed and then shown again. The second block does not execute, and
the dispute over it is opened at the state before the first. -/
theorem second_payment_is_disputed_at_genesis : ∃ first v a v' error d,
    Run (Follows crypto) freshVerifier [(paymentBlock, first)] v ∧ a.preStateRoot = v.state.root ∧
      v.follow crypto paymentBlock a = some (v', .unexecutable error) ∧
      v'.openDispute crypto Hash256.zero a 86400 5 = some d ∧
      d.loCommitment ≠ MachineState.commitment crypto ⟨a.preStateRoot, 0⟩ := by
  have ran : ((executeBatch crypto smallGenesis context [payment]).toOption.any fun run =>
      (freshVerifier.follow crypto paymentBlock (claimed smallGenesis.root run.1.root)).any fun first =>
        (first.1.follow crypto paymentBlock (claimed first.1.state.root Hash256.zero)).any fun second =>
          (match second.2 with
            | .unexecutable _ => true
            | _ => false) &&
          (second.1.openDispute crypto Hash256.zero (claimed first.1.state.root Hash256.zero) 86400 5).any fun d =>
            decide (d.loCommitment ≠ MachineState.commitment crypto ⟨first.1.state.root, 0⟩)) = true := by
    decide +kernel
  simp only [Option.any_eq_true, Bool.and_eq_true, decide_eq_true_eq] at ran
  obtain ⟨run, -, ⟨v, agreed⟩, followed, ⟨v', outcome⟩, again, stuck, d, opened, elsewhere⟩ := ran
  split at stuck
  · rename_i error same
    obtain rfl : outcome = .unexecutable error := same
    exact ⟨_, v, claimed v.state.root Hash256.zero, v', error, d, Run.singleton_iff.mpr ⟨agreed, followed⟩, rfl, again,
      opened, elsewhere⟩
  · cases stuck

end Devnet
end Sena
