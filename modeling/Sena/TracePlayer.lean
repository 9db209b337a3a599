import Sena.AssertionChain
import Sena.Bisection
import Sena.StepProofs

/-! The reference verifier: it compares an assertion with a trace of its own, opens
a dispute over what differs and plays it from that trace.

Past its trace the player answers with the trace's last state. A result of `none` is
an aborted process where the function is not itself optional. -/
namespace Sena

namespace Execute

/-- The state the batch ended in. -/
def ExecutionTrace.finalState (trace : ExecutionTrace) (started : trace.states ≠ []) : MachineState :=
  trace.states.getLast started

end Execute

namespace Fraudproof

open Disputes (Party)
open Execute (ExecutionTrace StepWitness verifyStep)

/-- What a verifier found when it re-executed a batch. -/
inductive Finding where
  | agrees
  | rootDiverges (asserted computed : Hash256)
  | traceLengthDiverges (asserted computed : Nat)
deriving DecidableEq

/-- Compares an assertion against a locally computed trace. -/
def checkAssertion (a : Assertion) (trace : ExecutionTrace) (started : trace.states ≠ []) : Finding :=
  let computedRoot := (trace.finalState started).stateRoot
  if a.postStateRoot ≠ computedRoot then .rootDiverges a.postStateRoot computedRoot
  else if a.traceLength ≠ trace.instructions.length then
    .traceLengthDiverges a.traceLength trace.instructions.length
  else .agrees

/-- Everything L1 needs to settle the disputed step. -/
structure OneStepProof where
  preState : MachineState
  witness : StepWitness
deriving DecidableEq

inductive VerdictReason where
  | defenderClaimConfirmed
  | defenderClaimRefuted
  | stepIsNotExecutable (error : StepError)
  | proofContradictsAgreedState
  | witnessRejected (error : StepError)
  | traceLengthOverstated (step : U64) (programLength : Nat)
deriving DecidableEq

structure Verdict where
  winner : Party
  reason : VerdictReason
deriving DecidableEq

/-- The step index under dispute, once the interval is one wide. -/
def Dispute.disputedStep (d : Dispute) : Option U64 :=
  match d.stage with
  | .oneStep => some d.lo
  | _ => none

/-- Settles a dispute that has narrowed to a single step of `program`. -/
def adjudicate (crypto : Crypto) (program : List Instruction) (d : Dispute) (proof : OneStepProof) :
    Option Verdict := do
  let step ← d.disputedStep
  if proof.preState.commitment crypto ≠ d.loCommitment then
    return ⟨.defender, .proofContradictsAgreedState⟩
  match program[step.val]? with
  | none => return ⟨.challenger, .traceLengthOverstated step program.length⟩
  | some instruction =>
    match verifyStep crypto proof.preState instruction proof.witness with
    | .ok post =>
      if post.commitment crypto = d.hiCommitment then return ⟨.defender, .defenderClaimConfirmed⟩
      else return ⟨.challenger, .defenderClaimRefuted⟩
    | .error error =>
      -- the challenger's own submission was defective, or the step cannot execute
      if error.isWitnessFault then return ⟨.defender, .witnessRejected error⟩
      else return ⟨.challenger, .stepIsNotExecutable error⟩

/-- A trace, and the trie its batch started from. -/
structure TracePlayer where
  trace : ExecutionTrace
  preState : MerkleTrie
  /-- A trace records the state it starts from. -/
  started : trace.states ≠ []

inductive PlayError where
  | move (error : MoveError)
  | noDisagreement
deriving DecidableEq

/-- The first of `ends`, from segment `index` on, that is not our own at its point. -/
def firstOther (own : U64 → Hash256) : (index : Nat) → (points : List U64) → (ends : List Hash256) →
    Option (Option Nat)
  | _, _, [] => some none
  | _, [], _ :: _ => none
  | index, point :: points, claimed :: rest =>
    if own point ≠ claimed then some (some index) else firstOther own (index + 1) points rest

namespace TracePlayer

variable (crypto : Crypto) (player : TracePlayer)

/-- `TracePlayer::state_at`. -/
def stateAt (step : U64) : MachineState :=
  player.trace.states[step.val]?.getD (player.trace.finalState player.started)

/-- `TracePlayer::commitment_at`. -/
def commitmentAt (step : U64) : Hash256 := (player.stateAt step).commitment crypto

/-- The commitments inside the dispute's current interval. -/
def dissect (d : Dispute) : Option (List Hash256) := do
  let bounds ← d.boundaries
  return bounds.tail.dropLast.map (player.commitmentAt crypto)

/-- The first segment whose end this player disputes. -/
def firstDisagreement (d : Dispute) (offered : List Hash256) : Option (Option Nat) := do
  let bounds ← d.boundaries
  firstOther (player.commitmentAt crypto) 0 bounds.tail (offered ++ [d.hiCommitment])

/-- The proof of the disputed step: the batch replayed up to it, and the slot it
touches there. None if the step lies outside the trace. -/
def oneStepProof (d : Dispute) : Option OneStepProof := do
  let step ← d.disputedStep
  let instruction ← player.trace.instructions[step.val]?
  let replay ← ((player.trace.instructions.take step.val).foldlM (Execute.apply crypto) player.preState).toOption
  let slot := instruction.slot crypto
  return ⟨player.stateAt step, ⟨slot, replay.get slot, replay.prove slot⟩⟩

/-- This player's move in `d`, whichever role it holds. -/
def play (d : Dispute) (role : Party) (now : U64) : Option (Dispute × Except PlayError Unit) :=
  match role with
  | .defender => do
    let commitments ← player.dissect crypto d
    let (d, result) ← d.dissect now commitments
    return (d, result.mapError .move)
  | .challenger =>
    match d.stage with
    | .bisecting (some offered) => do
      match ← player.firstDisagreement crypto d offered with
      | none => return (d, .error .noDisagreement)
      | some index =>
        let (d, result) ← d.select now index
        return (d, result.mapError .move)
    | _ => some (d, .error (.move .wrongStage))

/-- The verifier opens with its own commitment at step zero, where both parties agree,
and with what the proposer claims at the end. -/
def opening (identity : U32) (assertionId : Hash256) (a : Assertion) (challengeWindow : U64) : Opening where
  assertion := assertionId
  defender := a.proposer
  challenger := identity
  traceLength := Fin.ofNat _ a.traceLength
  loCommitment := player.commitmentAt crypto 0
  hiCommitment := MachineState.commitment crypto ⟨a.postStateRoot, Fin.ofNat _ a.traceLength⟩
  challengeWindow := challengeWindow

/-- `TracePlayer::open_dispute`. -/
def openDispute (identity : U32) (assertionId : Hash256) (a : Assertion) (challengeWindow now : U64) : Dispute :=
  .open (player.opening crypto identity assertionId a challengeWindow) now

end TracePlayer

end Fraudproof
end Sena
