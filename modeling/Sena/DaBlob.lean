import Sena.Batch
import Sena.Effects
import Sena.LedgerRuns

/-! Published batch data, and checking it against a state.

The check executes the batch on the state it is given, in place. What it executed
before it failed stays: only a blob that is rejected before its first step leaves
the state alone. -/
namespace Sena

open Effects

namespace Execute

section InPlace

variable (crypto : Crypto)

/-- Applies one instruction to the trie itself; a failed transition writes nothing. -/
def applyInPlace (instruction : Instruction) : ExceptT StepError (StateM MerkleTrie) Hash256 := do
  let updated ← transition crypto instruction ((← get).get (instruction.slot crypto))
  modify (·.insert crypto (instruction.slot crypto) updated)
  return (← get).root

def executeInstructionInPlace (index : Nat) (trace : ExecutionTrace) (instruction : Instruction) :
    ExceptT BatchError (StateM MerkleTrie) ExecutionTrace := do
  let step := trace.instructions.length
  let root ← (applyInPlace crypto instruction).adapt (.step index step)
  if panics crypto (← get) instruction then throw .panicked
  else return { trace with
    instructions := trace.instructions ++ [instruction]
    states := trace.states ++ [⟨root, Fin.ofNat _ (step + 1)⟩] }

def executeTransactionInPlace (ctx : BatchContext) (trace : ExecutionTrace) (entry : Transaction × Nat) :
    ExceptT BatchError (StateM MerkleTrie) ExecutionTrace := do
  let compiled ← liftM ((compile crypto entry.1 ctx).mapError (BatchError.compile entry.2))
  let trace := { trace with txStarts := trace.txStarts ++ [trace.instructions.length] }
  compiled.foldlM (executeInstructionInPlace crypto entry.2) trace

/-- Executes a batch on the trie itself. -/
def executeBatchInPlace (ctx : BatchContext) (transactions : List Transaction) :
    ExceptT BatchError (StateM MerkleTrie) ExecutionTrace := do
  transactions.zipIdx.foldlM (executeTransactionInPlace crypto ctx) ⟨[], [.start (← get).root], []⟩

end InPlace

variable {crypto : Crypto} {trie trie' : MerkleTrie} {trace trace' : ExecutionTrace}

theorem outcome_applyInPlace : outcome (applyInPlace crypto i) trie = match apply crypto trie i with
    | .ok next => (.ok next.root, next)
    | .error e => (.error e, trie) := by
  change outcome (liftM (transition crypto i (trie.get (i.slot crypto))) >>= fun updated =>
    modify (·.insert crypto (i.slot crypto) updated) >>= fun _ => get >>= fun t => pure t.root) trie = _
  rw [outcome_bind, outcome_liftExcept, apply]
  cases transition crypto i (trie.get (i.slot crypto)) <;> rfl

theorem outcome_executeInstructionInPlace : outcome (executeInstructionInPlace crypto index trace i) trie =
      match executeInstruction crypto index (trie, trace) i, apply crypto trie i with
      | .ok (next, trace'), _ => (.ok trace', next)
      | .error e, .ok next => (.error e, next)
      | .error e, .error _ => (.error e, trie) := by
  rw [executeInstructionInPlace, outcome_bind, outcome_adapt, outcome_applyInPlace, executeInstruction]
  cases apply crypto trie i with
  | error e => rfl
  | ok next =>
    change outcome (if panics crypto next i then throw BatchError.panicked else pure _) next = _
    cases calm : panics crypto next i with
    | true => simp [calm, Except.mapError, bind, Except.bind]; rfl
    | false => simp [calm, Except.mapError, bind, Except.bind]; rfl

theorem returns_executeInstructionInPlace (i : Instruction) (trie : MerkleTrie) (trace : ExecutionTrace)
    (trie' : MerkleTrie) (trace' : ExecutionTrace) :
    Returns (executeInstructionInPlace crypto index trace i) trie trace' trie' ↔
      executeInstruction crypto index (trie, trace) i = .ok (trie', trace') := by
  rw [Returns, outcome_executeInstructionInPlace]
  cases executeInstruction crypto index (trie, trace) i with
  | ok run => simp [Prod.ext_iff, and_comm]
  | error e => cases apply crypto trie i <;> simp

variable {ctx : BatchContext} {txs : List Transaction}

theorem returns_executeTransactionInPlace (entry : Transaction × Nat) (trie : MerkleTrie)
    (trace : ExecutionTrace) (trie' : MerkleTrie) (trace' : ExecutionTrace) :
    Returns (executeTransactionInPlace crypto ctx trace entry) trie trace' trie' ↔
      executeTransaction crypto ctx (trie, trace) entry = .ok (trie', trace') := by
  rw [Returns, executeTransactionInPlace, outcome_bind, outcome_liftExcept, executeTransaction]
  cases compile crypto entry.1 ctx with
  | error e => simp [Except.mapError, bind, Except.bind]
  | ok program => exact returns_foldlM returns_executeInstructionInPlace

theorem returns_executeBatchInPlace : Returns (executeBatchInPlace crypto ctx txs) trie trace trie' ↔
      executeBatch crypto trie ctx txs = .ok (trie', trace) :=
  returns_foldlM returns_executeTransactionInPlace

/-- What a batch that fails leaves in the trie: what was executed of the transactions
before the one that failed, and of that one's own instructions. -/
def Abandons (crypto : Crypto) (ctx : BatchContext) (trie : MerkleTrie) (txs : List Transaction) :
    BatchError → MerkleTrie → Prop
  | .compile index source, after => ∃ tx trace, txs[index]? = some tx ∧
      executeBatch crypto trie ctx (txs.take index) = .ok (after, trace) ∧ compile crypto tx ctx = .error source
  | .step index step source, after => ∃ tx mid trace program k i, txs[index]? = some tx ∧
      executeBatch crypto trie ctx (txs.take index) = .ok (mid, trace) ∧ compile crypto tx ctx = .ok program ∧
      step = trace.instructions.length + k ∧ Run (Steps crypto) mid (program.take k) after ∧
      program[k]? = some i ∧ apply crypto after i = .error source
  | .panicked, _ => True

theorem zipIdx_eq_append {before after : List (Transaction × Nat)} {entry : Transaction × Nat}
    (split : txs.zipIdx = before ++ entry :: after) :
    txs[entry.2]? = some entry.1 ∧ before = (txs.take entry.2).zipIdx := by
  obtain ⟨first, rest, rfl, rfl, tail⟩ := List.zipIdx_eq_append_iff.mp split
  obtain ⟨tx, others, rfl, rfl, -⟩ := List.zipIdx_eq_cons_iff.mp tail.symm
  simp

theorem abandons_of_executeBatchInPlace
    (failed : outcome (executeBatchInPlace crypto ctx txs) trie = (.error e, trie')) :
    Abandons crypto ctx trie txs e trie' := by
  obtain ⟨before, entry, after, trace, mid, split, ran, stopped⟩ := outcome_foldlM_error
    (show outcome (txs.zipIdx.foldlM (executeTransactionInPlace crypto ctx) _) trie = _ from failed)
  obtain ⟨here, rfl⟩ := zipIdx_eq_append split
  have earlier : executeBatch crypto trie ctx (txs.take entry.2) = .ok (mid, trace) :=
    (returns_foldlM returns_executeTransactionInPlace).mp ran
  rw [executeTransactionInPlace, outcome_bind, outcome_liftExcept] at stopped
  cases compiled : compile crypto entry.1 ctx with
  | error source =>
    rw [compiled] at stopped
    cases stopped
    exact ⟨entry.1, trace, here, earlier, compiled⟩
  | ok program =>
    rw [compiled] at stopped
    obtain ⟨done, i, rest, trace₁, last, rfl, ran, stopped⟩ := outcome_foldlM_error
      (show outcome (program.foldlM (executeInstructionInPlace crypto entry.2) _) mid = _ from stopped)
    have ran := (returns_foldlM returns_executeInstructionInPlace).mp ran
    have steps := (Run.foldlM_fst_eq_ok (fun _ trace i _ => executeInstruction_iff _ trace i) _).mp ⟨_, ran⟩
    have traced := (traced_of_executeBatch earlier).1
    have noted : Traced crypto trie { trace with txStarts := trace.txStarts ++ [trace.instructions.length] } mid :=
      ⟨traced.length, traced.states, traced.ran⟩
    have appended : trace₁.instructions = trace.instructions ++ done := (noted.program ran).2
    rw [outcome_executeInstructionInPlace, executeInstruction] at stopped
    cases applied : apply crypto last i with
    | ok next =>
      -- nothing but an abort stops an instruction that applies
      rw [applied] at stopped
      cases calm : panics crypto next i <;> simp [calm, Except.mapError, bind, Except.bind] at stopped
      obtain ⟨rfl, rfl⟩ := stopped
      trivial
    | error source =>
      rw [applied] at stopped
      cases stopped
      exact ⟨entry.1, mid, trace, _, done.length, i, here, earlier, compiled, by simp [appended],
        by simpa using steps, by simp, applied⟩

end Execute

/-- The published data of one batch: what a verifier needs to execute it again. The
height is not part of what is checked. -/
structure DaBlob where
  timestamp : U64
  baseFee : U128
  feeRecipient : L2Address
  preStateRoot : Hash256
  postStateRoot : Hash256
  batchCommitment : Hash256
  /-- In the order they were executed. -/
  transactions : List Transaction
  /-- Where each transaction's instructions begin in the trace. -/
  txStarts : List U64
deriving DecidableEq

/-- Why a blob is rejected. -/
inductive DaError where
  | commitment
  | startingRoot (root expected : Hash256)
  | execution (error : Execute.BatchError)
  | starts
  | postRoot (root asserted : Hash256)
deriving DecidableEq

namespace DaBlob

open Execute (BatchContext executeBatch executeBatchInPlace Abandons)

section
variable (crypto : Crypto)

/-- The commitment the contents produce. -/
def computedCommitment (blob : DaBlob) : Hash256 :=
  let leaves := (blob.txStarts.zip blob.transactions).map fun (start, tx) => (start, tx.encode)
  let tree := Batch.BatchTree.build crypto leaves
  Batch.headerCommitment crypto blob.timestamp blob.baseFee blob.feeRecipient tree.txCount tree.root

/-- Whether the stated commitment matches the contents. -/
def verifyIntegrity (blob : DaBlob) : Bool :=
  blob.txStarts.length = blob.transactions.length && blob.computedCommitment crypto = blob.batchCommitment

def context (blob : DaBlob) (keyless : Option KeylessConfig) : BatchContext where
  timestamp := blob.timestamp
  keyless := keyless
  baseFee := blob.baseFee
  feeRecipient := blob.feeRecipient

/-- Executes the blob on the trie it is given and checks that it reaches the asserted
root. -/
def verifyExecution (blob : DaBlob) (keyless : Option KeylessConfig) : ExceptT DaError (StateM MerkleTrie) Hash256 := do
  if blob.verifyIntegrity crypto = false then throw .commitment
  else
    let root := (← get).root
    if root ≠ blob.preStateRoot then throw (.startingRoot root blob.preStateRoot)
    else
      let trace ← (executeBatchInPlace crypto (blob.context keyless) blob.transactions).adapt .execution
      if trace.txStarts ≠ blob.txStarts.map (·.val) then throw .starts
      else
        let finalRoot := (← get).root
        if finalRoot ≠ blob.postStateRoot then throw (.postRoot finalRoot blob.postStateRoot)
        else return finalRoot

end

/-- What a rejected blob leaves in the trie. -/
def Leaves (crypto : Crypto) (blob : DaBlob) (keyless : Option KeylessConfig) (trie : MerkleTrie) :
    DaError → MerkleTrie → Prop
  | .commitment, after => blob.verifyIntegrity crypto = false ∧ after = trie
  | .startingRoot root expected, after => root = trie.root ∧ expected = blob.preStateRoot ∧ root ≠ expected ∧ after = trie
  | .execution error, after => Abandons crypto (blob.context keyless) trie blob.transactions error after
  | .starts, after => ∃ trace, executeBatch crypto trie (blob.context keyless) blob.transactions = .ok (after, trace) ∧
      trace.txStarts ≠ blob.txStarts.map (·.val)
  | .postRoot root asserted, after =>
    (∃ trace, executeBatch crypto trie (blob.context keyless) blob.transactions = .ok (after, trace)) ∧
      root = after.root ∧ asserted = blob.postStateRoot ∧ root ≠ asserted

variable {crypto : Crypto} {blob : DaBlob} {keyless : Option KeylessConfig} {trie : MerkleTrie}

theorem outcome_verifyExecution : outcome (blob.verifyExecution crypto keyless) trie =
    if blob.verifyIntegrity crypto = false then (.error .commitment, trie)
    else if trie.root ≠ blob.preStateRoot then (.error (.startingRoot trie.root blob.preStateRoot), trie)
    else match outcome (executeBatchInPlace crypto (blob.context keyless) blob.transactions) trie with
      | (.error e, after) => (.error (.execution e), after)
      | (.ok trace, after) => (if trace.txStarts ≠ blob.txStarts.map (·.val) then .error .starts
          else if after.root ≠ blob.postStateRoot then .error (.postRoot after.root blob.postStateRoot)
          else .ok after.root, after) := by
  rw [verifyExecution]
  by_cases broken : blob.verifyIntegrity crypto = false
  · rw [if_pos broken, if_pos broken]
    rfl
  rw [if_neg broken, if_neg broken]
  change outcome (if trie.root ≠ blob.preStateRoot then throw _ else _) trie = _
  by_cases elsewhere : trie.root ≠ blob.preStateRoot
  · rw [if_pos elsewhere, if_pos elsewhere]
    rfl
  rw [if_neg elsewhere, if_neg elsewhere, outcome_bind, outcome_adapt]
  cases outcome (executeBatchInPlace crypto (blob.context keyless) blob.transactions) trie with | mk result after =>
  cases result with
  | error e => rfl
  | ok trace =>
    dsimp only
    change outcome (if trace.txStarts ≠ _ then throw _ else _) after = _
    split
    · rfl
    · change outcome (if after.root ≠ blob.postStateRoot then throw _ else _) after = _
      split <;> rfl

theorem leaves_of_verifyExecution
    (failed : outcome (blob.verifyExecution crypto keyless) trie = (.error error, after)) :
    blob.Leaves crypto keyless trie error after := by
  rw [outcome_verifyExecution] at failed
  split at failed
  · rename_i broken
    cases failed
    exact ⟨broken, rfl⟩
  split at failed
  · rename_i elsewhere
    cases failed
    exact ⟨rfl, rfl, elsewhere, rfl⟩
  split at failed
  · rename_i executed
    cases failed
    exact Execute.abandons_of_executeBatchInPlace executed
  · rename_i trace _ executed
    have ran := Execute.returns_executeBatchInPlace.mp executed
    obtain ⟨result, rfl⟩ := Prod.mk.inj failed
    split at result
    · rename_i misplaced
      cases result
      exact ⟨trace, ran, misplaced⟩
    split at result
    · rename_i astray
      cases result
      exact ⟨⟨trace, ran⟩, rfl, rfl, astray⟩
    · cases result

theorem returns_verifyExecution : Returns (blob.verifyExecution crypto keyless) trie root after ↔
    blob.verifyIntegrity crypto = true ∧ trie.root = blob.preStateRoot ∧
      ∃ trace, executeBatch crypto trie (blob.context keyless) blob.transactions = .ok (after, trace) ∧
        trace.txStarts = blob.txStarts.map (·.val) ∧ after.root = blob.postStateRoot ∧ root = blob.postStateRoot := by
  rw [Returns, outcome_verifyExecution]
  constructor
  · intro returned
    split at returned
    · cases returned
    split at returned
    · cases returned
    rename_i intact here
    split at returned
    · cases returned
    rename_i trace _ executed
    obtain ⟨result, rfl⟩ := Prod.mk.inj returned
    split at result
    · cases result
    rename_i placed
    split at result
    · cases result
    rename_i reached
    cases result
    rw [not_not] at here placed reached
    exact ⟨Bool.not_eq_false _ ▸ intact, here, trace, Execute.returns_executeBatchInPlace.mp executed, placed, reached,
      reached⟩
  · rintro ⟨intact, here, trace, ran, placed, reached, rfl⟩
    have executed : outcome (executeBatchInPlace crypto (blob.context keyless) blob.transactions) trie = (.ok trace, after) :=
      Execute.returns_executeBatchInPlace.mpr ran
    simp [intact, here, executed, placed, reached]

/-- A blob is accepted exactly if its contents match its commitment and execute from its
pre-state to its post-state, which the trie is then in. A rejected one leaves in the
trie what was executed before the check failed. -/
theorem blob_is_judged_in_place (crypto : Crypto) (blob : DaBlob) (keyless : Option KeylessConfig) (trie : MerkleTrie) :
    (∀ root after, outcome (blob.verifyExecution crypto keyless) trie = (.ok root, after) ↔
      blob.verifyIntegrity crypto = true ∧ trie.root = blob.preStateRoot ∧
        ∃ trace, executeBatch crypto trie (blob.context keyless) blob.transactions = .ok (after, trace) ∧
          trace.txStarts = blob.txStarts.map (·.val) ∧ after.root = blob.postStateRoot ∧ root = blob.postStateRoot) ∧
    ∀ error after, outcome (blob.verifyExecution crypto keyless) trie = (.error error, after) →
      blob.Leaves crypto keyless trie error after :=
  ⟨fun _ _ => returns_verifyExecution, fun _ _ => leaves_of_verifyExecution⟩

end DaBlob

namespace Devnet

/-- Two copies of the same payment, as a blob. -/
def repeated : DaBlob :=
  let blob : DaBlob := {
    timestamp := context.timestamp
    baseFee := context.baseFee
    feeRecipient := context.feeRecipient
    preStateRoot := genesis.root
    postStateRoot := genesis.root
    batchCommitment := Hash256.zero
    transactions := [payment, payment]
    txStarts := [0, 8] }
  { blob with batchCommitment := blob.computedCommitment crypto }

theorem repeated_pays_once : ∃ error after,
    outcome (repeated.verifyExecution crypto none) genesis = (.error (.execution error), after) ∧
      after.get (Keys.account crypto bob) ≠ genesis.get (Keys.account crypto bob) ∧ after.root ≠ genesis.root := by
  have ran : (match outcome (repeated.verifyExecution crypto none) genesis with
      | (.error (.execution _), after) => decide (after.get (Keys.account crypto bob) ≠
          genesis.get (Keys.account crypto bob) ∧ after.root ≠ genesis.root)
      | _ => false) = true := by
    decide +kernel
  split at ran
  · rename_i error after rejected
    obtain ⟨paid, moved⟩ := of_decide_eq_true ran
    exact ⟨error, after, rejected, paid, moved⟩
  · cases ran

/-- Rejecting a blob can leave its first payment in the replica. -/
theorem rejected_blob_pays_once : ∃ (blob : DaBlob) (error : DaError) (after : MerkleTrie),
    outcome (blob.verifyExecution crypto none) genesis = (.error error, after) ∧
      after.get (Keys.account crypto bob) ≠ genesis.get (Keys.account crypto bob) ∧ after.root ≠ genesis.root := by
  obtain ⟨error, after, rejected, paid, moved⟩ := repeated_pays_once
  exact ⟨repeated, _, after, rejected, paid, moved⟩

/-- What the rejected blob leaves is what was executed before the second copy failed. -/
theorem repeated_leaves_the_first : ∃ error after,
    outcome (repeated.verifyExecution crypto none) genesis = (.error (.execution error), after) ∧
      Execute.Abandons crypto (repeated.context none) genesis repeated.transactions error after := by
  obtain ⟨error, after, rejected, -⟩ := repeated_pays_once
  exact ⟨error, after, rejected, (DaBlob.blob_is_judged_in_place crypto repeated none genesis).2 _ _ rejected⟩

end Devnet
end Sena
