import Sena.Bisection
import Sena.Execute
import Sena.L1Client

/-! The independent verifier: it reads every assertion and the batch data it
published, re-executes each batch on its own replica of L2 state, challenges what
it finds wrong and plays the games it opens.

A step works on a `Session`: L1 as the watcher's own submissions change it, and
the watcher's memory. What a step did before an error stays done, on L1 as in
memory. -/
namespace Sena
namespace Watcher

open L1Client

/-- The watcher's own view of a batch: every state up to the end, or up to the
step that cannot execute. -/
structure Replay where
  program : List Instruction
  states : List MachineState
  txStarts : List Nat
  /-- The first step that cannot execute, if any. -/
  failsAt : Option Nat
  pre : MerkleTrie
  post : MerkleTrie

/-- Where each program starts once all of them stand one after another. -/
def startsFrom : (start : Nat) → List (List Instruction) → List Nat
  | _, [] => []
  | start, program :: rest => start :: startsFrom (start + program.length) rest

/-- The states after each step, where execution stopped, and the trie it left. -/
def execute (crypto : Crypto) : MerkleTrie → (k : Nat) → List Instruction →
    List MachineState × Option Nat × MerkleTrie
  | trie, _, [] => ([], none, trie)
  | trie, k, instruction :: rest =>
    match Execute.apply crypto trie instruction with
    | .error _ => ([], some k, trie)
    | .ok next =>
      let (states, failsAt, post) := execute crypto next (k + 1) rest
      (⟨next.root, Fin.ofNat _ (k + 1)⟩ :: states, failsAt, post)

/-- Every transaction's program, or the first that does not compile. -/
def compileAll (crypto : Crypto) (ctx : Execute.BatchContext) :
    (index : Nat) → List Transaction → Except Nat (List (List Instruction))
  | _, [] => .ok []
  | index, tx :: rest =>
    match Execute.compile crypto tx ctx with
    | .error _ => .error index
    | .ok program => do
      let programs ← compileAll crypto ctx (index + 1) rest
      return program :: programs

variable (crypto : Crypto) (config : Config)

/-- `replay`: executes a published batch, and keeps the state after every step. -/
def replay (pre : MerkleTrie) (txs : List Transaction) (ctx : Execute.BatchContext) : Except Nat Replay := do
  let programs ← compileAll crypto ctx 0 txs
  let (states, failsAt, post) := execute crypto pre 0 programs.flatten
  return {
    program := programs.flatten
    states := .start pre.root :: states
    txStarts := startsFrom 0 programs
    failsAt, pre, post }

/-- Stands in for a commitment where there is no honest state. -/
def noHonestState (step : Nat) : Hash256 := crypto.commit .noHonestState [be 8 step]

def Replay.commitmentAt (r : Replay) (step : Nat) : Hash256 :=
  if r.failsAt.any (step > ·) then noHonestState crypto step
  else match r.states[step]? with
    | none => noHonestState crypto step
    | some s => s.commitment crypto

/-- Every published transaction, or the first that does not decode. -/
def decodeAll : (index : Nat) → List Bytes → Except Nat (List Transaction)
  | _, [] => .ok []
  | index, b :: rest =>
    match Transaction.decode b with
    | .error _ => .error index
    | .ok tx => do
      let txs ← decodeAll (index + 1) rest
      return tx :: txs

structure Config where
  /-- The watcher's own account. -/
  me : Address
  /-- The account the contracts were deployed by, whose registry the watcher plays in. -/
  contract : Address
  bond : U128
  keyless : Option KeylessConfig
  keylessSetup : UInt8

/-- A game the watcher is playing, with the state the disputed batch starts from. -/
structure Game where
  assertion : Bytes
  preState : Bytes
deriving DecidableEq

/-- What the watcher persists. -/
structure WatcherState where
  cursor : Nat
  head : Bytes
  replica : Bytes
  games : List Game
deriving DecidableEq

inductive StateFault where
  | stoppedReplaying | startsElsewhere | undecodableGame | uncompilableGame
  | unreadable (error : MerkleTrie.LoadError)
deriving DecidableEq

inductive WatchError where
  | l1 (error : L1Error)
  | state (fault : StateFault)
  | misconfiguredSetup (onL1 : U128)
  | misconfiguredGenesis
  | finalizedFraud (assertion : Bytes)
  | missingData (assertion : Bytes)
  /-- The process aborted on an index or an overflow nothing guards. -/
  | panicked
deriving DecidableEq

/-- What is wrong with an assertion. -/
inductive Fault where
  | uncompilable (index : Nat)
  | startGap (index : Nat)
  | traceLength
  | bisect
deriving DecidableEq

inductive Evidence where
  | uncompilableTransaction | startPositions | traceLength | bisection
deriving DecidableEq

structure Report where
  verified : Nat
  challenged : List (Bytes × Evidence)
  moves : Nat
  concluded : Nat
deriving DecidableEq

structure Session where
  l1 : L1
  cursor : Nat
  /-- The last assertion verified; the replica holds its post-state. -/
  head : Bytes
  replica : MerkleTrie
  games : List Game
  saved : WatcherState
  report : Report
  /-- The watcher's transactions L1 accepted, oldest first. -/
  sent : List Call

abbrev WatchM := ExceptT WatchError (StateM Session)

/-- The answer of a call or a view, unless it aborts. -/
def answered (answer : Move α) : Except WatchError α := answer.mapError fun abort => .l1 (.rejected abort)

/-- `Watcher::new`: creates a watcher over its genesis, resuming what was stored. -/
def new (l1 : L1) (genesis : MerkleTrie) (stored : Option WatcherState) : Except WatchError Session := do
  let registry ← answered (Assertions.fetch l1.registries config.contract .resource)
  let setup ← (u128Of (.ofU8 registry.keylessSetup)).mapError .l1
  if setup.val ≠ config.keylessSetup.toNat then throw (.misconfiguredSetup setup)
  let genesisAt ← answered (Assertions.assertionAt l1.chain 0)
  if genesisAt ≠ (genesisId crypto genesis.root).bytes then throw .misconfiguredGenesis
  match stored with
  | some s =>
    let replica ← (MerkleTrie.fromBytes crypto s.replica).mapError fun e => .state (.unreadable e)
    return ⟨l1, s.cursor, s.head, replica, s.games, s, ⟨0, [], 0, 0⟩, []⟩
  | none =>
    return ⟨l1, 1, genesisAt, genesis, [], ⟨1, genesisAt, genesis.toBytes, []⟩, ⟨0, [], 0, 0⟩, []⟩

/-- `Watcher::save`: what was done so far is persisted. -/
def save : WatchM Unit :=
  modify fun s => { s with saved := ⟨s.cursor, s.head, s.replica.toBytes, s.games⟩ }

/-- The answer of a view, unless the view aborts. -/
def view (answer : L1 → Move (List Value)) : WatchM (List Value) := do
  let s ← get
  match answer s.l1 with
  | .ok values => return values
  | .error abort => throw (.l1 (.rejected abort))

def parsed (result : Except L1Error α) : WatchM α :=
  match result with
  | .ok value => return value
  | .error error => throw (.l1 error)

/-- `L1::submit`: a transaction of the watcher's account. -/
def submit (call : Call) : WatchM Unit := do
  let s ← get
  match s.l1.call crypto config.me call with
  | .ok l1 => set { s with l1, sent := s.sent ++ [call] }
  | .error abort => throw (.l1 (.rejected abort))

/-- The context `replay` runs a published batch in. -/
def context (batch : PublishedBatch) : Execute.BatchContext :=
  ⟨batch.timestamp, config.keyless, batch.baseFee, batch.feeRecipient⟩

/-- `record`: reads an assertion's record from L1. -/
def record (id : Bytes) : WatchM Record := do
  let answer ← view fun l1 => do
    let r ← Assertions.disputeView l1.chain id
    return recordView r
  parsed (parseRecord answer)

/-- `batch`: reads what was published with an assertion. -/
def batch (id : Bytes) : WatchM PublishedBatch := do
  let s ← get
  match ← parsed (publishedBatch s.l1.chain id) with
  | some batch => return batch
  | none => throw (.missingData id)

/-- The first later transaction that does not start where it should. -/
def firstGap : (index : Nat) → (own : List Nat) → (published : List U64) → Except WatchError (Option Nat)
  | _, [], _ => .ok none
  | _, _ :: _, [] => .error .panicked
  | index, own :: rest, published :: others =>
    if own ≠ published.val then .ok (some index) else firstGap (index + 1) rest others

/-- `none` if the assertion is right, otherwise what is wrong with it. -/
def judge (replica : MerkleTrie) (rec : Record) (batch : PublishedBatch) : Except WatchError (Option Fault) :=
  match decodeAll 0 batch.txBytes with
  | .error i => .ok (some (.uncompilable i))
  | .ok txs =>
    if rec.preStateRoot ≠ replica.root then .error (.state .startsElsewhere)
    else match replay crypto replica txs (context config batch) with
      | .error i => .ok (some (.uncompilable i))
      | .ok r => do
        if let some i ← firstGap 1 r.txStarts.tail batch.txStarts.tail then
          return some (.startGap i)
        if r.failsAt.isNone ∧ r.program.length ≠ rec.traceLength.val then return some .traceLength
        if r.failsAt.isSome ∨ r.post.root ≠ rec.postStateRoot then return some .bisect
        return none

/-- Leaf `i` of the batch with its path. -/
def leafArgs (batch : PublishedBatch) (i : Nat) : Except WatchError Disputes.LeafArgs :=
  match batch.txStarts[i]?, batch.txBytes[i]? with
  | some start, some tx =>
    let tree := Batch.BatchTree.build crypto (batch.txStarts.zip batch.txBytes)
    .ok ⟨start, tx, ((tree.prove i).getD []).map (·.bytes)⟩
  | _, _ => .error .panicked

def lifted (result : Except WatchError α) : WatchM α :=
  match result with
  | .ok value => return value
  | .error error => throw error

/-- `keyless_job_id`. -/
def keylessJobId (txBytes : Bytes) (timestamp : U64) (setup : UInt8) : Hash256 :=
  crypto.commit .keylessJob [txBytes, be 8 timestamp.val, be 8 setup.toNat]

/-- `Watcher::ensure_keyless_verdict`: runs a leaf's job on L1 to its end, if it is
keyless and has no verdict. -/
def ensureKeylessVerdict (txBytes : Bytes) (timestamp : U64) : WatchM Unit :=
  match Transaction.decode txBytes with
  | .ok { authenticator := .keyless _, .. } => do
    let job := (keylessJobId crypto txBytes timestamp config.keylessSetup).bytes
    let s ← get
    if ((s.l1.registries config.contract).bind (·.jobs job)).isNone then
      submit crypto config (.runJob config.contract txBytes timestamp config.keylessSetup)
  | _ => return ()

/-- A leaf L1 is going to compile; its verdict has to be there first. -/
def compiledLeaf (rec : Record) (batch : PublishedBatch) (i : Nat) : WatchM Disputes.LeafArgs := do
  let leaf ← lifted (leafArgs crypto batch i)
  ensureKeylessVerdict crypto config leaf.txBytes rec.timestamp
  return leaf

/-- Opens a challenge unless one of ours already stands. -/
def openChallenge (id : Bytes) : WatchM Unit := do
  let answer ← view fun l1 => .ok (challengersView l1.chain id)
  if listsAddress answer config.me = false then
    submit crypto config (.openChallenge id config.bond)

/-- The state of the watcher's game over an assertion, in its contract's registry. -/
def disputeState (assertion : Bytes) : WatchM DisputeState := do
  let answer ← view fun l1 => do
    let r ← Assertions.fetch l1.registries config.contract .resource
    return disputeStateView (r.disputes (Disputes.disputeId assertion config.me))
  parsed (parseDispute answer)

/-- `challenge`: opens a challenge with the evidence of a fault. -/
def challenge (id : Bytes) (rec : Record) (fault : Fault) : WatchM Evidence := do
  openChallenge crypto config id
  let batch ← batch id
  match fault with
  | .uncompilable i =>
    let leaf ← compiledLeaf crypto config rec batch i
    submit crypto config (.proveUncompilable config.contract id (Fin.ofNat _ i) leaf)
    return .uncompilableTransaction
  | .startGap i =>
    let a ← compiledLeaf crypto config rec batch (i - 1)
    let b ← lifted (leafArgs crypto batch i)
    submit crypto config (.proveStartGap config.contract id (Fin.ofNat _ (i - 1)) a b)
    return .startPositions
  | .traceLength =>
    let leaf ← compiledLeaf crypto config rec batch (batch.txBytes.length - 1)
    submit crypto config (.proveTraceLength config.contract id leaf)
    return .traceLength
  | .bisect =>
    let existing ← disputeState config id
    if existing.doesExist = false then submit crypto config (.openDispute config.contract id)
    modify fun s => { s with games := s.games ++ [⟨id, s.replica.toBytes⟩] }
    save
    return .bisection

/-- Judges the assertion at the cursor, if it continues the verified head. -/
def examineAssertion (id : Bytes) (rec : Record) : WatchM Unit := do
  let s ← get
  if rec.parent = s.head ∧ rec.status ≠ status.REJECTED then
    let published ← batch id
    match ← lifted (judge crypto config s.replica rec published) with
    | none =>
      let txs := (decodeAll 0 published.txBytes).toOption.getD []
      match replay crypto s.replica txs (context config published) with
      | .error _ => throw (.state .stoppedReplaying)
      | .ok r =>
        modify fun s => { s with
          replica := r.post, head := id
          report := { s.report with verified := s.report.verified + 1 } }
    | some fault =>
      if rec.status = status.FINALIZED then throw (.finalizedFraud id)
      let evidence ← challenge crypto config id rec fault
      modify fun s => { s with
        report := { s.report with challenged := s.report.challenged ++ [(id, evidence)] } }

/-- One turn of the loop: the next assertion in posting order. -/
def examineNext : WatchM Unit := do
  let s ← get
  let answer ← view fun l1 => assertionAtView l1.chain s.cursor
  let id ← parsed (match answer with
    | v :: _ => bytesOf v
    | [] => .error (.malformed .assertionAt))
  let rec ← record id
  examineAssertion crypto config id rec
  modify fun s => { s with cursor := s.cursor + 1 }
  save

/-- The loop, for as many assertions as lie ahead of the cursor. -/
def examineMany (crypto : Crypto) (config : Config) : Nat → WatchM Unit
  | 0 => return ()
  | n + 1 => do
    examineNext crypto config
    examineMany crypto config n

/-- `examine`: reads every assertion posted since, in order. -/
def examine : WatchM Unit := do
  let s ← get
  let answer ← view fun l1 => .ok (assertionCountView l1.chain)
  let count ← parsed (match answer with
    | v :: _ => u128Of v
    | [] => .error (.malformed .count))
  examineMany crypto config (count.val - s.cursor)

/-- The first offered commitment, from segment `j` on, that is not our own. -/
def firstDifference (own : Nat → Hash256) (bounds : List U64) :
    (j : Nat) → List Hash256 → Except WatchError (Option Nat)
  | _, [] => .ok none
  | j, offered :: rest =>
    match bounds[j + 1]? with
    | none => .error .panicked
    | some position =>
      if own position.val ≠ offered then .ok (some j) else firstDifference own bounds (j + 1) rest

/-- The segment to select: where we first differ, or the last one. -/
def selection (r : Replay) (d : DisputeState) : Except WatchError Nat :=
  -- the boundaries of an interval too long for them abort the process
  match Fraudproof.boundaries d.lo d.hi Fraudproof.DEFAULT_ARITY with
  | none => .error .panicked
  | some bounds => do
    let difference ← firstDifference (r.commitmentAt crypto) bounds 0 d.offered
    return difference.getD (bounds.length - 2)

/-- The last transaction that starts at or before `pc`. -/
def coveringLeaf (starts : List U64) (pc : U64) : Nat :=
  ((starts.zipIdx.filter (·.1.val ≤ pc.val)).getLast?.map (·.2)).getD 0

/-- The trie after the first `n` instructions, those that fail skipped. -/
def stateBefore (pre : MerkleTrie) (program : List Instruction) (n : Nat) : MerkleTrie :=
  (program.take n).foldl (fun trie instruction =>
    match Execute.apply crypto trie instruction with
    | .ok next => next
    | .error _ => trie) pre

/-- The witness arguments for the step at `pc`. -/
def oneStepWitness (r : Replay) (pc : U64) : Disputes.WitnessArgs :=
  let trie := stateBefore crypto r.pre r.program pc.val
  let slot := match r.program[pc.val]? with
    | some instruction => instruction.slot crypto
    | none => Hash256.zero
  let value := trie.get slot
  let proof := trie.prove slot
  { preStateRoot := trie.root.bytes
    slot := slot.bytes
    present := value.isSome
    value := value.getD []
    trieSiblings := proof.siblings.map (·.bytes)
    terminalIsLeaf := match proof.terminal with
      | .empty => false
      | .leaf _ _ => true
    terminalKey := match proof.terminal with
      | .empty => Hash256.zero.bytes
      | .leaf key _ => key.bytes
    terminalValueHash := match proof.terminal with
      | .empty => Hash256.zero.bytes
      | .leaf _ valueHash => valueHash.bytes }

def countMove : WatchM Unit :=
  modify fun s => { s with report := { s.report with moves := s.report.moves + 1 } }

/-- The replay a game is played from. -/
def gameReplay (game : Game) (batch : PublishedBatch) : Except WatchError Replay := do
  let txs ← (decodeAll 0 batch.txBytes).mapError fun _ => .state .undecodableGame
  let pre ← (MerkleTrie.fromBytes crypto game.preState).mapError fun e => .state (.unreadable e)
  (replay crypto pre txs (context config batch)).mapError fun _ => .state .uncompilableGame

/-- The watcher's move in a game that is still open. -/
def move (now : U64) (game : Game) (rec : Record) (d : DisputeState) : WatchM Unit := do
  let did : Disputes.GameId := ⟨config.contract, Disputes.disputeId game.assertion config.me⟩
  let published ← batch game.assertion
  let r ← lifted (gameReplay crypto config game published)
  if d.turn = 1 ∧ d.stage = 0 ∧ d.hasOffer = true then
    let index ← lifted (selection crypto r d)
    submit crypto config (.select did (Fin.ofNat _ index))
    countMove
  else if d.turn = 1 ∧ d.stage = 1 then
    let leaf := coveringLeaf published.txStarts d.lo
    let args ← compiledLeaf crypto config rec published leaf
    submit crypto config (.oneStep did (Fin.ofNat _ leaf) args (oneStepWitness crypto r d.lo))
    countMove
  else if d.turn = 0 ∧ now.val > d.deadline.val then
    submit crypto config (.claimTimeout did)
    countMove

/-- One turn of the loop of `Watcher::play`: a game that is over is dropped. -/
def playGame (now : U64) (game : Game) : WatchM Unit := do
  let rec ← record game.assertion
  let d ← disputeState config game.assertion
  if d.doesExist = false ∨ d.stage = 2 ∨ rec.status = status.REJECTED then
    modify fun s => { s with games := s.games.filter (· ≠ game) }
    save
    modify fun s => { s with report := { s.report with concluded := s.report.concluded + 1 } }
  else move crypto config now game rec d

/-- `Watcher::play`: every game in turn, up to the first that fails. -/
def play : WatchM Unit := do
  let s ← get
  s.games.forM (playGame crypto config s.l1.now)

/-- Plays open games and examines new assertions. -/
def step : WatchM Report := do
  modify fun s => { s with report := ⟨0, [], 0, 0⟩ }
  play crypto config
  examine crypto config
  return (← get).report

end Watcher
end Sena
