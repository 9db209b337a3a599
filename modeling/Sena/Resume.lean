import Sena.AssertionChainProofs
import Sena.SequencerRuns

/-! Starting again.

A node that resumes replays its saved batches from genesis and takes nothing on trust.
Executing a batch is a function of the state before it, so the replay retraces the
blocks one by one; and the chain keeps a record of every assertion it was given, under
the assertion's own id. -/
namespace Sena

open Execute (BatchContext BatchError ExecutionTrace executeBatch)
open Fraudproof (Assertion AssertionChain)

/-- What is saved of a block. -/
structure StoredBatch where
  timestamp : U64
  baseFee : U128
  feeRecipient : L2Address
  transactions : List Transaction
  postStateRoot : Hash256
deriving DecidableEq

def Block.stored (block : Block) : StoredBatch where
  timestamp := block.timestamp
  baseFee := block.baseFee
  feeRecipient := block.feeRecipient
  transactions := block.transactions
  postStateRoot := block.postStateRoot

inductive ResumeError where
  | noLongerExecutes (height : Nat) (e : BatchError)
  | differentRoot (height : Nat)
  | noAssertion (height : Nat)
  | differentState
deriving DecidableEq

namespace Sequencer

section
variable (crypto : Crypto)

/-- A sequencer posting to a chain. There is none if the chain has nothing final. -/
def new (state : MerkleTrie) (chain : AssertionChain) (identity : U32) (bond : U128) : Option Sequencer := do
  let finalized ← chain.latestFinalizedRecord
  return {
    state := state
    mempool := Mempool.new 4096
    blocks := []
    chain := chain
    identity := identity
    bond := bond
    assertions := []
    head := finalized.assertion.id crypto
    keyless := none
    feeRecipient := Execute.FEE_VAULT
    feeAssetLimits := [] }

/-- One turn of the replay: the batch must execute, reach the root it was saved with,
and be covered by an assertion the chain holds. -/
def replay (s : Sequencer) (batch : StoredBatch) : Option (Except ResumeError Sequencer) :=
  let height := s.blocks.length + 1
  let ctx : BatchContext := ⟨batch.timestamp, s.keyless, batch.baseFee, batch.feeRecipient⟩
  match executeBatch crypto s.state ctx batch.transactions with
  | .error .panicked => none
  | .error e => some (.error (.noLongerExecutes height e))
  | .ok (next, trace) =>
    if next.root ≠ batch.postStateRoot then some (.error (.differentRoot height))
    else
      let block := s.block ctx batch.transactions next trace
      let id := (s.assertion crypto block).id crypto
      if (s.chain.get id).isNone then some (.error (.noAssertion height))
      else some (.ok { s with
        state := next
        head := id
        blocks := s.blocks ++ [block]
        assertions := s.assertions ++ [id] })

def replayAll : List StoredBatch → Sequencer → Option (Except ResumeError Sequencer)
  | [], s => some (.ok s)
  | batch :: batches, s =>
    match replay crypto s batch with
    | some (.ok s) => replayAll batches s
    | stopped => stopped

/-- The id of the assertion a chain over this root starts from. -/
def genesisId (root : Hash256) : Hash256 :=
  (Assertion.mk Hash256.zero 0 Hash256.zero root Hash256.zero 0 0).id crypto

/-- `Sequencer::resume`: replays the stored batches and compares the root. -/
def resume (genesis : MerkleTrie) (chain : AssertionChain) (identity : U32) (bond : U128)
    (keyless : Option KeylessConfig) (batches : List StoredBatch) (savedStateRoot : Hash256) :
    Option (Except ResumeError Sequencer) := do
  let s ← new crypto genesis chain identity bond
  let replayed ← replayAll crypto batches { s with keyless, head := genesisId crypto genesis.root }
  return do
    let s ← replayed
    if s.state.root ≠ savedStateRoot then throw .differentState
    return s

end

/-- What the server does with its sequencer. -/
inductive Work where
  | call (clock : U64) (call : Call)
  | advanceTo (time : U64)
  | finalize (id : Hash256)
deriving DecidableEq

/-- A refusal of the chain leaves it as it was. -/
def work (crypto : Crypto) (s : Sequencer) : Work → Option Sequencer
  | .call clock call => s.call crypto (clock, call)
  | .advanceTo time => some { s with chain := (s.chain.advanceTo time).toOption.getD s.chain }
  | .finalize id => some { s with chain := (s.chain.finalize id).toOption.getD s.chain }

def Works (crypto : Crypto) (s : Sequencer) (work : Work) (s' : Sequencer) : Prop := s.work crypto work = some s'

end Sequencer

namespace Fraudproof.AssertionChain

variable {crypto : Crypto} {chain chain' : AssertionChain} {id : Hash256} {record : Record}

/-- A chain that its snapshot restores. -/
structure Filed (crypto : Crypto) (chain : AssertionChain) : Prop where
  sorted : SortedMap.Sorted Hash256.rank chain.records
  named : ∀ id r, chain.get id = some r → r.assertion.id crypto = id
  window : CHALLENGE_WINDOW_FLOOR ≤ chain.challengeWindow
  latest : chain.latestFinalizedRecord.isSome

theorem Filed.restore_snapshot (filed : Filed crypto chain) : restore crypto chain.snapshot = chain := by
  have records : (chain.records.map (·.2)).foldl (fun records record =>
      SortedMap.insert Hash256.rank (record.assertion.id crypto) record records) [] = chain.records := by
    rw [List.foldl_map]
    have own : ∀ start, chain.records.foldl (fun records e =>
        SortedMap.insert Hash256.rank (e.2.assertion.id crypto) e.2 records) start =
          chain.records.foldl (fun records e => SortedMap.insert Hash256.rank e.1 e.2 records) start := by
      intro start
      refine List.foldl_ext _ _ _ fun records e member => ?_
      rw [filed.named e.1 e.2 (SortedMap.get_of_mem Hash256.rank filed.sorted member)]
    rw [own]
    exact SortedMap.foldl_insert Hash256.rank (show SortedMap.Sorted _ ([] ++ _) from filed.sorted)
  have window : max chain.challengeWindow CHALLENGE_WINDOW_FLOOR = chain.challengeWindow := max_eq_left filed.window
  obtain ⟨_, _, _, _, _⟩ := chain
  simp only [restore, snapshot, AssertionChain.mk.injEq] at records window ⊢
  exact ⟨records, trivial, window, trivial, trivial⟩

theorem isSome_get_write (known : (chain.get key).isSome) : ((chain.write id written).get key).isSome := by
  by_cases here : id = key
  · simp [here]
  · simpa [here] using known

theorem Filed.write (filed : Filed crypto chain) {written : Record} (named : written.assertion.id crypto = id) :
    Filed crypto (chain.write id written) := by
  refine ⟨sorted_write filed.sorted _ _, fun key r found => ?_, filed.window, ?_⟩
  · by_cases here : id = key
    · obtain rfl : written = r := by simpa [here] using found
      exact named.trans here
    · exact filed.named key r (by simpa [here] using found)
  · obtain ⟨r, known⟩ := Option.isSome_iff_exists.mp filed.latest
    obtain ⟨final, latest, found⟩ := Option.bind_eq_some_iff.mp known
    have kept : ((chain.write id written).get final).isSome := isSome_get_write (by rw [found]; rfl)
    simp only [latestFinalizedRecord, show (chain.write id written).latestFinalized = some final from latest]
    exact kept

theorem filed_new (crypto : Crypto) (root : Hash256) (window : U64) (bond : U128) :
    Filed crypto (new crypto root window bond) := by
  refine ⟨List.pairwise_singleton _ _, fun id r found => ?_, le_max_right _ _,
    by simp [latestFinalizedRecord, new, get, SortedMap.get]⟩
  simp only [get, new, SortedMap.get, Hash256.rank_inj] at found
  split at found
  · rename_i here
    cases found
    exact here
  · cases found

/-- What the node itself does to its chain keeps every record it has. -/
theorem Filed.called (filed : Filed crypto chain) (called : Called crypto chain c chain')
    (own : (∃ a, c = .post a) ∨ (∃ time, c = .advanceTo time) ∨ ∃ id, c = .finalize id) :
    Filed crypto chain' ∧ ∀ key, (chain.get key).isSome → (chain'.get key).isSome := by
  cases called with
  | posted a => exact ⟨filed.write rfl, fun key => isSome_get_write⟩
  | challenged | defended | rejected => simp at own
  | @finalized r _ id found =>
    have written : Filed crypto (chain.write id { r with status := .finalized }) :=
      filed.write (filed.named id r found)
    refine ⟨⟨written.sorted, written.named, written.window, ?_⟩, fun key => isSome_get_write⟩
    have found' : (chain.write id { r with status := .finalized }).get id = some { r with status := .finalized } := by
      simp
    exact Option.isSome_iff_exists.mpr ⟨_, found'⟩
  | advanced => exact ⟨⟨filed.sorted, filed.named, filed.window, filed.latest⟩, fun _ => id⟩

end Fraudproof.AssertionChain

namespace Sequencer

variable {crypto : Crypto} {base s s' : Sequencer} {chain : AssertionChain}

theorem replayAll_append (batches more : List StoredBatch) (done : replayAll crypto batches s = some (.ok s')) :
    replayAll crypto (batches ++ more) s = replayAll crypto more s' := by
  induction batches generalizing s with
  | nil =>
    obtain rfl := Except.ok.inj (Option.some.inj done)
    rfl
  | cons batch batches ih =>
    simp only [List.cons_append, replayAll] at done ⊢
    split at done
    · exact ih done
    · rename_i other
      exact absurd done (other _)

/-- The blocks of `s` on a sequencer that posts to another chain. -/
def retraced (base : Sequencer) (chain : AssertionChain) (s : Sequencer) : Sequencer :=
  { base with chain, state := s.state, head := s.head, blocks := s.blocks, assertions := s.assertions }

/-- The replay on top of `base` reaches the blocks of `s`, with any chain that has
their assertions. -/
structure Retraces (crypto : Crypto) (base s : Sequencer) : Prop where
  identity : s.identity = base.identity
  bond : s.bond = base.bond
  keyless : s.keyless = base.keyless
  filed : s.chain.Filed crypto
  known : ∀ id ∈ s.assertions, (s.chain.get id).isSome
  replays : ∀ chain : AssertionChain, (∀ id ∈ s.assertions, (chain.get id).isSome) →
    replayAll crypto (s.blocks.map Block.stored) { base with chain } = some (.ok (base.retraced chain s))

variable {next : MerkleTrie} {trace : ExecutionTrace} {block : Block} {ctx : BatchContext} {txs : List Transaction}

theorem replay_ok (s : Sequencer) (batch : StoredBatch)
    (executed : executeBatch crypto s.state ⟨batch.timestamp, s.keyless, batch.baseFee, batch.feeRecipient⟩
      batch.transactions = .ok (next, trace)) (reached : next.root = batch.postStateRoot)
    (shaped : block = s.block ⟨batch.timestamp, s.keyless, batch.baseFee, batch.feeRecipient⟩ batch.transactions next
      trace) (known : (s.chain.get ((s.assertion crypto block).id crypto)).isSome) :
    replay crypto s batch = some (.ok { s with
      state := next
      head := (s.assertion crypto block).id crypto
      blocks := s.blocks ++ [block]
      assertions := s.assertions ++ [(s.assertion crypto block).id crypto] }) := by
  subst shaped
  unfold replay
  simp only [executed]
  have covered : ¬(s.chain.get ((s.assertion crypto (s.block ⟨batch.timestamp, s.keyless, batch.baseFee,
      batch.feeRecipient⟩ batch.transactions next trace)).id crypto)).isNone := by
    rw [Option.isNone_iff_eq_none]
    exact Option.isSome_iff_ne_none.mp known
  rw [if_neg (not_not.mpr reached), if_neg covered]

section
variable (retraces : Retraces crypto base s)
include retraces

/-- A block that was sealed is replayed as it was sealed. -/
theorem Retraces.replay (same : ctx.keyless = s.keyless)
    (executed : executeBatch crypto s.state ctx txs = .ok (next, trace)) (shaped : block = s.block ctx txs next trace)
    (known : (chain.get ((s.assertion crypto block).id crypto)).isSome) :
    Sequencer.replay crypto (base.retraced chain s) block.stored =
      some (.ok (base.retraced chain (s.extended crypto next block))) := by
  obtain ⟨timestamp, keyless, baseFee, feeRecipient⟩ := ctx
  obtain rfl : keyless = base.keyless := same.trans retraces.keyless
  subst shaped
  have assertion : ∀ block, (base.retraced chain s).assertion crypto block = s.assertion crypto block := by
    intro block
    simp only [Sequencer.assertion, retraced, retraces.identity, retraces.bond]
  have replayed := replay_ok (base.retraced chain s)
    (s.block ⟨timestamp, base.keyless, baseFee, feeRecipient⟩ txs next trace).stored executed rfl rfl
    (by rw [assertion]; exact known)
  rw [replayed, assertion]
  rfl

theorem Retraces.extended (pool : Mempool) (same : ctx.keyless = s.keyless)
    (executed : executeBatch crypto s.state ctx txs = .ok (next, trace)) (asserts : s.Asserts)
    (shaped : block = s.block ctx txs next trace) :
    Retraces crypto base { s.extended crypto next block with mempool := pool } ∧
      ∀ id, (s.chain.get id).isSome → ((s.extended crypto next block).chain.get id).isSome := by
  subst shaped
  have posted : s.chain.call crypto (.post (s.assertion crypto (s.block ctx txs next trace))) =
      .ok (s.pending crypto (s.assertion crypto (s.block ctx txs next trace))) := by
    simp only [AssertionChain.call, post_ok asserts]
    rfl
  obtain ⟨filed, kept⟩ := retraces.filed.called (AssertionChain.called_of_call posted) (.inl ⟨_, rfl⟩)
  have here : ((s.pending crypto (s.assertion crypto (s.block ctx txs next trace))).get
      ((s.assertion crypto (s.block ctx txs next trace)).id crypto)).isSome := by
    simp [pending, AssertionChain.get, SortedMap.get_insert]
  refine ⟨⟨retraces.identity, retraces.bond, retraces.keyless, filed, fun id member => ?_, fun chain known => ?_⟩, kept⟩
  · rcases List.mem_append.mp member with before | last
    · exact kept id (retraces.known id before)
    · rw [List.mem_singleton.mp last]
      exact here
  · have before := retraces.replays chain fun id member => known id (List.mem_append_left _ member)
    have last := retraces.replay same executed rfl (known _ (List.mem_append_right _ List.mem_cons_self))
    change replayAll crypto ((s.blocks ++ [s.block ctx txs next trace]).map Block.stored) _ = _
    rw [List.map_append, replayAll_append _ _ before]
    simp only [List.map_cons, List.map_nil, replayAll, last]
    rfl

/-- A step that leaves the blocks alone. -/
theorem Retraces.frame (pool : Mempool) {chain : AssertionChain}
    (filed : chain.Filed crypto) (kept : ∀ id, (s.chain.get id).isSome → (chain.get id).isSome) :
    Retraces crypto base { s with mempool := pool, chain } :=
  ⟨retraces.identity, retraces.bond, retraces.keyless, filed, fun id member => kept id (retraces.known id member),
    retraces.replays⟩

end

theorem submit_frame (called : s.call crypto (clock, .submit tx) = some s') :
    ∃ pool, s' = { s with mempool := pool } := by
  obtain ⟨⟨_, answer⟩, submitted, rfl⟩ := Option.map_eq_some_iff.mp called
  obtain ⟨⟨pool, _⟩, _, same⟩ := Option.bind_eq_some_iff.mp submitted
  cases same
  exact ⟨pool, rfl⟩

theorem Retraces.works {work : Work} (retraces : Retraces crypto base s) (works : Works crypto s work s') :
    Retraces crypto base s' ∧ ∀ id, (s.chain.get id).isSome → (s'.chain.get id).isSome := by
  have still : ∀ pool, Retraces crypto base { s with mempool := pool } := fun pool =>
    retraces.frame pool retraces.filed fun _ => id
  -- what the chain refuses it does not do
  have moved : ∀ (c : AssertionChain.Call) (result : Except Fraudproof.ChainError AssertionChain),
      s.chain.call crypto c = result →
      ((∃ a, c = .post a) ∨ (∃ time, c = .advanceTo time) ∨ ∃ id, c = .finalize id) →
      Retraces crypto base { s with chain := result.toOption.getD s.chain } ∧
        ∀ id, (s.chain.get id).isSome → ((result.toOption.getD s.chain).get id).isSome := by
    intro c result called own
    cases result with
    | error e => exact ⟨retraces, fun _ => id⟩
    | ok chain =>
      obtain ⟨filed, kept⟩ := retraces.filed.called (AssertionChain.called_of_call called) own
      exact ⟨retraces.frame s.mempool filed kept, kept⟩
  cases work with
  | call clock c =>
    cases c with
    | submit tx =>
      obtain ⟨pool, rfl⟩ := submit_frame works
      exact ⟨still pool, fun _ => id⟩
    | produce limit =>
      obtain ⟨⟨_, result⟩, produced, rfl⟩ := Option.map_eq_some_iff.mp works
      obtain ⟨pool, taken, _, spec⟩ := produce_spec produced
      cases spec with
      | idle | stuck | refused => exact ⟨still pool, fun _ => id⟩
      | appends _ next trace executed asserts block shaped =>
        exact retraces.extended pool rfl executed asserts shaped
  | advanceTo time =>
    cases works
    exact moved (.advanceTo time) _ rfl (.inr (.inl ⟨time, rfl⟩))
  | finalize id =>
    cases works
    exact moved (.finalize id) _ rfl (.inr (.inr ⟨id, rfl⟩))

/-- A sequencer over a genesis state, before its first block. -/
def blank (crypto : Crypto) (genesis : MerkleTrie) (chain : AssertionChain) (identity : U32) (bond : U128)
    (keyless : Option KeylessConfig) : Sequencer where
  state := genesis
  mempool := Mempool.new 4096
  blocks := []
  chain := chain
  identity := identity
  bond := bond
  assertions := []
  head := genesisId crypto genesis.root
  keyless := keyless
  feeRecipient := Execute.FEE_VAULT
  feeAssetLimits := []

section Genesis

variable {genesis : MerkleTrie} {identity : U32} {bond : U128} {keyless : Option KeylessConfig} {works : List Work}

theorem new_eq_blank (crypto : Crypto) (genesis : MerkleTrie) (window : U64) (minimumBond : U128) (identity : U32)
    (bond : U128) : new crypto genesis (AssertionChain.new crypto genesis.root window minimumBond) identity bond =
      some (blank crypto genesis (AssertionChain.new crypto genesis.root window minimumBond) identity bond none) := by
  have latest : (AssertionChain.new crypto genesis.root window minimumBond).latestFinalizedRecord =
      some ⟨Assertion.mk Hash256.zero 0 Hash256.zero genesis.root Hash256.zero 0 0, .finalized, 0, 0⟩ := by
    simp [AssertionChain.latestFinalizedRecord, AssertionChain.new, AssertionChain.get, SortedMap.get]
  simp only [new, latest, Option.bind_eq_bind, Option.bind_some, Option.pure_def]
  rfl

theorem retraces_of_run {feeRecipient : L2Address} {feeAssetLimits : List (U32 × U32)} (filed : chain.Filed crypto)
    (ran : Run (Works crypto) { blank crypto genesis chain identity bond keyless with feeRecipient, feeAssetLimits }
      works s) : Retraces crypto (blank crypto genesis chain identity bond keyless) s := by
  refine ran.invariant (Retraces crypto (blank crypto genesis chain identity bond keyless))
    (fun _ _ _ _ retraces stepped => (retraces.works stepped).1) ?_
  exact ⟨rfl, rfl, rfl, filed, by simp [blank], fun _ _ => rfl⟩

theorem kept_of_run (retraces : Retraces crypto base s) (ran : Run (Works crypto) s works s') :
    ∀ id, (s.chain.get id).isSome → (s'.chain.get id).isSome := by
  refine (ran.invariant (fun s' => Retraces crypto base s' ∧
    ∀ id, (s.chain.get id).isSome → (s'.chain.get id).isSome) ?_ ⟨retraces, fun _ => id⟩).2
  rintro mid work next _ ⟨retraces, kept⟩ stepped
  obtain ⟨retraces', kept'⟩ := retraces.works stepped
  exact ⟨retraces', fun id known => kept' id (kept id known)⟩

theorem resume_eq
    (retraces : Retraces crypto (blank crypto genesis anchor identity bond keyless) s) (filed : chain.Filed crypto)
    (known : ∀ id ∈ s.assertions, (chain.get id).isSome) :
    resume crypto genesis chain identity bond keyless (s.blocks.map Block.stored) root =
      some (if s.state.root ≠ root then .error .differentState
        else .ok ((blank crypto genesis anchor identity bond keyless).retraced chain s)) := by
  obtain ⟨r, latest⟩ := Option.isSome_iff_exists.mp filed.latest
  have replayed : replayAll crypto (s.blocks.map Block.stored) (blank crypto genesis chain identity bond keyless) =
      some (.ok ((blank crypto genesis anchor identity bond keyless).retraced chain s)) := retraces.replays chain known
  rw [blank] at replayed
  simp only [resume, new, latest, Option.bind_eq_bind, Option.bind_some, Option.pure_def, replayed, Option.some.injEq]
  change (if s.state.root ≠ root then _ else _) = _
  split <;> rfl

/-- A node that is stopped after any sequence of calls and resumed from what it stored
is the node that was stopped: state, blocks with their traces, assertions and head. -/
theorem resume_reproduces_node {s₀ : Sequencer} {window : U64} {minimumBond : U128} {feeRecipient : L2Address}
    {feeAssetLimits : List (U32 × U32)}
    (started : new crypto genesis (AssertionChain.new crypto genesis.root window minimumBond) identity bond = some s₀)
    (ran : Run (Works crypto) { s₀ with keyless, feeRecipient, feeAssetLimits } works s) :
    ∃ s', resume crypto genesis (AssertionChain.restore crypto s.chain.snapshot) identity bond keyless
        (s.blocks.map Block.stored) s.state.root = some (.ok s') ∧
      s'.state = s.state ∧ s'.blocks = s.blocks ∧ s'.assertions = s.assertions ∧ s'.head = s.head ∧
        s'.chain = s.chain := by
  obtain rfl := Option.some.inj ((new_eq_blank ..).symm.trans started)
  have filed := AssertionChain.filed_new crypto genesis.root window minimumBond
  have retraces : Retraces crypto
      (blank crypto genesis (AssertionChain.new crypto genesis.root window minimumBond) identity bond keyless) s :=
    retraces_of_run filed ran
  rw [retraces.filed.restore_snapshot, resume_eq retraces retraces.filed retraces.known, if_neg (not_not.mpr rfl)]
  exact ⟨_, rfl, rfl, rfl, rfl, rfl, rfl⟩

end Genesis

end Sequencer

namespace Devnet

open Sequencer (Works Work)

/-- A payment is sealed, and its block final a window later. -/
def dayOfWork (id : Hash256) : List Work :=
  [.call 1700000000 (.submit payment), .call 1700000000 (.produce 10), .advanceTo 86400, .finalize id]

theorem node_eq (state : MerkleTrie) : node state = { Sequencer.blank crypto state
    (AssertionChain.new crypto state.root 86400 1) 0 1 none with feeRecipient := sequencer } := rfl

theorem runs_dayOfWork : ∃ id s, Run (Works crypto) (node genesis) (dayOfWork id) s ∧ s.blocks.length = 1 := by
  obtain ⟨s₁, block, id, produced, _⟩ := produce_loaded
  have loads : loaded.blocks = [] := by
    obtain ⟨pool, same⟩ := Sequencer.submit_frame call_loaded
    rw [same]
    rfl
  have one : s₁.blocks.length = 1 := by
    obtain ⟨pool, taken, _, spec⟩ := Sequencer.produce_spec produced
    cases spec with
    | appends => simp [Sequencer.extended, loads]
  have submits : Works crypto (node genesis) (.call 1700000000 (.submit payment)) loaded := call_loaded
  have produces : Works crypto loaded (.call 1700000000 (.produce 10)) s₁ := by
    simp only [Works, Sequencer.work, Sequencer.call, produced, Option.map_some]
  exact ⟨id, _, ⟨loaded, submits, s₁, produces, _, rfl, _, rfl, rfl⟩, one⟩

/-- The devnet's node, stopped after that day, is resumed with its block. -/
theorem devnet_resumes_with_its_block : ∃ s₀ id s s',
    Sequencer.new crypto genesis (AssertionChain.new crypto genesis.root 86400 1) 0 1 = some s₀ ∧
    Run (Works crypto) { s₀ with keyless := none, feeRecipient := sequencer, feeAssetLimits := [] } (dayOfWork id) s ∧
    s.blocks.length = 1 ∧
    Sequencer.resume crypto genesis (AssertionChain.restore crypto s.chain.snapshot) 0 1 none
      (s.blocks.map Block.stored) s.state.root = some (.ok s') ∧ s'.state = s.state ∧ s'.blocks = s.blocks := by
  obtain ⟨id, s, ran, one⟩ := runs_dayOfWork
  rw [node_eq] at ran
  have started := Sequencer.new_eq_blank crypto genesis 86400 1 0 1
  obtain ⟨s', resumed, state, blocks, _⟩ := Sequencer.resume_reproduces_node started ran
  exact ⟨_, id, s, s', started, ran, one, resumed, state, blocks⟩

end Devnet
end Sena
