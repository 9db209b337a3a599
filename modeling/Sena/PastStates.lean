import Sena.Persistence
import Sena.Rpc
import Sena.SlotInvariant

/-! The states a node has been through.

A node's blocks execute one after another from its genesis, whether it sealed them
or replayed them from its data directory. The state after any of them is therefore
a function of the genesis and the blocks, and the node's trie still has its nodes. -/
namespace Sena

open Execute (BatchContext ExecutionTrace executeBatch executeAll)

/-- The context a block was sealed in. -/
def Block.context (keyless : Option KeylessConfig) (block : Block) : BatchContext :=
  ⟨block.timestamp, keyless, block.baseFee, block.feeRecipient⟩

namespace Sequencer

/-- The batches of the node's blocks. -/
def batches (s : Sequencer) : List (BatchContext × List Transaction) :=
  s.blocks.map fun block => (block.context s.keyless, block.transactions)

/-- The state after the first blocks. -/
def StateAt (crypto : Crypto) (genesis : MerkleTrie) (s : Sequencer) (height : Nat) (past : MerkleTrie) : Prop :=
  executeAll crypto genesis (s.batches.take height) = .ok past

/-- A sequencer a server of this genesis may hold: started from whatever its data
directory had, and worked on. -/
inductive Reachable (crypto : Crypto) (genesis : MerkleTrie) : Sequencer → Prop
  | started {window minimumBond identity bond keyless dir s} (feeRecipient : L2Address)
    (feeAssetLimits : List (U32 × U32))
    (returned : startNode crypto genesis window minimumBond identity bond keyless dir = some (.ok s)) :
    Reachable crypto genesis { s with feeRecipient, feeAssetLimits }
  | worked {s work s'} (reachable : Reachable crypto genesis s) (works : Works crypto s work s') :
    Reachable crypto genesis s'

variable {crypto : Crypto} {genesis past : MerkleTrie} {s s' : Sequencer}

/-- Executing the block's batch takes one state to the next, between the roots the
block records. -/
structure Seals (crypto : Crypto) (keyless : Option KeylessConfig) (state : MerkleTrie) (block : Block)
    (next : MerkleTrie) : Prop where
  executed : executeBatch crypto state (block.context keyless) block.transactions = .ok (next, block.trace)
  preRoot : block.preStateRoot = state.root
  postRoot : block.postStateRoot = next.root

/-- The blocks lead from the genesis to the state, and are numbered from one. -/
structure Sealed (crypto : Crypto) (genesis : MerkleTrie) (s : Sequencer) : Prop where
  ran : Run (Seals crypto s.keyless) genesis s.blocks s.state
  heights : ∀ i block, s.blocks[i]? = some block → block.height = i + 1

section
variable (sealed' : Sealed crypto genesis s)
include sealed'

theorem Sealed.congr (state : s'.state = s.state) (blocks : s'.blocks = s.blocks)
    (keyless : s'.keyless = s.keyless) : Sealed crypto genesis s' := by
  obtain ⟨ran, heights⟩ := sealed'
  exact ⟨by rw [state, blocks, keyless]; exact ran, by rw [blocks]; exact heights⟩

theorem Sealed.extended {ctx : BatchContext} (executed : executeBatch crypto s.state ctx txs = .ok (next, trace))
    (setup : ctx.keyless = s.keyless) (state : s'.state = next) (blocks : s'.blocks = s.blocks ++ [s.block ctx txs next trace])
    (keyless : s'.keyless = s.keyless) : Sealed crypto genesis s' := by
  obtain ⟨ran, heights⟩ := sealed'
  have seals : Seals crypto s.keyless s.state (s.block ctx txs next trace) next := by
    refine ⟨?_, rfl, rfl⟩
    rw [Block.context, ← setup]
    exact executed
  refine ⟨?_, fun i block found => ?_⟩
  · rw [state, blocks, keyless]
    exact Run.append_iff.mpr ⟨s.state, ran, Run.singleton_iff.mpr seals⟩
  · rw [blocks] at found
    rcases Nat.lt_or_ge i s.blocks.length with before | last
    · rw [List.getElem?_append_left before] at found
      exact heights i block found
    · rw [List.getElem?_append_right last, List.getElem?_singleton] at found
      split at found
      · cases found
        change s.blocks.length + 1 = i + 1
        omega
      · cases found

theorem Sealed.works {work : Work} (works : Works crypto s work s') : Sealed crypto genesis s' := by
  cases work with
  | call clock c =>
    cases c with
    | submit tx =>
      obtain ⟨pool, rfl⟩ := submit_frame works
      exact sealed'.congr rfl rfl rfl
    | produce limit =>
      obtain ⟨⟨_, result⟩, produced, rfl⟩ := Option.map_eq_some_iff.mp works
      obtain ⟨pool, taken, _, spec⟩ := produce_spec produced
      cases spec with
      | idle | stuck | refused => exact sealed'.congr rfl rfl rfl
      | appends _ next trace executed _ block shaped =>
        subst shaped
        exact sealed'.extended executed rfl rfl rfl rfl
  | advanceTo time =>
    cases works
    exact sealed'.congr rfl rfl rfl
  | finalize id =>
    cases works
    exact sealed'.congr rfl rfl rfl

theorem Sealed.replay (replayed : replay crypto s batch = some (.ok s')) : Sealed crypto genesis s' := by
  unfold Sequencer.replay at replayed
  simp only at replayed
  split at replayed
  · cases replayed
  · cases replayed
  · rename_i next trace executed
    split at replayed
    · cases replayed
    · split at replayed
      · cases replayed
      · obtain rfl := Except.ok.inj (Option.some.inj replayed)
        exact sealed'.extended executed rfl rfl rfl rfl

theorem Sealed.replayAll {batches : List StoredBatch}
    (replayed : replayAll crypto batches s = some (.ok s')) : Sealed crypto genesis s' := by
  induction batches generalizing s with
  | nil =>
    obtain rfl := Except.ok.inj (Option.some.inj replayed)
    exact sealed'
  | cons batch batches ih =>
    rw [Sequencer.replayAll] at replayed
    split at replayed
    · rename_i mid first
      exact ih (sealed'.replay first) replayed
    · rename_i stopped
      exact absurd replayed (stopped s')

end

theorem sealed_empty (state : s.state = genesis) (blocks : s.blocks = []) : Sealed crypto genesis s := by
  refine ⟨?_, ?_⟩
  · rw [state, blocks]
    rfl
  · simp [blocks]

theorem sealed_of_startNode {window : U64} {minimumBond bond : U128} {identity : U32}
    {keyless : Option KeylessConfig} {dir : DataDir}
    (returned : startNode crypto genesis window minimumBond identity bond keyless dir = some (.ok s)) :
    Sealed crypto genesis s := by
  unfold startNode at returned
  split at returned
  · cases returned
  · rename_i state chain batches _
    obtain ⟨result, resumed, same⟩ := Option.map_eq_some_iff.mp returned
    have resumed' := Move.mapError_eq_ok.mp same
    subst resumed'
    obtain ⟨start, started, resumed⟩ := Option.bind_eq_some_iff.mp resumed
    obtain ⟨replayed, run, checked⟩ := Option.bind_eq_some_iff.mp resumed
    obtain ⟨s', rfl, compared⟩ := Move.bind_eq_ok.mp (Option.some.inj checked)
    split at compared
    · cases compared
    · cases compared
      refine Sealed.replayAll (sealed_empty ?_ ?_) run
      all_goals
        obtain ⟨_, _, same⟩ := Option.bind_eq_some_iff.mp started
        cases same
        rfl
  · obtain ⟨start, started, same⟩ := Option.map_eq_some_iff.mp returned
    cases same
    obtain ⟨_, _, same⟩ := Option.bind_eq_some_iff.mp started
    cases same
    exact sealed_empty rfl rfl

theorem Reachable.sealed (reachable : Reachable crypto genesis s) : Sealed crypto genesis s := by
  induction reachable with
  | started feeRecipient feeAssetLimits returned => exact (sealed_of_startNode returned).congr rfl rfl rfl
  | worked _ works ih => exact ih.works works

theorem grown_of_executeBatch {trie next : MerkleTrie} (executed : executeBatch crypto trie ctx txs = .ok (next, trace)) :
    trie.nodes <:+ next.nodes := by
  refine (Execute.traced_of_executeBatch executed).1.ran.invariant (trie.nodes <:+ ·.nodes) ?_ (List.suffix_refl _)
  intro before i after _ grown stepped
  obtain ⟨written, _, _, rfl⟩ := Execute.steps_iff.mp stepped
  exact grown.trans (MerkleTrie.insert_grown crypto before _ written)

theorem executeAll_of_seals {keyless : Option KeylessConfig} {blocks : List Block} {state next : MerkleTrie}
    (ran : Run (Seals crypto keyless) state blocks next) :
    executeAll crypto state (blocks.map fun block => (block.context keyless, block.transactions)) = .ok next := by
  refine Run.foldlM_eq_ok.mpr (Run.map_iff.mpr (ran.mono fun before block after _ seals => ?_))
  change (·.1) <$> executeBatch crypto before (block.context keyless) block.transactions = .ok after
  rw [seals.executed]
  rfl

theorem Sealed.built (sealed' : Sealed crypto genesis s) (built : MerkleTrie.Built crypto genesis) :
    MerkleTrie.Built crypto s.state :=
  sealed'.ran.invariant (MerkleTrie.Built crypto) (fun _ _ _ _ built seals => built.executeBatch seals.executed) built

/-- A state the node has been through, as the node knows it. -/
structure Passed (crypto : Crypto) (genesis : MerkleTrie) (s : Sequencer) (height : Nat) (past : MerkleTrie) :
    Prop where
  reached : s.StateAt crypto genesis height past
  built : MerkleTrie.Built crypto past
  grown : past.nodes <:+ s.state.nodes
  /-- The roots the blocks on either side of it record. -/
  posted : 0 < height → ∃ block, s.blocks[height - 1]? = some block ∧ block.postStateRoot = past.root
  resumed : ∀ block, s.blocks[height]? = some block → block.preStateRoot = past.root
  current : height = s.blocks.length → past = s.state

theorem Sealed.exists_passed (sealed' : Sealed crypto genesis s) (built : MerkleTrie.Built crypto genesis) (within : height ≤ s.blocks.length) : ∃ past, Passed crypto genesis s height past := by
  have ran := sealed'.ran
  rw [← List.take_append_drop height s.blocks, Run.append_iff] at ran
  obtain ⟨past, before, after⟩ := ran
  refine ⟨past, ?_, ?_, ?_, fun later => ?_, fun block found => ?_, fun now => ?_⟩
  · have executed := executeAll_of_seals before
    rwa [List.map_take] at executed
  · exact before.invariant (MerkleTrie.Built crypto) (fun _ _ _ _ built seals => built.executeBatch seals.executed)
      built
  · exact after.invariant (past.nodes <:+ ·.nodes)
      (fun _ _ _ _ grown seals => grown.trans (grown_of_executeBatch seals.executed)) (List.suffix_refl _)
  · obtain ⟨block, found⟩ : ∃ block, s.blocks[height - 1]? = some block :=
      ⟨_, List.getElem?_eq_getElem (show height - 1 < s.blocks.length by omega)⟩
    have last : s.blocks.take height = s.blocks.take (height - 1) ++ [block] := by
      rw [← Option.toList_some, ← found, ← List.take_add_one, Nat.sub_add_cancel later]
    rw [last, Run.append_iff] at before
    obtain ⟨_, _, sealing⟩ := before
    exact ⟨block, found, (Run.singleton_iff.mp sealing).postRoot⟩
  · have next : s.blocks.drop height = block :: s.blocks.drop (height + 1) := by
      obtain ⟨inside, rfl⟩ := List.getElem?_eq_some_iff.mp found
      exact List.drop_eq_getElem_cons inside
    rw [next] at after
    obtain ⟨_, seals, _⟩ := after
    exact seals.preRoot
  · rw [now, List.drop_length] at after
    exact after

theorem Passed.unique (passed : Passed crypto genesis s height past) (reached : s.StateAt crypto genesis height other) :
    other = past :=
  Except.ok.inj (reached.symm.trans passed.reached)

/-- Blocks are only added. -/
theorem blocks_of_works {work : Work} (works : Works crypto s work s') :
    s.blocks <+: s'.blocks ∧ s'.keyless = s.keyless := by
  cases work with
  | call clock c =>
    cases c with
    | submit tx =>
      obtain ⟨pool, rfl⟩ := submit_frame works
      exact ⟨List.prefix_rfl, rfl⟩
    | produce limit =>
      obtain ⟨⟨_, result⟩, produced, rfl⟩ := Option.map_eq_some_iff.mp works
      obtain ⟨pool, taken, _, spec⟩ := produce_spec produced
      cases spec with
      | idle | stuck | refused => exact ⟨List.prefix_rfl, rfl⟩
      | appends => exact ⟨List.prefix_append _ _, rfl⟩
  | advanceTo time =>
    cases works
    exact ⟨List.prefix_rfl, rfl⟩
  | finalize id =>
    cases works
    exact ⟨List.prefix_rfl, rfl⟩

theorem StateAt.of_run (reached : s.StateAt crypto genesis height past)
    (within : height ≤ s.blocks.length) (ran : Run (Works crypto) s works s') :
    s'.StateAt crypto genesis height past := by
  have kept := ran.invariant (fun mid => s.blocks <+: mid.blocks ∧ mid.keyless = s.keyless)
    (fun _ _ _ _ kept works => ⟨kept.1.trans (blocks_of_works works).1, (blocks_of_works works).2.trans kept.2⟩)
    ⟨List.prefix_rfl, rfl⟩
  obtain ⟨⟨more, blocks⟩, keyless⟩ := kept
  have first : s'.batches.take height = s.batches.take height := by
    rw [batches, batches, keyless, ← blocks, List.map_append, List.take_append_of_le_length (by simpa using within)]
  rw [StateAt, first]
  exact reached

theorem Reachable.run (reachable : Reachable crypto genesis s)
    (ran : Run (Works crypto) s works s') : Reachable crypto genesis s' :=
  ran.invariant (Reachable crypto genesis) (fun _ _ _ _ reachable works => reachable.worked works) reachable

/-- The root an RPC answers for. -/
theorem Passed.rootAt (passed : Passed crypto genesis s height past) (within : height ≤ s.blocks.length) :
    Rpc.rootAt s height = .ok (past.root, height = s.blocks.length) := by
  unfold Rpc.rootAt
  by_cases now : height = s.blocks.length
  · rw [if_pos now, passed.current now]
    simp [now]
  · rw [if_neg now]
    by_cases first : height = 0
    · subst first
      obtain ⟨block, found⟩ : ∃ block, s.blocks[0]? = some block :=
        ⟨_, List.getElem?_eq_getElem (show 0 < s.blocks.length by omega)⟩
      rw [if_pos rfl, List.head?_eq_getElem?, found]
      simp [passed.resumed block found, now]
    · obtain ⟨block, found, root⟩ := passed.posted (Nat.pos_of_ne_zero first)
      rw [if_neg first, found]
      simp [root, now]

end Sequencer
end Sena
