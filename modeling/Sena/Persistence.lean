import Sena.Resume

/-! The data directory, and a crash while it is being written.

Four files are replaced one after another, each at once. Loading checks the state file
against the root it records and the chain against the genesis, and resuming checks the
replayed blocks against the state file; so a directory that mixes two saves is found
out, and then the node does not start. -/
namespace Sena

open Execute (BatchContext ExecutionTrace executeBatch)
open Fraudproof (AssertionChain ChainSnapshot)

/-- A block as it is written to disk. -/
structure StoredBlock where
  height : Nat
  timestamp : U64
  baseFee : U128
  feeRecipient : L2Address
  transactions : List Transaction
  preStateRoot : Hash256
  postStateRoot : Hash256
deriving DecidableEq

def Block.toStored (b : Block) : StoredBlock :=
  ⟨b.height, b.timestamp, b.baseFee, b.feeRecipient, b.transactions, b.preStateRoot, b.postStateRoot⟩

def StoredBlock.batch (b : StoredBlock) : StoredBatch :=
  ⟨b.timestamp, b.baseFee, b.feeRecipient, b.transactions, b.postStateRoot⟩

structure Metadata where
  genesisRoot : Hash256
  blockHeight : Nat
deriving DecidableEq

/-- The files of a data directory beside the genesis file: `state.bin`, `chain.json`,
`blocks.json` and `metadata.json`. The last three are taken to read back as written. -/
structure DataDir where
  state : Option Bytes
  chain : Option ChainSnapshot
  blocks : Option (List StoredBlock)
  metadata : Option Metadata

inductive StoreError where
  | stateCorrupt (e : MerkleTrie.LoadError)
  | genesisMismatch (computed recorded : Hash256)
  | savedWithoutChain
deriving DecidableEq

namespace DataDir

def empty : DataDir := ⟨none, none, none, none⟩

/-- The replacements a save makes, in its order. -/
def writes (genesisRoot : Hash256) (state : MerkleTrie) (chain : ChainSnapshot) (blocks : List Block) :
    List (DataDir → DataDir) :=
  [fun dir => { dir with state := some state.toBytes },
    fun dir => { dir with chain := some chain },
    fun dir => { dir with blocks := some (blocks.map Block.toStored) },
    fun dir => { dir with metadata := some ⟨genesisRoot, blocks.length⟩ }]

/-- The directory after the first `n` replacements of a save. -/
def crashed (dir : DataDir) (genesisRoot : Hash256) (s : Sequencer) (n : Nat) : DataDir :=
  ((writes genesisRoot s.state s.chain.snapshot s.blocks).take n).foldl (fun dir write => write dir) dir

/-- The directory after a whole save. -/
def saved (dir : DataDir) (genesisRoot : Hash256) (s : Sequencer) : DataDir :=
  (writes genesisRoot s.state s.chain.snapshot s.blocks).foldl (fun dir write => write dir) dir

/-- `load`: refuses a directory of another genesis. -/
def load (crypto : Crypto) (dir : DataDir) (genesisRoot : Hash256) :
    Except StoreError (Option (MerkleTrie × ChainSnapshot × List StoredBatch)) :=
  match dir.state with
  | none => .ok none
  | some bytes => do
    if let some metadata := dir.metadata then
      if metadata.genesisRoot ≠ genesisRoot then throw (.genesisMismatch genesisRoot metadata.genesisRoot)
    let state ← Except.mapError .stateCorrupt (MerkleTrie.fromBytes crypto bytes)
    match dir.chain with
    | none => throw .savedWithoutChain
    | some chain => return some (state, chain, (dir.blocks.getD []).map StoredBlock.batch)

end DataDir

inductive StartError where
  | store (e : StoreError)
  | resume (e : ResumeError)
deriving DecidableEq

/-- What the node starts from a data directory. -/
def startNode (crypto : Crypto) (genesis : MerkleTrie) (challengeWindow : U64) (minimumBond : U128) (identity : U32)
    (bond : U128) (keyless : Option KeylessConfig) (dir : DataDir) : Option (Except StartError Sequencer) :=
  match dir.load crypto genesis.root with
  | .error e => some (.error (.store e))
  | .ok (some (state, chain, batches)) =>
    (Sequencer.resume crypto genesis (AssertionChain.restore crypto chain) identity bond keyless batches
      state.root).map (Except.mapError .resume)
  | .ok none =>
    (Sequencer.new crypto genesis (AssertionChain.new crypto genesis.root challengeWindow minimumBond) identity
      bond).map fun s => .ok { s with keyless }

namespace MerkleTrie

variable {crypto : Crypto} {trie loaded : MerkleTrie}

theorem root_of_fromBytes (loads : fromBytes crypto trie.toBytes = .ok loaded) : loaded.root = trie.root := by
  unfold fromBytes at loads
  split at loads
  · cases loads
  · rename_i recorded rebuilt read
    split at loads
    · rename_i same
      cases loads
      rw [same]
      obtain ⟨_, read⟩ := Reader.run'_eq_ok.mp read
      simp only [readTrie, Reader.bind_eq_ok, Reader.pure_eq_ok, Reader.hash_eq_ok] at read
      obtain ⟨first, rest, written, _, _, _, _, _, _, _, _, _, same, _⟩ := read
      cases same
      rw [toBytes, List.append_assoc] at written
      exact (FixedBytes.ext (List.append_inj_left written (by simp))).symm
    · cases loads

/-- The state can be written, and no two nodes of it or of the trie its file is read
into collide. -/
structure Loadable (crypto : Crypto) (trie : MerkleTrie) : Prop where
  writable : trie.Writable
  free : CollisionFree crypto.sha256 (images trie.nodes ∪ images (ofEntries crypto trie.values).nodes)

theorem Built.loads (built : Built crypto trie) (loadable : Loadable crypto trie) :
    ∃ loaded, fromBytes crypto trie.toBytes = .ok loaded := by
  obtain ⟨tree, repr⟩ := built.represents (loadable.free.mono fun b member => .inl member)
  exact ⟨_, (repr.fromBytes_toBytes loadable.writable.few loadable.writable.short
    (loadable.free.mono fun b member => .inr member)).1⟩

end MerkleTrie

open Sequencer (Retraces Work Works blank)

theorem Sequencer.built_of_run {s s' : Sequencer}
    (built : MerkleTrie.Built crypto s.state) (ran : Run (Works crypto) s works s') :
    MerkleTrie.Built crypto s'.state := by
  refine ran.invariant (fun s => MerkleTrie.Built crypto s.state) (fun s work s' _ built works => ?_) built
  cases work with
  | call clock c =>
    cases c with
    | submit tx =>
      obtain ⟨pool, rfl⟩ := submit_frame works
      exact built
    | produce limit =>
      obtain ⟨⟨_, result⟩, produced, rfl⟩ := Option.map_eq_some_iff.mp works
      obtain ⟨pool, taken, _, spec⟩ := produce_spec produced
      cases spec with
      | idle | stuck | refused => exact built
      | appends _ next trace executed => exact built.executeBatch executed
  | advanceTo time =>
    cases works
    exact built
  | finalize id =>
    cases works
    exact built

section Mixture

variable {crypto : Crypto} {genesis : MerkleTrie} {window : U64} {minimumBond : U128} {identity : U32} {bond : U128}
  {keyless : Option KeylessConfig} {anchor : AssertionChain} {x y z s : Sequencer} {dir : DataDir}

/-- A directory with the state file of `x`, the chain of `y` and the blocks of `z`. -/
structure DataDir.Mixes (dir : DataDir) (genesisRoot : Hash256) (x y z : Sequencer) : Prop where
  state : dir.state = some x.state.toBytes
  chain : dir.chain = some y.chain.snapshot
  blocks : (dir.blocks.getD []).map StoredBlock.batch = z.blocks.map Block.stored
  metadata : ∀ m, dir.metadata = some m → m.genesisRoot = genesisRoot

theorem DataDir.Mixes.load (mixes : dir.Mixes genesis.root x y z) : dir.load crypto genesis.root =
    Except.mapError .stateCorrupt (MerkleTrie.fromBytes crypto x.state.toBytes) >>= fun state =>
      .ok (some (state, y.chain.snapshot, z.blocks.map Block.stored)) := by
  simp only [DataDir.load, mixes.state, mixes.chain, mixes.blocks]
  cases found : dir.metadata with
  | none => rfl
  | some m =>
    simp only [mixes.metadata m found, ne_eq, not_true_eq_false, if_false]
    rfl

theorem DataDir.Mixes.startNode_eq_ok (mixes : dir.Mixes genesis.root x y z)
    (retraces : Retraces crypto (blank crypto genesis anchor identity bond keyless) z) (filed : y.chain.Filed crypto)
    (known : ∀ id ∈ z.assertions, (y.chain.get id).isSome) :
    startNode crypto genesis window minimumBond identity bond keyless dir = some (.ok s) ↔
      (∃ state, MerkleTrie.fromBytes crypto x.state.toBytes = .ok state) ∧ z.state.root = x.state.root ∧
        s = (blank crypto genesis anchor identity bond keyless).retraced y.chain z := by
  rw [startNode, mixes.load]
  cases loads : MerkleTrie.fromBytes crypto x.state.toBytes with
  | error e => simp [Except.mapError, bind, Except.bind]
  | ok state =>
    have root := MerkleTrie.root_of_fromBytes loads
    simp only [Except.mapError, bind, Except.bind, filed.restore_snapshot, Sequencer.resume_eq retraces filed known, root]
    by_cases same : z.state.root = x.state.root
    · simp [same, eq_comm, Except.mapError]
    · simp [same, Except.mapError]

theorem startNode_without_chain (written : dir.state = some bytes) (missing : dir.chain = none)
    (s : Sequencer) : startNode crypto genesis window minimumBond identity bond keyless dir ≠ some (.ok s) := by
  have refused : ∀ loaded, dir.load crypto genesis.root ≠ .ok loaded := by
    intro loaded loads
    simp only [DataDir.load, written, missing] at loads
    cases recorded : dir.metadata with
    | none =>
      simp only [recorded] at loads
      obtain ⟨_, _, thrown⟩ := Move.bind_eq_ok.mp loads
      cases thrown
    | some m =>
      simp only [recorded] at loads
      split at loads
      · cases loads
      · obtain ⟨_, _, thrown⟩ := Move.bind_eq_ok.mp loads
        cases thrown
  unfold startNode
  split
  · simp
  · rename_i loads
    exact absurd loads (refused _)
  · rename_i loads
    exact absurd loads (refused _)

theorem batches_toStored (blocks : List Block) :
    (blocks.map Block.toStored).map StoredBlock.batch = blocks.map Block.stored := by
  rw [List.map_map]
  rfl

theorem DataDir.mixes_saved (dir : DataDir) (root : Hash256) (s : Sequencer) : (dir.saved root s).Mixes root s s s := by
  refine ⟨rfl, rfl, batches_toStored s.blocks, fun m written => ?_⟩
  cases written
  rfl

theorem DataDir.mixes_crashed (metadata : ∀ m, dir.metadata = some m → m.genesisRoot = root)
    (s : Sequencer) (n : Nat) : (dir.crashed root s (n + 3)).Mixes root s s s := by
  cases n with
  | zero => exact ⟨rfl, rfl, batches_toStored s.blocks, metadata⟩
  | succ n =>
    have all : dir.crashed root s (n + 1 + 3) = dir.saved root s := by
      rw [crashed, saved, List.take_of_length_le (by simp [writes])]
    rw [all]
    exact mixes_saved dir root s

end Mixture

section Crash

variable {crypto : Crypto} {genesis : MerkleTrie} {window : U64} {minimumBond : U128} {identity : U32} {bond : U128}
  {keyless : Option KeylessConfig} {s₀ s₁ : Sequencer}

/-- The node starts from the directory, as one of the two nodes that were saved. -/
def Recovers (crypto : Crypto) (genesis : MerkleTrie) (window : U64) (minimumBond : U128) (identity : U32)
    (bond : U128) (keyless : Option KeylessConfig) (dir : DataDir) (s₀ s₁ : Sequencer) : Prop :=
  ∃ s, startNode crypto genesis window minimumBond identity bond keyless dir = some (.ok s) ∧
    (s.state.root = s₀.state.root ∧ s.blocks = s₀.blocks ∨ s.state.root = s₁.state.root ∧ s.blocks = s₁.blocks)

theorem recovers_of_mixes {dir : DataDir} {x y z : Sequencer} (mixes : dir.Mixes genesis.root x y z)
    (retraces : Retraces crypto (blank crypto genesis anchor identity bond keyless) z) (filed : y.chain.Filed crypto)
    (known : ∀ id ∈ z.assertions, (y.chain.get id).isSome) (one : z = s₀ ∨ z = s₁)
    (loads : ∃ state, MerkleTrie.fromBytes crypto x.state.toBytes = .ok state) :
    Recovers crypto genesis window minimumBond identity bond keyless dir s₀ s₁ ↔ z.state.root = x.state.root := by
  have starts : ∀ s, startNode crypto genesis window minimumBond identity bond keyless dir = some (.ok s) ↔ _ :=
    fun s => mixes.startNode_eq_ok retraces filed known
  constructor
  · rintro ⟨s, started, _⟩
    exact ((starts s).mp started).2.1
  · intro same
    refine ⟨_, (starts _).mpr ⟨loads, same, rfl⟩, ?_⟩
    rcases one with rfl | rfl
    · exact .inl ⟨rfl, rfl⟩
    · exact .inr ⟨rfl, rfl⟩

/-- A crash after `n` replacements of a save. -/
theorem crash_recovers_iff {config : GenesisConfig} {hashing : JwkHashing} {feeRecipient : L2Address}
    {feeAssetLimits : List (U32 × U32)} {fresh : Sequencer} {before later : List Work}
    (state : config.buildState crypto hashing = .ok genesis)
    (started : Sequencer.new crypto genesis (AssertionChain.new crypto genesis.root window minimumBond) identity bond =
      some fresh)
    (ran₀ : Run (Works crypto) { fresh with keyless, feeRecipient, feeAssetLimits } before s₀)
    (ran₁ : Run (Works crypto) s₀ later s₁) (n : Nat)
    (loadable : MerkleTrie.Loadable crypto (if n = 0 then s₀ else s₁).state) :
    (∀ dir : DataDir, Recovers crypto genesis window minimumBond identity bond keyless
      ((dir.saved genesis.root s₀).crashed genesis.root s₁ n) s₀ s₁ ↔
        n = 0 ∨ 3 ≤ n ∨ s₁.state.root = s₀.state.root) ∧
    (before = [] → (Recovers crypto genesis window minimumBond identity bond keyless
      (DataDir.empty.crashed genesis.root s₁ n) s₀ s₁ ↔
        n = 0 ∨ 3 ≤ n ∨ n = 2 ∧ s₁.state.root = s₀.state.root)) := by
  obtain rfl := Option.some.inj ((Sequencer.new_eq_blank ..).symm.trans started)
  have retraces₀ : Retraces crypto
      (blank crypto genesis (AssertionChain.new crypto genesis.root window minimumBond) identity bond keyless) s₀ :=
    Sequencer.retraces_of_run (AssertionChain.filed_new crypto genesis.root window minimumBond) ran₀
  have retraces₁ : Retraces crypto
      (blank crypto genesis (AssertionChain.new crypto genesis.root window minimumBond) identity bond keyless) s₁ :=
    ran₁.invariant _ (fun _ _ _ _ retraces works => (retraces.works works).1) retraces₀
  have known : ∀ id ∈ s₀.assertions, (s₁.chain.get id).isSome := fun id member =>
    Sequencer.kept_of_run retraces₀ ran₁ id (retraces₀.known id member)
  have built₀ : MerkleTrie.Built crypto s₀.state := Sequencer.built_of_run (GenesisConfig.built_of_buildState state) ran₀
  have built₁ : MerkleTrie.Built crypto s₁.state := Sequencer.built_of_run built₀ ran₁
  -- whichever blocks are on disk, the node starts if they fit the state file
  have whole : ∀ {dir : DataDir} {n : Nat}, (∀ m, dir.metadata = some m → m.genesisRoot = genesis.root) →
      MerkleTrie.Loadable crypto s₁.state → Recovers crypto genesis window minimumBond identity bond keyless
        (dir.crashed genesis.root s₁ (n + 3)) s₀ s₁ := fun metadata loadable =>
    (recovers_of_mixes (DataDir.mixes_crashed metadata s₁ _) retraces₁ retraces₁.filed retraces₁.known (.inr rfl)
      (built₁.loads loadable)).mpr rfl
  have older : ∀ {dir : DataDir} {x y : Sequencer}, dir.Mixes genesis.root x y s₀ → y.chain.Filed crypto →
      (∀ id ∈ s₀.assertions, (y.chain.get id).isSome) → MerkleTrie.Built crypto x.state →
      MerkleTrie.Loadable crypto x.state →
      (Recovers crypto genesis window minimumBond identity bond keyless dir s₀ s₁ ↔
        x.state.root = s₀.state.root) := by
    intro dir x y mixes filed known built loadable
    rw [recovers_of_mixes mixes retraces₀ filed known (.inl rfl) (built.loads loadable), eq_comm]
  constructor
  · intro dir
    have saved := dir.mixes_saved genesis.root s₀
    match n with
    | 0 => exact iff_of_true ((older saved retraces₀.filed retraces₀.known built₀ loadable).mpr rfl) (.inl rfl)
    | 1 =>
      have first : ((dir.saved genesis.root s₀).crashed genesis.root s₁ 1).Mixes genesis.root s₁ s₀ s₀ :=
        ⟨rfl, saved.chain, saved.blocks, saved.metadata⟩
      simpa using older first retraces₀.filed retraces₀.known built₁ loadable
    | 2 =>
      have second : ((dir.saved genesis.root s₀).crashed genesis.root s₁ 2).Mixes genesis.root s₁ s₁ s₀ :=
        ⟨rfl, rfl, saved.blocks, saved.metadata⟩
      simpa using older second retraces₁.filed known built₁ loadable
    | n + 3 => simpa using whole saved.metadata loadable
  · rintro rfl
    have unsealed : s₀.blocks = [] := by
      rw [← ran₀]
      rfl
    have unwritten : ∀ m, DataDir.empty.metadata = some m → m.genesisRoot = genesis.root := fun m none => nomatch none
    match n with
    | 0 =>
      have starts : startNode crypto genesis window minimumBond identity bond keyless DataDir.empty = _ :=
        congrArg (Option.map _) started
      refine iff_of_true ⟨_, starts, .inl ⟨?_, unsealed.symm⟩⟩ (.inl rfl)
      rw [← ran₀]
    | 1 =>
      -- a state file alone is refused, whatever it holds
      refine iff_of_false ?_ (by omega)
      rintro ⟨s, starts, _⟩
      exact startNode_without_chain rfl rfl s starts
    | 2 =>
      have second : (DataDir.empty.crashed genesis.root s₁ 2).Mixes genesis.root s₁ s₁ s₀ :=
        ⟨rfl, rfl, by rw [unsealed]; rfl, unwritten⟩
      simpa using older second retraces₁.filed known built₁ loadable
    | n + 3 => simpa using whole unwritten loadable

end Crash

namespace Devnet

/-- A payment is sealed. -/
def sealing : List Work := [.call 1700000000 (.submit payment), .call 1700000000 (.produce 10)]

/-- The small network's node before the payment and after it. -/
def smallNodes : Option (MerkleTrie × Sequencer × Sequencer) := do
  let genesis ← (small.buildState crypto hashing).toOption
  let s₀ ← Sequencer.new crypto genesis (AssertionChain.new crypto genesis.root 86400 1) 0 1
  let s₁ ← sealing.foldlM (Sequencer.work crypto) s₀
  return (genesis, s₀, s₁)

theorem smallNodes_spec : ∃ genesis s₀ s₁, small.buildState crypto hashing = .ok genesis ∧
    Sequencer.new crypto genesis (AssertionChain.new crypto genesis.root 86400 1) 0 1 = some s₀ ∧
    Run (Works crypto) { s₀ with keyless := none, feeRecipient := Execute.FEE_VAULT, feeAssetLimits := [] } [] s₀ ∧
    Run (Works crypto) s₀ sealing s₁ ∧ s₁.blocks.length = 1 ∧ s₁.state.root ≠ s₀.state.root ∧
    MerkleTrie.Loadable crypto s₁.state := by
  obtain ⟨⟨genesis, s₀, s₁⟩, nodes, one, differ, few, short, apart⟩ : ∃ n ∈ smallNodes,
      n.2.2.blocks.length = 1 ∧ n.2.2.state.root ≠ n.2.1.state.root ∧
      n.2.2.state.values.length < 2 ^ 32 ∧ (∀ e ∈ n.2.2.state.values, Framable e.2) ∧
      MerkleTrie.digestsApart crypto.sha256 (MerkleTrie.imageList n.2.2.state.nodes ++
        MerkleTrie.imageList (MerkleTrie.ofEntries crypto n.2.2.state.values).nodes) = true := by
    decide +kernel
  simp only [Option.mem_def, smallNodes, Option.bind_eq_bind, Option.bind_eq_some_iff, Option.pure_def, Option.some.injEq,
    Prod.mk.injEq] at nodes
  obtain ⟨g, built, t₀, started, t₁, ran, rfl, rfl, rfl⟩ := nodes
  refine ⟨g, t₀, t₁, Move.toOption_eq_some.mp built, started, ?_, Run.foldlM_eq_some.mp ran, one, differ,
    ⟨few, short⟩, ?_⟩
  · obtain rfl := Option.some.inj ((Sequencer.new_eq_blank ..).symm.trans started)
    exact Run.nil_iff.mpr rfl
  · refine (MerkleTrie.collisionFree_of_digestsApart apart).mono fun b member => ?_
    exact List.mem_append.mpr (member.imp MerkleTrie.mem_imageList MerkleTrie.mem_imageList)

/-- Once its blocks are on disk the payment is not lost. -/
theorem payment_survives_late_crash : ∃ genesis s₀ s₁, small.buildState crypto hashing = .ok genesis ∧
    Run (Works crypto) s₀ sealing s₁ ∧ s₁.blocks.length = 1 ∧
    Recovers crypto genesis 86400 1 0 1 none
      ((DataDir.empty.saved genesis.root s₀).crashed genesis.root s₁ 3) s₀ s₁ := by
  obtain ⟨genesis, s₀, s₁, built, started, begun, ran, one, _, loadable⟩ := smallNodes_spec
  exact ⟨genesis, s₀, s₁, built, ran, one,
    ((crash_recovers_iff built started begun ran 3 loadable).1 DataDir.empty).mpr (.inr (.inl (Nat.le_refl 3)))⟩

/-- A crash right after the state file leaves a directory no node starts from, whether it
held the save before or nothing. -/
theorem early_crash_bricks_directory : ∃ genesis s₀ s₁, small.buildState crypto hashing = .ok genesis ∧
    Sequencer.new crypto genesis (AssertionChain.new crypto genesis.root 86400 1) 0 1 = some s₀ ∧
    Run (Works crypto) s₀ sealing s₁ ∧ s₁.blocks.length = 1 ∧ ∀ s,
      startNode crypto genesis 86400 1 0 1 none
        ((DataDir.empty.saved genesis.root s₀).crashed genesis.root s₁ 1) ≠ some (.ok s) ∧
      startNode crypto genesis 86400 1 0 1 none (DataDir.empty.crashed genesis.root s₁ 1) ≠ some (.ok s) := by
  obtain ⟨genesis, s₀, s₁, built, started, begun, ran, one, differ, _⟩ := smallNodes_spec
  obtain rfl := Option.some.inj ((Sequencer.new_eq_blank ..).symm.trans started)
  have retraces := Sequencer.retraces_of_run (AssertionChain.filed_new crypto genesis.root 86400 1) begun
  have saved := DataDir.empty.mixes_saved genesis.root
    (blank crypto genesis (AssertionChain.new crypto genesis.root 86400 1) 0 1 none)
  have mixes : (((DataDir.empty.saved genesis.root (blank crypto genesis (AssertionChain.new crypto genesis.root 86400 1)
      0 1 none))).crashed genesis.root s₁ 1).Mixes genesis.root s₁ _ _ :=
    ⟨rfl, saved.chain, saved.blocks, saved.metadata⟩
  refine ⟨genesis, _, s₁, built, started, ran, one, fun s => ⟨fun starts => ?_, startNode_without_chain rfl rfl s⟩⟩
  exact differ ((mixes.startNode_eq_ok retraces retraces.filed retraces.known).mp starts).2.1.symm

end Devnet
end Sena
