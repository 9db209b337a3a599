import Sena.Genesis
import Sena.StepSoundness

/-! Batches as runs.

Executing batches one after another is executing their transactions one after
another, each in its batch's context, and a transaction is a run of the
instructions it compiles to. What is shown of runs on stores holds of every trie
that execution reaches. -/
namespace Sena
namespace Execute

open Move

variable {crypto : Crypto} {trie trie' pre : MerkleTrie} {trace trace' : ExecutionTrace}

/-- A transaction with the context of its batch. -/
abbrev Entry := BatchContext × Transaction

/-- One transaction executed. -/
def Executes (crypto : Crypto) (trie : MerkleTrie) (e : Entry) (trie' : MerkleTrie) : Prop :=
  ∃ program, compile crypto e.2 e.1 = .ok program ∧ Run (Steps crypto) trie program trie'

theorem executeInstruction_eq_ok :
    executeInstruction crypto index (trie, trace) i = .ok (trie', trace') ↔ Steps crypto trie i trie' ∧
      trace' = { trace with
        instructions := trace.instructions ++ [i]
        states := trace.states ++ [⟨trie'.root, Fin.ofNat _ (trace.instructions.length + 1)⟩] } := by
  simp only [executeInstruction, bind_eq_ok, mapError_eq_ok, Steps]
  constructor
  · rintro ⟨next, applied, kept⟩
    cases panicked : panics crypto next i <;> simp [panicked] at kept
    obtain ⟨rfl, rfl⟩ := kept
    exact ⟨⟨applied, panicked⟩, rfl⟩
  · rintro ⟨⟨applied, calm⟩, rfl⟩
    exact ⟨trie', applied, by simp [calm]⟩

theorem executeInstruction_iff (index : Nat) (trace : ExecutionTrace) (i : Instruction) :
    (∃ trace', executeInstruction crypto index (trie, trace) i = .ok (trie', trace')) ↔
      Steps crypto trie i trie' := by
  simp [executeInstruction_eq_ok]

theorem executeTransaction_iff (ctx : BatchContext) (trace : ExecutionTrace) (entry : Transaction × Nat) :
    (∃ trace', executeTransaction crypto ctx (trie, trace) entry = .ok (trie', trace')) ↔
      Executes crypto trie (ctx, entry.1) trie' := by
  simp only [executeTransaction, bind_eq_ok, mapError_eq_ok, Executes]
  rw [exists_comm]
  refine exists_congr fun program => ?_
  rw [exists_and_left, Run.foldlM_fst_eq_ok fun _ trace i _ => executeInstruction_iff _ trace i]

/-- A batch executes when its transactions do, one after another. -/
theorem executeBatch_iff (ctx : BatchContext) (transactions : List Transaction) :
    (∃ trace, executeBatch crypto trie ctx transactions = .ok (trie', trace)) ↔
      Run (Executes crypto) trie (transactions.map (ctx, ·)) trie' := by
  have entries : transactions.map (ctx, ·) = transactions.zipIdx.map fun entry => (ctx, entry.1) := by
    conv_lhs => rw [← List.zipIdx_map_fst 0 transactions, List.map_map]
    rfl
  rw [entries, Run.map_iff, executeBatch,
    Run.foldlM_fst_eq_ok fun _ trace entry _ => executeTransaction_iff ctx trace entry]

/-- Batches executed one after another. -/
def executeAll (crypto : Crypto) (trie : MerkleTrie) (batches : List (BatchContext × List Transaction)) :
    Except BatchError MerkleTrie :=
  batches.foldlM (fun trie batch => (·.1) <$> executeBatch crypto trie batch.1 batch.2) trie

theorem executeAll_singleton (executed : executeBatch crypto trie ctx txs = .ok (trie', trace)) :
    executeAll crypto trie [(ctx, txs)] = .ok trie' := by
  simp [executeAll, executed, Functor.map, Except.map]

/-- The transactions of a list of batches, in the order they execute. -/
def entries (batches : List (BatchContext × List Transaction)) : List Entry :=
  batches.flatMap fun batch => batch.2.map (batch.1, ·)

theorem executeAll_iff (batches : List (BatchContext × List Transaction)) :
    executeAll crypto trie batches = .ok trie' ↔ Run (Executes crypto) trie (entries batches) trie' := by
  have each : ∀ trie trie' (batch : BatchContext × List Transaction),
      ((·.1) <$> executeBatch crypto trie batch.1 batch.2) = .ok trie' ↔
        Run (Executes crypto) trie (batch.2.map (batch.1, ·)) trie' := by
    intro trie trie' batch
    rw [← executeBatch_iff]
    cases executeBatch crypto trie batch.1 batch.2 with
    | error e => simp [Functor.map, Except.map]
    | ok run => simp [Functor.map, Except.map, Prod.ext_iff]
  rw [executeAll, Run.foldlM_eq_ok, entries, Run.flatMap_iff]
  simp only [each]

/-- The slots the programs of these transactions name. -/
def slotsOf (crypto : Crypto) (es : List Entry) : Set Slot :=
  {s | ∃ e ∈ es, ∃ program, compile crypto e.2 e.1 = .ok program ∧ ∃ i ∈ program, i.on = s}

theorem slotsOf_singleton_subset (among : e ∈ es) : slotsOf crypto [e] ⊆ slotsOf crypto es := by
  rintro s ⟨e', here, rest⟩
  exact ⟨e, among, List.mem_singleton.mp here ▸ rest⟩

/-- The same slots, computed. -/
def slotList (crypto : Crypto) (es : List Entry) : List Slot :=
  es.flatMap fun e => ((compile crypto e.2 e.1).toOption.getD []).map (·.on)

theorem mem_slotsOf : s ∈ slotsOf crypto es ↔ s ∈ slotList crypto es := by
  simp only [slotsOf, slotList, Set.mem_ofPred_eq, List.mem_flatMap, List.mem_map]
  refine exists_congr fun e => and_congr_right fun _ => ?_
  cases compile crypto e.2 e.1 with
  | error _ => simp [Except.toOption]
  | ok program => simp [Except.toOption]

theorem fits_of_mem_slotsOf (named : s ∈ slotsOf crypto es) : s.Fits := by
  obtain ⟨e, _, program, compiled, i, emitted, rfl⟩ := named
  exact Instruction.on_fits (fits_of_compile compiled i emitted)

/-- A trace holds the state before each of its instructions, and the last. -/
structure Traced (crypto : Crypto) (pre : MerkleTrie) (trace : ExecutionTrace) (post : MerkleTrie) : Prop where
  length : trace.states.length = trace.instructions.length + 1
  states : ∀ k ≤ trace.instructions.length, ∃ mid, Run (Steps crypto) pre (trace.instructions.take k) mid ∧
    trace.states[k]? = some ⟨mid.root, Fin.ofNat _ k⟩
  ran : Run (Steps crypto) pre trace.instructions post

section
variable (traced : Traced crypto pre trace trie)
include traced

theorem Traced.instruction (executed : executeInstruction crypto index (trie, trace) i = .ok (trie', trace')) :
    Traced crypto pre trace' trie' := by
  obtain ⟨stepped, rfl⟩ := executeInstruction_eq_ok.mp executed
  obtain ⟨length, states, ran⟩ := traced
  have further : Run (Steps crypto) pre (trace.instructions ++ [i]) trie' :=
    Run.append_iff.mpr ⟨trie, ran, Run.singleton_iff.mpr stepped⟩
  refine ⟨by simp [length], fun k within => ?_, further⟩
  simp only [List.length_append, List.length_singleton] at within
  rcases Nat.lt_or_eq_of_le within with earlier | rfl
  · obtain ⟨mid, reached, found⟩ := states k (by omega)
    refine ⟨mid, ?_, ?_⟩
    · rwa [List.take_append_of_le_length (by omega)]
    · rwa [List.getElem?_append_left (by omega)]
  · refine ⟨trie', ?_, by simp [← length]⟩
    rwa [List.take_of_length_le (by simp)]

theorem Traced.program {program : List Instruction}
    (executed : program.foldlM (executeInstruction crypto index) (trie, trace) = .ok (trie', trace')) :
    Traced crypto pre trace' trie' ∧ trace'.instructions = trace.instructions ++ program := by
  induction program generalizing trie trace with
  | nil =>
    cases executed
    exact ⟨traced, by simp⟩
  | cons i program ih =>
    rw [List.foldlM_cons, bind_eq_ok] at executed
    obtain ⟨⟨next, extended⟩, first, rest⟩ := executed
    obtain ⟨traced', appended⟩ := ih (traced.instruction first) rest
    obtain ⟨_, rfl⟩ := executeInstruction_eq_ok.mp first
    exact ⟨traced', by simp [appended]⟩

theorem Traced.transactions {entries : List (Transaction × Nat)}
    (executed : entries.foldlM (executeTransaction crypto ctx) (trie, trace) = .ok (trie', trace')) :
    Traced crypto pre trace' trie' ∧ ∃ programs, (entries.map (·.1)).mapM (compile crypto · ctx) = .ok programs ∧
      trace'.instructions = trace.instructions ++ programs.flatten := by
  induction entries generalizing trie trace with
  | nil =>
    cases executed
    exact ⟨traced, [], rfl, by simp⟩
  | cons entry entries ih =>
    rw [List.foldlM_cons, bind_eq_ok] at executed
    obtain ⟨⟨next, extended⟩, first, rest⟩ := executed
    simp only [executeTransaction, bind_eq_ok, mapError_eq_ok] at first
    obtain ⟨program, compiled, ran⟩ := first
    -- where a transaction starts is noted beside the steps
    have noted : Traced crypto pre { trace with txStarts := trace.txStarts ++ [trace.instructions.length] } trie :=
      ⟨traced.length, traced.states, traced.ran⟩
    obtain ⟨traced₁, appended⟩ := noted.program ran
    obtain ⟨traced', programs, compiledRest, appendedRest⟩ := ih traced₁ rest
    refine ⟨traced', program :: programs, ?_, by simp [appendedRest, appended]⟩
    simp [List.mapM_cons, compiled, compiledRest, bind, Except.bind, pure, Except.pure]

end

/-- A batch that executes is traced, and its trace is of its own program. -/
theorem traced_of_executeBatch (executed : executeBatch crypto trie ctx txs = .ok (trie', trace)) :
    Traced crypto trie trace trie' ∧ batchProgram crypto ctx txs = .ok trace.instructions := by
  have started : Traced crypto trie ⟨[], [.start trie.root], []⟩ trie := by
    refine ⟨rfl, fun k within => ⟨trie, ?_, ?_⟩, rfl⟩
    · simp
    · obtain rfl : k = 0 := Nat.le_zero.mp within
      rfl
  obtain ⟨traced, programs, compiled, instructions⟩ := started.transactions executed
  rw [List.zipIdx_map_fst] at compiled
  refine ⟨traced, ?_⟩
  rw [batchProgram, compiled, instructions]
  rfl

end Execute

theorem MerkleTrie.Built.executeBatch (built : MerkleTrie.Built crypto trie)
    (executed : Execute.executeBatch crypto trie ctx txs = .ok (trie', trace)) : MerkleTrie.Built crypto trie' :=
  built.run_steps (Execute.traced_of_executeBatch executed).1.ran

namespace Store

open Execute (Entry slotsOf)

variable {crypto : Crypto} {trie trie' : MerkleTrie} {σ σ' : Store} {slots : Set Slot}

/-- One transaction executed on a store. -/
def Executes (crypto : Crypto) (σ : Store) (e : Entry) (σ' : Store) : Prop :=
  ∃ program, Execute.compile crypto e.2 e.1 = .ok program ∧ Run (Steps crypto) σ program σ'

theorem run_of_trie (apart : Slot.Apart crypto slots) (program : List Instruction)
    (inSlots : ∀ i ∈ program, i.on ∈ slots) (same : Set.EqOn (trie.bySlot crypto) σ slots)
    (ran : Run (Execute.Steps crypto) trie program trie') :
    ∃ σ', Run (Steps crypto) σ program σ' ∧ Set.EqOn (trie'.bySlot crypto) σ' slots :=
  ran.simulate (fun trie σ => Set.EqOn (trie.bySlot crypto) σ slots)
    (fun _ i _ _ among same stepped => steps_of_trie apart (inSlots i among) same stepped) same

theorem executes_of_trie (apart : Slot.Apart crypto slots) (es : List Entry) (inSlots : slotsOf crypto es ⊆ slots)
    (same : Set.EqOn (trie.bySlot crypto) σ slots) (ran : Run (Execute.Executes crypto) trie es trie') :
    ∃ σ', Run (Executes crypto) σ es σ' ∧ Set.EqOn (trie'.bySlot crypto) σ' slots := by
  refine ran.simulate (fun trie σ => Set.EqOn (trie.bySlot crypto) σ slots) ?_ same
  rintro trie e trie' σ among same ⟨program, compiled, ran⟩
  obtain ⟨σ', ran', same'⟩ :=
    run_of_trie apart program (fun i emitted => inSlots ⟨e, among, program, compiled, i, emitted, rfl⟩) same ran
  exact ⟨σ', ⟨program, compiled, ran'⟩, same'⟩

theorem trie_of_executes (apart : Slot.Apart crypto slots) (inSlots : slotsOf crypto [e] ⊆ slots)
    (same : Set.EqOn (trie.bySlot crypto) σ slots) (executed : σ.Executes crypto e σ') :
    ∃ trie', Execute.Executes crypto trie e trie' ∧ Set.EqOn (trie'.bySlot crypto) σ' slots := by
  obtain ⟨program, compiled, ran⟩ := executed
  have back : ∀ (σ : Store) i σ' trie, i ∈ program → Set.EqOn (trie.bySlot crypto) σ slots → σ.Steps crypto i σ' →
      ∃ trie', Execute.Steps crypto trie i trie' ∧ Set.EqOn (trie'.bySlot crypto) σ' slots :=
    fun σ i σ' trie emitted same stepped =>
      trie_of_steps apart (inSlots ⟨e, List.mem_singleton_self e, program, compiled, i, emitted, rfl⟩) same stepped
  obtain ⟨trie', ran', same'⟩ := ran.simulate (fun σ trie => Set.EqOn (MerkleTrie.bySlot crypto trie) σ slots) back same
  exact ⟨trie', ⟨program, compiled, ran'⟩, same'⟩

end Store

/-- One write of the genesis: an instruction, or the council's record. -/
inductive Founding where
  | apply (i : Instruction)
  | council (record : Council)

namespace Founding

def on : Founding → Slot
  | apply i => i.on
  | council _ => .council

/-- The write on a trie. -/
def Writes (crypto : Crypto) (trie : MerkleTrie) : Founding → MerkleTrie → Prop
  | apply i, trie' => Execute.Steps crypto trie i trie'
  | council record, trie' => trie' = trie.insert crypto (Slot.key crypto .council) record.encode

end Founding

/-- The write on a store. -/
def Store.Founds (crypto : Crypto) (σ : Store) : Founding → Store → Prop
  | .apply i, σ' => σ.Steps crypto i σ'
  | .council record, σ' => σ' = Function.update σ .council (some record.encode)

namespace GenesisConfig

open Move Execute

/-- What the genesis writes after the council. -/
def lastWrites (config : GenesisConfig) (hashes : List (FixedBytes 32 × FixedBytes 32)) : List Founding :=
  [.apply (.setFeeMarket config.market.baseFeeFloor config.market.gasTarget)] ++
    (config.feeSplit.toList.map fun split => .apply (.setFeeSplit split)) ++
    (hashes.map fun h => .apply (.setJwk h.1 h.2 true)) ++
    config.allocations.map fun a => .apply (.credit a.address a.asset a.amount)

/-- Everything the genesis writes, in its order. -/
def plan (config : GenesisConfig) (members : List (FixedBytes 32)) (hashes : List (FixedBytes 32 × FixedBytes 32)) :
    List Founding :=
  config.gasAssets.map (fun record => .apply (.setGasAsset record)) ++
    (config.council.toList.map fun c => .council ⟨members, c.threshold, 0, c.guardianThreshold⟩) ++
    config.lastWrites hashes

/-- What a built genesis has passed, and what was read off its texts. -/
structure Accepted (config : GenesisConfig) (hashing : JwkHashing) (members : List (FixedBytes 32))
    (hashes : List (FixedBytes 32 × FixedBytes 32)) : Prop where
  valid : config.validate hashing = .ok ()
  symbols : ∀ record ∈ config.gasAssets, Framable record.symbol.bytes
  council : ∀ c, config.council = some c → decodeMembers 0 c.members = .ok members ∧ members.length < 2 ^ 32
  hashes : config.jwkHashes hashing = .ok hashes

theorem applied_eq_ok : applied crypto trie i = .ok trie' ↔ Steps crypto trie i trie' := by
  simp only [applied, bind_eq_ok, mapError_eq_ok, Steps]
  constructor
  · rintro ⟨next, stepped, kept⟩
    cases panicked : panics crypto next i <;> simp [panicked] at kept
    exact ⟨kept ▸ stepped, kept ▸ panicked⟩
  · rintro ⟨stepped, calm⟩
    exact ⟨trie', stepped, by simp [calm]⟩

theorem run_applied {α : Type} (f : α → Instruction) (items : List α) :
    items.foldlM (fun trie a => applied crypto trie (f a)) trie = .ok trie' ↔
      Run (Founding.Writes crypto) trie (items.map fun a => .apply (f a)) trie' := by
  rw [Run.foldlM_eq_ok, Run.map_iff]
  simp only [applied_eq_ok, Founding.Writes]

theorem run_addGasAsset (records : List WhitelistedAsset) : records.foldlM (addGasAsset crypto) trie = .ok trie' ↔
      (∀ record ∈ records, Framable record.symbol.bytes) ∧
        Run (Founding.Writes crypto) trie (records.map fun record => .apply (.setGasAsset record)) trie' := by
  induction records generalizing trie with
  | nil => simp [pure, Except.pure]
  | cons record rest ih =>
    rw [List.foldlM_cons, bind_eq_ok, addGasAsset, List.forall_mem_cons, List.map_cons, Run.cons_iff]
    by_cases short : Framable record.symbol.bytes
    · simp only [short, if_true, true_and, ih, applied_eq_ok, Founding.Writes]
      constructor
      · rintro ⟨mid, stepped, all, ran⟩
        exact ⟨all, mid, stepped, ran⟩
      · rintro ⟨all, mid, stepped, ran⟩
        exact ⟨mid, stepped, all, ran⟩
    · simp [short]

variable {config : GenesisConfig}

theorem checkedFeeSplit_eq_ok (checked : config.checkedFeeSplit = .ok split) : split = config.feeSplit := by
  unfold checkedFeeSplit at checked
  cases configured : config.feeSplit with
  | none =>
    rw [configured] at checked
    cases checked
    rfl
  | some s =>
    rw [configured] at checked
    obtain ⟨_, _, returned⟩ := bind_eq_ok.mp checked
    cases returned
    rfl

theorem run_addCouncil {council : Option CouncilConfig}
    (added : council.toList.foldlM (addCouncil crypto) trie = .ok trie') :
    ∃ members, (∀ c, council = some c → decodeMembers 0 c.members = .ok members ∧ members.length < 2 ^ 32) ∧
      Run (Founding.Writes crypto) trie
        (council.toList.map fun c => .council ⟨members, c.threshold, 0, c.guardianThreshold⟩) trie' := by
  cases council with
  | none => exact ⟨[], by simp, Run.foldlM_eq_ok.mp added⟩
  | some c =>
    rw [Option.toList_some, Run.foldlM_eq_ok, Run.singleton_iff, addCouncil, bind_eq_ok] at added
    obtain ⟨members, decoded, written⟩ := added
    split at written
    · rename_i counted
      cases written
      refine ⟨members, ?_, Run.singleton_iff.mpr rfl⟩
      rintro _ ⟨rfl⟩
      exact ⟨decoded, counted⟩
    · cases written

/-- A built genesis is the run of its plan. -/
theorem run_of_buildState (built : config.buildState crypto hashing = .ok trie) :
    ∃ members hashes, config.Accepted hashing members hashes ∧
      Run (Founding.Writes crypto) MerkleTrie.new (config.plan members hashes) trie := by
  simp only [buildState, bind_eq_ok] at built
  obtain ⟨_, valid, withAssets, assets, withCouncil, council, withMarket, market, split, checked, withSplit,
    splitSet, hashes, hashed, withJwks, jwks, allocated⟩ := built
  obtain ⟨symbols, assets⟩ := (run_addGasAsset _).mp assets
  obtain ⟨members, decoded, council⟩ := run_addCouncil council
  cases checkedFeeSplit_eq_ok checked
  refine ⟨members, hashes, ⟨valid, symbols, decoded, hashed⟩, ?_⟩
  simp only [plan, lastWrites, Run.append_iff]
  exact ⟨withCouncil, ⟨withAssets, assets, council⟩, withJwks, ⟨withSplit, ⟨withMarket,
    Run.singleton_iff.mpr (applied_eq_ok.mp market), (run_applied _ _).mp splitSet⟩,
    (run_applied _ _).mp jwks⟩, (run_applied _ _).mp allocated⟩

theorem built_of_buildState (state : config.buildState crypto hashing = .ok trie) : MerkleTrie.Built crypto trie := by
  obtain ⟨_, _, _, ran⟩ := run_of_buildState state
  refine ran.invariant (MerkleTrie.Built crypto) (fun _ f _ _ built wrote => ?_) .new
  cases f with
  | apply i => exact built.run_steps (Run.singleton_iff.mpr wrote)
  | council record =>
    cases wrote
    exact .insert _ _ built

/-- The slots the genesis names. -/
def slots (config : GenesisConfig) (hashing : JwkHashing) : Set Slot :=
  {s | s = .council ∨ s = .feeMarket ∨ s = .feeSplit ∨ (∃ record ∈ config.gasAssets, s = .asset record.asset) ∨
    (∃ a ∈ config.allocations, s = .account a.address) ∨
    ∃ hashes, config.jwkHashes hashing = .ok hashes ∧ ∃ h ∈ hashes, s = .jwk h.1 h.2}

theorem fits_of_mem_slots (named : s ∈ config.slots hashing) : s.Fits := by
  obtain rfl | rfl | rfl | ⟨_, _, rfl⟩ | ⟨_, _, rfl⟩ | ⟨_, _, _, _, rfl⟩ := named <;> trivial

theorem on_mem_slots (hashed : config.jwkHashes hashing = .ok hashes)
    (planned : f ∈ config.plan members hashes) : f.on ∈ config.slots hashing := by
  simp only [plan, lastWrites, List.mem_append, List.mem_map, List.mem_singleton] at planned
  obtain (⟨record, among, rfl⟩ | ⟨c, _, rfl⟩) | ((rfl | ⟨split, _, rfl⟩) | ⟨h, among, rfl⟩) | ⟨a, among, rfl⟩ :=
    planned
  · exact .inr (.inr (.inr (.inl ⟨record, among, rfl⟩)))
  · exact .inl rfl
  · exact .inr (.inl rfl)
  · exact .inr (.inr (.inl rfl))
  · exact .inr (.inr (.inr (.inr (.inr ⟨hashes, hashed, h, among, rfl⟩))))
  · exact .inr (.inr (.inr (.inr (.inl ⟨a, among, rfl⟩))))

/-- The state some batches leave a genesis in. -/
def Reaches (crypto : Crypto) (hashing : JwkHashing) (config : GenesisConfig)
    (batches : List (BatchContext × List Transaction)) (trie : MerkleTrie) : Prop :=
  ∃ genesis, config.buildState crypto hashing = .ok genesis ∧ executeAll crypto genesis batches = .ok trie

/-- Every slot the genesis or a batch names. -/
def named (crypto : Crypto) (hashing : JwkHashing) (config : GenesisConfig)
    (batches : List (BatchContext × List Transaction)) : Set Slot :=
  config.slots hashing ∪ slotsOf crypto (entries batches)

/-- What a reached state shows is what the batches leave of the genesis on a store. -/
theorem Reaches.onStore {slots : Set Slot}
    (reaches : config.Reaches crypto hashing batches trie) (apart : Slot.Apart crypto slots)
    (inSlots : config.named crypto hashing batches ⊆ slots) :
    ∃ members hashes σ₀ σ, config.Accepted hashing members hashes ∧
      Run (Store.Founds crypto) (fun _ => none) (config.plan members hashes) σ₀ ∧
      Run (Store.Executes crypto) σ₀ (entries batches) σ ∧ Set.EqOn (trie.bySlot crypto) σ slots := by
  obtain ⟨genesis, built, ran⟩ := reaches
  obtain ⟨members, hashes, accepted, founded⟩ := run_of_buildState built
  have write : ∀ trie f trie' σ, f ∈ config.plan members hashes → Set.EqOn (trie.bySlot crypto) σ slots →
      Founding.Writes crypto trie f trie' →
        ∃ σ', Store.Founds crypto σ f σ' ∧ Set.EqOn (trie'.bySlot crypto) σ' slots := by
    intro trie f trie' σ among same wrote
    have here : f.on ∈ slots := inSlots (.inl (on_mem_slots accepted.hashes among))
    cases f with
    | apply i => exact Store.steps_of_trie apart here same wrote
    | council record =>
      cases wrote
      exact ⟨_, rfl, MerkleTrie.bySlot_insert apart here same _⟩
  obtain ⟨σ₀, founded, same⟩ := founded.simulate (t := fun _ => none) _ write fun _ _ => rfl
  obtain ⟨σ, executed, same⟩ := Store.executes_of_trie apart (entries batches)
    (fun s named => inSlots (.inr named)) same ((executeAll_iff batches).mp ran)
  exact ⟨members, hashes, σ₀, σ, accepted, founded, executed, same⟩

theorem fits_of_mem_named (among : s ∈ config.named crypto hashing batches) : s.Fits :=
  among.elim fits_of_mem_slots fits_of_mem_slotsOf

end GenesisConfig
end Sena
