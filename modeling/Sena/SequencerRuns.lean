import Sena.Sealing

/-! Runs of the sequencer.

Sealing takes a prefix off the queue before anything is known of it. What is left of
the prefix once the transactions that do not compile are dropped either executes and
is asserted, or is lost. It executes as long as the base fee does not move while
transactions wait: then every queued transaction still does what it did when it was
admitted. -/
namespace Sena

open Move
open Execute
open Devnet (slots transaction)

namespace Mempool

variable {crypto : Crypto} {pool pool' : Mempool} {txs taken : List Transaction}

theorem unindex_foldl (txs : List Transaction) (pool : Mempool) :
    (txs.foldl (unindex crypto) pool).queued = pool.queued ∧ (txs.foldl (unindex crypto) pool).tip = pool.tip := by
  induction txs generalizing pool with
  | nil => exact ⟨rfl, rfl⟩
  | cons tx txs ih => exact ih (unindex crypto pool tx)

theorem countWithin_le (maxBytes : Nat) (txs : List Transaction) (count size : Nat) :
    countWithin maxBytes txs count size ≤ count + txs.length := by
  induction txs generalizing count size with
  | nil => exact Nat.le_refl _
  | cons tx txs ih =>
    rw [countWithin, List.length_cons]
    split
    · omega
    · have := ih (count + 1) (min (size + tx.encode.length) (2 ^ 64 - 1))
      omega

/-- The transactions that fit need no more than the budget together. -/
theorem countFitting_spec (counted : countFitting crypto budget cap txs gas perAsset = some n) (within : gas ≤ budget) :
    n ≤ txs.length ∧ gas + ((txs.take n).map (need crypto)).sum ≤ budget := by
  induction txs generalizing gas perAsset n with
  | nil =>
    cases counted
    exact ⟨Nat.le_refl _, within⟩
  | cons tx txs ih =>
    have stopped : some 0 = some n → n ≤ (tx :: txs).length ∧
        gas + (((tx :: txs).take n).map (need crypto)).sum ≤ budget := by
      rintro ⟨rfl⟩
      exact ⟨Nat.zero_le _, by simpa using within⟩
    rw [countFitting] at counted
    split at counted
    · rename_i fits
      obtain ⟨limit, _, counted⟩ := Option.bind_eq_some_iff.mp counted
      split at counted
      · simp only [Option.bind_eq_bind, Option.bind_eq_some_iff, Option.pure_def, Option.some.injEq] at counted
        obtain ⟨rest, more, rfl⟩ := counted
        obtain ⟨short, summed⟩ := ih more fits.2.1
        refine ⟨Nat.succ_le_succ short, ?_⟩
        rw [List.take_succ_cons, List.map_cons, List.sum_cons, ← Nat.add_assoc]
        exact summed
      · exact stopped counted
    · exact stopped counted

/-- A prefix is taken, within the budget. The tip stays. -/
theorem takeBatchFitting_spec (took : takeBatchFitting crypto pool limit maxBytes budget cap = some (pool', taken)) :
    pool.queued = taken ++ pool'.queued ∧ (taken.map (need crypto)).sum ≤ budget ∧
      pool'.tip.map (·.state) = pool.tip.map (·.state) := by
  obtain ⟨fitting, counted, same⟩ := Option.bind_eq_some_iff.mp took
  obtain ⟨among, summed⟩ := countFitting_spec counted (Nat.zero_le _)
  have fewer : countWithin maxBytes (pool.queued.take fitting) 0 0 ≤ fitting := by
    have := countWithin_le maxBytes (pool.queued.take fitting) 0 0
    rw [Nat.zero_add, List.length_take] at this
    omega
  simp only [takeBatchWithin, pure, Option.some.injEq, Prod.mk.injEq] at same
  obtain ⟨rfl, rfl⟩ := same
  simp only [unindex_foldl]
  refine ⟨(List.take_append_drop _ _).symm, ?_, ?_⟩
  · have shorter : pool.queued.take (countWithin maxBytes (pool.queued.take fitting) 0 0) =
        ((pool.queued.take limit).take fitting).take (countWithin maxBytes (pool.queued.take fitting) 0 0) := by
      rw [List.length_take] at among
      rw [List.take_take, List.take_take]
      congr 1
      omega
    rw [shorter]
    exact (((List.take_sublist _ _).map _).sum_le_sum fun _ _ => Nat.zero_le _).trans (by simpa using summed)
  · cases pool.tip <;> rfl

end Mempool

namespace Execute

variable {crypto : Crypto} {ctx : BatchContext} {trie next : MerkleTrie} {txs : List Transaction}

/-- The transaction has a program in this context. -/
def Compiles (crypto : Crypto) (ctx : BatchContext) (tx : Transaction) : Bool := (compile crypto tx ctx).isOk

theorem compiles_iff : Compiles crypto ctx tx = true ↔ ∃ p, compile crypto tx ctx = .ok p := by
  unfold Compiles
  cases compile crypto tx ctx <;> simp [Except.isOk, Except.toBool]

/-- What executes compiles. -/
theorem filter_of_run (ran : Run (Executes crypto) trie (txs.map (ctx, ·)) next) :
    txs.filter (Compiles crypto ctx) = txs := by
  rw [List.filter_eq_self]
  induction txs generalizing trie with
  | nil => simp
  | cons tx txs ih =>
    obtain ⟨mid, ⟨p, compiled, _⟩, ran⟩ := ran
    exact List.forall_mem_cons.mpr ⟨compiles_iff.mpr ⟨p, compiled⟩, ih ran⟩

theorem executeBatch_of_filter
    (ran : Run (Executes crypto) trie ((txs.filter (Compiles crypto ctx)).map (ctx, ·)) next) :
    (∃ result, executeBatch crypto trie ctx txs = .ok result) ∨
      ∃ index e, executeBatch crypto trie ctx txs = .error (.compile index e) := by
  suffices each : ∀ (k : Nat) (trace : ExecutionTrace),
      (∃ result, (txs.zipIdx k).foldlM (executeTransaction crypto ctx) (trie, trace) = .ok result) ∨
        ∃ index e, (txs.zipIdx k).foldlM (executeTransaction crypto ctx) (trie, trace) = .error (.compile index e) from
    each 0 _
  intro k trace
  induction txs generalizing trie k trace with
  | nil => exact .inl ⟨_, rfl⟩
  | cons tx txs ih =>
    rw [List.zipIdx_cons, List.foldlM_cons]
    cases compiled : compile crypto tx ctx with
    | error e =>
      refine .inr ⟨k, e, ?_⟩
      simp only [executeTransaction, compiled]
      rfl
    | ok p =>
      rw [List.filter_cons_of_pos (compiles_iff.mpr ⟨p, compiled⟩)] at ran
      obtain ⟨mid, executed, ran⟩ := ran
      obtain ⟨trace', executed⟩ := (executeTransaction_iff ctx trace (tx, k)).mpr executed
      rw [executed]
      exact ih ran (k + 1) trace'

theorem compile_of_executeBatch (failed : executeBatch crypto trie ctx txs = .error (.compile index e)) :
    ∃ tx, txs[index]? = some tx ∧ compile crypto tx ctx = .error e := by
  refine (Run.foldlM_rule (fun _ => True)
    (fun error => ∀ index e, error = .compile index e → ∃ tx, txs[index]? = some tx ∧ compile crypto tx ctx = .error e)
    (fun run entry listed _ => ⟨fun _ _ => trivial, fun error failed index e same => ?_⟩) trivial).2 _ failed index e rfl
  subst same
  rw [executeTransaction, bind_eq_error] at failed
  rcases failed with failed | ⟨p, _, failed⟩
  · obtain ⟨_, failed, same⟩ := mapError_eq_error.mp failed
    cases same
    exact ⟨entry.1, List.mem_zipIdx_iff_getElem?.mp listed, failed⟩
  · -- an instruction's failure is never one of compilation
    exfalso
    refine (Run.foldlM_rule (fun _ => True) (fun error => ∀ index e, error ≠ .compile index e)
      (fun run i _ _ => ⟨fun _ _ => trivial, fun error failed index e same => ?_⟩) trivial).2 _ failed index e rfl
    subst same
    rw [executeInstruction, bind_eq_error] at failed
    rcases failed with failed | ⟨mid, _, failed⟩
    · obtain ⟨_, _, same⟩ := mapError_eq_error.mp failed
      cases same
    · cases panicked : panics crypto mid i <;> simp [panicked] at failed

end Execute

namespace Sequencer

variable {crypto : Crypto} {s s' : Sequencer} {ctx : BatchContext} {state : MerkleTrie} {txs : List Transaction}

theorem filter_eraseIdx (at' : txs[index]? = some tx) (drops : Compiles crypto ctx tx = false) :
    (txs.eraseIdx index).filter (Compiles crypto ctx) = txs.filter (Compiles crypto ctx) := by
  induction txs generalizing index with
  | nil => rfl
  | cons head txs ih =>
    cases index with
    | zero =>
      cases at'
      rw [List.eraseIdx_cons_zero, List.filter_cons_of_neg (by simp [drops])]
    | succ index => rw [List.eraseIdx_cons_succ, List.filter_cons, List.filter_cons, ih at']

theorem sealBatch_spec (crypto : Crypto) (state : MerkleTrie) (ctx : BatchContext) (some' : txs ≠ [])
    (enough : txs.length ≤ fuel) :
    match sealBatch crypto state ctx fuel txs with
    | .ok none => txs.filter (Compiles crypto ctx) = []
    | .ok (some (kept, next, trace)) => kept ≠ [] ∧ kept = txs.filter (Compiles crypto ctx) ∧
        executeBatch crypto state ctx kept = .ok (next, trace)
    | .error _ => txs.filter (Compiles crypto ctx) ≠ [] ∧
        ∀ next, ¬Run (Executes crypto) state ((txs.filter (Compiles crypto ctx)).map (ctx, ·)) next := by
  induction fuel generalizing txs with
  | zero => exact absurd (List.length_eq_zero_iff.mp (Nat.le_zero.mp enough)) some'
  | succ fuel ih =>
    have stuck : ∀ error, executeBatch crypto state ctx txs = .error error → (∀ index e, error ≠ .compile index e) →
        txs.filter (Compiles crypto ctx) ≠ [] ∧
          ∀ next, ¬Run (Executes crypto) state ((txs.filter (Compiles crypto ctx)).map (ctx, ·)) next := by
      intro error failed other
      have never : ∀ next, ¬Run (Executes crypto) state ((txs.filter (Compiles crypto ctx)).map (ctx, ·)) next := by
        intro next ran
        rcases executeBatch_of_filter ran with ⟨result, executed⟩ | ⟨index, e, compiled⟩
        · cases failed.symm.trans executed
        · exact other index e (Except.error.inj (failed.symm.trans compiled))
      exact ⟨fun empty => never state (by rw [empty]; rfl), never⟩
    rw [sealBatch]
    cases executed : executeBatch crypto state ctx txs with
    | ok result =>
      obtain ⟨next, trace⟩ := result
      exact ⟨some', (filter_of_run ((executeBatch_iff ctx txs).mp ⟨trace, executed⟩)).symm, executed⟩
    | error error =>
      cases error with
      | compile index e =>
        obtain ⟨tx, at', failed⟩ := compile_of_executeBatch executed
        have drops : Compiles crypto ctx tx = false := by simp [Compiles, failed, Except.isOk, Except.toBool]
        have shorter : (txs.eraseIdx index).length ≤ fuel := by
          have := List.length_eraseIdx_of_lt (List.getElem?_eq_some_iff.mp at').1
          omega
        rw [← filter_eraseIdx at' drops]
        dsimp only
        by_cases empty : txs.eraseIdx index = []
        · simp [empty]
        · rw [if_neg (by simpa using empty)]
          exact ih empty shorter
      | step index step e => exact stuck _ executed (by simp)
      | panicked => exact stuck _ executed (by simp)

/-- The chain takes an assertion on the head that starts at the sequencer's state. -/
def Asserts (s : Sequencer) : Prop :=
  ∃ parent, s.chain.get s.head = some parent ∧ parent.status ≠ .rejected ∧
    parent.assertion.postStateRoot = s.state.root ∧ s.chain.minimumBond.val ≤ s.bond.val

theorem post_ok (asserts : s.Asserts) (ctx : BatchContext) (txs : List Transaction) (next : MerkleTrie)
    (trace : ExecutionTrace) : let a := s.assertion crypto (s.block ctx txs next trace)
    s.chain.post crypto a = .ok ({ s.chain with
      records := SortedMap.insert Hash256.rank (a.id crypto) ⟨a, .pending, s.chain.now, 0⟩ s.chain.records },
      a.id crypto) := by
  intro a
  obtain ⟨parent, known, standing, same, bonded⟩ := asserts
  have known : s.chain.get a.parent = some parent := known
  have same : parent.assertion.postStateRoot = a.preStateRoot := same
  have bonded : ¬a.bond.val < s.chain.minimumBond.val := Nat.not_lt.mpr bonded
  simp [Fraudproof.AssertionChain.post, known, standing, same, bonded]

theorem asserts_of_post (posted : s.chain.post crypto (s.assertion crypto (s.block ctx txs next trace)) = .ok result) :
    s.Asserts := by
  unfold Fraudproof.AssertionChain.post at posted
  split at posted
  · cases posted
  · rename_i parent known
    split at posted
    · cases posted
    · rename_i standing
      split at posted
      · cases posted
      · rename_i same
        split at posted
        · cases posted
        · rename_i bonded
          exact ⟨parent, known, standing, not_not.mp same, Nat.not_lt.mp bonded⟩

/-- The transactions a call takes that compile in its context. -/
def compiling (crypto : Crypto) (s : Sequencer) (clock : U64) (taken : List Transaction) : List Transaction :=
  taken.filter (Compiles crypto (s.batchContext crypto (s.nextTimestamp clock)))

/-- The chain with a pending assertion more. -/
def pending (crypto : Crypto) (s : Sequencer) (a : Fraudproof.Assertion) : Fraudproof.AssertionChain :=
  { s.chain with
    records := SortedMap.insert Hash256.rank (a.id crypto) ⟨a, .pending, s.chain.now, 0⟩ s.chain.records }

/-- The sequencer with a block more. -/
def extended (crypto : Crypto) (s : Sequencer) (next : MerkleTrie) (block : Block) : Sequencer :=
  { s with
    state := next
    head := (s.assertion crypto block).id crypto
    chain := s.pending crypto (s.assertion crypto block)
    blocks := s.blocks ++ [block]
    assertions := s.assertions ++ [(s.assertion crypto block).id crypto] }

/-- What becomes of a batch that was taken, and of the sequencer. -/
inductive Produced (crypto : Crypto) (s : Sequencer) (clock : U64) (pool : Mempool) (taken : List Transaction) :
    Sequencer → Except ProduceError (Option (Block × Hash256)) → Prop
  | idle (nothing : s.compiling crypto clock taken = []) :
    Produced crypto s clock pool taken { s with mempool := pool } (.ok none)
  | stuck (something : s.compiling crypto clock taken ≠ [])
    (stops : ∀ next, ¬Run (Executes crypto) s.state
      ((s.compiling crypto clock taken).map (s.batchContext crypto (s.nextTimestamp clock), ·)) next) (e : BatchError) :
    Produced crypto s clock pool taken { s with mempool := pool } (.error (.execution e))
  | refused (something : s.compiling crypto clock taken ≠ []) (refuses : ¬s.Asserts) (e : Fraudproof.ChainError) :
    Produced crypto s clock pool taken { s with mempool := pool } (.error (.assertion e))
  | appends (something : s.compiling crypto clock taken ≠ []) (next : MerkleTrie) (trace : ExecutionTrace)
    (executed : executeBatch crypto s.state (s.batchContext crypto (s.nextTimestamp clock))
      (s.compiling crypto clock taken) = .ok (next, trace)) (asserts : s.Asserts) (block : Block)
    (shaped : block = s.block (s.batchContext crypto (s.nextTimestamp clock)) (s.compiling crypto clock taken) next
      trace) :
    Produced crypto s clock pool taken { s.extended crypto next block with mempool := pool }
      (.ok (some (block, (s.assertion crypto block).id crypto)))

theorem produce_spec (returned : s.produce crypto clock limit = some (s', result)) :
    ∃ pool taken, s.take crypto (s.nextTimestamp clock) limit = some (pool, taken) ∧
      Produced crypto s clock pool taken s' result := by
  obtain ⟨⟨pool, taken⟩, took, returned⟩ := Option.bind_eq_some_iff.mp returned
  refine ⟨pool, taken, took, ?_⟩
  dsimp only at returned
  by_cases empty : taken = []
  · subst empty
    cases returned
    exact .idle rfl
  · rw [if_neg (by simpa using empty)] at returned
    have spec := sealBatch_spec crypto s.state (s.batchContext crypto (s.nextTimestamp clock)) empty (Nat.le_refl _)
    cases outcome : sealBatch crypto s.state (s.batchContext crypto (s.nextTimestamp clock)) taken.length taken with
    | error e =>
      rw [outcome] at spec
      simp only [outcome] at returned
      cases e with
      | panicked => cases returned
      | compile index e =>
        cases returned
        exact .stuck spec.1 spec.2 _
      | step index step e =>
        cases returned
        exact .stuck spec.1 spec.2 _
    | ok kept =>
      rw [outcome] at spec
      simp only [outcome] at returned
      cases kept with
      | none =>
        cases returned
        exact .idle spec
      | some kept =>
        obtain ⟨kept, next, trace⟩ := kept
        obtain ⟨something, rfl, executed⟩ := spec
        dsimp only at returned
        split at returned
        · rename_i e refused
          cases returned
          refine .refused something (fun asserts => ?_) e
          cases (post_ok asserts _ _ _ _).symm.trans refused
        · rename_i chain id posted
          cases returned
          have asserts := asserts_of_post posted
          cases (post_ok asserts _ _ _ _).symm.trans posted
          exact .appends something next trace executed asserts _ rfl

inductive Call where
  | submit (tx : Transaction)
  | produce (limit : Nat)
deriving DecidableEq

/-- A call at a reading of the clock, whatever it answers. -/
def call (crypto : Crypto) (s : Sequencer) (call : U64 × Call) : Option Sequencer :=
  match call.2 with
  | .submit tx => (s.submit crypto call.1 tx).map (·.1)
  | .produce limit => (s.produce crypto call.1 limit).map (·.1)

def Calls (crypto : Crypto) (s : Sequencer) (call : U64 × Call) (s' : Sequencer) : Prop := s.call crypto call = some s'

end Sequencer

namespace Devnet

/-- The devnet with a small window, and in its funded account just what two transactions
cost at the floor. -/
def tight : GenesisConfig :=
  { config with
    allocations := [⟨alice, 1, 3366⟩, ⟨Execute.FEE_VAULT, 1, 1001⟩]
    feeMarket := some ⟨25000000000, 30000⟩ }

/-- A sequencer on a state, with the bond its chain asks for. -/
def node (state : MerkleTrie) : Sequencer := Sequencer.start crypto state 86400 1 0 1 none sequencer []

/-- Two transactions come in at once. The window holds the first. -/
def arrivals : List (U64 × Sequencer.Call) :=
  [(1700000000, .submit payment), (1700000000, .submit distribution), (1700000000, .produce 10)]

/-- The tight node, a second later. -/
def pressed : Option (Sequencer × Sequencer × Except ProduceError (Option (Block × Hash256))) := do
  let genesis ← (tight.buildState crypto hashing).toOption
  let s ← arrivals.foldlM (Sequencer.call crypto) (node genesis)
  let (s', result) ← s.produce crypto 1700000001 10
  return (s, s', result)

theorem pressed_fails : ∃ p ∈ pressed, p.1.mempool.queued = [distribution] ∧
    Compiles crypto (p.1.batchContext crypto (p.1.nextTimestamp 1700000001)) distribution = true ∧
    p.2.1.mempool.queued = [] ∧ p.2.2 = .error (.execution (.step 0 3 (.balance (.insufficient 1300 1357)))) := by
  unfold pressed node
  decide +kernel

theorem run_of_pressed (held : pressed = some (s, s', result)) :
    ∃ genesis, tight.buildState crypto hashing = .ok genesis ∧
      Run (Sequencer.Calls crypto) (node genesis) arrivals s ∧ s.produce crypto 1700000001 10 = some (s', result) := by
  simp only [pressed, Option.bind_eq_bind, Option.bind_eq_some_iff, Option.pure_def, Option.some.injEq, Prod.mk.injEq,
    Prod.exists] at held
  obtain ⟨genesis, built, _, ran, _, _, produced, rfl, rfl, rfl⟩ := held
  exact ⟨genesis, Move.toOption_eq_some.mp built, Run.foldlM_eq_some.mp ran, produced⟩

/-- The devnet's own node after one transaction. -/
def loaded : Sequencer := ((node genesis).call crypto (1700000000, .submit payment)).getD (node genesis)

theorem call_loaded : (node genesis).call crypto (1700000000, .submit payment) = some loaded := by
  have called : ((node genesis).call crypto (1700000000, .submit payment)).isSome = true := by
    decide +kernel
  rw [loaded]
  cases result : (node genesis).call crypto (1700000000, .submit payment) with
  | some s => rfl
  | none => simp [result] at called

/-- It seals the transaction. -/
theorem produce_loaded : ∃ s' block id, loaded.produce crypto 1700000000 10 = some (s', .ok (some (block, id))) ∧
    block.transactions = [payment] := by
  obtain ⟨⟨s', _⟩, produced, _, rfl, ⟨block, id⟩, rfl, alone⟩ : ∃ r ∈ loaded.produce crypto 1700000000 10,
      ∃ b, r.2 = .ok b ∧ ∃ sealed ∈ b, sealed.1.transactions = [payment] := by
    decide +kernel
  exact ⟨s', block, id, produced, alone⟩

end Devnet

namespace Sequencer

variable {crypto : Crypto} {s s' : Sequencer}

/-- The transactions of the block a call returned. -/
def sealedIn : Except ProduceError (Option (Block × Hash256)) → List Transaction
  | .ok (some (block, _)) => block.transactions
  | _ => []

/-- A call accounts for its queue: what is still queued is queued in the same order, and
what compiles is still queued or in the block. Without a block nothing else has moved. -/
structure Accounts (crypto : Crypto) (s : Sequencer) (clock : U64) (s' : Sequencer)
    (result : Except ProduceError (Option (Block × Hash256))) : Prop where
  order : s'.mempool.queued.Sublist s.mempool.queued
  kept : ∀ tx, Compiles crypto (s.batchContext crypto (s.nextTimestamp clock)) tx = true →
    s.mempool.queued.count tx = s'.mempool.queued.count tx + (sealedIn result).count tx
  frame : (∀ block id, result ≠ .ok (some (block, id))) → s'.state = s.state ∧ s'.blocks = s.blocks ∧
    s'.chain = s.chain ∧ s'.head = s.head ∧ s'.assertions = s.assertions

theorem take_spec (took : s.take crypto timestamp limit = some (pool, taken)) :
    s.mempool.queued = taken ++ pool.queued ∧ (taken.map (Mempool.need crypto)).sum ≤
        (s.window crypto timestamp).windowLimit - (s.window crypto timestamp).windowGas.val ∧
      pool.tip.map (·.state) = s.mempool.tip.map (·.state) :=
  Mempool.takeBatchFitting_spec took

section
variable (took : s.take crypto (s.nextTimestamp clock) limit = some (pool, taken))
include took

theorem count_queued (compiles : Compiles crypto (s.batchContext crypto (s.nextTimestamp clock)) tx = true) :
    s.mempool.queued.count tx = pool.queued.count tx + (s.compiling crypto clock taken).count tx := by
  rw [(take_spec took).1, List.count_append, compiling, List.count_filter compiles, Nat.add_comm]

theorem nothing_of_accounts (accounts : Accounts crypto s clock { s with mempool := pool } result) (none' : sealedIn result = []) :
    s.compiling crypto clock taken = [] := by
  rw [List.eq_nil_iff_forall_not_mem]
  intro tx among
  have compiles := (List.mem_filter.mp among).2
  have before := count_queued took compiles
  have after := accounts.kept tx compiles
  rw [none', List.count_nil] at after
  have := List.count_pos_iff.mpr among
  dsimp only at after
  omega

end

/-- Sealing accounts for its queue exactly when nothing it takes compiles, or what
compiles executes and the chain takes the assertion. -/
theorem produce_accounts_iff (returned : s.produce crypto clock limit = some (s', result))
    (took : s.take crypto (s.nextTimestamp clock) limit = some (pool, taken)) :
    Accounts crypto s clock s' result ↔ s.compiling crypto clock taken = [] ∨ s.Asserts ∧
      ∃ next, Run (Executes crypto) s.state
        ((s.compiling crypto clock taken).map (s.batchContext crypto (s.nextTimestamp clock), ·)) next := by
  obtain ⟨pool', taken', took', produced⟩ := produce_spec returned
  cases took.symm.trans took'
  have order : pool.queued.Sublist s.mempool.queued := by
    rw [(take_spec took).1]
    exact List.sublist_append_right _ _
  cases produced with
  | idle nothing =>
    refine iff_of_true ⟨order, fun tx compiles => ?_, fun _ => ⟨rfl, rfl, rfl, rfl, rfl⟩⟩ (.inl nothing)
    rw [count_queued took compiles, nothing]
    rfl
  | stuck something stops e =>
    refine iff_of_false (fun accounts => something (nothing_of_accounts took accounts rfl)) ?_
    rintro (nothing | ⟨_, next, ran⟩)
    · exact something nothing
    · exact stops next ran
  | refused something refuses e =>
    refine iff_of_false (fun accounts => something (nothing_of_accounts took accounts rfl)) ?_
    rintro (nothing | ⟨asserts, _⟩)
    · exact something nothing
    · exact refuses asserts
  | appends something next trace executed asserts block shaped =>
    refine iff_of_true ⟨order, fun tx compiles => ?_, fun no => absurd rfl (no _ _)⟩
      (.inr ⟨asserts, next, (executeBatch_iff _ _).mp ⟨trace, executed⟩⟩)
    rw [count_queued took compiles, shaped]
    rfl

end Sequencer

namespace Devnet

open Sequencer

/-- The devnet's payment is accounted for: it is in the block. -/
theorem payment_is_accounted_for : ∃ s' block id,
    loaded.produce crypto 1700000000 10 = some (s', .ok (some (block, id))) ∧
      Accounts crypto loaded 1700000000 s' (.ok (some (block, id))) := by
  obtain ⟨s', block, id, returned, _⟩ := produce_loaded
  obtain ⟨pool, taken, took, produced⟩ := produce_spec returned
  refine ⟨s', block, id, returned, (produce_accounts_iff returned took).mpr ?_⟩
  cases produced with
  | appends something next trace executed asserts block shaped =>
    exact .inr ⟨asserts, next, (executeBatch_iff _ _).mp ⟨trace, executed⟩⟩

/-- A transaction that was queued and compiles is neither sealed nor queued after the
base fee rose over what its sender had left. -/
theorem fee_rise_loses_a_transaction : ∃ genesis s s' result, tight.buildState crypto hashing = .ok genesis ∧
    Run (Calls crypto) (node genesis) arrivals s ∧ s.produce crypto 1700000001 10 = some (s', result) ∧
    distribution ∈ s.mempool.queued ∧ distribution ∉ s'.mempool.queued ∧ distribution ∉ sealedIn result ∧
    ¬Accounts crypto s 1700000001 s' result := by
  obtain ⟨⟨s, s', _⟩, held, before, compiles, after, rfl⟩ := pressed_fails
  dsimp only at before compiles after
  obtain ⟨genesis, built, ran, produced⟩ := run_of_pressed held
  refine ⟨genesis, s, s', _, built, ran, produced, by simp [before], by simp [after], by simp [sealedIn], fun accounts => ?_⟩
  have count := accounts.kept _ compiles
  rw [before, after] at count
  simp [sealedIn] at count

end Devnet

section
variable (crypto : Crypto)

/-- The queue leads from `state` to the tip, off the market, if each of its transactions
does what `admits` says. -/
def Mempool.Leads (admits : MerkleTrie → Transaction → MerkleTrie → Prop) (state : MerkleTrie) (pool : Mempool) : Prop :=
  ∃ t, Run admits state pool.queued t ∧
    ∀ tip, pool.tip.map (·.state) = some tip → tip.AgreesOff (Keys.feeMarket crypto) t

/-- What admission in a context makes sure of, for the transactions with a property. -/
def Mempool.Admission (ctx : BatchContext) (state : MerkleTrie) (property : Transaction → Prop)
    (admits : MerkleTrie → Transaction → MerkleTrie → Prop) : Prop :=
  ∀ tx, property tx → ∀ top t next, MerkleTrie.AgreesOff (Keys.feeMarket crypto) top t →
    tryAdmit crypto state top ctx tx = .ok next →
    ∃ t', admits t tx t' ∧ MerkleTrie.AgreesOff (Keys.feeMarket crypto) next t'

variable (keyless : Option KeylessConfig) (recipient : L2Address) (fee : U128)

/-- The queue executes on `state` off the market, one transaction after another, at one
base fee, and the tip is where it leads. -/
structure Mempool.Follows (state : MerkleTrie) (pool : Mempool) : Prop where
  charges : ∀ tx ∈ pool.queued, Charges crypto keyless recipient tx
  market : pool.queued ≠ [] → ∃ m, decodeFeeMarket (state.get (Keys.feeMarket crypto)) = .ok m
  leads : ∃ t, Run (Admits crypto keyless recipient fee) state pool.queued t ∧
    ∀ tip, pool.tip.map (·.state) = some tip → tip.AgreesOff (Keys.feeMarket crypto) t

end

namespace Mempool

variable {crypto : Crypto} {pool pool' : Mempool} {state next : MerkleTrie} {tip tip' : Tip} {ctx : BatchContext}
  {property : Transaction → Prop} {admits : MerkleTrie → Transaction → MerkleTrie → Prop}

theorem executes_of_tryAdmit (admitted : tryAdmit crypto state top ctx tx = .ok next) :
    ∃ base, MerkleTrie.AgreesOff (Keys.feeMarket crypto) base top ∧
      decodeFeeMarket (base.get (Keys.feeMarket crypto)) = decodeFeeMarket (state.get (Keys.feeMarket crypto)) ∧
      Executes crypto base (ctx, tx) next := by
  simp only [tryAdmit, bind_eq_ok, pure_iff] at admitted
  obtain ⟨⟨_, trace⟩, executed, rfl⟩ := admitted
  have executed := Run.singleton_iff.mp ((executeBatch_iff ctx [tx]).mp ⟨trace, executed⟩)
  have market (b : Option Bytes) : decodeFeeMarket (some
      (b.getD (FeeMarket.genesis Gas.DEFAULT_BASE_FEE_FLOOR Gas.DEFAULT_GAS_TARGET).encode)) = decodeFeeMarket b := by
    cases b with
    | none => exact decodeFeeMarket_encode _
    | some b => rfl
  refine ⟨_, ?_, ?_, executed⟩
  · split
    · exact .refl _
    · exact (MerkleTrie.AgreesOff.refl _).insert_left _
  · split
    · rename_i same
      rw [same, market]
    · rw [MerkleTrie.get_insert, if_pos rfl, market]

theorem rebuild_sublist {txs kept : List Transaction} (rebuilt : rebuild crypto state ctx txs tip = some (kept, tip')) :
    kept.Sublist txs := by
  induction txs generalizing tip kept with
  | nil =>
    cases rebuilt
    exact List.Sublist.refl _
  | cons tx txs ih =>
    rw [rebuild] at rebuilt
    split at rebuilt
    · simp only [Option.bind_eq_bind, Option.bind_eq_some_iff, Option.pure_def, Option.some.injEq,
        Prod.mk.injEq, Prod.exists] at rebuilt
      obtain ⟨rest, _, rebuilt, rfl, rfl⟩ := rebuilt
      exact (ih rebuilt).cons_cons tx
    · cases rebuilt
    · exact (ih rebuilt).cons tx

theorem rebuild_leads (admission : Admission crypto ctx state property admits) (all : ∀ tx ∈ txs, property tx)
    (agrees : tip.state.AgreesOff (Keys.feeMarket crypto) t)
    (rebuilt : rebuild crypto state ctx txs tip = some (kept, tip')) :
    ∃ t', Run admits t kept t' ∧ tip'.state.AgreesOff (Keys.feeMarket crypto) t' := by
  induction txs generalizing tip t kept with
  | nil =>
    cases rebuilt
    exact ⟨t, rfl, agrees⟩
  | cons tx txs ih =>
    rw [List.forall_mem_cons] at all
    rw [rebuild] at rebuilt
    split at rebuilt
    · rename_i next admitted
      simp only [Option.bind_eq_bind, Option.bind_eq_some_iff, Option.pure_def, Option.some.injEq,
        Prod.mk.injEq, Prod.exists] at rebuilt
      obtain ⟨rest, _, rebuilt, rfl, rfl⟩ := rebuilt
      obtain ⟨mid, first, agrees⟩ := admission tx all.1 _ t next agrees admitted
      obtain ⟨t', ran, agrees⟩ := ih all.2 agrees rebuilt
      exact ⟨t', ⟨mid, first, ran⟩, agrees⟩
    · cases rebuilt
    · exact ih all.2 agrees rebuilt

theorem queued_of_tipOver (topped : tipOver crypto pool state ctx = some (pool', tip')) :
    pool'.tip = some tip' ∧ ∀ tx ∈ pool'.queued, tx ∈ pool.queued := by
  unfold Mempool.tipOver at topped
  split at topped
  · rename_i found
    cases topped
    exact ⟨(Option.filter_eq_some_iff.mp found).1, fun _ => id⟩
  · simp only [Option.bind_eq_bind, Option.bind_eq_some_iff, Option.pure_def, Option.some.injEq, Prod.mk.injEq,
      Prod.exists] at topped
    obtain ⟨kept, tip, rebuilt, rfl, rfl⟩ := topped
    exact ⟨rfl, fun tx among => (rebuild_sublist rebuilt).subset among⟩

/-- A tip over the state leaves the queue one that leads to it. -/
theorem Leads.tipOver (leads : pool.Leads crypto admits state) (admission : Admission crypto ctx state property admits)
    (all : ∀ tx ∈ pool.queued, property tx) (topped : tipOver crypto pool state ctx = some (pool', tip')) :
    pool'.Leads crypto admits state := by
  unfold Mempool.tipOver at topped
  split at topped
  · cases topped
    exact leads
  · simp only [Option.bind_eq_bind, Option.bind_eq_some_iff, Option.pure_def, Option.some.injEq, Prod.mk.injEq,
      Prod.exists] at topped
    obtain ⟨kept, tip, rebuilt, rfl, rfl⟩ := topped
    obtain ⟨t, ran, agrees⟩ := rebuild_leads admission all (.refl state) rebuilt
    refine ⟨t, ran, ?_⟩
    rintro _ ⟨rfl⟩
    exact agrees

theorem submit_cases (submitted : pool.submit crypto state ctx tx = some (pool', answer)) :
    pool' = pool ∨ ∃ mid tip, tipOver crypto pool state ctx = some (mid, tip) ∧
      (pool' = mid ∨ ∃ next, tryAdmit crypto state tip.state ctx tx = .ok next ∧
        pool'.queued = mid.queued ++ [tx] ∧ pool'.tip.map (·.state) = some next) := by
  unfold Mempool.submit at submitted
  split at submitted
  · cases submitted
    exact .inl rfl
  split at submitted
  · cases submitted
    exact .inl rfl
  split at submitted
  · cases submitted
    exact .inl rfl
  obtain ⟨⟨mid, tip⟩, topped, submitted⟩ := Option.bind_eq_some_iff.mp submitted
  refine .inr ⟨mid, tip, topped, ?_⟩
  dsimp only at submitted
  split at submitted
  · cases submitted
  · cases submitted
    exact .inl rfl
  · rename_i next admitted
    cases submitted
    exact .inr ⟨next, admitted, rfl, rfl⟩

theorem queued_of_submit (submitted : pool.submit crypto state ctx tx = some (pool', answer)) :
    ∀ other ∈ pool'.queued, other ∈ pool.queued ∨
      other = tx ∧ ∃ top next, tryAdmit crypto state top ctx tx = .ok next := by
  intro other among
  obtain rfl | ⟨mid, tip, topped, rest⟩ := submit_cases submitted
  · exact .inl among
  obtain ⟨-, kept⟩ := queued_of_tipOver topped
  obtain rfl | ⟨next, admitted, queued, -⟩ := rest
  · exact .inl (kept other among)
  rw [queued] at among
  rcases List.mem_append.mp among with among | among
  · exact .inl (kept other among)
  · exact .inr ⟨List.mem_singleton.mp among, tip.state, next, admitted⟩

/-- Offering a transaction leaves the queue one that leads to the tip. -/
theorem Leads.submit (leads : pool.Leads crypto admits state) (admission : Admission crypto ctx state property admits)
    (all : ∀ tx ∈ pool.queued, property tx) (new : property tx)
    (submitted : pool.submit crypto state ctx tx = some (pool', answer)) : pool'.Leads crypto admits state := by
  obtain rfl | ⟨mid, tip, topped, rest⟩ := submit_cases submitted
  · exact leads
  have kept := leads.tipOver admission all topped
  obtain rfl | ⟨next, admitted, queued, top⟩ := rest
  · exact kept
  obtain ⟨t, ran, agrees⟩ := kept
  obtain ⟨t', last, agrees'⟩ := admission tx new _ t next
    (agrees tip.state (by rw [(queued_of_tipOver topped).1]; rfl)) admitted
  refine ⟨t', ?_, fun tip' same => ?_⟩
  · rw [queued]
    exact Run.append_iff.mpr ⟨t, ran, Run.singleton_iff.mpr last⟩
  · obtain rfl : next = tip' := by simpa [top] using same
    exact agrees'

theorem admission_charges : Admission crypto ctx state (Charges crypto ctx.keyless ctx.feeRecipient)
    (Admits crypto ctx.keyless ctx.feeRecipient ctx.baseFee) := by
  intro tx charges top t next agrees admitted
  obtain ⟨base, off, _, executed⟩ := executes_of_tryAdmit admitted
  exact admits_of_executes charges (off.trans agrees) executed

theorem Follows.submit (follows : pool.Follows crypto ctx.keyless ctx.feeRecipient ctx.baseFee state)
    (charges : Charges crypto ctx.keyless ctx.feeRecipient tx)
    (submitted : pool.submit crypto state ctx tx = some (pool', answer)) :
    pool'.Follows crypto ctx.keyless ctx.feeRecipient ctx.baseFee state := by
  have queued := queued_of_submit submitted
  refine ⟨fun other among => ?_, fun some' => ?_,
    Leads.submit follows.leads admission_charges follows.charges charges submitted⟩
  · rcases queued other among with old | ⟨rfl, -⟩
    · exact follows.charges other old
    · exact charges
  · obtain ⟨other, among⟩ := List.exists_mem_of_ne_nil _ some'
    rcases queued other among with old | ⟨rfl, top, next, admitted⟩
    · exact follows.market (List.ne_nil_of_mem old)
    · obtain ⟨base, _, same, executed⟩ := executes_of_tryAdmit admitted
      rw [← same]
      exact market_of_executes charges executed

theorem Follows.rebase (follows : pool.Follows crypto keyless recipient fee state) (empty : pool.queued = []) :
    pool.Follows crypto keyless recipient fee' state := by
  obtain ⟨t, ran, agrees⟩ := follows.leads
  refine ⟨follows.charges, follows.market, t, ?_, agrees⟩
  rw [empty] at ran ⊢
  exact ran

end Mempool

namespace Sequencer

/-- The time a call judges by. -/
def timeOf (s : Sequencer) (call : U64 × Call) : U64 :=
  match call.2 with
  | .submit _ => s.admissionTime call.1
  | .produce _ => s.nextTimestamp call.1

/-- The market asks for `fee` at the call's time. What it submits leaves the terms of
the market alone, and what it may seal has not expired. -/
structure Steady (crypto : Crypto) (s : Sequencer) (call : U64 × Call) (fee : U128) : Prop where
  fee : (s.feeMarket crypto).baseFeeAt (s.timeOf call) = .ok fee
  terms : ∀ tx, call.2 = .submit tx → KeepsTerms tx
  live : ∀ limit, call.2 = .produce limit → ∀ tx ∈ s.mempool.queued, Live (s.nextTimestamp call.1) tx

/-- A call at the base fee of the call before it, or at another while nothing is queued. -/
def SteadyCalls (crypto : Crypto) (s : Sequencer × U128) (call : U64 × Call) (s' : Sequencer × U128) : Prop :=
  Calls crypto s.1 call s'.1 ∧ Steady crypto s.1 call s'.2 ∧ (s.1.mempool.queued = [] ∨ s'.2 = s.2)

/-- The slots that transactions offered in some calls name, at any time and base fee. -/
def slotsOfCalls (crypto : Crypto) (keyless : Option KeylessConfig) (recipient : L2Address) (calls : List (U64 × Call)) :
    Set Slot :=
  {s | ∃ clock tx, (clock, Call.submit tx) ∈ calls ∧ ∃ timestamp baseFee p,
    compile crypto tx ⟨timestamp, keyless, baseFee, recipient⟩ = .ok p ∧ ∃ i ∈ p, i.on = s}

section
variable (crypto : Crypto) (keyless : Option KeylessConfig) (recipient : L2Address)

/-- The queue can be sealed at `fee`, and the chain takes assertions. -/
structure Follows (s : Sequencer) (fee : U128) : Prop where
  setup : s.keyless = keyless
  payee : s.feeRecipient = recipient
  asserts : s.Asserts
  queue : s.mempool.Follows crypto keyless recipient fee s.state

end

variable {crypto : Crypto} {keyless : Option KeylessConfig} {recipient : L2Address} {s s' : Sequencer} {fee : U128}

theorem baseFeeAt_eq_ok {m : FeeMarket} (asked : m.baseFeeAt timestamp = .ok fee) :
    ∃ rolled, m.atTimestamp timestamp = .ok rolled ∧ rolled.baseFee = fee := by
  simpa only [FeeMarket.baseFeeAt, bind_eq_ok, pure_iff] using asked

theorem batchContext_eq (asked : (s.feeMarket crypto).baseFeeAt timestamp = .ok fee) :
    s.batchContext crypto timestamp = ⟨timestamp, s.keyless, fee, s.feeRecipient⟩ := by
  rw [batchContext, asked]
  rfl

theorem feeMarket_eq (decoded : decodeFeeMarket (s.state.get (Keys.feeMarket crypto)) = .ok m) :
    s.feeMarket crypto = m := by
  unfold feeMarket
  cases held : s.state.get (Keys.feeMarket crypto) with
  | none =>
    rw [held] at decoded
    cases decoded
    rfl
  | some b =>
    rw [held] at decoded
    simp [mapError_eq_ok.mp decoded, Except.toOption]

theorem roomy_of_take (decoded : ∃ m, decodeFeeMarket (s.state.get (Keys.feeMarket crypto)) = .ok m)
    (asked : (s.feeMarket crypto).baseFeeAt timestamp = .ok fee) (some' : taken ≠ [])
    (took : s.take crypto timestamp limit = some (pool, taken)) :
    Roomy crypto s.state timestamp fee ((taken.map (Mempool.need crypto)).sum + 0) := by
  obtain ⟨m, decoded⟩ := decoded
  obtain ⟨rolled, rolls, same⟩ := baseFeeAt_eq_ok asked
  have here : s.window crypto timestamp = rolled := by
    rw [window, rolls]
    rfl
  have within := (take_spec took).2.1
  rw [here] at within
  have needed : 0 < (taken.map (Mempool.need crypto)).sum := by
    obtain ⟨tx, rest, rfl⟩ := List.exists_cons_of_ne_nil some'
    have := need_pos crypto tx
    rw [List.map_cons, List.sum_cons]
    omega
  exact ⟨m, rolled, decoded, feeMarket_eq decoded ▸ rolls, same, by omega⟩

/-- In a sequencer that follows its queue, what is taken executes as it was taken. -/
theorem Follows.executes (follows : s.Follows crypto keyless recipient fee)
    (steady : s.Steady crypto (clock, .produce limit) fee)
    (took : s.take crypto (s.nextTimestamp clock) limit = some (pool, taken)) :
    s.compiling crypto clock taken = taken ∧
      (taken ≠ [] → ∃ next, Run (Executes crypto) s.state
        (taken.map (s.batchContext crypto (s.nextTimestamp clock), ·)) next ∧
        pool.Follows crypto keyless recipient fee next) := by
  have split := (take_spec took).1
  have asked : (s.feeMarket crypto).baseFeeAt (s.nextTimestamp clock) = .ok fee := steady.fee
  have ctx : s.batchContext crypto (s.nextTimestamp clock) = ⟨s.nextTimestamp clock, keyless, fee, recipient⟩ := by
    rw [batchContext_eq asked, follows.setup, follows.payee]
  obtain ⟨charges, market, t, ran, agrees⟩ := follows.queue
  rw [split] at charges ran
  obtain ⟨mid, front, back⟩ := Run.append_iff.mp ran
  have runs : taken ≠ [] → ∃ next, Run (Executes crypto) s.state
      (taken.map (s.batchContext crypto (s.nextTimestamp clock), ·)) next ∧
        pool.Follows crypto keyless recipient fee next := by
    intro some'
    have queued : s.mempool.queued ≠ [] := by simp [split, some']
    have live : ∀ tx ∈ taken, Live (s.nextTimestamp clock) tx := fun tx among =>
      steady.live limit rfl tx (split ▸ List.mem_append_left _ among)
    rw [ctx]
    obtain ⟨next, executed, same, m, _, decoded, _⟩ := run_executes_of_admits
      (fun tx among => charges tx (List.mem_append_left _ among)) live (.refl s.state) front
      (roomy_of_take (market queued) asked some' took)
    obtain ⟨t', back', agrees'⟩ := back.simulate (MerkleTrie.AgreesOff (Keys.feeMarket crypto))
      (fun _ tx _ _ among same admitted => admits_agree (charges tx (List.mem_append_right _ among)) same admitted)
      same.symm
    refine ⟨next, executed, fun tx among => charges tx (List.mem_append_right _ among), fun _ => ⟨m, decoded⟩, t', back',
      fun tip top => ?_⟩
    rw [(take_spec took).2.2] at top
    exact (agrees tip top).trans agrees'
  refine ⟨?_, runs⟩
  by_cases none' : taken = []
  · rw [none']
    rfl
  · obtain ⟨next, executed, _⟩ := runs none'
    exact filter_of_run executed

/-- The chain takes assertions on the new head. -/
theorem Asserts.extended (asserts : s.Asserts) (ctx : BatchContext) (txs : List Transaction) (next : MerkleTrie)
    (trace : ExecutionTrace) : (s.extended crypto next (s.block ctx txs next trace)).Asserts := by
  obtain ⟨_, _, _, _, bonded⟩ := asserts
  refine ⟨⟨s.assertion crypto (s.block ctx txs next trace), .pending, s.chain.now, 0⟩, ?_, nofun, rfl, bonded⟩
  exact (SortedMap.get_insert _ _).trans (if_pos rfl)

section
variable (follows : s.Follows crypto keyless recipient fee)
include follows

theorem Follows.produce
    (steady : s.Steady crypto (clock, .produce limit) fee) (returned : s.produce crypto clock limit = some (s', result)) :
    s'.Follows crypto keyless recipient fee ∧ ∀ e, result ≠ .error (.execution e) := by
  obtain ⟨pool, taken, took, produced⟩ := produce_spec returned
  obtain ⟨all, runs⟩ := follows.executes steady took
  cases produced with
  | idle nothing =>
    rw [all] at nothing
    subst nothing
    refine ⟨⟨follows.setup, follows.payee, follows.asserts, ?_⟩, nofun⟩
    obtain ⟨split, _, top⟩ := take_spec took
    obtain ⟨charges, market, t, ran, agrees⟩ := follows.queue
    rw [split] at charges market ran
    exact ⟨charges, market, t, ran, fun tip here => agrees tip (top ▸ here)⟩
  | stuck something stops e =>
    rw [all] at something stops
    obtain ⟨next, ran, _⟩ := runs something
    exact absurd ran (stops next)
  | refused something refuses e => exact absurd follows.asserts refuses
  | appends something next trace executed asserts block shaped =>
    subst shaped
    rw [all] at something
    obtain ⟨next', ran, kept⟩ := runs something
    obtain ⟨trace', executed'⟩ := (executeBatch_iff _ _).mpr ran
    rw [all, executed'] at executed
    cases executed
    exact ⟨⟨follows.setup, follows.payee, asserts.extended _ _ _ _, kept⟩, nofun⟩

theorem Follows.submit
    (charges : Charges crypto keyless recipient tx) (steady : s.Steady crypto (clock, .submit tx) fee)
    (returned : s.submit crypto clock tx = some (s', answer)) : s'.Follows crypto keyless recipient fee := by
  obtain ⟨⟨pool, _⟩, submitted, same⟩ := Option.bind_eq_some_iff.mp returned
  cases same
  have asked : (s.feeMarket crypto).baseFeeAt (s.admissionTime clock) = .ok fee := steady.fee
  rw [batchContext_eq asked, follows.setup, follows.payee] at submitted
  exact ⟨follows.setup, follows.payee, follows.asserts, Mempool.Follows.submit follows.queue charges submitted⟩

theorem Follows.rebase (same : s.mempool.queued = [] ∨ fee' = fee) : s.Follows crypto keyless recipient fee' := by
  rcases same with empty | rfl
  · exact ⟨follows.setup, follows.payee, follows.asserts, follows.queue.rebase empty⟩
  · exact follows

end

section
variable {state : MerkleTrie} {window : U64} {minimumBond bond : U128} {identity : U32} {limits : List (U32 × U32)}

theorem follows_start (bonded : minimumBond.val ≤ bond.val) :
    (start crypto state window minimumBond identity bond keyless recipient limits).Follows crypto keyless recipient fee := by
  refine ⟨rfl, rfl, ⟨_, if_pos rfl, nofun, rfl, bonded⟩, nofun, fun some' => absurd rfl some', state, rfl, nofun⟩

/-- A sequencer whose base fee stands still while transactions are queued seals every
batch: what was admitted executes. -/
theorem admitted_transactions_seal (bonded : minimumBond.val ≤ bond.val)
    (free : CollisionFree crypto.sha256
      (Slot.image '' (slotsOfCalls crypto keyless recipient calls ∪ {.feeMarket})))
    (ran : Run (SteadyCalls crypto)
      (start crypto state window minimumBond identity bond keyless recipient limits, fee₀) calls (s, fee))
    (steady : s.Steady crypto (clock, .produce limit) fee') (same : s.mempool.queued = [] ∨ fee' = fee)
    (returned : s.produce crypto clock limit = some (s', result)) : ∀ e, result ≠ .error (.execution e) := by
  have apart := Slot.apart_of_free free fun slot named => by
    rcases named with ⟨_, tx, _, timestamp, baseFee, p, compiled, i, emitted, rfl⟩ | rfl
    · exact Instruction.on_fits (fits_of_compile compiled i emitted)
    · trivial
  have follows : s.Follows crypto keyless recipient fee := by
    refine ran.invariant (fun s => s.1.Follows crypto keyless recipient s.2) ?_ (follows_start bonded)
    rintro ⟨s, fee⟩ ⟨clock, call⟩ ⟨s', fee'⟩ among follows ⟨called, steady, same⟩
    have follows := follows.rebase same
    cases call with
    | submit tx =>
      obtain ⟨⟨_, answer⟩, returned, rfl⟩ := Option.map_eq_some_iff.mp called
      refine follows.submit ⟨fun timestamp baseFee p compiled i emitted off here => ?_, steady.terms tx rfl⟩ steady
        returned
      exact off (apart (.inl ⟨clock, tx, among, timestamp, baseFee, p, compiled, i, emitted, rfl⟩) (.inr rfl) here)
    | produce limit =>
      obtain ⟨⟨_, result⟩, returned, rfl⟩ := Option.map_eq_some_iff.mp called
      exact (follows.produce steady returned).1
  exact ((follows.rebase same).produce steady returned).2

end

end Sequencer

namespace Devnet

open Sequencer

/-- The payment names few slots, whenever it compiles. -/
theorem slots_of_payment (named : slot ∈ slotsOfCalls crypto none sequencer [(1700000000, .submit payment)]) :
    slot ∈ slots := by
  obtain ⟨_, tx, listed, timestamp, baseFee, p, compiled, i, emitted, rfl⟩ := named
  obtain ⟨rfl, rfl⟩ : _ ∧ tx = payment := by simpa using listed
  obtain ⟨_, _, payload, _, charge, shaped, _, _, rfl⟩ := compile_eq_ok.mp compiled
  have paid : compilePayload crypto payment.payload payment.sender =
      .ok [.debit alice 1 1000, .credit bob 1 1000] := by decide
  cases paid.symm.trans shaped
  have signed : payment.authenticator = .ed25519 alice transferSignature := rfl
  simp only [program, signed, List.nil_append, List.mem_append, List.mem_cons, List.not_mem_nil, or_false] at emitted
  obtain (((((rfl | rfl | rfl | rfl) | rfl | rfl) | credited) | credited) | credited) := emitted
  · simp [Instruction.on, slots, payment, transaction]
  · simp [Instruction.on, slots, payment, transaction]
  · simp [Instruction.on, slots]
  · simp [Instruction.on, slots, payment, transaction]
  · simp [Instruction.on, slots]
  · simp [Instruction.on, slots]
  · simp [on_creditSome credited, slots, payment, transaction]
  · simp [on_creditSome credited, slots]
  · simp [on_creditSome credited, slots]

/-- The devnet's node seals the payment it admitted. -/
theorem admitted_payment_is_sealed : ∃ s' result,
    Run (SteadyCalls crypto) (node genesis, 25000000000) [(1700000000, .submit payment)] (loaded, 25000000000) ∧
      loaded.produce crypto 1700000000 10 = some (s', result) ∧
      (∀ e, result ≠ .error (.execution e)) ∧ sealedIn result = [payment] := by
  have admission : ((node genesis).feeMarket crypto).baseFeeAt ((node genesis).admissionTime 1700000000) =
      .ok 25000000000 := by
    apply Move.toOption_eq_some.mp
    decide +kernel
  have sealing : (loaded.feeMarket crypto).baseFeeAt (loaded.nextTimestamp 1700000000) = .ok 25000000000 := by
    apply Move.toOption_eq_some.mp
    decide +kernel
  have queued : loaded.mempool.queued = [payment] := by
    decide +kernel
  have ran : Run (SteadyCalls crypto) (node genesis, 25000000000) [(1700000000, .submit payment)]
      (loaded, 25000000000) := by
    have steady : (node genesis).Steady crypto (1700000000, .submit payment) 25000000000 := by
      refine ⟨admission, ?_, by simp⟩
      rintro _ ⟨rfl⟩ _ _ _ ⟨⟩
    refine Run.singleton_iff.mpr ?_
    simp only [SteadyCalls]
    exact ⟨call_loaded, steady, .inr trivial⟩
  have steady : loaded.Steady crypto (1700000000, .produce 10) 25000000000 := by
    refine ⟨sealing, by simp, fun _ _ tx among sig signed => ?_⟩
    rw [queued, List.mem_singleton] at among
    subst among
    cases signed
  obtain ⟨s', block, id, returned, alone⟩ := produce_loaded
  have holds := admitted_transactions_seal (Nat.le_refl _) (free_of_slots (by
    rintro slot (named | rfl)
    · exact slots_of_payment named
    · simp [slots])) ran steady (.inr rfl) returned
  exact ⟨s', _, ran, returned, holds, alone⟩

/-- Two transactions are admitted together and only the first fits the window. It fills
the window beyond its target, the base fee rises, and the second cannot pay. -/
theorem fee_rise_fails_sealing : ∃ genesis s s' e, tight.buildState crypto hashing = .ok genesis ∧
    Run (Calls crypto) (node genesis) arrivals s ∧
    s.produce crypto 1700000001 10 = some (s', .error (.execution e)) := by
  obtain ⟨⟨s, s', _⟩, held, -, -, -, rfl⟩ := pressed_fails
  obtain ⟨genesis, built, ran, produced⟩ := run_of_pressed held
  exact ⟨genesis, s, s', _, built, ran, produced⟩

end Devnet
end Sena
