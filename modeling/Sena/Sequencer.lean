import Sena.AssertionChain
import Sena.Batch
import Sena.Execute

/-! The sequencer: what it admits to its queue, and how it seals a block of it.

The queue keeps the state after everything in it, the tip, and checks a candidate
against that alone. A call reads the clock once, so its reading is an argument.
A result of `none` is an aborted process: an account's encoder ran out of counts,
or the share of an asset overflowed. -/
namespace Sena

open Execute (BatchContext BatchError ExecutionTrace executeBatch)

/-- The gas a transaction uses. -/
def Execute.gasRequired (crypto : Crypto) (tx : Transaction) : Except CompileError U64 := do
  let payload ← compilePayload crypto tx.payload tx.sender
  Except.mapError .gas (gasUsed tx payload)

inductive RejectReason where
  | duplicate
  | full
  | wouldNotExecute (reason : BatchError)
  | nonceQueued (nonce : U64)
deriving DecidableEq

/-- The state after the queue, and the root before each queued transaction. -/
structure Tip where
  roots : List Hash256
  state : MerkleTrie

/-- `Mempool`: the queue, its indexes, and the state behind the last admitted transaction. -/
structure Mempool where
  /-- In the order of arrival. -/
  queued : List Transaction
  hashes : List Hash256
  tip : Option Tip
  /-- Nonces of queued transactions, by sender. -/
  claimed : List (L2Address × List U64)
  capacity : Nat

namespace Mempool

/-- `Mempool::new`. -/
def new (capacity : Nat) : Mempool := ⟨[], [], none, [], capacity⟩

section
variable (crypto : Crypto)

/-- Executes a transaction on top of `tip`, charging its gas against the window of
the canonical state. -/
def tryAdmit (base tip : MerkleTrie) (ctx : BatchContext) (tx : Transaction) : Except BatchError MerkleTrie := do
  let slot := Keys.feeMarket crypto
  let market := (base.get slot).getD (FeeMarket.genesis Gas.DEFAULT_BASE_FEE_FLOOR Gas.DEFAULT_GAS_TARGET).encode
  let next := if tip.get slot = some market then tip else tip.insert crypto slot market
  return (← executeBatch crypto next ctx [tx]).1

/-- Admits the queue anew, dropping what no longer executes. -/
def rebuild (state : MerkleTrie) (ctx : BatchContext) : List Transaction → Tip → Option (List Transaction × Tip)
  | [], tip => some ([], tip)
  | tx :: rest, tip =>
    match tryAdmit crypto state tip.state ctx tx with
    | .ok next => do
      let (kept, tip) ← rebuild state ctx rest ⟨tip.roots ++ [next.root], next⟩
      return (tx :: kept, tip)
    | .error .panicked => none
    | .error _ => rebuild state ctx rest tip

def claim (claimed : List (L2Address × List U64)) (tx : Transaction) : List (L2Address × List U64) :=
  SortedMap.insert Hash256.rank tx.sender ((SortedMap.get Hash256.rank tx.sender claimed).getD [] ++ [tx.nonce])
    claimed

variable (pool : Mempool)

/-- The hash and nonce indexes, rebuilt from the queue. -/
def reindex : Mempool :=
  { pool with
    hashes := pool.queued.foldl (fun hashes tx => hashes.insert (tx.hash crypto)) []
    claimed := pool.queued.foldl claim [] }

/-- The tip over `state`, rebuilt if the queue does not build on `state`. -/
def tipOver (state : MerkleTrie) (ctx : BatchContext) : Option (Mempool × Tip) :=
  match pool.tip.filter fun tip =>
      tip.roots.head? = some state.root ∧ tip.roots.length = pool.queued.length + 1 with
  | some tip => some (pool, tip)
  | none => do
    let (kept, tip) ← rebuild crypto state ctx pool.queued ⟨[state.root], state⟩
    return (reindex crypto { pool with queued := kept, tip := some tip }, tip)

/-- `Mempool::submit`: admits a transaction that executes behind everything queued. -/
def submit (state : MerkleTrie) (ctx : BatchContext) (tx : Transaction) :
    Option (Mempool × Except RejectReason Hash256) :=
  if pool.queued.length ≥ pool.capacity then some (pool, .error .full)
  else if tx.hash crypto ∈ pool.hashes then some (pool, .error .duplicate)
  else if ((SortedMap.get Hash256.rank tx.sender pool.claimed).getD []).contains tx.nonce then
    some (pool, .error (.nonceQueued tx.nonce))
  else do
    -- checked after everything queued: it may spend what is already spoken for
    let (pool, tip) ← tipOver crypto pool state ctx
    match tryAdmit crypto state tip.state ctx tx with
    | .error .panicked => none
    | .error reason => some (pool, .error (.wouldNotExecute reason))
    | .ok speculative =>
      some ({ pool with
        tip := some ⟨tip.roots ++ [speculative.root], speculative⟩
        hashes := pool.hashes.insert (tx.hash crypto)
        claimed := claim pool.claimed tx
        queued := pool.queued ++ [tx] }, .ok (tx.hash crypto))

/-- A taken transaction, out of the indexes. -/
def unindex (tx : Transaction) : Mempool :=
  { pool with
    hashes := pool.hashes.erase (tx.hash crypto)
    claimed := match SortedMap.get Hash256.rank tx.sender pool.claimed with
      | some nonces => SortedMap.insert Hash256.rank tx.sender (nonces.filter (· ≠ tx.nonce)) pool.claimed
      | none => pool.claimed }

/-- How many transactions from the first on have encodings of at most `maxBytes`
together, and one at least. A size saturates. -/
def countWithin (maxBytes : Nat) : List Transaction → (count size : Nat) → Nat
  | [], count, _ => count
  | tx :: rest, count, size =>
    if count > 0 ∧ min (size + tx.encode.length) (2 ^ 64 - 1) > maxBytes then count
    else countWithin maxBytes rest (count + 1) (min (size + tx.encode.length) (2 ^ 64 - 1))

/-- `Mempool::take_batch_within`. -/
def takeBatchWithin (limit maxBytes : Nat) : Mempool × List Transaction :=
  let count := countWithin maxBytes (pool.queued.take limit) 0 0
  let taken := pool.queued.take count
  let pool := taken.foldl (unindex crypto)
    { pool with
      queued := pool.queued.drop count
      -- the queue now builds on the state after what was taken
      tip := pool.tip.map fun tip => { tip with roots := tip.roots.drop count } }
  ({ pool with claimed := pool.claimed.filter fun e => e.2 ≠ [] }, taken)

/-- Removes up to `limit` transactions. -/
def takeBatch (limit : Nat) : Mempool × List Transaction :=
  takeBatchWithin crypto pool limit (2 ^ 64 - 1)

/-- What a transaction counts against a window; one without a program fits none. -/
def need (tx : Transaction) : Nat := ((Execute.gasRequired crypto tx).toOption.map (·.val)).getD (2 ^ 64 - 1)

/-- How many transactions from the first on fit into the gas budget, with those that
pay in each asset below the asset's cap. Stops at the first that does not fit. -/
def countFitting (gasBudget : Nat) (assetCap : U32 → Option Nat) :
    List Transaction → (gas : Nat) → (perAsset : List (U32 × Nat)) → Option Nat
  | [], _, _ => some 0
  | tx :: rest, gas, perAsset =>
    let assetGas := (SortedMap.get Fin.val tx.feeAsset perAsset).getD 0
    if gas + need crypto tx < 2 ^ 64 ∧ gas + need crypto tx ≤ gasBudget ∧ assetGas + need crypto tx < 2 ^ 64 then do
      let cap ← assetCap tx.feeAsset
      if assetGas + need crypto tx ≤ cap then
        let fitting ← countFitting gasBudget assetCap rest (gas + need crypto tx)
          (SortedMap.insert Fin.val tx.feeAsset (assetGas + need crypto tx) perAsset)
        return fitting + 1
      else some 0
    else some 0

/-- Removes the longest prefix of the queue that fits. -/
def takeBatchFitting (limit maxBytes gasBudget : Nat) (assetCap : U32 → Option Nat) :
    Option (Mempool × List Transaction) := do
  let fitting ← countFitting crypto gasBudget assetCap (pool.queued.take limit) 0 []
  return takeBatchWithin crypto pool fitting maxBytes

end

/-- Drops every queued transaction. -/
def clear (pool : Mempool) : Mempool := { pool with queued := [], hashes := [], tip := none, claimed := [] }

end Mempool

structure Block where
  height : Nat
  timestamp : U64
  baseFee : U128
  feeRecipient : L2Address
  /-- In the order they were executed: the published batch. -/
  transactions : List Transaction
  preStateRoot : Hash256
  postStateRoot : Hash256
  trace : ExecutionTrace
deriving DecidableEq

/-- The commitment to the block's batch, as the assertion over it carries it. -/
def Block.batchCommitment (crypto : Crypto) (block : Block) : Hash256 :=
  let starts := block.trace.txStarts.map (Fin.ofNat (2 ^ 64))
  let tree := Batch.BatchTree.build crypto (starts.zip (block.transactions.map (·.encode)))
  Batch.headerCommitment crypto block.timestamp block.baseFee block.feeRecipient tree.txCount tree.root

inductive ProduceError where
  | execution (error : BatchError)
  | assertion (error : Fraudproof.ChainError)
deriving DecidableEq

/-- `Sequencer`: the canonical state, the queue, the blocks and the chain they are posted to. -/
structure Sequencer where
  state : MerkleTrie
  mempool : Mempool
  blocks : List Block
  chain : Fraudproof.AssertionChain
  identity : U32
  bond : U128
  assertions : List Hash256
  head : Hash256
  keyless : Option KeylessConfig
  feeRecipient : L2Address
  /-- The share of a window's gas each fee asset may use, in permille. -/
  feeAssetLimits : List (U32 × U32)

namespace Sequencer

/-- Seconds by which admission looks ahead of the clock. -/
def ADMISSION_EXPIRY_MARGIN_SECS : Nat := 60

def MAX_BATCH_BYTES : Nat := 48 * 1024

section
variable (crypto : Crypto)

/-- A sequencer over a state, posting to a chain anchored at its root. -/
def start (state : MerkleTrie) (challengeWindow : U64) (minimumBond : U128) (identity : U32) (bond : U128)
    (keyless : Option KeylessConfig) (feeRecipient : L2Address) (feeAssetLimits : List (U32 × U32)) : Sequencer :=
  let chain := Fraudproof.AssertionChain.new crypto state.root challengeWindow minimumBond
  { state := state
    mempool := Mempool.new 4096
    blocks := []
    chain := chain
    identity := identity
    bond := bond
    assertions := []
    head := chain.latestFinalized.getD Hash256.zero
    keyless := keyless
    feeRecipient := feeRecipient
    feeAssetLimits := feeAssetLimits }

variable (s : Sequencer)

/-- The fee market as the state holds it; absent, the genesis market. -/
def feeMarket : FeeMarket :=
  ((s.state.get (Keys.feeMarket crypto)).bind fun b => (FeeMarket.decode b).toOption).getD
    (FeeMarket.genesis Gas.DEFAULT_BASE_FEE_FLOOR Gas.DEFAULT_GAS_TARGET)

/-- `Sequencer::batch_context`. -/
def batchContext (timestamp : U64) : BatchContext where
  timestamp := timestamp
  keyless := s.keyless
  baseFee := ((s.feeMarket crypto).baseFeeAt timestamp).toOption.getD (s.feeMarket crypto).baseFee
  feeRecipient := s.feeRecipient

/-- The clock, but never before the previous batch. -/
def nextTimestamp (clock : U64) : U64 :=
  max clock ((s.blocks.getLast?.map (·.timestamp)).getD 0)

/-- The time admission judges by. -/
def admissionTime (clock : U64) : U64 :=
  ⟨min ((s.nextTimestamp clock).val + ADMISSION_EXPIRY_MARGIN_SECS) (2 ^ 64 - 1), by omega⟩

/-- `Sequencer::submit`. -/
def submit (clock : U64) (tx : Transaction) : Option (Sequencer × Except RejectReason Hash256) := do
  let (pool, answer) ← s.mempool.submit crypto s.state (s.batchContext crypto (s.admissionTime clock)) tx
  return ({ s with mempool := pool }, answer)

/-- The market in the batch's window. -/
def window (timestamp : U64) : FeeMarket :=
  ((s.feeMarket crypto).atTimestamp timestamp).toOption.getD (s.feeMarket crypto)

/-- The gas of a window that may pay in an asset. -/
def assetCap (window : FeeMarket) (asset : U32) : Option Nat :=
  match SortedMap.get Fin.val asset s.feeAssetLimits with
  | none => some window.windowLimit
  | some permille =>
    let cap := window.windowLimit / 1000 * permille.val
    if cap < 2 ^ 64 then some cap else none

/-- The batch of up to `limit` transactions the queue has for a window. -/
def take (timestamp : U64) (limit : Nat) : Option (Mempool × List Transaction) :=
  let window := s.window crypto timestamp
  s.mempool.takeBatchFitting crypto limit MAX_BATCH_BYTES (window.windowLimit - window.windowGas.val)
    (s.assetCap window)

/-- Executes a batch, dropping what does not compile until the rest executes. The
fuel is the number of transactions. -/
def sealBatch (state : MerkleTrie) (ctx : BatchContext) : (fuel : Nat) → List Transaction →
    Except BatchError (Option (List Transaction × MerkleTrie × ExecutionTrace))
  | 0, _ => .ok none
  | fuel + 1, txs =>
    match executeBatch crypto state ctx txs with
    | .ok (next, trace) => .ok (some (txs, next, trace))
    | .error (.compile index _) =>
      if (txs.eraseIdx index).isEmpty then .ok none else sealBatch state ctx fuel (txs.eraseIdx index)
    | .error error => .error error

def block (ctx : BatchContext) (txs : List Transaction) (next : MerkleTrie) (trace : ExecutionTrace) : Block where
  height := s.blocks.length + 1
  timestamp := ctx.timestamp
  baseFee := ctx.baseFee
  feeRecipient := ctx.feeRecipient
  transactions := txs
  preStateRoot := s.state.root
  postStateRoot := next.root
  trace := trace

/-- The claim a block is covered by. -/
def assertion (block : Block) : Fraudproof.Assertion where
  parent := s.head
  proposer := s.identity
  preStateRoot := block.preStateRoot
  postStateRoot := block.postStateRoot
  batchCommitment := block.batchCommitment crypto
  traceLength := block.trace.instructions.length
  bond := s.bond

/-- Seals a block of up to `limit` queued transactions and posts an assertion over it. -/
def produce (clock : U64) (limit : Nat) : Option (Sequencer × Except ProduceError (Option (Block × Hash256))) := do
  let timestamp := s.nextTimestamp clock
  let (pool, taken) ← s.take crypto timestamp limit
  let after := { s with mempool := pool }
  if taken.isEmpty then return (after, .ok none)
  let ctx := s.batchContext crypto timestamp
  match sealBatch crypto s.state ctx taken.length taken with
  | .error .panicked => none
  | .error error => return (after, .error (.execution error))
  | .ok none => return (after, .ok none)
  | .ok (some (txs, next, trace)) =>
    let block := s.block ctx txs next trace
    match s.chain.post crypto (s.assertion crypto block) with
    | .error error => return (after, .error (.assertion error))
    | .ok (chain, id) =>
      return ({ after with
        state := next
        head := id
        chain := chain
        blocks := s.blocks ++ [block]
        assertions := s.assertions ++ [id] }, .ok (some (block, id)))

end
end Sequencer
end Sena
