import Mathlib.Logic.Function.Basic
import Sena.BatchProofs

/-! The bonded assertion chain: who claimed what, who challenged it, and the
bonds in escrow behind both.

`Chain` is the module's resource together with what its calls leave elsewhere on
L1: the balances of the bonded asset and the published batches. The asset is code
outside the package: a transfer that goes through moves the amount named, and
whether it goes through is for the balances and for the asset's own controls, which
are a parameter. -/
namespace Sena

/-- An L1 account. -/
abbrev Address := FixedBytes 32

namespace Assertions

open Move

def E_UNKNOWN_ASSERTION : Nat := 31
def E_UNKNOWN_PARENT : Nat := 32
def E_PARENT_REJECTED : Nat := 33
def E_BROKEN_CHAIN : Nat := 34
def E_BOND_TOO_SMALL : Nat := 35
def E_WRONG_STATUS : Nat := 36
def E_WINDOW_OPEN : Nat := 37
def E_PARENT_NOT_FINAL : Nat := 38
def E_BOND_TOO_LARGE : Nat := 60
def E_NO_SUCH_CHALLENGE : Nat := 61
def E_ALREADY_CHALLENGING : Nat := 62
def E_SELF_CHALLENGE : Nat := 63
def E_TIMESTAMP_REGRESSES : Nat := 64
def E_TIMESTAMP_IN_FUTURE : Nat := 65
def E_BATCH_TOO_OLD : Nat := 66
def E_BAD_BATCH_DATA : Nat := 67

def SLASH_REWARD_PERCENT : U128 := 50
def CHALLENGE_WINDOW_FLOOR : U64 := 86400
def MAX_FUTURE_DRIFT_SECS : U64 := 60
def MIN_MAX_BATCH_AGE_SECS : U64 := 600
def MAX_MAX_BATCH_AGE_SECS : U64 := 86400

inductive Status
  | pending | challenged | finalized | rejected
deriving DecidableEq, Repr

/-- The number a view returns for a status. -/
def Status.code : Status → UInt8
  | .pending => 0
  | .challenged => 1
  | .finalized => 2
  | .rejected => 3

/-- The batch data behind an assertion, as its event publishes it. -/
structure BatchPublished where
  assertion : Bytes
  timestamp : U64
  baseFee : U128
  feeRecipient : Bytes
  txBytes : List Bytes
  txStarts : List U64
deriving DecidableEq

structure Challenge where
  challenger : Address
  bond : U128
deriving DecidableEq

structure Assertion where
  parent : Bytes
  proposer : Address
  preStateRoot : Bytes
  postStateRoot : Bytes
  batchCommitment : Bytes
  timestamp : U64
  baseFee : U128
  feeRecipient : Bytes
  txCount : Nat
  txRoot : Bytes
  traceLength : U64
  bond : U128
  postedAt : U64
  status : Status
  openChallenges : U64
deriving DecidableEq

/-- `Chain`: the assertions by id, the bonds in escrow and the limits, with the wallets beside them. -/
structure Chain where
  assertions : Bytes → Option Assertion
  /-- Open challenges per assertion, with the bond each carries. -/
  challenges : Bytes → Option (List Challenge)
  /-- Ids in posting order. -/
  order : List Bytes
  latestFinalized : Bytes
  challengeWindow : U64
  minimumBond : U128
  treasury : Address
  maxBatchAge : U64
  /-- The balance of the store bonds are held in. -/
  escrow : Nat
  /-- The accounts' own balances of the bonded asset. -/
  wallets : Address → Nat
  /-- Whether the asset's dispatch functions and frozen stores let an amount through
  to or from an account. -/
  permits : Address → Nat → Bool
  /-- The events emitted so far, oldest first. -/
  published : List BatchPublished

/-- The asset refuses no transfer that the balances cover. -/
def Chain.Unblocked (c : Chain) : Prop := ∀ who amount, c.permits who amount = true

/-- `table::borrow` behind its `table::contains` check. -/
def fetch {κ : Type} (table : κ → Option α) (id : κ) (abort : Abort) : Move α :=
  match table id with
  | some entry => .ok entry
  | none => .error abort

/-- `assertion_id`, as the node computes it. -/
def assertionId (crypto : Crypto) (parent : Bytes) (proposerTag : U64)
    (preStateRoot postStateRoot batchCommitment : Bytes) (traceLength : U64) (bond : U128) :
    Move Bytes :=
  Codec.digest crypto .assertion [parent, be 8 proposerTag.val, preStateRoot, postStateRoot,
    batchCommitment, be 8 traceLength.val, be 16 bond.val]

/-- The window is clamped to its floor, the batch age to its bounds. -/
def clampWindow (window : U64) : U64 :=
  if window.val < CHALLENGE_WINDOW_FLOOR.val then CHALLENGE_WINDOW_FLOOR else window

/-- The batch age that `initialize` keeps to its bounds. -/
def clampBatchAge (age : U64) : U64 :=
  if age.val < MIN_MAX_BATCH_AGE_SECS.val then MIN_MAX_BATCH_AGE_SECS
  else if MAX_MAX_BATCH_AGE_SECS.val < age.val then MAX_MAX_BATCH_AGE_SECS
  else age

def genesis (admin : Address) (genesisRoot : Bytes) : Assertion where
  parent := TrieVerifier.zero
  proposer := admin
  preStateRoot := TrieVerifier.zero
  postStateRoot := genesisRoot
  batchCommitment := TrieVerifier.zero
  timestamp := 0
  baseFee := 0
  feeRecipient := TrieVerifier.zero
  txCount := 0
  txRoot := TrieVerifier.zero
  traceLength := 0
  bond := 0
  postedAt := 0
  status := .finalized
  openChallenges := 0

/-- `assertions::initialize`. `wallets` are the balances the accounts hold when the
chain is created, `permits` are the controls of the asset it is created for. -/
def initializeChain (crypto : Crypto) (admin : Address) (genesisRoot : Bytes) (challengeWindow : U64)
    (minimumBond : U128) (treasury : Address) (maxBatchAge : U64) (wallets : Address → Nat)
    (permits : Address → Nat → Bool) : Move Chain := do
  let zero := TrieVerifier.zero
  let id ← assertionId crypto zero 0 zero genesisRoot zero 0 0
  return {
    assertions := Function.update (fun _ => none) id (some (genesis admin genesisRoot))
    challenges := fun _ => none
    order := [id]
    latestFinalized := id
    challengeWindow := clampWindow challengeWindow
    minimumBond := minimumBond
    treasury := treasury
    maxBatchAge := clampBatchAge maxBatchAge
    escrow := 0
    wallets := wallets
    permits := permits
    published := [] }

variable (c : Chain)

/-- `take_bond`: moves a bond into escrow. -/
def takeBond (payer : Address) (amount : U128) : Move Chain := do
  ensure (amount.val ≤ 18446744073709551615) (.code .assertions E_BOND_TOO_LARGE)
  ensure (amount.val ≤ c.wallets payer ∧ c.permits payer amount.val = true) .transfer
  return { c with
    wallets := Function.update c.wallets payer (c.wallets payer - amount.val)
    escrow := c.escrow + amount.val }

/-- `pay_from_escrow`. -/
def payFromEscrow (recipient : Address) (amount : U128) : Move Chain :=
  if amount.val = 0 then .ok c
  else do
    let amount ← checked 64 amount.val
    ensure (amount.val ≤ c.escrow ∧ c.permits recipient amount.val = true) .transfer
    return { c with
      escrow := c.escrow - amount.val
      wallets := Function.update c.wallets recipient (c.wallets recipient + amount.val) }

/-- Splits a forfeited bond between the winner and the treasury. -/
def distributeSlashed (winner : Address) (bond : U128) : Move Chain := do
  let scaled ← mul bond SLASH_REWARD_PERCENT
  let reward ← checked 128 (scaled.val / 100)
  let c ← payFromEscrow c winner reward
  let rest ← sub bond reward
  payFromEscrow c c.treasury rest

/-- `refund_challenges`: pays back what is staked on an assertion. -/
def refundChallenges (id : Bytes) : Move Chain :=
  match c.challenges id with
  | none => .ok c
  | some list =>
    list.foldlM (fun c challenge => payFromEscrow c challenge.challenger challenge.bond)
      { c with challenges := Function.update c.challenges id (some []) }

/-- What a proposer passes to `post`. -/
structure Posting where
  parent : Bytes
  preStateRoot : Bytes
  postStateRoot : Bytes
  timestamp : U64
  baseFee : U128
  feeRecipient : Bytes
  txBytes : List Bytes
  txStarts : List U64
  traceLength : U64
  bond : U128
deriving DecidableEq

/-- The longest sequence BCS encodes. A call's arguments reach the contract in
that encoding. -/
def BCS_MAX_SEQUENCE : Nat := 2 ^ 31 - 1

/-- The published batch can be encoded as an argument. -/
def Posting.Encodable (args : Posting) : Prop := args.txBytes.length ≤ BCS_MAX_SEQUENCE

instance (args : Posting) : Decidable args.Encodable := inferInstanceAs (Decidable (_ ≤ _))

/-- Start positions increase from one transaction to the next. -/
def startsAscend : List U64 → Move Unit
  | first :: second :: rest => do
    ensure (second.val > first.val) (.code .assertions E_BAD_BATCH_DATA)
    startsAscend (second :: rest)
  | _ => .ok ()

/-- `check_batch_shape`: one start for each transaction, ascending inside the trace. -/
def checkBatchShape (txStarts : List U64) (txCount : Nat) (traceLength : U64)
    (preStateRoot postStateRoot : Bytes) : Move Unit := do
  ensure (txStarts.length = txCount) (.code .assertions E_BAD_BATCH_DATA)
  if txCount = 0 then
    ensure (traceLength.val = 0 ∧ preStateRoot = postStateRoot) (.code .assertions E_BAD_BATCH_DATA)
  else
    let first ← borrow txStarts 0
    ensure (first.val = 0) (.code .assertions E_BAD_BATCH_DATA)
    startsAscend txStarts
    let last ← borrow txStarts (txCount - 1)
    ensure (traceLength.val > last.val) (.code .assertions E_BAD_BATCH_DATA)

/-- The record a posting leaves, once the batch root over its data is known. -/
def Posting.record (args : Posting) (proposer : Address) (now : U64)
    (txRoot batchCommitment : Bytes) : Assertion where
  parent := args.parent
  proposer := proposer
  preStateRoot := args.preStateRoot
  postStateRoot := args.postStateRoot
  batchCommitment := batchCommitment
  timestamp := args.timestamp
  baseFee := args.baseFee
  feeRecipient := args.feeRecipient
  txCount := args.txBytes.length
  txRoot := txRoot
  traceLength := args.traceLength
  bond := args.bond
  postedAt := now
  status := .pending
  openChallenges := 0

def Posting.event (args : Posting) (id : Bytes) : BatchPublished :=
  ⟨id, args.timestamp, args.baseFee, args.feeRecipient, args.txBytes, args.txStarts⟩

/-- The checks `post` makes on its arguments, the parent's record and the clock. -/
def checkPosting (now : U64) (args : Posting) : Move Unit := do
  ensure (args.feeRecipient.length = 32) (.code .assertions E_BAD_BATCH_DATA)
  checkBatchShape args.txStarts args.txBytes.length args.traceLength args.preStateRoot
    args.postStateRoot
  let parentRecord ← fetch c.assertions args.parent (.code .assertions E_UNKNOWN_PARENT)
  ensure (parentRecord.status ≠ .rejected) (.code .assertions E_PARENT_REJECTED)
  ensure (parentRecord.postStateRoot = args.preStateRoot) (.code .assertions E_BROKEN_CHAIN)
  ensure (args.bond.val ≥ c.minimumBond.val) (.code .assertions E_BOND_TOO_SMALL)
  ensure (args.timestamp.val ≥ parentRecord.timestamp.val) (.code .assertions E_TIMESTAMP_REGRESSES)
  let latest ← add now MAX_FUTURE_DRIFT_SECS
  ensure (args.timestamp.val ≤ latest.val) (.code .assertions E_TIMESTAMP_IN_FUTURE)
  let stale ← add args.timestamp c.maxBatchAge
  ensure (now.val ≤ stale.val) (.code .assertions E_BATCH_TOO_OLD)

/-- `post`: asserts a batch on its parent's state, under a bond. -/
def post (crypto : Crypto) (c : Chain) (now : U64) (proposer : Address) (args : Posting) : Move Chain := do
  checkPosting c now args
  let txRoot ← BatchVerifier.rootOf crypto args.txBytes args.txStarts
  let batchCommitment ← BatchVerifier.headerCommitment crypto args.timestamp args.baseFee
    args.feeRecipient args.txBytes.length txRoot
  let id ← assertionId crypto args.parent 0 args.preStateRoot args.postStateRoot batchCommitment
    args.traceLength args.bond
  let c ← takeBond c proposer args.bond
  -- `table::add` refuses a key already present
  ensure ((c.assertions id).isNone) .table
  return { c with
    assertions := Function.update c.assertions id
      (some (args.record proposer now txRoot batchCommitment))
    order := c.order ++ [id]
    published := c.published ++ [args.event id] }

/-- `has_open_challenge`. -/
def hasOpenChallenge (id : Bytes) (who : Address) : Bool :=
  match c.challenges id with
  | none => false
  | some list => list.any (·.challenger = who)

/-- `open_challenge`: one bonded challenge for each account, not the proposer's own. -/
def openChallenge (challenger : Address) (id : Bytes) (bond : U128) : Move Chain := do
  let record ← fetch c.assertions id (.code .assertions E_UNKNOWN_ASSERTION)
  ensure (bond.val ≥ c.minimumBond.val) (.code .assertions E_BOND_TOO_SMALL)
  ensure (challenger ≠ record.proposer) (.code .assertions E_SELF_CHALLENGE)
  ensure (hasOpenChallenge c id challenger = false) (.code .assertions E_ALREADY_CHALLENGING)
  let c ← takeBond c challenger bond
  ensure (record.status = .pending ∨ record.status = .challenged) (.code .assertions E_WRONG_STATUS)
  let openChallenges ← add record.openChallenges 1
  return { c with
    assertions := Function.update c.assertions id
      (some { record with status := .challenged, openChallenges })
    challenges := Function.update c.challenges id
      (some ((c.challenges id).getD [] ++ [⟨challenger, bond⟩])) }

/-- Removes a challenge, returning the bond it carried. -/
def takeChallenge (id : Bytes) (who : Address) : Move (U128 × Chain) := do
  let list ← fetch c.challenges id (.code .assertions E_NO_SUCH_CHALLENGE)
  match list.find? (·.challenger = who) with
  | none => .error (.code .assertions E_NO_SUCH_CHALLENGE)
  | some challenge =>
    return (challenge.bond, { c with
      challenges := Function.update c.challenges id (some (list.eraseP (·.challenger = who))) })

/-- A challenge resolved in the proposer's favour. The assertion is pending again
once every challenge against it has resolved. -/
def defenderWon (id : Bytes) (loser : Address) : Move Chain := do
  let record ← fetch c.assertions id (.code .assertions E_UNKNOWN_ASSERTION)
  let taken ← takeChallenge c id loser
  let c := taken.2
  ensure (record.status = .challenged) (.code .assertions E_WRONG_STATUS)
  let openChallenges ← sub record.openChallenges 1
  let status := if openChallenges.val = 0 then Status.pending else record.status
  let c := { c with
    assertions := Function.update c.assertions id (some { record with status, openChallenges }) }
  distributeSlashed c record.proposer taken.1

/-- Marks an assertion rejected, with no challenge open. -/
def reject (id : Bytes) (record : Assertion) : Chain :=
  { c with
    assertions := Function.update c.assertions id
      (some { record with status := .rejected, openChallenges := 0 }) }

/-- Whether an id names a rejected assertion. -/
def isRejected (id : Bytes) : Bool :=
  match c.assertions id with
  | none => false
  | some record => record.status = .rejected

/-- One turn of the sweep: a live assertion whose parent is rejected is rejected
too, its bond goes to the treasury and its challengers are refunded. -/
def sweep (candidate : Bytes) : Move Chain := do
  let record ← fetch c.assertions candidate .table
  if record.status ≠ .rejected ∧ record.status ≠ .finalized ∧ isRejected c record.parent = true then
    let c := reject c candidate record
    let c ← payFromEscrow c c.treasury record.bond
    refundChallenges c candidate
  else .ok c

/-- Rejects an assertion and every assertion built on it. The sweep walks the
posting order once; a child stands after its parent in it. -/
def challengerWon (id : Bytes) (winner : Address) : Move Chain := do
  let record ← fetch c.assertions id (.code .assertions E_UNKNOWN_ASSERTION)
  let taken ← takeChallenge c id winner
  let c := taken.2
  ensure (record.status = .challenged) (.code .assertions E_WRONG_STATUS)
  let c := reject c id record
  let c ← payFromEscrow c winner taken.1
  let c ← distributeSlashed c winner record.bond
  let c ← refundChallenges c id
  c.order.foldlM sweep c

/-- `finalize`: returns the bond once the window is over and the parent is final. -/
def finalize (now : U64) (id : Bytes) : Move Chain := do
  let record ← fetch c.assertions id (.code .assertions E_UNKNOWN_ASSERTION)
  ensure (record.status = .pending) (.code .assertions E_WRONG_STATUS)
  let parent ← fetch c.assertions record.parent (.code .assertions E_UNKNOWN_PARENT)
  ensure (parent.status = .finalized) (.code .assertions E_PARENT_NOT_FINAL)
  let elapsed ← sub now record.postedAt
  ensure (elapsed.val ≥ c.challengeWindow.val) (.code .assertions E_WINDOW_OPEN)
  let c := { c with
    assertions := Function.update c.assertions id (some { record with status := .finalized })
    latestFinalized := id }
  payFromEscrow c record.proposer record.bond

/-- What `dispute_view` and `fee_header` return of an assertion is read from its
record. -/
def disputeView (id : Bytes) : Move Assertion :=
  fetch c.assertions id (.code .assertions E_UNKNOWN_ASSERTION)

/-- `assertion_at`. -/
def assertionAt (index : Nat) : Move Bytes := borrow c.order index

/-- `challengers`. -/
def challengers (id : Bytes) : List Address :=
  match c.challenges id with
  | none => []
  | some list => list.map (·.challenger)

/-- The post-state root of an assertion, if it has finalized. -/
def finalizedRoot (id : Bytes) : Move Bytes := do
  let record ← fetch c.assertions id (.code .assertions E_UNKNOWN_ASSERTION)
  ensure (record.status = .finalized) (.code .assertions E_WRONG_STATUS)
  return record.postStateRoot

end Assertions
end Sena
