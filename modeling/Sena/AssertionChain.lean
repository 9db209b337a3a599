import Mathlib.Order.Fin.Basic
import Sena.Trie

/-! The node's own copy of the assertion chain.

It has no bonds in escrow and no list of challengers: a record counts the challenges
open against it. Posting an assertion writes its record whatever stood there. -/
namespace Sena

namespace Fraudproof

/-- A claim about the result of executing one batch. -/
structure Assertion where
  parent : Hash256
  proposer : U32
  preStateRoot : Hash256
  postStateRoot : Hash256
  batchCommitment : Hash256
  traceLength : Nat
  bond : U128
deriving DecidableEq

/-- `Assertion::id`. -/
def Assertion.id (crypto : Crypto) (a : Assertion) : Hash256 :=
  crypto.commit .assertion [a.parent.bytes, be 8 a.proposer.val, a.preStateRoot.bytes, a.postStateRoot.bytes,
    a.batchCommitment.bytes, be 8 a.traceLength, be 16 a.bond.val]

inductive Status where
  | pending
  | challenged
  | finalized
  | rejected
deriving DecidableEq

structure Record where
  assertion : Assertion
  status : Status
  postedAt : U64
  openChallenges : U32
deriving DecidableEq

inductive ChainError where
  | unknownAssertion
  | unknownParent
  | parentRejected
  | brokenChain (got expected : Hash256)
  | bondTooSmall (offered required : U128)
  | wrongStatus (status : Status)
  | windowOpen (remaining : Nat)
  | timeWentBackwards
deriving DecidableEq

structure AssertionChain where
  records : List (Hash256 × Record)
  latestFinalized : Option Hash256
  challengeWindow : U64
  minimumBond : U128
  now : U64
deriving DecidableEq

namespace AssertionChain

def CHALLENGE_WINDOW_FLOOR : U64 := 86400

/-- A chain anchored at a root, whose window is never below the floor. -/
def new (crypto : Crypto) (genesisRoot : Hash256) (challengeWindow : U64) (minimumBond : U128) : AssertionChain :=
  let genesis : Assertion := ⟨Hash256.zero, 0, Hash256.zero, genesisRoot, Hash256.zero, 0, 0⟩
  { records := [(genesis.id crypto, ⟨genesis, .finalized, 0, 0⟩)]
    latestFinalized := some (genesis.id crypto)
    challengeWindow := max challengeWindow CHALLENGE_WINDOW_FLOOR
    minimumBond := minimumBond
    now := 0 }

variable (chain : AssertionChain)

/-- `AssertionChain::get`. -/
def get (id : Hash256) : Option Record :=
  SortedMap.get Hash256.rank id chain.records

/-- `AssertionChain::post`: a bonded assertion on a parent that is not rejected. -/
def post (crypto : Crypto) (chain : AssertionChain) (assertion : Assertion) :
    Except ChainError (AssertionChain × Hash256) :=
  match chain.get assertion.parent with
  | none => .error .unknownParent
  | some parent =>
    if parent.status = .rejected then .error .parentRejected
    else if parent.assertion.postStateRoot ≠ assertion.preStateRoot then
      .error (.brokenChain assertion.preStateRoot parent.assertion.postStateRoot)
    else if assertion.bond.val < chain.minimumBond.val then
      .error (.bondTooSmall assertion.bond chain.minimumBond)
    else
      let id := assertion.id crypto
      .ok ({ chain with
        records := SortedMap.insert Hash256.rank id ⟨assertion, .pending, chain.now, 0⟩ chain.records }, id)

/-- `AssertionChain::status`. -/
def status (id : Hash256) : Option Status := (chain.get id).map (·.status)

/-- `AssertionChain::advance_to`: the clock does not go back. -/
def advanceTo (time : U64) : Except ChainError AssertionChain :=
  if time.val < chain.now.val then .error .timeWentBackwards else .ok { chain with now := time }

/-- Writes to a record that is there. -/
def write (id : Hash256) (record : Record) : AssertionChain :=
  { chain with records := SortedMap.insert Hash256.rank id record chain.records }

/-- `AssertionChain::open_challenge`. -/
def openChallenge (id : Hash256) : Except ChainError AssertionChain :=
  match chain.get id with
  | none => .error .unknownAssertion
  | some record =>
    match record.status with
    | .pending | .challenged =>
      .ok (chain.write id { record with
        status := .challenged
        openChallenges := ⟨min (record.openChallenges.val + 1) (2 ^ 32 - 1), by omega⟩ })
    | status => .error (.wrongStatus status)

/-- The assertion is pending again once every challenge against it has resolved. -/
def defenderWon (id : Hash256) : Except ChainError AssertionChain :=
  match chain.get id with
  | none => .error .unknownAssertion
  | some record =>
    if record.status ≠ .challenged then .error (.wrongStatus record.status)
    else
      let left : U32 := ⟨record.openChallenges.val - 1, by omega⟩
      .ok (chain.write id { record with
        status := if left.val = 0 then .pending else record.status
        openChallenges := left })

/-- What the search for the descendants of a rejected assertion holds. The frontier is
a stack, its top first. -/
structure Search where
  records : List (Hash256 × Record)
  frontier : List Hash256
  rejected : List Hash256

/-- Rejects the assertion on top of the stack, and pushes its children in its place. -/
def Search.pop (s : Search) (current : Hash256) (rest : List Hash256) : Search :=
  let records := match SortedMap.get Hash256.rank current s.records with
    | none => s.records
    | some record =>
      SortedMap.insert Hash256.rank current { record with status := .rejected, openChallenges := 0 } s.records
  let rejected := match SortedMap.get Hash256.rank current s.records with
    | none => s.rejected
    | some _ => s.rejected ++ [current]
  let children := (records.filter fun e => e.2.assertion.parent = current ∧ e.2.status ≠ .rejected).map (·.1)
  ⟨records, children.reverse ++ rest, rejected⟩

/-- The loop of the search, for at most `fuel` turns. -/
def Search.run : (fuel : Nat) → Search → Search
  | 0, s => s
  | fuel + 1, s =>
    match s.frontier with
    | [] => s
    | current :: rest => (s.pop current rest).run fuel

/-- Rejects a challenged assertion and every assertion built on it. No more turns are
made than there are records. -/
def challengerWon (id : Hash256) : Except ChainError (AssertionChain × List Hash256) :=
  match chain.get id with
  | none => .error .unknownAssertion
  | some record =>
    if record.status ≠ .challenged then .error (.wrongStatus record.status)
    else
      let search := Search.run chain.records.length ⟨chain.records, [id], []⟩
      .ok ({ chain with records := search.records }, search.rejected)

/-- `AssertionChain::finalize`: after its window, unchallenged, on a final parent. -/
def finalize (id : Hash256) : Except ChainError AssertionChain :=
  match chain.get id with
  | none => .error .unknownAssertion
  | some record =>
    if record.status ≠ .pending then .error (.wrongStatus record.status)
    else
      let parent := chain.status record.assertion.parent
      if parent ≠ some .finalized then .error (.wrongStatus (parent.getD .rejected))
      else
        let elapsed := chain.now.val - record.postedAt.val
        if elapsed < chain.challengeWindow.val then .error (.windowOpen (chain.challengeWindow.val - elapsed))
        else .ok { chain.write id { record with status := .finalized } with latestFinalized := some id }

/-- The record of the assertion finalized last. -/
def latestFinalizedRecord : Option Record := chain.latestFinalized.bind chain.get

end AssertionChain

/-- The chain as it is written to disk. -/
structure ChainSnapshot where
  records : List Record
  latestFinalized : Option Hash256
  challengeWindow : U64
  minimumBond : U128
  now : U64
deriving DecidableEq

namespace AssertionChain

/-- `AssertionChain::snapshot`. -/
def snapshot (chain : AssertionChain) : ChainSnapshot where
  records := chain.records.map (·.2)
  latestFinalized := chain.latestFinalized
  challengeWindow := chain.challengeWindow
  minimumBond := chain.minimumBond
  now := chain.now

/-- Every record goes under its own id, and the window is clamped again: the file may
have been edited. -/
def restore (crypto : Crypto) (snapshot : ChainSnapshot) : AssertionChain where
  records := snapshot.records.foldl (fun records record =>
    SortedMap.insert Hash256.rank (record.assertion.id crypto) record records) []
  latestFinalized := snapshot.latestFinalized
  challengeWindow := max snapshot.challengeWindow CHALLENGE_WINDOW_FLOOR
  minimumBond := snapshot.minimumBond
  now := snapshot.now

end AssertionChain
end Fraudproof

end Sena
