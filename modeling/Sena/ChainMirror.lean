import Sena.AssertionChainProofs
import Sena.Lifecycle

/-! The node's assertion chain beside the contract's.

What the contract accepts the node's chain accepts, and both give every assertion the
same id and status. A challenger's win is the one call they compute differently: the
contract walks the posting order once and skips what is final, the node searches the
tree and does not look at finality. Both reject exactly the descendants. -/
namespace Sena.Assertions

open Move Relation

variable {c c' : Chain} {key x : Bytes} {r record : Assertion}

/-- The record of a rejected assertion. -/
def Assertion.fallen (r : Assertion) : Assertion := { r with status := .rejected, openChallenges := 0 }

theorem Rejected.records (rejected : Rejected c key record c') : c'.assertions =
    Function.update c.assertions key (some record.fallen) := by
  obtain ⟨_, _, _, _, _, _, rfl⟩ := rejected
  rfl

theorem records_of_rejections (rejections : ReflTransGen Rejection c c') (found : c.assertions x = some r) :
    c'.assertions x = some r ∨ c'.assertions x = some r.fallen := by
  induction rejections with
  | refl => exact .inl found
  | tail _ last ih =>
    obtain ⟨key, record, rejected⟩ := last
    rw [rejected.records]
    by_cases here : x = key
    · subst here
      obtain rfl | rfl : record = r ∨ record = r.fallen := by simpa [rejected.1] using ih
      · exact .inr (by simp)
      · exact .inr (by simp [Assertion.fallen])
    · simpa [here] using ih

/-- What `c'` has rejected more than `c` are descendants of `key`. -/
def FallsWith (c : Chain) (key : Bytes) (c' : Chain) : Prop :=
  ∀ x r r', c.assertions x = some r → r.status ≠ .rejected → c'.assertions x = some r' → r'.status = .rejected →
    ReflTransGen c.Links key x

section
variable {middle : Chain} (ordered : Ordered c) (closed : Closed c) (falls : FallsWith c key middle)
  (earlier : ReflTransGen Rejection c middle)
include ordered closed falls earlier

theorem fallsWith_of_sweep (known : (c.assertions candidate).isSome)
    (swept : sweep middle candidate = .ok c') : FallsWith c key c' ∧ ReflTransGen Rejection c c' := by
  obtain ⟨record, recordAt, ⟨rfl, _⟩ | ⟨orphan, rejected, _⟩⟩ := rejected_of_sweep swept
  · exact ⟨falls, earlier⟩
  · refine ⟨fun x r r' found standing found' down => ?_, earlier.tail ⟨candidate, record, rejected⟩⟩
    have written := rejected.records
    by_cases here : x = candidate
    · subst here
      -- it was live, so it stands after its parent, and that is newly rejected
      have same : record.parent = r.parent ∧ (r.status = .pending ∨ r.status = .challenged) := by
        rcases records_of_rejections earlier found with same | same
        · obtain rfl : record = r := by simpa [recordAt] using same
          exact ⟨rfl, rejected.2.1⟩
        · obtain rfl : record = r.fallen := by simpa [recordAt] using same
          rcases rejected.2.1 with live | live <;> cases live
      obtain ⟨n, listed⟩ := List.getElem?_of_mem ((ordered.listed x).mpr known)
      cases n with
      | zero =>
        obtain ⟨first, g, at0, there, final⟩ := ordered.first
        obtain rfl : first = x := by simpa [listed] using at0.symm
        obtain rfl : g = r := by simpa [found] using there.symm
        rcases same.2 with live | live <;> simp [live] at final
      | succ i =>
        obtain ⟨_, p, _, _, parentAt, _⟩ := ordered.parents i x r listed found
        obtain ⟨p', parentAt', fallen⟩ := isRejected_iff.mp orphan
        have upright : p.status ≠ .rejected := fun before =>
          standing (closed i x r listed found (isRejected_iff.mpr ⟨p, parentAt, before⟩))
        exact (falls r.parent p p' parentAt upright (same.1 ▸ parentAt') fallen).tail ⟨r, found, rfl⟩
    · rw [written, Function.update_of_ne here] at found'
      exact falls x r r' found standing found' down

theorem fallsWith_of_sweeps {candidates : List Bytes}
    (known : ∀ x ∈ candidates, (c.assertions x).isSome) (swept : candidates.foldlM sweep middle = .ok c') :
    FallsWith c key c' := by
  induction candidates generalizing middle with
  | nil => exact Except.ok.inj swept ▸ falls
  | cons candidate rest ih =>
    rw [List.foldlM_cons, bind_eq_ok] at swept
    obtain ⟨next, first, others⟩ := swept
    obtain ⟨falls, earlier⟩ :=
      fallsWith_of_sweep ordered closed falls earlier (known candidate List.mem_cons_self) first
    exact ih falls earlier (fun x inside => known x (List.mem_cons_of_mem _ inside)) others

end

theorem parameters_of_rejections (rejections : ReflTransGen Rejection c c') :
    c'.challengeWindow = c.challengeWindow ∧ c'.minimumBond = c.minimumBond := by
  induction rejections with
  | refl => exact ⟨rfl, rfl⟩
  | tail _ last ih =>
    obtain ⟨_, _, _, _, _, _, _, _, rfl⟩ := last
    exact ih

/-- Genesis is built on nothing that has a record. -/
def Rootless (c : Chain) : Prop :=
  ∀ first r, c.order[0]? = some first → c.assertions first = some r → c.assertions r.parent = none

theorem Books.fallen_eq (books : Books c) (found : c.assertions x = some r) (down : r.status = .rejected) :
    r.fallen = r := by
  have none' : c.openOn x = [] := by
    have contested := books.contested x r found
    by_contra some'
    have := contested.mpr some'
    simp [down] at this
  have zero : r.openChallenges = 0 := by
    apply Fin.ext
    rw [books.counted x r found, none']
    rfl
  simp only [Assertion.fallen]
  rw [← down, ← zero]

theorem listed_of_links (ordered : Ordered c) (rootless : Rootless c)
    (known : (c.assertions parent).isSome) (found : c.assertions x = some r) (links : r.parent = parent) :
    ∃ i : Nat, c.order[i + 1]? = some x := by
  obtain ⟨n, listed⟩ := List.getElem?_of_mem ((ordered.listed x).mpr (by simp [found]))
  cases n with
  | zero =>
    have nothing := rootless x r listed found
    simp [← links, nothing] at known
  | succ i => exact ⟨i, listed⟩

/-- What a challenger's win leaves of each record. -/
theorem records_of_challengerWon (ordered : Ordered c) (books : Books c) (closed : Closed c) (rootless : Rootless c)
    (accepted : challengerWon c key winner = .ok c') (found : c.assertions x = some r) :
    (ReflTransGen c.Links key x → c'.assertions x = some r.fallen) ∧
      (¬ReflTransGen c.Links key x → c'.assertions x = some r) := by
  have closed' := closed_of_challengerWon ordered accepted
  have rejections := rejections_of_challengerWon accepted
  have order := L1.order_of_rejections rejections
  obtain ⟨record, c₁, _, rejected, _, _, _, swept⟩ := rejected_of_challengerWon accepted
  -- the assertion itself falls first
  have first : FallsWith c key c₁ := by
    intro x r r' found standing found' down
    rw [rejected.records] at found'
    by_cases here : x = key
    · exact here ▸ .refl
    · rw [Function.update_of_ne here] at found'
      obtain rfl : r = r' := by simpa [found] using found'
      exact absurd down standing
  have start : ReflTransGen Rejection c c₁ := .single ⟨key, record, rejected⟩
  have listed : ∀ x ∈ c₁.order, (c.assertions x).isSome := by
    intro x inside
    rw [rejected.order] at inside
    exact (ordered.listed x).mp inside
  have falls := fallsWith_of_sweeps ordered closed first start listed swept
  have keyed : (c.assertions key).isSome := by simp [rejected.1]
  have down : ∀ x, ReflTransGen c.Links key x → ∀ r, c.assertions x = some r → c'.assertions x = some r.fallen := by
    intro x descends
    induction descends with
    | refl =>
      intro r found
      obtain rfl : record = r := by simpa [rejected.1] using found
      have here : c₁.assertions key = some record.fallen := by simp [rejected.records]
      rcases records_of_rejections (rejections_of_sweeps swept) here with same | same
      · exact same
      · exact same
    | @tail y z before link ih =>
      intro r found
      obtain ⟨r', found', links⟩ := link
      obtain rfl : r = r' := by simpa [found] using found'
      have recorded : ∃ p, c.assertions y = some p := by
        cases before with
        | refl => exact ⟨record, rejected.1⟩
        | tail _ last =>
          obtain ⟨p, known, _⟩ := last
          exact ⟨p, known⟩
      obtain ⟨p, known⟩ := recorded
      obtain ⟨i, listed⟩ := listed_of_links ordered rootless (by simp [known]) found links
      have fallen : isRejected c' r.parent = true := isRejected_iff.mpr ⟨p.fallen, links ▸ ih p known, rfl⟩
      rcases records_of_rejections rejections found with same | same
      · have settled := closed' i z r (order ▸ listed) same fallen
        rw [same, books.fallen_eq found settled]
      · exact same
  refine ⟨fun descends => down x descends r found, fun apart => ?_⟩
  rcases records_of_rejections rejections found with same | same
  · exact same
  · by_cases before : r.status = .rejected
    · rw [same, books.fallen_eq found before]
    · exact absurd (falls x r r.fallen found before same rfl) apart

end Sena.Assertions

namespace Sena.Fraudproof

open Move Relation
open Assertions (Chain Posting Posted Sound Closed Ordered Books Rootless BCS_MAX_SEQUENCE)

/-- A call on the contract's chain that was accepted, an outcome of a dispute, or the
passing of time. -/
inductive ChainMove where
  | post (proposer : Address) (args : Posting)
  | openChallenge (challenger : Address) (id : Bytes) (bond : U128)
  | defenderWon (id : Bytes) (loser : Address)
  | challengerWon (id : Bytes) (winner : Address)
  | finalize (id : Bytes)
  | tick (now : U64)

/-- The chain and the clock after a move. -/
def ChainMove.onL1 (crypto : Crypto) (now : U64) (c : Chain) : ChainMove → Move (U64 × Chain)
  | .post proposer args => do return (now, ← Assertions.post crypto c now proposer args)
  | .openChallenge challenger id bond => do return (now, ← Assertions.openChallenge c challenger id bond)
  | .defenderWon id loser => do return (now, ← Assertions.defenderWon c id loser)
  | .challengerWon id winner => do return (now, ← Assertions.challengerWon c id winner)
  | .finalize id => do return (now, ← Assertions.finalize c now id)
  | .tick later => if now.val ≤ later.val then .ok (later, c) else .error (.code .assertions 0)

/-- The roots a posting names are digests, and its batch is an argument L1 can pass. -/
def ChainMove.Sized : ChainMove → Prop
  | .post _ args => args.Encodable ∧ args.preStateRoot.length = 32 ∧ args.postStateRoot.length = 32
  | _ => True

/-- L1 stores the open challenges of an assertion as one sequence, which its encoding
bounds; and no id is the digest of nothing, which genesis names as its parent. -/
structure Storable (c : Chain) : Prop where
  challenges : ∀ key, (c.openOn key).length ≤ BCS_MAX_SEQUENCE
  rootless : c.assertions TrieVerifier.zero = none

/-- A move that L1 accepts and stores. -/
def MovesOnL1 (crypto : Crypto) (s : U64 × Chain) (m : ChainMove) (s' : U64 × Chain) : Prop :=
  m.Sized ∧ m.onL1 crypto s.1 s.2 = .ok s' ∧ Storable s'.2

/-- The claim of a posting as the node states it: proposer 0, and the commitment to the
batch that L1 computes. -/
def claimOf (crypto : Crypto) (args : Posting) : Option Assertion := do
  let parent ← FixedBytes.ofBytes? 32 args.parent
  let preStateRoot ← FixedBytes.ofBytes? 32 args.preStateRoot
  let postStateRoot ← FixedBytes.ofBytes? 32 args.postStateRoot
  let txRoot ← (BatchVerifier.rootOf crypto args.txBytes args.txStarts).toOption
  let commitment ← (BatchVerifier.headerCommitment crypto args.timestamp args.baseFee args.feeRecipient
    args.txBytes.length txRoot).toOption
  let batchCommitment ← FixedBytes.ofBytes? 32 commitment
  return ⟨parent, 0, preStateRoot, postStateRoot, batchCommitment, args.traceLength.val, args.bond⟩

/-- The node's call for a move. -/
def ChainMove.mirror (crypto : Crypto) : ChainMove → Option AssertionChain.Call
  | .post _ args => (claimOf crypto args).map .post
  | .openChallenge _ id _ => (FixedBytes.ofBytes? 32 id).map .openChallenge
  | .defenderWon id _ => (FixedBytes.ofBytes? 32 id).map .defenderWon
  | .challengerWon id _ => (FixedBytes.ofBytes? 32 id).map .challengerWon
  | .finalize id => (FixedBytes.ofBytes? 32 id).map .finalize
  | .tick now => some (.advanceTo now)

/-- The node makes its call for a move, and it is accepted. -/
def MirrorsMove (crypto : Crypto) (chain : AssertionChain) (m : ChainMove) (chain' : AssertionChain) : Prop :=
  ∃ call, m.mirror crypto = some call ∧ chain.call crypto call = .ok chain'

/-- The node's status for a status on L1. -/
def Status.ofL1 : Assertions.Status → Status
  | .pending => .pending
  | .challenged => .challenged
  | .finalized => .finalized
  | .rejected => .rejected

@[simp] theorem Status.ofL1_inj : Status.ofL1 a = Status.ofL1 b ↔ a = b := by
  cases a <;> cases b <;> decide

/-- Two records of one assertion. -/
structure Agrees (r : Assertions.Assertion) (record : Record) : Prop where
  parent : r.parent = record.assertion.parent.bytes
  postStateRoot : r.postStateRoot = record.assertion.postStateRoot.bytes
  status : record.status = Status.ofL1 r.status
  postedAt : record.postedAt = r.postedAt
  openChallenges : record.openChallenges.val = r.openChallenges.val

/-- The chains have the same parameters and records of the same assertions. -/
structure Mirrored (crypto : Crypto) (s : U64 × Chain) (chain : AssertionChain) : Prop where
  now : chain.now = s.1
  window : chain.challengeWindow = s.2.challengeWindow
  bond : chain.minimumBond = s.2.minimumBond
  sorted : SortedMap.Sorted Hash256.rank chain.records
  known : ∀ key r, s.2.assertions key = some r → ∃ id : Hash256, id.bytes = key
  records : ∀ id : Hash256, Option.Rel Agrees (s.2.assertions id.bytes) (chain.get id)
  named : ∀ id record, chain.get id = some record → record.assertion.id crypto = id

/-- What a run of the contract's chain keeps besides. -/
structure Upright (crypto : Crypto) (c : Chain) : Prop where
  sound : Sound crypto c
  closed : Closed c
  storable : Storable c
  genesis : ∀ first r, c.order[0]? = some first → c.assertions first = some r → r.parent = TrieVerifier.zero

variable {crypto : Crypto} {now : U64} {c c' : Chain} {chain : AssertionChain} {id : Hash256} {key : Bytes}
  {r : Assertions.Assertion} {record : Record}

theorem Upright.rootless (upright : Upright crypto c) : Rootless c := by
  intro first r listed found
  rw [upright.genesis first r listed found]
  exact upright.storable.rootless

theorem Mirrored.find (mirrored : Mirrored crypto (now, c) chain) (found : c.assertions id.bytes = some r) :
    ∃ record, chain.get id = some record ∧ Agrees r record := by
  have related := mirrored.records id
  simp only [found] at related
  cases at' : chain.get id with
  | none =>
    rw [at'] at related
    cases related
  | some record =>
    rw [at'] at related
    cases related with
    | some agrees => exact ⟨record, rfl, agrees⟩

/-- Both sides write the record of one assertion. -/
theorem Mirrored.write {writes : Record} (mirrored : Mirrored crypto (now, c) chain)
    (wrote : c'.assertions = Function.update c.assertions id.bytes (some written))
    (window : c'.challengeWindow = c.challengeWindow) (bond : c'.minimumBond = c.minimumBond)
    (agrees : Agrees written writes) (named : writes.assertion.id crypto = id) :
    Mirrored crypto (now, c') (chain.write id writes) := by
  refine ⟨mirrored.now, mirrored.window.trans window.symm, mirrored.bond.trans bond.symm,
    AssertionChain.sorted_write mirrored.sorted _ _, fun key r found => ?_, fun other => ?_,
    fun other record found => ?_⟩
  · simp only [wrote] at found
    by_cases here : key = id.bytes
    · exact ⟨id, here.symm⟩
    · exact mirrored.known key r (by simpa [here] using found)
  · simp only [wrote, AssertionChain.get_write]
    by_cases here : id = other
    · subst here
      simpa using Option.Rel.some agrees
    · have apart : other.bytes ≠ id.bytes := fun same => here (FixedBytes.ext same.symm)
      simpa [here, apart] using mirrored.records other
  · by_cases here : id = other
    · subst here
      obtain rfl : writes = record := by simpa using found
      exact named
    · exact mirrored.named other record (by simpa [here] using found)

theorem assertionId_eq {a : Assertion} {args : Posting} (parent : a.parent.bytes = args.parent)
    (proposer : a.proposer = 0) (pre : a.preStateRoot.bytes = args.preStateRoot)
    (post : a.postStateRoot.bytes = args.postStateRoot) (committed : a.batchCommitment.bytes = commitment)
    (length : a.traceLength = args.traceLength.val) (bond : a.bond = args.bond)
    (identified : Assertions.assertionId crypto args.parent 0 args.preStateRoot args.postStateRoot commitment
      args.traceLength args.bond = .ok key) : key = (a.id crypto).bytes := by
  obtain ⟨_, same⟩ := Codec.digest_eq_ok.mp identified
  rw [same, Assertion.id, parent, proposer, pre, post, committed, length, bond]
  rfl

section
variable (mirrored : Mirrored crypto (now, c) chain)
include mirrored

theorem Mirrored.posted {args : Posting} (posted : Posted crypto c now proposer args parent txRoot commitment key)
    (pre : args.preStateRoot.length = 32) (post : args.postStateRoot.length = 32) :
    ∃ chain', MirrorsMove crypto chain (.post proposer args) chain' ∧
      Mirrored crypto (now, c.posted now proposer args txRoot commitment key) chain' := by
  obtain ⟨parentId, parentBytes⟩ := mirrored.known args.parent parent posted.parentAt
  obtain ⟨_, digest⟩ := Codec.digest_eq_ok.mp posted.committed
  set a : Assertion := ⟨parentId, 0, ⟨args.preStateRoot, pre⟩, ⟨args.postStateRoot, post⟩,
    crypto.sha256 (canonical .batch [be 8 args.timestamp.val, be 16 args.baseFee.val, args.feeRecipient,
      be 8 args.txBytes.length, txRoot]), args.traceLength.val, args.bond⟩ with claim
  have claimed : claimOf crypto args = some a := by
    have batch : FixedBytes.ofBytes? 32 commitment = some a.batchCommitment :=
      FixedBytes.ofBytes?_eq_some.mpr digest.symm
    have before : FixedBytes.ofBytes? 32 args.preStateRoot = some a.preStateRoot := FixedBytes.ofBytes?_eq_some.mpr rfl
    have after : FixedBytes.ofBytes? 32 args.postStateRoot = some a.postStateRoot := FixedBytes.ofBytes?_eq_some.mpr rfl
    have above : FixedBytes.ofBytes? 32 args.parent = some a.parent := FixedBytes.ofBytes?_eq_some.mpr parentBytes
    simp only [claimOf, above, before, after, toOption_eq_some.mpr posted.rooted, toOption_eq_some.mpr posted.committed,
      batch, Option.bind_eq_bind, Option.bind_some, Option.pure_def]
    rfl
  have same : key = (a.id crypto).bytes :=
    assertionId_eq parentBytes rfl rfl rfl digest.symm rfl rfl posted.identified
  obtain ⟨parentRecord, parentAt, agrees⟩ := mirrored.find (parentBytes ▸ posted.parentAt)
  have standing : parentRecord.status ≠ .rejected := by
    rw [agrees.status, show Status.rejected = Status.ofL1 .rejected from rfl, Ne, Status.ofL1_inj]
    exact posted.parentLive
  have continues : parentRecord.assertion.postStateRoot = a.preStateRoot :=
    FixedBytes.ext (agrees.postStateRoot.symm.trans posted.continues)
  have bonded : ¬a.bond.val < chain.minimumBond.val := by
    rw [mirrored.bond]
    exact Nat.not_lt.mpr posted.bonded
  have accepted : chain.call crypto (.post a) = .ok (chain.write (a.id crypto) ⟨a, .pending, chain.now, 0⟩) := by
    simp only [AssertionChain.call, AssertionChain.post, show chain.get a.parent = some parentRecord from parentAt,
      if_neg standing, if_neg (not_not.mpr continues), if_neg bonded]
    rfl
  refine ⟨_, ⟨.post a, by rw [ChainMove.mirror, claimed]; rfl, accepted⟩, ?_⟩
  have wrote : (c.posted now proposer args txRoot commitment key).assertions =
      Function.update c.assertions (a.id crypto).bytes (some (args.record proposer now txRoot commitment)) := by
    rw [← same]
    rfl
  exact mirrored.write wrote rfl rfl ⟨parentBytes.symm, rfl, rfl, mirrored.now, rfl⟩ rfl

/-- The id a move names is a digest. -/
theorem Mirrored.named_id (found : c.assertions key = some r) :
    ∃ id : Hash256, id.bytes = key ∧ FixedBytes.ofBytes? 32 key = some id ∧
      ∃ record, chain.get id = some record ∧ Agrees r record ∧ record.assertion.id crypto = id := by
  obtain ⟨id, rfl⟩ := mirrored.known key r found
  obtain ⟨record, at', agrees⟩ := mirrored.find found
  exact ⟨id, rfl, FixedBytes.ofBytes?_bytes id, record, at', agrees, mirrored.named id record at'⟩

theorem Mirrored.challenged {challenger : Address} {bond : U128} {count : U64} (challenged : Assertions.Challenged c challenger key bond r count)
    (few : count.val ≤ BCS_MAX_SEQUENCE) :
    ∃ chain', MirrorsMove crypto chain (.openChallenge challenger key bond) chain' ∧
      Mirrored crypto (now, c.challenged challenger key bond r count) chain' := by
  obtain ⟨id, rfl, digest, record, at', agrees, named⟩ := mirrored.named_id challenged.recordAt
  have limit : BCS_MAX_SEQUENCE = 2 ^ 31 - 1 := rfl
  have counted : min (record.openChallenges.val + 1) (2 ^ 32 - 1) = count.val := by
    rw [agrees.openChallenges, ← challenged.counted]
    omega
  set writes : Record := { record with
    status := .challenged
    openChallenges := ⟨min (record.openChallenges.val + 1) (2 ^ 32 - 1), by omega⟩ } with wrote
  have live : record.status = .pending ∨ record.status = .challenged := by
    rw [agrees.status]
    rcases challenged.live with live | live
    · exact .inl (by rw [live]; rfl)
    · exact .inr (by rw [live]; rfl)
  have accepted : chain.call crypto (.openChallenge id) = .ok (chain.write id writes) := by
    rcases live with live | live <;> simp only [AssertionChain.call, AssertionChain.openChallenge, at', live] <;> rfl
  refine ⟨_, ⟨.openChallenge id, by rw [ChainMove.mirror, digest]; rfl, accepted⟩, ?_⟩
  exact mirrored.write rfl rfl rfl ⟨agrees.parent, agrees.postStateRoot, rfl, agrees.postedAt, counted⟩ named

theorem Mirrored.defended (defended : Assertions.Defended c key loser r c') :
    ∃ chain', MirrorsMove crypto chain (.defenderWon key loser) chain' ∧ Mirrored crypto (now, c') chain' := by
  obtain ⟨recordAt, challenged, _, _, _, _, count, counted, _, _, rfl⟩ := defended
  obtain ⟨id, rfl, digest, record, at', agrees, named⟩ := mirrored.named_id recordAt
  have status : record.status = .challenged := by rw [agrees.status, challenged]; rfl
  have left : record.openChallenges.val - 1 = count.val := by
    rw [agrees.openChallenges, counted]
    omega
  set writes : Record := { record with
    status := if record.openChallenges.val - 1 = 0 then .pending else record.status
    openChallenges := ⟨record.openChallenges.val - 1, by omega⟩ } with wrote
  have accepted : chain.call crypto (.defenderWon id) = .ok (chain.write id writes) := by
    simp only [AssertionChain.call, AssertionChain.defenderWon, at', if_neg (not_not.mpr status)]
    rfl
  refine ⟨_, ⟨.defenderWon id, by rw [ChainMove.mirror, digest]; rfl, accepted⟩, ?_⟩
  refine mirrored.write rfl rfl rfl ⟨agrees.parent, agrees.postStateRoot, ?_, agrees.postedAt, left⟩ named
  simp only [wrote, left]
  split
  · rfl
  · exact agrees.status

theorem Mirrored.finalized (finalized : Assertions.Finalized c now key r parent c') :
    ∃ chain', MirrorsMove crypto chain (.finalize key) chain' ∧ Mirrored crypto (now, c') chain' := by
  obtain ⟨recordAt, pending, parentAt, final, waited, _, _, rfl⟩ := finalized
  obtain ⟨id, rfl, digest, record, at', agrees, named⟩ := mirrored.named_id recordAt
  have status : record.status = .pending := by rw [agrees.status, pending]; rfl
  obtain ⟨above, aboveAt, aboveAgrees⟩ := mirrored.find (agrees.parent ▸ parentAt)
  have stands : chain.status record.assertion.parent = some .finalized := by
    rw [AssertionChain.status, aboveAt, Option.map_some, aboveAgrees.status, final]
    rfl
  have passed : ¬chain.now.val - record.postedAt.val < chain.challengeWindow.val := by
    rw [mirrored.now, mirrored.window, agrees.postedAt]
    simp only
    omega
  have accepted : chain.call crypto (.finalize id) = .ok { chain.write id { record with status := .finalized } with
      latestFinalized := some id } := by
    simp only [AssertionChain.call, AssertionChain.finalize, at', if_neg (not_not.mpr status),
      if_neg (not_not.mpr stands), if_neg passed]
  refine ⟨_, ⟨.finalize id, by rw [ChainMove.mirror, digest]; rfl, accepted⟩, ?_⟩
  have final : Agrees { r with status := .finalized } { record with status := .finalized } :=
    ⟨agrees.parent, agrees.postStateRoot, rfl, agrees.postedAt, agrees.openChallenges⟩
  have wrote : Mirrored crypto (now, { c with
      assertions := Function.update c.assertions id.bytes (some { r with status := .finalized }) })
      (chain.write id { record with status := .finalized }) := mirrored.write rfl rfl rfl final named
  exact ⟨wrote.now, wrote.window, wrote.bond, wrote.sorted, wrote.known, wrote.records, wrote.named⟩

theorem Mirrored.links {x : Hash256}
    (falls : AssertionChain.Falls chain.records id x) : ReflTransGen c.Links id.bytes x.bytes := by
  induction falls with
  | refl => exact .refl
  | @tail y z _ child ih =>
    obtain ⟨record, found, parent, _⟩ := child
    have related := mirrored.records z
    rw [show chain.get z = some record from found] at related
    cases at' : c.assertions z.bytes with
    | none =>
      simp only [at'] at related
      cases related
    | some r =>
      simp only [at'] at related
      cases related with
      | some agrees => exact ih.tail ⟨r, at', by rw [agrees.parent, parent]⟩

theorem Mirrored.falls (upright : Upright crypto c)
    (recorded : (c.assertions id.bytes).isSome) (links : ReflTransGen c.Links id.bytes key) :
    ∀ x : Hash256, x.bytes = key → AssertionChain.Falls chain.records id x ∨
      ∃ r, c.assertions x.bytes = some r ∧ r.status = .rejected := by
  induction links with
  | refl =>
    intro x same
    obtain rfl : x = id := FixedBytes.ext same
    exact .inl .refl
  | @tail y z before link ih =>
    intro x same
    obtain ⟨r, found, parent⟩ := link
    have above : (c.assertions y).isSome := by
      cases before with
      | refl => exact recorded
      | tail _ last =>
        obtain ⟨p, known, _⟩ := last
        simp [known]
    obtain ⟨p, known⟩ := Option.isSome_iff_exists.mp above
    obtain ⟨y', rfl⟩ := mirrored.known y p known
    subst same
    obtain ⟨record, at', agrees⟩ := mirrored.find found
    by_cases down : r.status = .rejected
    · exact .inr ⟨r, found, down⟩
    · rcases ih y' rfl with falls | ⟨p', known', fallen⟩
      · refine .inl (falls.tail ⟨record, at', FixedBytes.ext (agrees.parent.symm.trans parent), ?_⟩)
        rw [agrees.status, show Status.rejected = Status.ofL1 .rejected from rfl, Ne, Status.ofL1_inj]
        exact down
      · obtain ⟨i, listed⟩ := Assertions.listed_of_links upright.sound.ordered upright.rootless above found parent
        have orphan := Assertions.isRejected_iff.mpr ⟨p', parent ▸ known', fallen⟩
        exact absurd (upright.closed i _ r listed found orphan) down

end

theorem agrees_fallen (agrees : Agrees r record) : Agrees r.fallen record.fallen :=
  ⟨agrees.parent, agrees.postStateRoot, rfl, agrees.postedAt, rfl⟩

theorem Mirrored.rejected (mirrored : Mirrored crypto (now, c) chain) (upright : Upright crypto c)
    (won : Assertions.challengerWon c key winner = .ok c') :
    ∃ chain', MirrorsMove crypto chain (.challengerWon key winner) chain' ∧ Mirrored crypto (now, c') chain' := by
  obtain ⟨r, _, _, rejected, _⟩ := Assertions.rejected_of_challengerWon won
  have recordAt := rejected.1
  have challenged : r.status = .challenged := by
    simp only [Assertions.challengerWon, bind_eq_ok, ensure_eq_ok, Assertions.fetch_eq_ok] at won
    obtain ⟨r', recordAt', _, _, _, challenged, _⟩ := won
    obtain rfl : r = r' := by simpa [recordAt] using recordAt'
    exact challenged
  obtain ⟨id, rfl, digest, record, at', agrees, _⟩ := mirrored.named_id recordAt
  have status : record.status = .challenged := by rw [agrees.status, challenged]; rfl
  have accepted : chain.call crypto (.challengerWon id) = .ok (chain.afterWin id) := by
    simp only [AssertionChain.call, AssertionChain.challengerWon, at', if_neg (not_not.mpr status)]
    rfl
  have books := upright.sound.books
  have after : ∀ x r, c.assertions x = some r → _ := fun x r found =>
    Assertions.records_of_challengerWon upright.sound.ordered books upright.closed upright.rootless won found
  have fresh : ∀ x, c.assertions x = none → c'.assertions x = none := by
    intro x missing
    have ordered' := (Assertions.sound_of_moves upright.sound
      (Assertions.moves_of_rejections crypto (Assertions.rejections_of_challengerWon won))).ordered
    have unlisted : x ∉ c'.order := by
      rw [L1.order_of_rejections (Assertions.rejections_of_challengerWon won), upright.sound.ordered.listed]
      simp [missing]
    rw [ordered'.listed] at unlisted
    simpa using unlisted
  have same : c'.challengeWindow = c.challengeWindow ∧ c'.minimumBond = c.minimumBond :=
    Assertions.parameters_of_rejections (Assertions.rejections_of_challengerWon won)
  refine ⟨_, ⟨.challengerWon id, by rw [ChainMove.mirror, digest]; rfl, accepted⟩, ?_⟩
  refine ⟨mirrored.now, mirrored.window.trans same.1.symm, mirrored.bond.trans same.2.symm,
    (AssertionChain.search_spec mirrored.sorted at').2.1, fun x r' found' => ?_, fun x => ?_,
    fun x record' found' => ?_⟩
  · cases before : c.assertions x with
    | none => simp [fresh x before] at found'
    | some r => exact mirrored.known x r before
  · rw [AssertionChain.get_afterWin mirrored.sorted at']
    cases before : c.assertions x.bytes with
    | none =>
      have related := mirrored.records x
      simp only [before] at related
      cases at'' : chain.get x with
      | some _ =>
        rw [at''] at related
        cases related
      | none =>
        simp only [fresh _ before, Option.map_none, ite_self]
        exact .none
    | some r =>
      obtain ⟨record', at'', agrees'⟩ := mirrored.find before
      obtain ⟨descends, apart⟩ := after x.bytes r before
      rw [at'']
      split
      · rename_i inside
        have falls := (AssertionChain.mem_searched mirrored.sorted at').mp inside
        rw [descends (mirrored.links falls)]
        exact .some (agrees_fallen agrees')
      · rename_i outside
        by_cases links : ReflTransGen c.Links id.bytes x.bytes
        · -- it had fallen before, so neither side changes it
          rcases mirrored.falls upright (by simp [recordAt]) links x rfl with falls | ⟨r'', before', down⟩
          · exact absurd ((AssertionChain.mem_searched mirrored.sorted at').mpr falls) outside
          · obtain rfl : r = r'' := by simpa [before] using before'
            rw [descends links, books.fallen_eq before down]
            exact .some agrees'
        · rw [apart links]
          exact .some agrees'
  · rw [AssertionChain.get_afterWin mirrored.sorted at'] at found'
    split at found'
    · obtain ⟨record'', at'', rfl⟩ := Option.map_eq_some_iff.mp found'
      exact mirrored.named x record'' at''
    · exact mirrored.named x record' found'

/-- Genesis keeps its place and its parent. -/
theorem genesis_of_moves (ordered : Ordered c) (moves : ReflTransGen (Assertions.Moves crypto) c c')
    (genesis : ∀ first r, c.order[0]? = some first → c.assertions first = some r → r.parent = TrieVerifier.zero) :
    ∀ first r, c'.order[0]? = some first → c'.assertions first = some r → r.parent = TrieVerifier.zero := by
  intro first r listed found
  have evolves := Assertions.evolves_of_moves moves
  obtain ⟨first', g, at0, there, _⟩ := ordered.first
  obtain rfl : first' = first := by
    have same := Assertions.getElem?_of_longer evolves.order at0
    simpa [listed] using same.symm
  obtain ⟨r', found', updates⟩ := evolves.records first' g there
  obtain rfl : r = r' := by simpa [found] using found'
  rw [updates.claim]
  exact genesis first' g at0 there

theorem Upright.moves (upright : Upright crypto c) (moves : ReflTransGen (Assertions.Moves crypto) c c')
    (closed : Closed c') (storable : Storable c') : Upright crypto c' :=
  ⟨Assertions.sound_of_moves upright.sound moves, closed, storable,
    genesis_of_moves upright.sound.ordered moves upright.genesis⟩

/-- One move, on both sides. -/
theorem mirrors_of_move {s s' : U64 × Chain} (mirrored : Mirrored crypto s chain)
    (upright : Upright crypto s.2) (moves : MovesOnL1 crypto s m s') :
    ∃ chain', MirrorsMove crypto chain m chain' ∧ Mirrored crypto s' chain' ∧ Upright crypto s'.2 := by
  obtain ⟨sized, accepted, storable⟩ := moves
  obtain ⟨now, c⟩ := s
  have ordered := upright.sound.ordered
  cases m with
  | post proposer args =>
    obtain ⟨encodable, pre, post⟩ := sized
    obtain ⟨_, made, ⟨⟩⟩ := bind_eq_ok.mp accepted
    obtain ⟨_, _, _, _, posted, rfl⟩ := Assertions.posted_of_post made
    obtain ⟨chain', mirrors, mirrored'⟩ := mirrored.posted posted pre post
    exact ⟨chain', mirrors, mirrored', upright.moves (.single (.posted now proposer args encodable posted))
      (upright.closed.posted ordered posted) storable⟩
  | openChallenge challenger key bond =>
    obtain ⟨_, made, ⟨⟩⟩ := bind_eq_ok.mp accepted
    obtain ⟨record, count, challenged, rfl⟩ := Assertions.challenged_of_openChallenge made
    have moves : ReflTransGen (Assertions.Moves crypto) c (c.challenged challenger key bond record count) :=
      .single (.challenged challenger challenged)
    have few : count.val ≤ BCS_MAX_SEQUENCE := by
      have counted := (Assertions.sound_of_moves upright.sound moves).books.counted key _ (Function.update_self _ _ _)
      simp only at counted
      rw [counted]
      exact storable.challenges key
    obtain ⟨chain', mirrors, mirrored'⟩ := mirrored.challenged challenged few
    refine ⟨chain', mirrors, mirrored', upright.moves moves ?_ storable⟩
    refine upright.closed.write challenged.recordAt rfl rfl rfl ?_ (by simp)
    rcases challenged.live with live | live <;> simp [live]
  | defenderWon key loser =>
    obtain ⟨_, made, ⟨⟩⟩ := bind_eq_ok.mp accepted
    obtain ⟨record, defended⟩ := Assertions.defended_of_defenderWon made
    obtain ⟨chain', mirrors, mirrored'⟩ := mirrored.defended defended
    refine ⟨chain', mirrors, mirrored', upright.moves (.single (.defended loser defended)) ?_ storable⟩
    exact L1.closed_of_settles (d := ⟨key, loser, loser, 0, 0, [], [], [], false, .bisecting, .defender, 0, 0, 0, 0, none⟩)
      ordered upright.closed (.lost made)
  | challengerWon key winner =>
    obtain ⟨_, made, ⟨⟩⟩ := bind_eq_ok.mp accepted
    obtain ⟨chain', mirrors, mirrored'⟩ := mirrored.rejected upright made
    have moves := Assertions.moves_of_rejections crypto (Assertions.rejections_of_challengerWon made)
    exact ⟨chain', mirrors, mirrored', upright.moves moves (Assertions.closed_of_challengerWon ordered made) storable⟩
  | finalize key =>
    obtain ⟨_, made, ⟨⟩⟩ := bind_eq_ok.mp accepted
    obtain ⟨record, parent, finalized⟩ := Assertions.finalized_of_finalize made
    obtain ⟨chain', mirrors, mirrored'⟩ := mirrored.finalized finalized
    refine ⟨chain', mirrors, mirrored', upright.moves (.single (.finalized now finalized)) ?_ storable⟩
    obtain ⟨recordAt, pending, _, _, _, _, _, rfl⟩ := finalized
    exact upright.closed.write recordAt rfl rfl rfl (by simp [pending]) (by simp)
  | tick later =>
    simp only [ChainMove.onL1] at accepted
    split at accepted
    · rename_i after
      cases accepted
      have advanced : chain.call crypto (.advanceTo later) = .ok { chain with now := later } := by
        have now := mirrored.now
        simp only at now
        simp only [AssertionChain.call, AssertionChain.advanceTo, now, if_neg (Nat.not_lt.mpr after)]
      exact ⟨_, ⟨_, rfl, advanced⟩,
        ⟨rfl, mirrored.window, mirrored.bond, mirrored.sorted, mirrored.known, mirrored.records, mirrored.named⟩,
        upright⟩
    · cases accepted

/-- Both chains as they are created. -/
theorem mirrored_new {root : Hash256} {wallets : Address → Nat} {permits : Address → Nat → Bool}
    (created : Assertions.initializeChain crypto admin root.bytes window bond treasury age wallets permits = .ok c) (now : U64) :
    Mirrored crypto (now, c) { AssertionChain.new crypto root window bond with now } ∧
      (Storable c → Upright crypto c) := by
  have sound : Sound crypto c := Assertions.sound_of_initializeChain created
  simp only [Assertions.initializeChain, bind_eq_ok, pure_iff] at created
  obtain ⟨key, identified, rfl⟩ := created
  set genesis : Assertion := ⟨Hash256.zero, 0, Hash256.zero, root, Hash256.zero, 0, 0⟩ with first
  have same : key = (genesis.id crypto).bytes := by
    obtain ⟨_, digest⟩ := Codec.digest_eq_ok.mp identified
    exact digest
  have lookup : ∀ id, ({ AssertionChain.new crypto root window bond with now } : AssertionChain).get id =
      if genesis.id crypto = id then some ⟨genesis, .finalized, 0, 0⟩ else none := by
    intro id
    simp only [AssertionChain.get, AssertionChain.new, SortedMap.get, Hash256.rank_inj, first]
  have clamped : max window AssertionChain.CHALLENGE_WINDOW_FLOOR = Assertions.clampWindow window := by
    have floor : AssertionChain.CHALLENGE_WINDOW_FLOOR = Assertions.CHALLENGE_WINDOW_FLOOR := rfl
    unfold Assertions.clampWindow
    split
    · rename_i below
      rw [floor]
      exact max_eq_right (Fin.le_def.mpr (Nat.le_of_lt below))
    · rename_i above
      rw [floor]
      exact max_eq_left (Fin.le_def.mpr (Nat.not_lt.mp above))
  subst same
  refine ⟨⟨rfl, clamped, rfl, List.pairwise_singleton _ _, fun other r found => ?_, fun id => ?_,
    fun id record found => ?_⟩, fun storable => ⟨sound, ?_, storable, ?_⟩⟩
  · by_cases here : other = (genesis.id crypto).bytes
    · exact ⟨_, here.symm⟩
    · simp [here] at found
  · rw [lookup]
    by_cases here : genesis.id crypto = id
    · subst here
      have agrees : Agrees (Assertions.genesis admin root.bytes) ⟨genesis, .finalized, 0, 0⟩ :=
        ⟨rfl, rfl, rfl, rfl, rfl⟩
      simpa using agrees
    · have apart : id.bytes ≠ (genesis.id crypto).bytes := fun same => here (FixedBytes.ext same.symm)
      simp [here, apart]
  · rw [lookup] at found
    split at found
    · rename_i here
      cases found
      exact here
    · cases found
  · intro i key r listed
    simp at listed
  · intro other r listed found
    obtain rfl : (genesis.id crypto).bytes = other := by simpa using listed
    obtain rfl : Assertions.genesis admin root.bytes = r := by simpa using found
    rfl

/-- Whatever the contract's chain accepts the node's accepts, and each assertion has one
id and one status on both. -/
theorem chain_simulates_l1 {root : Hash256} {admin treasury : Address} {window age : U64} {bond : U128}
    {wallets : Address → Nat} {permits : Address → Nat → Bool} {s : U64 × Chain} {moves : List ChainMove}
    (created : Assertions.initializeChain crypto admin root.bytes window bond treasury age wallets permits = .ok c)
    (storable : Storable c) (ran : Run (MovesOnL1 crypto) (now, c) moves s) :
    ∃ start chain, (AssertionChain.new crypto root window bond).advanceTo now = .ok start ∧
      Run (MirrorsMove crypto) start moves chain ∧
      (∀ key r, s.2.assertions key = some r → ∃ id record, id.bytes = key ∧ chain.get id = some record ∧
        record.assertion.id crypto = id ∧ record.status = Status.ofL1 r.status) ∧
      ∀ id record, chain.get id = some record → ∃ r, s.2.assertions id.bytes = some r := by
  obtain ⟨mirrored, upright⟩ := mirrored_new created now
  have started : (AssertionChain.new crypto root window bond).advanceTo now =
      .ok { AssertionChain.new crypto root window bond with now } := if_neg (Nat.not_lt_zero _)
  obtain ⟨chain, mirrors, mirrored', _⟩ := ran.simulate
    (fun s chain => Mirrored crypto s chain ∧ Upright crypto s.2)
    (fun _ _ _ _ _ both moves => mirrors_of_move both.1 both.2 moves) ⟨mirrored, upright storable⟩
  refine ⟨_, chain, started, mirrors, fun key r found => ?_, fun id record found => ?_⟩
  · obtain ⟨id, same, _, record, at', agrees, named⟩ := Mirrored.named_id mirrored' found
    exact ⟨id, record, same, at', named, agrees.status⟩
  · have related := mirrored'.records id
    rw [found] at related
    cases at' : s.2.assertions id.bytes with
    | none =>
      rw [at'] at related
      cases related
    | some r => exact ⟨r, rfl⟩

/-- A posting on genesis of an empty ledger that changes nothing. -/
def idlePosting : Posting where
  parent := (Assertion.mk Hash256.zero 0 Hash256.zero Hash256.zero Hash256.zero 0 0).id L1.hashing |>.bytes
  preStateRoot := TrieVerifier.zero
  postStateRoot := TrieVerifier.zero
  timestamp := 5
  baseFee := 0
  feeRecipient := TrieVerifier.zero
  txBytes := []
  txStarts := []
  traceLength := 0
  bond := 0

/-- An assertion posted and challenged is challenged for the node. -/
theorem challenged_posting_is_mirrored : ∃ c s start chain key r id record,
    Assertions.initializeChain L1.hashing (.fill 32 1) Hash256.zero.bytes 0 0 (.fill 32 1) 0 (fun _ => 1000)
      (fun _ _ => true) = .ok c ∧
    Run (MovesOnL1 L1.hashing) (5, c)
      [.post (.fill 32 2) idlePosting, .openChallenge (.fill 32 3) key 0] s ∧
    (AssertionChain.new L1.hashing Hash256.zero 0 0).advanceTo 5 = .ok start ∧
    Run (MirrorsMove L1.hashing) start [.post (.fill 32 2) idlePosting, .openChallenge (.fill 32 3) key 0] chain ∧
    s.2.assertions key = some r ∧ r.status = .challenged ∧
    id.bytes = key ∧ chain.get id = some record ∧ record.status = .challenged := by
  obtain ⟨c, created, none₀, c₁, posted, none₁, key, _, c₂, challenged, none₂, r, found, status⟩ :
      ∃ c, Assertions.initializeChain L1.hashing (.fill 32 1) Hash256.zero.bytes 0 0 (.fill 32 1) 0 (fun _ => 1000)
          (fun _ _ => true) = .ok c ∧ c.assertions TrieVerifier.zero = none ∧
        ∃ c₁, Assertions.post L1.hashing c 5 (.fill 32 2) idlePosting = .ok c₁ ∧
          c₁.assertions TrieVerifier.zero = none ∧ ∃ key ∈ c₁.order[1]?,
        ∃ c₂, Assertions.openChallenge c₁ (.fill 32 3) key 0 = .ok c₂ ∧
          c₂.assertions TrieVerifier.zero = none ∧ ∃ r ∈ c₂.assertions key, r.status = .challenged := by
    decide +kernel
  have empty : ∀ key, c.openOn key = [] := by
    simp only [Assertions.initializeChain, bind_eq_ok, pure_eq_ok, Except.ok.injEq] at created
    obtain ⟨_, _, rfl⟩ := created
    exact fun _ => rfl
  have empty₁ : ∀ key, c₁.openOn key = [] := by
    obtain ⟨_, _, _, _, _, rfl⟩ := Assertions.posted_of_post posted
    exact empty
  have few : ∀ other, (c₂.openOn other).length ≤ 1 := by
    obtain ⟨_, _, _, rfl⟩ := Assertions.challenged_of_openChallenge challenged
    intro other
    by_cases here : other = key
    · subst here
      simp [Assertions.Chain.openOn_challenged, empty₁]
    · simp [Assertions.Chain.openOn_challenged_of_ne _ here, empty₁]
  have storable : Storable c := ⟨fun key => by simp [empty], none₀⟩
  have ran : Run (MovesOnL1 L1.hashing) (5, c)
      [.post (.fill 32 2) idlePosting, .openChallenge (.fill 32 3) key 0] (5, c₂) := by
    refine Run.cons_iff.mpr ⟨(5, c₁), ⟨⟨Nat.zero_le _, rfl, rfl⟩, ?_, fun key => by simp [empty₁], none₁⟩,
      Run.singleton_iff.mpr ⟨trivial, ?_, fun other => (few other).trans (by decide), none₂⟩⟩
    · exact bind_eq_ok.mpr ⟨c₁, posted, rfl⟩
    · exact bind_eq_ok.mpr ⟨c₂, challenged, rfl⟩
  obtain ⟨start, chain, started, mirrors, same, _⟩ := chain_simulates_l1 created storable ran
  obtain ⟨id, record, named, known, _, agrees⟩ := same key r found
  exact ⟨c, _, start, chain, key, r, id, record, created, ran, started, mirrors, found, status, named, known,
    by rw [agrees, status]; rfl⟩

end Sena.Fraudproof
