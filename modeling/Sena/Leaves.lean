import Sena.BatchOpenings
import Sena.Endings
import Sena.LedgerRuns
import Sena.WatcherReads

/-! What L1 can be shown of a published batch.

The leaves of a batch lie end to end if every transaction compiles and each starts
where the program before it ends, the last ending where the trace does. The proofs
about a batch succeed against all other batches, and against no such one. -/
namespace Sena

open Move Assertions Disputes

theorem Execute.length_compile {tx : Transaction} (fits : tx.payload.Fits)
    (compiled : compile crypto tx ctx = .ok is) : 4 ≤ is.length ∧ is.length ≤ 18 := by
  obtain ⟨_, _, payload, _, charge, shaped, _, _, rfl⟩ := compile_eq_ok.mp compiled
  have most : payload.length ≤ 10 := by
    generalize tx.payload = p at fits shaped
    cases p with
    | distributeFees asset amount split =>
      simp only [compilePayload] at shaped
      split at shaped
      · cases shaped
      obtain ⟨shares, shared, ⟨⟩⟩ := bind_eq_ok.mp shaped
      have counted := congrArg List.length (FeeSplit.sharesOf_eq_ok (mapError_eq_ok.mp shared))
      have few : split.beneficiaries.length ≤ 8 := fits
      have kept := List.length_filter_le (fun share : L2Address × U128 => decide (0 < share.2.val)) shares
      simp only [List.length_map, List.length_cons] at counted ⊢
      omega
    | transfer recipient asset amount =>
      simp only [compilePayload] at shaped
      split at shaped
      · cases shaped
      · cases shaped
        simp
    | governance epoch update signatures =>
      obtain ⟨_, _, ⟨⟩⟩ := bind_eq_ok.mp shaped
      simp
    | bindIdentifier | unbindIdentifier =>
      cases shaped
      simp
  have credits (x : L2Address) (amount : U128) : (creditSome x tx.feeAsset amount).length ≤ 1 := by
    unfold creditSome
    split <;> simp
  have opens : 4 ≤ (opening tx ctx charge).length ∧ (opening tx ctx charge).length ≤ 5 := by
    unfold opening
    cases tx.authenticator <;> simp
  have refund := credits tx.sender charge.refund
  have tip := credits ctx.feeRecipient charge.tip
  have base := credits FEE_VAULT charge.base
  simp only [program_eq, closing, List.length_append]
  omega

section Layout

variable {lengthOf : Bytes → Option Nat} {leaves : List (U64 × Bytes)} {total : Nat}

/-- The leaves lie end to end from `start` to `total`. -/
def Laid (lengthOf : Bytes → Option Nat) (total : Nat) : (start : Nat) → List (U64 × Bytes) → Prop
  | start, [] => start = total
  | start, (a, tx) :: rest => a.val = start ∧ ∃ n, lengthOf tx = some n ∧ Laid lengthOf total (start + n) rest

/-- The step lies in the program of leaf `i`. -/
def Covers (lengthOf : Bytes → Option Nat) (leaves : List (U64 × Bytes)) (pc i : Nat) : Prop :=
  ∃ a tx n, leaves[i]? = some (a, tx) ∧ lengthOf tx = some n ∧ a.val ≤ pc ∧ pc < a.val + n

/-- What can be wrong, at the first place where something is. -/
inductive Flaw (lengthOf : Bytes → Option Nat) (total : Nat) (leaves : List (U64 × Bytes)) : Prop
  | uncompilable {i : Nat} (here : leaves[i]? = some (a, tx)) (refused : lengthOf tx = none)
  | gap {i : Nat} (here : leaves[i]? = some (a, tx)) (next : leaves[i + 1]? = some (b, tx'))
      (length : lengthOf tx = some n) (fits : a.val + n < 2 ^ 64) (differs : b.val ≠ a.val + n)
  | total (last : leaves[leaves.length - 1]? = some (a, tx)) (length : lengthOf tx = some n)
      (fits : a.val + n < 2 ^ 64) (differs : a.val + n ≠ total)

section
variable (laid : Laid lengthOf total start leaves)
include laid

theorem Laid.starts (here : leaves[i]? = some (a, tx)) :
    ∃ n, lengthOf tx = some n ∧ start ≤ a.val ∧ a.val + n ≤ total ∧
      (∀ b tx', leaves[i + 1]? = some (b, tx') → b.val = a.val + n) ∧
      (i + 1 = leaves.length → a.val + n = total) := by
  induction leaves generalizing start i a tx with
  | nil => cases here
  | cons leaf rest ih =>
    obtain ⟨first, n, length, others⟩ := laid
    -- the end of the trace is at or after every place where the rest may start
    have past : start + n ≤ total := by
      cases rest with
      | nil => exact Nat.le_of_eq others
      | cons next rest =>
        obtain ⟨_, _, after, within, _⟩ := ih others (i := 0) rfl
        omega
    cases i with
    | zero =>
      cases here
      dsimp only at first
      refine ⟨n, length, Nat.le_of_eq first.symm, by omega, fun b tx' next => ?_, fun last => ?_⟩
      · cases rest with
        | nil => cases next
        | cons leaf rest =>
          cases next
          rw [others.1, first]
      · obtain rfl : rest = [] := List.length_eq_zero_iff.mp (by simpa using last.symm)
        rw [first]
        exact others
    | succ i =>
      obtain ⟨m, length', after, within, follows, last⟩ := ih others here
      exact ⟨m, length', by omega, within, follows, fun end' => last (by simpa using end')⟩

/-- Every step lies in exactly one leaf. -/
theorem Laid.covers (after : start ≤ pc) (before : pc < total) :
    ∃ i, Covers lengthOf leaves pc i ∧ ∀ j, Covers lengthOf leaves pc j → j = i := by
  induction leaves generalizing start with
  | nil =>
    rw [Laid] at laid
    omega
  | cons leaf rest ih =>
    obtain ⟨a, tx⟩ := leaf
    obtain ⟨first, n, length, others⟩ := laid
    have later {j : Nat} (covers : Covers lengthOf rest pc j) : start + n ≤ pc := by
      obtain ⟨a, tx, m, here, _, lo, _⟩ := covers
      obtain ⟨_, _, from', _⟩ := others.starts here
      omega
    by_cases inside : pc < start + n
    · refine ⟨0, ⟨a, tx, n, rfl, length, by omega, by omega⟩, fun j covers => ?_⟩
      cases j with
      | zero => rfl
      | succ j =>
        have := later (j := j) covers
        omega
    · obtain ⟨i, covers, only⟩ := ih others (by omega)
      refine ⟨i + 1, covers, fun j other => ?_⟩
      cases j with
      | zero =>
        obtain ⟨a, tx, m, here, length', lo, hi⟩ := other
        cases here
        cases length.symm.trans length'
        omega
      | succ j => rw [only j other]

theorem Laid.flawless : ¬Flaw lengthOf total leaves := by
  rintro (⟨here, refused⟩ | ⟨here, next, length, _, differs⟩ | ⟨last, length, _, differs⟩)
  · obtain ⟨n, length, _⟩ := laid.starts here
    cases refused.symm.trans length
  · obtain ⟨n, length', _, _, follows, _⟩ := laid.starts here
    cases length.symm.trans length'
    exact differs (follows _ _ next)
  · obtain ⟨n, length', _, _, _, ends⟩ := laid.starts last
    cases length.symm.trans length'
    have inside := (List.getElem?_eq_some_iff.mp last).1
    exact differs (ends (by omega))

end

theorem laid_or_flaw (short : ∀ tx n, lengthOf tx = some n → n ≤ 18) (room : start + 18 * leaves.length < 2 ^ 64)
    (first : ∀ leaf, leaves[0]? = some leaf → leaf.1.val = start) (some' : leaves ≠ []) :
    Laid lengthOf total start leaves ∨ Flaw lengthOf total leaves := by
  induction leaves generalizing start with
  | nil => exact absurd rfl some'
  | cons leaf rest ih =>
    obtain ⟨a, tx⟩ := leaf
    have here : a.val = start := first _ rfl
    rw [List.length_cons] at room
    cases length : lengthOf tx with
    | none => exact .inr (.uncompilable (i := 0) rfl length)
    | some n =>
      have few := short tx n length
      cases rest with
      | nil =>
        by_cases ends : a.val + n = total
        · exact .inl ⟨here, n, length, by rw [← here]; exact ends⟩
        · exact .inr (.total rfl length (by simp at room; omega) ends)
      | cons next rest =>
        by_cases follows : next.1.val = a.val + n
        · have later : Laid lengthOf total (start + n) (next :: rest) ∨ Flaw lengthOf total (next :: rest) :=
            ih (by omega) (fun leaf found => by cases found; omega) (by simp)
          rcases later with laid | flaw
          · exact .inl ⟨here, n, length, laid⟩
          · refine .inr ?_
            rcases flaw with ⟨at', refused⟩ | ⟨at', next', length', fits, differs⟩ | ⟨last, length', fits, differs⟩
            · exact .uncompilable (i := _ + 1) at' refused
            · exact .gap (i := _ + 1) at' next' length' fits differs
            · exact .total last length' fits differs
        · exact .inr (.gap (i := 0) rfl rfl length (by omega) follows)

end Layout

namespace Disputes

variable {crypto : Crypto} {w : L1} {args : Posting} {r : Assertion} {setup : UInt8}

/-- The transaction needs no verdict, or the registry has that of `verify`. -/
def Judged (crypto : Crypto) (reg : Registry) (args : Posting) (tx : Bytes) : Prop :=
  Compiler.isKeyless tx = true → ∃ job verdict, MoveKeyless.jobId crypto tx args.timestamp reg.keylessSetup = .ok job ∧
    reg.jobs job = some verdict ∧ jobVerdict crypto tx args.timestamp reg.keylessSetup = .ok verdict

/-- What L1's compiler makes of a published transaction. -/
def compiled (crypto : Crypto) (setup : UInt8) (args : Posting) (tx : Bytes) : Move (Option (List Osp.Instruction)) :=
  Compiler.compile crypto tx args.timestamp args.baseFee args.feeRecipient setup

/-- The length of the program of a published transaction. -/
def lengthOf (crypto : Crypto) (setup : UInt8) (args : Posting) (tx : Bytes) : Option Nat :=
  (compiled crypto setup args tx).toOption.join.map List.length

theorem compile_of_verdict (keyless : Compiler.isKeyless tx = true)
    (judged : jobVerdict crypto tx timestamp setup = .ok verdict) :
    Compiler.compileWithKeylessVerdict crypto tx timestamp baseFee recipient setup verdict =
      Compiler.compile crypto tx timestamp baseFee recipient setup := by
  unfold Compiler.isKeyless at keyless
  split at keyless
  · rename_i decoded
    simp only [jobVerdict, decoded, bind_eq_ok] at judged
    obtain ⟨digest, digested, verified⟩ := judged
    simp [Compiler.compileWithKeylessVerdict, Compiler.compile, Compiler.compileInner, Compiler.authenticate, decoded,
      digested, verified]
  · cases keyless

theorem compiled_total (recipient : args.feeRecipient.length = 32) (tx : Bytes) :
    ∃ answer, compiled crypto setup args tx = .ok answer ∧ ∀ p, answer = some p → 4 ≤ p.length ∧ p.length ≤ 18 := by
  cases decoded : Transaction.decode tx with
  | error e => exact ⟨none, Compiler.compile_of_not_decode decoded _ _ _ _, by simp⟩
  | ok t =>
    refine ⟨_, Compiler.compile_of_decode decoded args.timestamp args.baseFee ⟨_, recipient⟩ setup, fun p same => ?_⟩
    obtain ⟨is, made, rfl⟩ := Option.map_eq_some_iff.mp same
    rw [List.length_map]
    exact Execute.length_compile (Transaction.decode_eq_ok.mp decoded).2.1 (toOption_eq_some.mp made)

theorem lengthOf_bounds (recipient : args.feeRecipient.length = 32) (found : lengthOf crypto setup args tx = some n) :
    4 ≤ n ∧ n ≤ 18 := by
  obtain ⟨answer, made, bounds⟩ := compiled_total recipient tx
  rw [lengthOf, made] at found
  obtain ⟨p, same, rfl⟩ := Option.map_eq_some_iff.mp found
  exact bounds p (by simpa [Except.toOption] using same)

end Disputes

namespace Assertions

open Disputes BatchVerifier

variable {crypto : Crypto} {c : Chain} {w : L1} {args : Posting} {r : Assertion} {i : Nat} {leaf : LeafArgs}

/-- The leaves of the published batch. -/
def Posting.leaves (args : Posting) : List (U64 × Bytes) := args.txStarts.zip args.txBytes

section
variable (postedAs : PostedAs crypto c r args)
include postedAs

theorem PostedAs.claims :
    r.txCount = args.txBytes.length ∧ r.traceLength = args.traceLength ∧ r.timestamp = args.timestamp ∧
      r.baseFee = args.baseFee ∧ r.feeRecipient = args.feeRecipient ∧ r.preStateRoot = args.preStateRoot ∧
      r.postStateRoot = args.postStateRoot := by
  obtain ⟨_, _, _, updates⟩ := postedAs.record
  refine ⟨?_, ?_, ?_, ?_, ?_, ?_, ?_⟩ <;> rw [updates.claim] <;> rfl

theorem PostedAs.unzip : args.leaves.length = args.txBytes.length ∧
    args.leaves.map (·.1) = args.txStarts ∧ args.leaves.map (·.2) = args.txBytes := by
  have paired := Watcher.paired_of_shape postedAs.shape
  exact ⟨by simp [Posting.leaves, paired], List.map_fst_zip (by omega), List.map_snd_zip (by omega)⟩

theorem PostedAs.root : (∀ leaf ∈ args.leaves, Framable leaf.2) ∧
    r.txRoot = (Batch.BatchTree.build crypto args.leaves).root.bytes ∧ args.leaves.length ≤ 2 ^ 32 := by
  obtain ⟨counted, starts, txs⟩ := postedAs.unzip
  have rooted := postedAs.rooted
  rw [← starts, ← txs] at rooted
  obtain ⟨small, same⟩ := rootOf_eq_ok.mp rooted
  exact ⟨small, same, counted ▸ Nat.le_trans postedAs.encodable (by decide)⟩

end

theorem firstStart_of_shape (shape : checkBatchShape starts count length before after = .ok ()) (some' : count ≠ 0)
    (first : starts[0]? = some a) : a.val = 0 := by
  simp only [checkBatchShape, if_neg some', bind_eq_ok, ensure_eq_ok, borrow_eq_ok, first] at shape
  obtain ⟨_, _, _, ⟨⟩, _, zero, _⟩ := shape
  exact zero

theorem proveLeaf_eq_ok : proveLeaf crypto r i leaf = .ok () ↔
    proves crypto r.txRoot r.txCount i leaf.startPc leaf.txBytes leaf.siblings = .ok true := by
  simp only [proveLeaf, bind_eq_ok, ensure_eq_ok]
  exact ⟨fun ⟨_, proven, same⟩ => same ▸ proven, fun proven => ⟨true, proven, rfl⟩⟩

/-- A published leaf with the path the node draws. -/
def Published (crypto : Crypto) (args : Posting) (i : Nat) (leaf : LeafArgs) : Prop :=
  args.leaves[i]? = some (leaf.startPc, leaf.txBytes) ∧ drawn crypto args.leaves i = some leaf.siblings

theorem PostedAs.proves_published (postedAs : PostedAs crypto c r args) (own : Published crypto args i leaf) :
    proveLeaf crypto r i leaf = .ok () := by
  obtain ⟨small, root, few⟩ := postedAs.root
  rw [proveLeaf_eq_ok, root, postedAs.claims.1, ← postedAs.unzip.1]
  exact proves_drawn small few own.1 own.2

theorem exists_published (here : args.leaves[i]? = some (a, tx)) :
    ∃ siblings, Published crypto args i ⟨a, tx, siblings⟩ := by
  obtain ⟨path, own⟩ := drawn_of_lt (List.getElem?_eq_some_iff.mp here).1
  exact ⟨path, here, own⟩

theorem PostedAs.leaf_unique (postedAs : PostedAs crypto c r args) (proven : proveLeaf crypto r i leaf = .ok ())
    (free : Set.InjOn crypto.sha256 {b | b ∈ opened crypto i leaf.startPc leaf.txBytes leaf.siblings ∨
      b ∈ openings crypto args.leaves}) : args.leaves[i]? = some (leaf.startPc, leaf.txBytes) := by
  have accepted := proveLeaf_eq_ok.mp proven
  have inside := (proves_eq_true.mp accepted).1
  rw [postedAs.claims.1, ← postedAs.unzip.1] at inside
  obtain ⟨siblings, own⟩ : ∃ siblings, Published crypto args i ⟨_, _, siblings⟩ :=
    exists_published (List.getElem?_eq_getElem inside)
  have honest := proveLeaf_eq_ok.mp (postedAs.proves_published own)
  obtain ⟨start, bytes, -⟩ := opening_unique (free.mono fun b among =>
    among.imp_right (opened_subset_openings own.1 own.2)) accepted honest
  rw [start, bytes]
  exact own.1

end Assertions

/-- The leaves a call shows, each with its place among `count`. -/
def Call.leaves (count : Nat) : Call → List (Nat × LeafArgs)
  | .oneStep _ index leaf _ | .proveUncompilable _ _ index leaf => [(index.val, leaf)]
  | .proveStartGap _ _ index a b => [(index.val, a), (index.val + 1, b)]
  | .proveTraceLength _ _ leaf => [(count - 1, leaf)]
  | _ => []

/-- The strings hashed to open the leaves a call shows, and those of the batch. -/
def Call.openings (crypto : Crypto) (args : Posting) (c : Call) : Set Bytes :=
  {b | (∃ shown ∈ c.leaves args.txBytes.length,
      b ∈ BatchVerifier.opened crypto shown.1 shown.2.startPc shown.2.txBytes shown.2.siblings) ∨
    b ∈ BatchVerifier.openings crypto args.leaves}

namespace L1

variable {crypto : Crypto} {w w' : L1} {who : Address} {c : Call} {key : Bytes} {args : Posting} {r : Assertion}
  {leaf : LeafArgs}

theorem compileLeaf_eq {chain : Chain} (postedAs : PostedAs crypto chain r args) (judged : Judged crypto reg args tx) :
    compileLeaf crypto reg r tx = compiled crypto reg.keylessSetup args tx := by
  obtain ⟨_, _, timestamp, baseFee, recipient, _⟩ := postedAs.claims
  rw [compileLeaf, timestamp, baseFee, recipient]
  split
  · rfl
  · rename_i keyless
    have keyless : Compiler.isKeyless tx = true := by simpa using keyless
    obtain ⟨job, verdict, named, found, verified⟩ := judged keyless
    simp only [named, ok_bind, found]
    exact compile_of_verdict keyless verified

theorem registry_of_structural (accepted : w.call crypto who c = .ok w') (about : c.structural = some (registry, key)) :
    ∃ reg, w.registries registry = some reg := by
  cases c with
  | proveUncompilable | proveStartGap | proveTraceLength =>
    cases about
    obtain ⟨reg, known, _⟩ := bind_eq_ok.mp accepted
    exact ⟨reg, fetch_eq_ok.mp known⟩
  | _ => cases about

/-- What a proof about a batch shows is wrong with it. -/
theorem flaw_of_structural (accepted : w.call crypto who c = .ok w') (about : c.structural = some (registry, key))
    (known : w.registries registry = some reg) (found : w.chain.assertions key = some r)
    (postedAs : PostedAs crypto w.chain r args) (judged : ∀ tx ∈ args.txBytes, Judged crypto reg args tx)
    (free : Set.InjOn crypto.sha256 (c.openings crypto args)) :
    Flaw (lengthOf crypto reg.keylessSetup args) args.traceLength.val args.leaves := by
  obtain ⟨counted, traced, _⟩ := postedAs.claims
  have shown {i : Nat} {leaf : LeafArgs} (among : (i, leaf) ∈ c.leaves args.txBytes.length)
      (proven : proveLeaf crypto r i leaf = .ok ()) : args.leaves[i]? = some (leaf.startPc, leaf.txBytes) :=
    postedAs.leaf_unique proven (free.mono fun b => Or.imp_left fun opens => ⟨_, among, opens⟩)
  have programmed {i : Nat} {leaf : LeafArgs} {length : Option Nat} (among : (i, leaf) ∈ c.leaves args.txBytes.length)
      (made : leafProgram crypto reg r i leaf = .ok length) : args.leaves[i]? = some (leaf.startPc, leaf.txBytes) ∧
        lengthOf crypto reg.keylessSetup args leaf.txBytes = length := by
    simp only [leafProgram, bind_eq_ok] at made
    obtain ⟨_, proven, answer, compiled, same⟩ := made
    cases same
    have here := shown among proven
    have published : leaf.txBytes ∈ args.txBytes := (List.of_mem_zip (List.mem_of_getElem? here)).2
    refine ⟨here, ?_⟩
    rw [lengthOf, ← compileLeaf_eq postedAs (judged _ published), compiled]
    rfl
  cases c with
  | proveUncompilable registry assertion index leaf =>
    cases about
    simp only [call, proveUncompilable, disputeView, bind_eq_ok, fetch_eq_ok, ensure_eq_ok, known, found] at accepted
    obtain ⟨_, ⟨⟩, _, ⟨⟩, length, made, _, rfl, _⟩ := accepted
    obtain ⟨here, refused⟩ := programmed (List.mem_singleton_self _) made
    exact .uncompilable here refused
  | proveStartGap registry assertion index a b =>
    cases about
    simp only [call, proveStartGap, disputeView, bind_eq_ok, fetch_eq_ok, add_eq_ok, known, found] at accepted
    obtain ⟨_, ⟨⟩, _, ⟨⟩, length, made, next, one, _, proven, accepted⟩ := accepted
    obtain ⟨here, known⟩ := programmed (List.mem_cons_self ..) made
    cases length with
    | none => exact .uncompilable here known
    | some n =>
      simp only [bind_eq_ok, checked_eq_ok, ensure_eq_ok] at accepted
      obtain ⟨past, sum, _, differs, _⟩ := accepted
      have second : next.val = index.val + 1 := one
      rw [second] at proven
      exact .gap here (shown (by simp [Call.leaves]) proven) known (sum ▸ past.isLt) (sum ▸ differs)
  | proveTraceLength registry assertion leaf =>
    cases about
    simp only [call, proveTraceLength, disputeView, bind_eq_ok, fetch_eq_ok, ensure_eq_ok, known, found] at accepted
    obtain ⟨_, ⟨⟩, _, ⟨⟩, _, _, length, made, accepted⟩ := accepted
    rw [counted] at made
    obtain ⟨here, known⟩ := programmed (List.mem_singleton_self _) made
    cases length with
    | none => exact .uncompilable here known
    | some n =>
      simp only [bind_eq_ok, checked_eq_ok, ensure_eq_ok] at accepted
      obtain ⟨past, sum, _, differs, _⟩ := accepted
      rw [← postedAs.unzip.1] at here
      exact .total here known (sum ▸ past.isLt) (by rw [← sum, ← traced]; exact differs)
  | _ => cases about

theorem leafProgram_published (postedAs : PostedAs crypto w.chain r args) (own : Published crypto args i leaf)
    (judged : Judged crypto reg args leaf.txBytes) :
    leafProgram crypto reg r i leaf = .ok (lengthOf crypto reg.keylessSetup args leaf.txBytes) := by
  obtain ⟨answer, made, _⟩ : ∃ answer, compiled crypto reg.keylessSetup args leaf.txBytes = .ok answer ∧ _ :=
    compiled_total postedAs.recipient leaf.txBytes
  rw [leafProgram, postedAs.proves_published own, ok_bind, compileLeaf_eq postedAs judged, lengthOf, made]
  rfl

theorem applyStructuralWin_accepts (sound : Sound crypto w.chain) (free : w.chain.Unblocked)
    (challenging : hasOpenChallenge w.chain key who = true) (registry : Address) :
    ∃ w', applyStructuralWin w registry key who = .ok w' := by
  obtain ⟨chain, won⟩ := ((sound.payable free w.now).won key who).mpr challenging
  exact ⟨_, by rw [applyStructuralWin, ensure_of challenging, won]; rfl⟩

section Shown

variable (known : w.registries registry = some reg) (found : w.chain.assertions key = some r)
  (postedAs : PostedAs crypto w.chain r args)
include known found postedAs

theorem proveUncompilable_published {i : U64} (own : Published crypto args i.val leaf)
    (judged : Judged crypto reg args leaf.txBytes) (refused : lengthOf crypto reg.keylessSetup args leaf.txBytes = none) :
    w.call crypto who (.proveUncompilable registry key i leaf) = applyStructuralWin w registry key who := by
  simp [call, proveUncompilable, disputeView, fetch, known, found, leafProgram_published postedAs own judged, refused,
    ensure_of]

theorem proveStartGap_published {i : U64} {a b : LeafArgs} (own : Published crypto args i.val a)
    (judged : Judged crypto reg args a.txBytes) (next : Published crypto args (i.val + 1) b)
    (length : lengthOf crypto reg.keylessSetup args a.txBytes = some n) (fits : a.startPc.val + n < 2 ^ 64)
    (differs : b.startPc.val ≠ a.startPc.val + n) :
    w.call crypto who (.proveStartGap registry key i a b) = applyStructuralWin w registry key who := by
  have inside := (List.getElem?_eq_some_iff.mp next.1).1
  have few := postedAs.root.2.2
  have one : add i 1 = .ok ⟨i.val + 1, by omega⟩ := add_eq_ok.mpr rfl
  simp [call, proveStartGap, disputeView, fetch, known, found, leafProgram_published postedAs own judged, one,
    postedAs.proves_published next, length, checked_of_lt fits, ensure_of, differs]

theorem proveTraceLength_published (own : Published crypto args (args.txBytes.length - 1) leaf)
    (judged : Judged crypto reg args leaf.txBytes)
    (differs : ∀ n, lengthOf crypto reg.keylessSetup args leaf.txBytes = some n →
      leaf.startPc.val + n < 2 ^ 64 ∧ leaf.startPc.val + n ≠ args.traceLength.val) :
    w.call crypto who (.proveTraceLength registry key leaf) = applyStructuralWin w registry key who := by
  obtain ⟨counted, traced, _⟩ := postedAs.claims
  have inside := (List.getElem?_eq_some_iff.mp own.1).1
  rw [postedAs.unzip.1] at inside
  cases length : lengthOf crypto reg.keylessSetup args leaf.txBytes with
  | none =>
    simp [call, proveTraceLength, disputeView, fetch, known, found, counted,
      leafProgram_published postedAs own judged, length, ensure_of, show 0 < args.txBytes.length by omega]
  | some n =>
    obtain ⟨fits, differs⟩ := differs n length
    simp [call, proveTraceLength, disputeView, fetch, known, found, counted, traced,
      leafProgram_published postedAs own judged, length, checked_of_lt fits, ensure_of, differs,
      show 0 < args.txBytes.length by omega]

/-- A flaw can be shown from the published data. -/
theorem structural_of_flaw (sound : Sound crypto w.chain) (free : w.chain.Unblocked)
    (challenging : hasOpenChallenge w.chain key who = true) (judged : ∀ tx ∈ args.txBytes, Judged crypto reg args tx)
    (flaw : Flaw (lengthOf crypto reg.keylessSetup args) args.traceLength.val args.leaves) :
    ∃ c w', c.structural = some (registry, key) ∧
      (∀ shown ∈ c.leaves args.txBytes.length, Published crypto args shown.1 shown.2) ∧
      w.call crypto who c = .ok w' := by
  obtain ⟨w', won⟩ := applyStructuralWin_accepts sound free challenging registry
  have index {i : Nat} {leaf : U64 × Bytes} (here : args.leaves[i]? = some leaf) : i < 2 ^ 64 :=
    Nat.lt_of_lt_of_le (List.getElem?_eq_some_iff.mp here).1 (Nat.le_trans postedAs.root.2.2 (by decide))
  have published {i : Nat} {a : U64} {tx : Bytes} (here : args.leaves[i]? = some (a, tx)) :
      (∃ siblings, Published crypto args i ⟨a, tx, siblings⟩) ∧ Judged crypto reg args tx :=
    ⟨exists_published here, judged tx (List.of_mem_zip (List.mem_of_getElem? here)).2⟩
  cases flaw with
  | @uncompilable a tx i here refused =>
    obtain ⟨⟨siblings, own⟩, judged⟩ := published here
    refine ⟨.proveUncompilable registry key ⟨i, index here⟩ ⟨a, tx, siblings⟩, w', rfl,
      by simpa [Call.leaves] using own, ?_⟩
    rw [proveUncompilable_published known found postedAs own judged refused, won]
  | @gap a tx b tx' n i here next length fits differs =>
    obtain ⟨⟨path, own⟩, judged⟩ := published here
    obtain ⟨⟨path', own'⟩, -⟩ := published next
    refine ⟨.proveStartGap registry key ⟨i, index here⟩ ⟨a, tx, path⟩ ⟨b, tx', path'⟩, w', rfl, by
      simpa [Call.leaves] using ⟨own, own'⟩, ?_⟩
    rw [proveStartGap_published known found postedAs own judged own' length fits differs, won]
  | @total a tx n last length fits differs =>
    obtain ⟨⟨path, own⟩, judged⟩ := published last
    rw [postedAs.unzip.1] at own
    refine ⟨.proveTraceLength registry key ⟨a, tx, path⟩, w', rfl, by simpa [Call.leaves] using own, ?_⟩
    rw [proveTraceLength_published known found postedAs own judged fun m same => ?_, won]
    cases length.symm.trans same
    exact ⟨fits, differs⟩

end Shown

theorem laid_or_flaw_of_posted {c : Chain} (postedAs : PostedAs crypto c r args) (some' : args.txBytes ≠ []) (setup : UInt8) :
    Laid (lengthOf crypto setup args) args.traceLength.val 0 args.leaves ∨
      Flaw (lengthOf crypto setup args) args.traceLength.val args.leaves := by
  refine laid_or_flaw (fun _ _ length => (lengthOf_bounds postedAs.recipient length).2) ?_ (fun leaf first => ?_) ?_
  · have few := postedAs.root.2.2
    omega
  · have starts := congrArg (·[0]?) postedAs.unzip.2.1
    simp only [List.getElem?_map, first, Option.map_some] at starts
    exact firstStart_of_shape postedAs.shape (mt List.length_eq_zero_iff.mp some') starts.symm
  · rw [ne_eq, ← List.length_eq_zero_iff, postedAs.unzip.1, List.length_eq_zero_iff]
    exact some'

/-- The deployment's own registry stays, with the setup it was deployed with. -/
theorem Reachable.registry (reachable : Reachable crypto plan w) :
    ∃ reg, w.registries plan.admin = some reg ∧ reg.keylessSetup = plan.keylessSetup := by
  obtain ⟨start, now, deployed, steps⟩ := reachable
  have created := (deploy_eq_ok deployed).2.2.2
  exact registry_of_steps steps (r := .new plan.keylessSetup) (by simp [created])

/-- Proofs about a batch are sound and complete exactly if a batch whose leaves lie end to
end under the deployment's setup does so under that of every registry. Then none is
accepted against it, whatever leaves it shows and in whatever registry, and every step
lies in one leaf; against any other batch one that shows published leaves is. -/
theorem structural_proofs_are_exact {plan : Deployment} (reachable : Reachable crypto plan w)
    (free : w.chain.Unblocked) (found : w.chain.assertions key = some r) (postedAs : PostedAs crypto w.chain r args)
    (some' : args.txBytes ≠ [])
    (judged : ∀ registry reg, w.registries registry = some reg → ∀ tx ∈ args.txBytes, Judged crypto reg args tx)
    (apart : Set.InjOn crypto.sha256 {b | b ∈ BatchVerifier.openings crypto args.leaves})
    (challenging : hasOpenChallenge w.chain key who = true) :
    let laid setup := Laid (lengthOf crypto setup args) args.traceLength.val 0 args.leaves
    let covers := Covers (lengthOf crypto plan.keylessSetup args) args.leaves
    ((laid plan.keylessSetup →
      (∀ c registry w', c.structural = some (registry, key) → Set.InjOn crypto.sha256 (c.openings crypto args) →
        w.call crypto who c ≠ .ok w') ∧
      ∀ pc < args.traceLength.val, ∃ i, covers pc i ∧ ∀ j, covers pc j → j = i) ∧
    (¬laid plan.keylessSetup → ∃ c registry w', c.structural = some (registry, key) ∧
      (∀ shown ∈ c.leaves args.txBytes.length, Published crypto args shown.1 shown.2) ∧
      w.call crypto who c = .ok w')) ↔
    (laid plan.keylessSetup → ∀ registry reg, w.registries registry = some reg → laid reg.keylessSetup) := by
  intro laid covers
  have shown {registry : Address} {reg : Registry} (known : w.registries registry = some reg)
      (unlaid : ¬laid reg.keylessSetup) :=
    structural_of_flaw known found postedAs reachable.sound free challenging (judged registry reg known)
      ((laid_or_flaw_of_posted postedAs some' reg.keylessSetup).resolve_left unlaid)
  constructor
  · rintro ⟨refused, -⟩ own registry reg known
    by_contra unlaid
    obtain ⟨c, w', about, published, accepted⟩ := shown known unlaid
    refine (refused own).1 c registry w' about (apart.mono fun b among => ?_) accepted
    rcases among with ⟨leaf, member, opens⟩ | among
    · exact BatchVerifier.opened_subset_openings (published leaf member).1 (published leaf member).2 opens
    · exact among
  · intro everywhere
    refine ⟨fun own => ⟨fun c registry w' about free accepted => ?_, fun pc before => ?_⟩, fun unlaid => ?_⟩
    · obtain ⟨reg, known⟩ := registry_of_structural accepted about
      exact (everywhere own registry reg known).flawless
        (flaw_of_structural accepted about known found postedAs (judged registry reg known) free)
    · exact own.covers (Nat.zero_le _) before
    · obtain ⟨reg, known, setup⟩ := reachable.registry
      obtain ⟨c, w', about, published, accepted⟩ := shown known (setup ▸ unlaid)
      exact ⟨c, _, w', about, published, accepted⟩

theorem openings_single (crypto : Crypto) (a : U64) (tx : Bytes) :
    BatchVerifier.openings crypto [(a, tx)] = [BatchVerifier.leafImage 0 a tx] := rfl

/-- A batch of one transaction that nobody can decode is shown to be wrong. -/
theorem undecodable_is_shown : ∃ w key r args, Reachable hashing floorDeployment w ∧
    w.chain.assertions key = some r ∧ PostedAs hashing w.chain r args ∧ args.txBytes = [[]] ∧
    ∃ c registry w', c.structural = some (registry, key) ∧
      (∀ shown ∈ c.leaves 1, Published hashing args shown.1 shown.2) ∧ w.call hashing (.fill 32 3) c = .ok w' := by
  obtain ⟨w, played, at', challenging, ⟨r, found, _⟩, event, published, bytes, starts⟩ :
      ∃ w ∈ scenario (fun _ _ _ => True) hashing floorDeployment 0 challengeScript,
        w.chain.order[1]? = some (w.idAt 1) ∧ hasOpenChallenge w.chain (w.idAt 1) (.fill 32 3) = true ∧
        (∃ r ∈ w.chain.assertions (w.idAt 1), r.txCount = 1) ∧
        ∃ event ∈ w.chain.published[0]?, event.txBytes = [[]] ∧ event.txStarts = [0] := by
    decide +kernel
  have reachable := reachable_of_scenario played
  obtain ⟨args, postedAs, same⟩ := reachable.sound.archived.events 0 _ r at' found
  obtain rfl : args.event (w.idAt 1) = event := Option.some.inj (same.symm.trans published)
  change args.txBytes = [[]] at bytes
  change args.txStarts = [0] at starts
  have leaves : args.leaves = [(0, [])] := by rw [Posting.leaves, bytes, starts]; rfl
  -- no setup makes a program of it
  have unlaid (setup : UInt8) : ¬Laid (lengthOf hashing setup args) args.traceLength.val 0 args.leaves := by
    rw [leaves]
    rintro ⟨_, n, length, _⟩
    obtain ⟨e, refused⟩ : ∃ e, Transaction.decode [] = .error e := ⟨_, rfl⟩
    rw [lengthOf, compiled, Compiler.compile_of_not_decode refused] at length
    cases length
  have proofs := (structural_proofs_are_exact reachable (reachable.unblocked fun _ _ => rfl) found postedAs
    (by simp [bytes]) (fun _ _ _ tx among keyless => by
      obtain rfl : tx = [] := by simpa [bytes] using among
      cases keyless)
    (by simp [leaves, openings_single]) challenging).mpr fun laid => absurd laid (unlaid _)
  rw [bytes] at proofs
  exact ⟨w, _, r, args, reachable, found, postedAs, bytes, proofs.2 (unlaid _)⟩

/-- SHA-256 as it is. Every signature verifies, and every proof under the devnet's setup. -/
def trusting : Crypto where
  sha256 := Sha256.digest
  ed25519Strict := fun _ _ _ => .ok ()
  publicInputsHash := fun _ => some 0
  groth16Verify := fun setup _ _ => setup = MoveKeyless.SETUP_APTOS_DEVNET_INSECURE

/-- A deployment whose keyless accounts are those of the devnet. -/
def keylessDeployment : Deployment := { floorDeployment with keylessSetup := MoveKeyless.SETUP_APTOS_DEVNET_INSECURE }

/-- A transfer from a keyless account. -/
def keylessTransfer : Bytes := Transaction.encode {
  sender := trusting.commit .keylessAddress [TrieVerifier.zero, TrieVerifier.zero]
  nonce := 0
  feeAsset := 0
  feeRate := 1
  feeIntrinsicGas := 0
  gasLimit := 1000000
  maxFeePerGas := 1000000
  maxPriorityFeePerGas := 1000000
  payload := .transfer Hash256.zero 0 1
  authenticator := .keyless {
    issHash := .fill 32 0, idc := .fill 32 0, ephemeralPublicKey := .fill 32 0, ephemeralSignature := .fill 64 0
    expDateSecs := 1, expHorizonSecs := 0, jwtHeaderHash := .fill 32 0, jwkHash := .fill 32 0
    extraFieldHash := none, proof := .fill 128 0 } }

/-- The transfer is posted with the length of its program and challenged by an account that
has a registry of its own, with keyless accounts disabled. There its job says no. -/
def ownRegistryScript : List (L1 → Event) :=
  [fun w => .call (.fill 32 4) (.post {
      parent := w.idAt 0
      preStateRoot := w.rootAt 0
      postStateRoot := w.rootAt 0
      timestamp := w.now
      baseFee := 0
      feeRecipient := TrieVerifier.zero
      txBytes := [keylessTransfer]
      txStarts := [0]
      traceLength := 8
      bond := 0 }),
   fun w => .call (.fill 32 3) (.openChallenge (w.idAt 1) 0),
   fun _ => .call (.fill 32 3) (.initializeRegistry MoveKeyless.SETUP_DISABLED),
   fun w => .call (.fill 32 3) (.runJob (.fill 32 3) keylessTransfer w.now MoveKeyless.SETUP_DISABLED)]

/-- A challenger shows in a registry of its own that a keyless transfer does not compile,
while the batch is laid out as it should under the deployment's setup. -/
theorem own_registry_rejects_a_right_batch : ∃ w key r args reg, Reachable trusting keylessDeployment w ∧
    w.chain.assertions key = some r ∧ PostedAs trusting w.chain r args ∧ args.txBytes ≠ [] ∧
    hasOpenChallenge w.chain key (.fill 32 3) = true ∧
    Laid (lengthOf trusting keylessDeployment.keylessSetup args) args.traceLength.val 0 args.leaves ∧
    w.registries (.fill 32 3) = some reg ∧ (∀ tx ∈ args.txBytes, Judged trusting reg args tx) ∧
    ∃ c w', c.structural = some (.fill 32 3, key) ∧ Set.InjOn trusting.sha256 (c.openings trusting args) ∧
      w.call trusting (.fill 32 3) c = .ok w' := by
  obtain ⟨w, played, at', challenging, ⟨r, found, traced⟩, ⟨event, published, bytes, starts, length, reg, known,
      job, named, verdict, judged⟩, w', accepted⟩ :
      ∃ w ∈ scenario (fun _ _ _ => True) trusting keylessDeployment 0 ownRegistryScript,
        w.chain.order[1]? = some (w.idAt 1) ∧ hasOpenChallenge w.chain (w.idAt 1) (.fill 32 3) = true ∧
        (∃ r ∈ w.chain.assertions (w.idAt 1), r.traceLength = 8) ∧
        (∃ event ∈ w.chain.published[0]?, event.txBytes = [keylessTransfer] ∧ event.txStarts = [0] ∧
          (Compiler.compile trusting keylessTransfer event.timestamp event.baseFee event.feeRecipient
            MoveKeyless.SETUP_APTOS_DEVNET_INSECURE).toOption.join.map List.length = some 8 ∧
          ∃ reg ∈ w.registries (.fill 32 3),
          ∃ job, MoveKeyless.jobId trusting keylessTransfer event.timestamp reg.keylessSetup = .ok job ∧
            reg.jobs job = some false ∧
            jobVerdict trusting keylessTransfer event.timestamp reg.keylessSetup = .ok false) ∧
        ∃ w', w.call trusting (.fill 32 3) (.proveUncompilable (.fill 32 3) (w.idAt 1) 0
          ⟨0, keylessTransfer, []⟩) = .ok w' := by
    decide +kernel
  have reachable := reachable_of_scenario played
  obtain ⟨args, postedAs, same⟩ := reachable.sound.archived.events 0 _ r at' found
  obtain rfl : args.event (w.idAt 1) = event := Option.some.inj (same.symm.trans published)
  change args.txBytes = [keylessTransfer] at bytes
  change args.txStarts = [0] at starts
  have leaves : args.leaves = [(0, keylessTransfer)] := by rw [Posting.leaves, bytes, starts]; rfl
  refine ⟨w, _, r, args, reg, reachable, found, postedAs, by simp [bytes], challenging, ?_, known, fun tx among _ => ?_,
    _, w', rfl, ?_, accepted⟩
  · rw [leaves, ← postedAs.claims.2.1, traced]
    exact ⟨rfl, 8, length, rfl⟩
  · have same : tx = keylessTransfer := List.mem_singleton.mp (bytes ▸ among)
    rw [same]
    exact ⟨job, false, named, verdict, judged⟩
  · have single : Call.openings trusting args (.proveUncompilable (.fill 32 3) (w.idAt 1) 0 ⟨0, keylessTransfer, []⟩) ⊆
        {BatchVerifier.leafImage 0 0 keylessTransfer} := by
      rintro b (⟨shown, member, opens⟩ | among)
      · obtain rfl := List.mem_singleton.mp member
        simpa [BatchVerifier.opened, PaddedTree.joined] using opens
      · rw [leaves, openings_single] at among
        exact List.mem_singleton.mp among
    exact (Set.injOn_singleton _ _).mono single

end L1

end Sena
