import Sena.Games
import Sena.WatcherRuns

/-! Whether the watcher can read what anyone may write.

`post` checks the length of the fee recipient and not of the claimed root, and
`dissect` does not check the commitments it stores, while the client takes all of
them for digests. Where they are digests nothing on L1 stops the watcher. -/
namespace Sena
namespace Watcher

open Effects L1Client Relation Assertions

variable {crypto : Crypto} {config : Config} {s s' : Session} {key : Bytes}

/-- A record the client can read: its roots are digests and its count a u64. -/
structure Digests (r : Assertion) : Prop where
  pre : r.preStateRoot.length = 32
  post : r.postStateRoot.length = 32
  txRoot : r.txRoot.length = 32
  count : r.txCount < 2 ^ 64

theorem exists_hash {b : Bytes} : (∃ h : Hash256, h.bytes = b) ↔ b.length = 32 := by
  constructor
  · rintro ⟨h, rfl⟩
    exact h.bytes_length
  · exact fun length => ⟨⟨b, length⟩, rfl⟩

theorem parses_iff : (∃ rec, parseRecord (recordView r) = .ok rec) ↔ Digests r := by
  simp only [parseRecord_eq_ok]
  constructor
  · rintro ⟨_, pre, post, txRoot, txCount, atPre, atPost, atRoot, atCount, -⟩
    exact ⟨exists_hash.mp ⟨pre, atPre⟩, exists_hash.mp ⟨post, atPost⟩, exists_hash.mp ⟨txRoot, atRoot⟩,
      atCount ▸ txCount.isLt⟩
  · rintro ⟨pre, post, txRoot, count⟩
    obtain ⟨pre, atPre⟩ := exists_hash.mpr pre
    obtain ⟨post, atPost⟩ := exists_hash.mpr post
    obtain ⟨txRoot, atRoot⟩ := exists_hash.mpr txRoot
    exact ⟨_, pre, post, txRoot, ⟨_, count⟩, atPre, atPost, atRoot, rfl, rfl⟩

section
variable {r : Assertion} (parsed : parseRecord (recordView r) = .ok rec)
include parsed

theorem postStateRoot_of_parse : rec.postStateRoot.bytes = r.postStateRoot := by
  obtain ⟨_, post, _, _, _, atPost, _, _, rfl⟩ := parseRecord_eq_ok.mp parsed
  exact atPost

theorem parent_of_parse : rec.parent = r.parent := by
  obtain ⟨_, _, _, _, _, _, _, _, rfl⟩ := parseRecord_eq_ok.mp parsed
  rfl

theorem preStateRoot_of_parse : rec.preStateRoot.bytes = r.preStateRoot := by
  obtain ⟨pre, _, _, _, atPre, _, _, _, rfl⟩ := parseRecord_eq_ok.mp parsed
  exact atPre

end

theorem Digests.updates {r : Assertion} (updates : r.Updates r') : Digests r' ↔ Digests r := by
  rw [updates.claim]
  exact ⟨fun ⟨a, b, c, d⟩ => ⟨a, b, c, d⟩, fun ⟨a, b, c, d⟩ => ⟨a, b, c, d⟩⟩

/-- The posts whose claimed root is a digest. -/
def DigestPosts (_ : L1) (_ : Address) : Call → Prop
  | .post args => args.postStateRoot.length = 32
  | _ => True

instance : Decidable (DigestPosts w who c) := by
  induction c using Call.casesOn <;> first | exact isTrue trivial | exact inferInstanceAs (Decidable (_ = _))

theorem paired_of_shape (shape : checkBatchShape starts count length before after = .ok ()) :
    starts.length = count := by
  simp only [checkBatchShape, Move.bind_eq_ok, Move.ensure_eq_ok] at shape
  obtain ⟨_, paired, -⟩ := shape
  exact paired

theorem traceLength_of_shape (shape : checkBatchShape starts count length before after = .ok ()) (none' : count = 0) :
    length.val = 0 := by
  simp only [checkBatchShape, if_pos none', Move.bind_eq_ok, Move.ensure_eq_ok] at shape
  obtain ⟨_, _, zero, _⟩ := shape
  exact zero

theorem length_of_rootOf (shape : checkBatchShape starts txs.length length before after = .ok ())
    (computed : BatchVerifier.rootOf crypto txs starts = .ok root) : root.length = 32 := by
  rw [BatchVerifier.rootOf_build (paired_of_shape shape) (BatchVerifier.framable_of_rootOf computed)]
    at computed
  cases computed
  exact FixedBytes.bytes_length _

/-- Every record can be read, if every claimed root is a digest. -/
def Readable (c : Chain) : Prop := ∀ key r, c.assertions key = some r → Digests r

theorem readable_step (step : L1.StepWhen crypto DigestPosts w w') (sound : Sound crypto w.chain)
    (readable : Readable w.chain) : Readable w'.chain := by
  intro key r' found
  rcases step.record_from sound found with
    ⟨r, before, updates⟩ | ⟨who, args, parent, txRoot, commitment, digest, encodable, posted, rfl⟩
  · exact (Digests.updates updates).mpr (readable key r before)
  · refine ⟨?_, digest, length_of_rootOf posted.shape posted.rooted, ?_⟩
    · change args.preStateRoot.length = 32
      rw [← posted.continues]
      exact (readable _ _ posted.parentAt).post
    · exact Nat.lt_of_le_of_lt encodable (by decide)

theorem readable_steps (steps : ReflTransGen (L1.StepWhen crypto DigestPosts) w w')
    (sound : Sound crypto w.chain) (readable : Readable w.chain) : Readable w'.chain := by
  induction steps with
  | refl => exact readable
  | tail before last ih =>
    exact readable_step last (sound_of_moves sound (L1.moves_of_steps before)) ih

/-- The batch a posting publishes, as the client returns it. -/
def published (args : Posting) (key : Bytes) (recipient : L2Address) : PublishedBatch :=
  ⟨key, args.timestamp, args.baseFee, recipient, args.txBytes, args.txStarts⟩

theorem listed_of_event (sound : Sound crypto c) (event : c.published[j]? = some e) :
    c.order[j + 1]? = some e.assertion := by
  have inside := (List.getElem?_eq_some_iff.mp event).1
  have length := sound.archived.length
  have at' : c.order[j + 1]? = some c.order[j + 1] := List.getElem?_eq_getElem (by omega)
  obtain ⟨r, known⟩ := Option.isSome_iff_exists.mp
    ((sound.ordered.listed _).mp (List.mem_of_getElem? at'))
  obtain ⟨args, -, event'⟩ := sound.archived.events j _ r at' known
  rw [event, Option.some.injEq] at event'
  rw [at', event']
  rfl

/-- The events are found by the ids they carry. -/
theorem find_published (sound : Sound crypto c) (listed : c.order[i + 1]? = some key)
    (event : c.published[i]? = some e) (carries : e.assertion = key) :
    c.published.find? (·.assertion = key) = some e := by
  cases found : c.published.find? (·.assertion = key) with
  | none =>
    have missing := List.find?_eq_none.mp found e (List.mem_of_getElem? event)
    simp [carries] at missing
  | some other =>
    -- whatever is found stands where the key stands in the posting order
    obtain ⟨j, here⟩ := List.mem_iff_getElem?.mp (List.mem_of_find?_eq_some found)
    have same : other.assertion = key := by simpa using List.find?_some found
    have twice : c.order[j + 1]? = c.order[i + 1]? := by rw [listed_of_event sound here, same, listed]
    have before := (List.getElem?_eq_some_iff.mp (listed_of_event sound here)).1
    obtain rfl : j = i := by
      simpa using (List.getElem?_inj before sound.ordered.nodup).mp twice
    exact here.symm.trans event

theorem publishedBatch_of_sound (sound : Sound crypto c) (listed : c.order[i + 1]? = some key)
    (found : c.assertions key = some r) :
    ∃ args recipient, PostedAs crypto c r args ∧ recipient.bytes = args.feeRecipient ∧
      publishedBatch c key = .ok (some (published args key recipient)) := by
  obtain ⟨args, postedAs, event⟩ := sound.archived.events i key r listed found
  have address : FixedBytes.ofBytes? 32 args.feeRecipient = some ⟨_, postedAs.recipient⟩ :=
    FixedBytes.ofBytes?_eq_some.mpr rfl
  refine ⟨args, ⟨_, postedAs.recipient⟩, postedAs, rfl, ?_⟩
  rw [publishedBatch, find_published sound listed event rfl]
  simp only [parseBatchEvent, Posting.event, address]
  rfl

theorem decodeAll_eq_ok : decodeAll i items = .ok txs ↔
    List.Forall₂ (fun b tx => Transaction.decode b = .ok tx) items txs := by
  induction items generalizing i txs with
  | nil => simp [decodeAll, eq_comm]
  | cons b rest ih =>
    rw [decodeAll]
    cases decoded : Transaction.decode b with
    | error e => cases txs <;> simp [decoded]
    | ok tx => cases txs <;> simp [decoded, Move.bind_eq_ok, Move.pure_eq_ok, ih, and_comm]

theorem compileAll_eq_ok : compileAll crypto ctx i txs = .ok programs ↔
    List.Forall₂ (fun tx program => Execute.compile crypto tx ctx = .ok program) txs programs := by
  induction txs generalizing i programs with
  | nil => simp [compileAll, eq_comm]
  | cons tx rest ih =>
    rw [compileAll]
    cases compiled : Execute.compile crypto tx ctx with
    | error e => cases programs <;> simp [compiled]
    | ok program => cases programs <;> simp [compiled, Move.bind_eq_ok, Move.pure_eq_ok, ih, and_comm]

theorem length_startsFrom (start : Nat) (programs : List (List Instruction)) :
    (startsFrom start programs).length = programs.length := by
  induction programs generalizing start with
  | nil => rfl
  | cons program rest ih => simp [startsFrom, ih]

theorem firstGap_total {own : List Nat} {starts : List U64} (paired : own.length = starts.length) :
    ∃ gap, firstGap i own starts = .ok gap := by
  induction own generalizing i starts with
  | nil => exact ⟨none, by simp [firstGap]⟩
  | cons first rest ih =>
    cases starts with
    | nil => cases paired
    | cons start others =>
      rw [firstGap]
      split
      · exact ⟨_, rfl⟩
      · exact ih (by simpa using paired)

theorem judge_total {replica : MerkleTrie} (paired : b.txStarts.length = b.txBytes.length)
    (begins : rec.preStateRoot = replica.root) :
    ∃ verdict, judge crypto config replica rec b = .ok verdict := by
  cases decoded : decodeAll 0 b.txBytes with
  | error i => exact ⟨some (.uncompilable i), by simp [judge, decoded]⟩
  | ok txs =>
    cases replayed : replay crypto replica txs (context config b) with
    | error i => exact ⟨some (.uncompilable i), by simp [judge, decoded, begins, replayed]⟩
    | ok r =>
      obtain ⟨programs, compiled, rfl⟩ := replay_eq_ok.mp replayed
      have lengths : (startsFrom 0 programs).tail.length = b.txStarts.tail.length := by
        simp [length_startsFrom, ← (compileAll_eq_ok.mp compiled).length_eq,
          ← (decodeAll_eq_ok.mp decoded).length_eq, paired]
      obtain ⟨gap, starts⟩ := firstGap_total (i := 1) lengths
      rw [judge_of_replay decoded begins replayed, show (Replay.of crypto replica programs).txStarts =
        startsFrom 0 programs from rfl, starts]
      exact ⟨_, rfl⟩

/-- The watcher stands on an assertion of the chain, with the state it claims. -/
structure Follows (crypto : Crypto) (s : Session) : Prop where
  sound : Sound crypto s.l1.chain
  started : 0 < s.cursor
  head : ∃ r, s.l1.chain.assertions s.head = some r ∧ r.postStateRoot = s.replica.root.bytes

theorem Starts.follows (starts : Starts crypto config d trie s) : Follows crypto s := by
  obtain ⟨sound, cursor, replica, -, -, -, assertions, -⟩ := starts.begins
  refine ⟨sound, by omega, genesis d.admin d.genesisRoot, by simp [assertions], ?_⟩
  rw [replica]
  exact starts.rooted.symm

theorem Follows.evolve (follows : Follows crypto s) (moves : ReflTransGen (Moves crypto) s.l1.chain l1.chain)
    (cursor : s.cursor ≤ s'.cursor) (here : s'.l1 = l1) (head : s'.head = s.head)
    (replica : s'.replica = s.replica) : Follows crypto s' := by
  obtain ⟨sound, started, r, found, claimed⟩ := follows
  obtain ⟨r', found', updates⟩ := (evolves_of_moves moves).records _ r found
  subst here
  refine ⟨sound_of_moves sound moves, by omega, r', by rw [head, found'], ?_⟩
  rw [updates.claim, replica]
  exact claimed

/-- A turn leaves the watcher on its head, or it adopts the assertion at its cursor. -/
theorem Turn.stays_or_adopts (turn : Turn crypto config allowed may s s') :
    (s.cursor ≤ s'.cursor ∧ s'.head = s.head ∧ s'.replica = s.replica) ∨
      ∃ rec b r, Reading s s'.head rec ∧ Concerns s rec ∧ publishedBatch s.l1.chain s'.head = .ok (some b) ∧
        Confirmed crypto config s.replica rec b r ∧ s'.l1 = s.l1 ∧ s'.cursor = s.cursor + 1 ∧ s'.replica = r.post := by
  have stays {s₁ : Session} (acts : Acts crypto config s s₁) :
      s.cursor ≤ s₁.cursor ∧ s₁.head = s.head ∧ s₁.replica = s.replica :=
    ⟨(stays_of_happens acts).1.ge, (stays_of_happens acts).2⟩
  cases turn with
  | call | tick | reported => exact .inl ⟨Nat.le_refl _, rfl, rfl⟩
  | played now game => exact .inl (stays (does_playGame now game s))
  | examined =>
    have examined := examined_of_examineNext crypto config s
    generalize (outcome (examineNext crypto config) s).2 = after at examined
    cases examined with
    | stopped acts => exact .inl (stays acts)
    | passed => exact .inl ⟨Nat.le_succ _, rfl, rfl⟩
    | adopted reading concerns published confirmed =>
      exact .inr ⟨_, _, _, reading, concerns, published, confirmed, rfl, rfl, rfl⟩
    | challenged _ _ _ _ _ _ acts =>
      obtain ⟨cursor, still⟩ := stays acts
      exact .inl ⟨Nat.le_succ_of_le cursor, still⟩

theorem Follows.turn (follows : Follows crypto s) (turn : Turn crypto config allowed may s s') :
    Follows crypto s' := by
  rcases turn.stays_or_adopts with ⟨cursor, head, replica⟩ |
    ⟨rec, b, r, reading, -, -, confirmed, l1, cursor, replica⟩
  · exact follows.evolve turn.moves cursor rfl head replica
  · obtain ⟨held, found, parsed⟩ := reading.parsed
    refine ⟨l1 ▸ follows.sound, by omega, held, by rw [l1, found], ?_⟩
    rw [replica, confirmed.result]
    exact (postStateRoot_of_parse parsed).symm

theorem Follows.turns (follows : Follows crypto s)
    (turns : ReflTransGen (Turn crypto config allowed may) s s') : Follows crypto s' := by
  induction turns with
  | refl => exact follows
  | tail _ last ih => exact ih.turn last

/-- The assertion at the cursor continues the watcher's head and is wrong. -/
def NeedsChallenge (crypto : Crypto) (config : Config) (s : Session) (key : Bytes) : Prop :=
  ∃ rec b fault, Reading s key rec ∧ Concerns s rec ∧ publishedBatch s.l1.chain key = .ok (some b) ∧
    judge crypto config s.replica rec b = .ok (some fault)

theorem returns_examineNext (reading : Reading s key rec)
    (looked : Returns (examineAssertion crypto config key rec) s () s') :
    Returns (examineNext crypto config) s () { s' with
      cursor := s'.cursor + 1
      saved := ⟨s'.cursor + 1, s'.head, s'.replica.toBytes, s'.games⟩ } := by
  obtain ⟨listed, parsed⟩ := reading
  refine returns_bind.mpr ⟨s, s, rfl, ?_⟩
  refine returns_bind.mpr ⟨[.ofBytes key], s, returns_view.mpr ⟨?_, rfl⟩, ?_⟩
  · simp [assertionAtView, assertionAt, Move.borrow_eq_ok.mpr listed, Move.ok_bind, Move.pure_eq_ok]
  refine returns_bind.mpr ⟨key, s, returns_parsed.mpr ⟨bytesOf_ofBytes key, rfl⟩, ?_⟩
  refine returns_bind.mpr ⟨rec, s, returns_record.mpr ⟨parsed, rfl⟩, ?_⟩
  refine returns_bind.mpr ⟨(), s', looked, ?_⟩
  exact returns_bind.mpr ⟨(), _, returns_modify.mpr rfl, returns_modify.mpr rfl⟩

theorem returns_passed (other : ¬Concerns s rec) : Returns (examineAssertion crypto config key rec) s () s := by
  refine returns_bind.mpr ⟨s, s, rfl, ?_⟩
  rw [if_neg (show ¬(_ ∧ _) from other)]
  rfl

theorem returns_adopted (concerns : Concerns s rec) (published : publishedBatch s.l1.chain key = .ok (some b))
    (confirmed : Confirmed crypto config s.replica rec b r) :
    Returns (examineAssertion crypto config key rec) s () { s with
      replica := r.post, head := key
      report := { s.report with verified := s.report.verified + 1 } } := by
  obtain ⟨txs, decoded, replayed⟩ := confirmed.replayed
  refine returns_bind.mpr ⟨s, s, rfl, ?_⟩
  rw [if_pos (show _ ∧ _ from concerns)]
  refine returns_bind.mpr ⟨b, s, returns_batch.mpr ⟨published, rfl⟩, ?_⟩
  refine returns_bind.mpr ⟨none, s, returns_lifted.mpr ⟨judge_eq_none.mpr ⟨r, confirmed⟩, rfl⟩, ?_⟩
  simp only [decoded, Except.toOption, Option.getD_some, replayed]
  rfl

theorem begins_of_concerns (follows : Follows crypto s) (postedAs : PostedAs crypto s.l1.chain r args)
    (parsed : parseRecord (recordView r) = .ok rec) (concerns : Concerns s rec) :
    rec.preStateRoot = s.replica.root := by
  obtain ⟨p, parentAt, continues⟩ := postedAs.continues
  obtain ⟨proposer, now, commitment, updates⟩ := postedAs.record
  obtain ⟨head, headAt, claimed⟩ := follows.head
  have parent : args.parent = s.head := by
    rw [← concerns.1, parent_of_parse parsed, updates.claim]
    rfl
  obtain rfl : p = head := by simpa [parent, headAt, eq_comm] using parentAt
  apply FixedBytes.ext
  rw [preStateRoot_of_parse parsed, updates.claim, ← claimed, continues]
  rfl

theorem passes_or_needsChallenge (follows : Follows crypto s) (readable : Readable s.l1.chain)
    (listed : s.l1.chain.order[s.cursor]? = some key) :
    (∃ s', Returns (examineNext crypto config) s () s' ∧ s'.cursor = s.cursor + 1) ∨
      NeedsChallenge crypto config s key := by
  obtain ⟨i, next⟩ : ∃ i, s.cursor = i + 1 := ⟨s.cursor - 1, by have := follows.started; omega⟩
  obtain ⟨r, found⟩ := Option.isSome_iff_exists.mp
    ((follows.sound.ordered.listed key).mp (List.mem_of_getElem? listed))
  obtain ⟨rec, parsed⟩ := parses_iff.mpr (readable key r found)
  have reading : Reading s key rec := ⟨listed, r, found, parsed⟩
  by_cases concerns : Concerns s rec
  · obtain ⟨args, recipient, postedAs, -, fetched⟩ :=
      publishedBatch_of_sound follows.sound (next ▸ listed) found
    have begins := begins_of_concerns follows postedAs parsed concerns
    obtain ⟨verdict, judged⟩ : ∃ verdict, judge crypto config s.replica rec
        (published args key recipient) = .ok verdict :=
      judge_total (paired_of_shape postedAs.shape) begins
    cases verdict with
    | some fault => exact .inr ⟨rec, _, fault, reading, concerns, fetched, judged⟩
    | none =>
      obtain ⟨_, confirmed⟩ := judge_eq_none.mp judged
      exact .inl ⟨_, returns_examineNext reading (returns_adopted concerns fetched confirmed), rfl⟩
  · exact .inl ⟨_, returns_examineNext reading (returns_passed concerns), rfl⟩

/-- Where every claimed root is a digest, every record is read and every assertion
that needs no challenge is passed. -/
theorem examine_reads_every_assertion {trie : MerkleTrie} (starts : Starts crypto config d trie s)
    (run : ReflTransGen (Turn crypto config DigestPosts fun _ => True) s s') :
    (∀ key ∈ s'.l1.chain.order, ∃ r rec, s'.l1.chain.assertions key = some r ∧
      parseRecord (recordView r) = .ok rec) ∧
    ∀ key, s'.l1.chain.order[s'.cursor]? = some key →
      (∃ s'', Returns (examineNext crypto config) s' () s'' ∧ s''.cursor = s'.cursor + 1) ∨
        NeedsChallenge crypto config s' key := by
  obtain ⟨sound, -, -, -, -, -, assertions, -⟩ := starts.begins
  have own (w who c) (own : Own config w who c) : DigestPosts w who c := by
    cases c <;> first | trivial | cases own.2
  have readable : Readable s'.l1.chain := by
    refine readable_steps (steps_of_turns run own) sound fun key r found => ?_
    by_cases here : key = s.head
    · obtain rfl : genesis d.admin d.genesisRoot = r := by simpa [assertions, here] using found
      exact ⟨rfl, starts.rooted ▸ FixedBytes.bytes_length _, rfl, Nat.two_pow_pos 64⟩
    · simp [assertions, here] at found
  have follows := starts.follows.turns run
  refine ⟨fun key listed => ?_, fun key listed => passes_or_needsChallenge follows readable listed⟩
  obtain ⟨r, found⟩ := Option.isSome_iff_exists.mp ((follows.sound.ordered.listed key).mp listed)
  obtain ⟨rec, parsed⟩ := parses_iff.mpr (readable key r found)
  exact ⟨r, rec, found, parsed⟩

/-- An empty batch on genesis is read and passed. -/
theorem examine_reads_idle_post : ∃ s s', Starts L1.hashing floorConfig L1.floorDeployment .new s ∧
    ReflTransGen (Turn L1.hashing floorConfig DigestPosts fun _ => True) s s' ∧
    s'.l1.chain.order.length = 2 ∧ s'.cursor = 1 ∧
    (∀ key ∈ s'.l1.chain.order, ∃ r rec, s'.l1.chain.assertions key = some r ∧
      parseRecord (recordView r) = .ok rec) ∧
    ∀ key, s'.l1.chain.order[s'.cursor]? = some key →
      (∃ s'', Returns (examineNext L1.hashing floorConfig) s' () s'' ∧ s''.cursor = s'.cursor + 1) ∨
        NeedsChallenge L1.hashing floorConfig s' key := by
  obtain ⟨s', told, two, cursor⟩ :
      ∃ s ∈ story DigestPosts (fun _ => True) L1.hashing floorConfig L1.floorDeployment .new 0
        [fun s => .l1 (.call (.fill 32 3) (s.l1.idle 0 0))], s.l1.chain.order.length = 2 ∧ s.cursor = 1 := by
    decide +kernel
  obtain ⟨s, starts, turns⟩ := turns_of_story rfl told
  exact ⟨s, s', starts, turns, two, cursor, examine_reads_every_assertion starts turns⟩

/-- The chain holds an assertion on the first head whose published batch, replayed on
the first state, leaves the second. -/
def Adopts (crypto : Crypto) (config : Config) (c : Chain) (before after : Bytes × MerkleTrie) : Prop :=
  ∃ held rec b r, c.assertions after.1 = some held ∧ parseRecord (recordView held) = .ok rec ∧
    held.parent = before.1 ∧ publishedBatch c after.1 = .ok (some b) ∧
    Confirmed crypto config before.2 rec b r ∧ after.2 = r.post

theorem Adopts.evolve {c c' : Chain} (adopts : Adopts crypto config c before after) (evolves : Evolves c c') :
    Adopts crypto config c' before after := by
  obtain ⟨held, rec, b, r, found, parsed, parent, published, confirmed, replayed⟩ := adopts
  obtain ⟨held', found', updates⟩ := evolves.records _ held found
  refine ⟨held', { rec with status := held'.status.code }, b, r, found', ?_, ?_,
    publishedBatch_evolves evolves published, ?_, replayed⟩
  · exact parseRecord_updates updates parsed
  · rw [updates.claim]
    exact parent
  · obtain ⟨replayed, begins, starts, runs, ends, result⟩ := confirmed
    exact ⟨replayed, begins, starts, runs, ends, result⟩

/-- Whatever is posted and called, the published batches of the assertions from genesis to
the watcher's head, replayed one on another, lead to the state it stands on, and its head
claims that state. -/
theorem watcher_stands_on_replayed_state {trie : MerkleTrie} (starts : Starts crypto config d trie s)
    (turns : ReflTransGen (Turn crypto config allowed may) s s') :
    ReflTransGen (Adopts crypto config s'.l1.chain) (s.head, trie) (s'.head, s'.replica) ∧
      ∃ r, s'.l1.chain.assertions s'.head = some r ∧ r.postStateRoot = s'.replica.root.bytes := by
  refine ⟨?_, (starts.follows.turns turns).head⟩
  induction turns with
  | refl => rw [starts.begins.2.2.1]
  | tail _ last ih =>
    -- what was adopted stays on the chain
    have before := ReflTransGen.mono (fun _ _ adopts => adopts.evolve (evolves_of_moves last.moves)) _ _ ih
    rcases last.stays_or_adopts with ⟨_, head, replica⟩ |
      ⟨rec, b, r, reading, concerns, published, confirmed, l1, _, replica⟩
    · rw [head, replica]
      exact before
    · obtain ⟨held, found, parsed⟩ := reading.parsed
      rw [l1] at before ⊢
      exact before.tail ⟨held, rec, b, r, found, parsed, (parent_of_parse parsed).symm.trans concerns.1, published,
        confirmed, replica⟩

/-- An empty batch on genesis is adopted. -/
theorem idle_post_is_stood_on : ∃ s s' : Session, s'.cursor = 2 ∧ s'.l1.chain.order = [s.head, s'.head] ∧
    ReflTransGen (Adopts L1.hashing floorConfig s'.l1.chain) (s.head, .new) (s'.head, s'.replica) ∧
    ∃ r, s'.l1.chain.assertions s'.head = some r ∧ r.postStateRoot = s'.replica.root.bytes := by
  obtain ⟨s', told, cursor, head, two⟩ :
      ∃ s ∈ story DigestPosts (fun _ => True) L1.hashing floorConfig L1.floorDeployment .new 0
        [fun s => .l1 (.call (.fill 32 3) (s.l1.idle 0 0)), fun _ => .examine],
        s.cursor = 2 ∧ s.l1.chain.order[1]? = some s.head ∧ s.l1.chain.order.length = 2 := by
    decide +kernel
  obtain ⟨s, starts, turns⟩ := turns_of_story rfl told
  obtain ⟨first, second, listed⟩ := List.length_eq_two.mp two
  -- the order only grows, so it begins with the head the watcher started on
  obtain ⟨more, grown⟩ := (evolves_of_moves (moves_of_turns turns)).order
  rw [starts.begins.2.2.2.2.2.1, listed] at grown
  rw [listed] at head
  cases grown
  cases head
  exact ⟨s, s', cursor, listed, watcher_stands_on_replayed_state starts turns⟩

/-- The record at the cursor cannot be read. -/
def Blocked (s : Session) : Prop :=
  ∃ key r, s.l1.chain.order[s.cursor]? = some key ∧ s.l1.chain.assertions key = some r ∧ ¬Digests r

/-- A watcher once blocked stays where it is. -/
theorem Blocked.turn (blocked : Blocked s) (turn : Turn crypto config allowed may s s') :
    s'.cursor = s.cursor ∧ Blocked s' := by
  obtain ⟨key, r, listed, found, unreadable⟩ := blocked
  have evolves := evolves_of_moves turn.moves
  have still (cursor : s'.cursor = s.cursor) : s'.cursor = s.cursor ∧ Blocked s' := by
    obtain ⟨r', found', updates⟩ := evolves.records key r found
    refine ⟨cursor, key, r', ?_, found', mt (Digests.updates updates).mp unreadable⟩
    obtain ⟨more, grown⟩ := evolves.order
    rw [cursor, ← grown, List.getElem?_append_left (List.getElem?_eq_some_iff.mp listed).1, listed]
  have unread {key' : Bytes} {rec : Record} (reading : Reading s key' rec) : False := by
    obtain ⟨listed', r', found', parsed⟩ := reading
    obtain rfl : key = key' := by simpa [listed] using listed'
    obtain rfl : r = r' := by simpa [found] using found'
    exact unreadable (parses_iff.mp ⟨rec, parsed⟩)
  cases turn with
  | call | tick | reported => exact still rfl
  | played now game =>
    have acts : Acts crypto config s _ := does_playGame now game s
    exact still (stays_of_happens acts).1
  | examined =>
    have examined := examined_of_examineNext crypto config s
    generalize (outcome (examineNext crypto config) s).2 = after at still examined
    cases examined with
    | stopped acts => exact still (stays_of_happens acts).1
    | passed reading | adopted reading | challenged reading => exact (unread reading).elim

theorem Blocked.turns (blocked : Blocked s) (turns : ReflTransGen (Turn crypto config allowed may) s s') :
    s'.cursor = s.cursor ∧ Blocked s' := by
  induction turns with
  | refl => exact ⟨rfl, blocked⟩
  | tail _ last ih =>
    obtain ⟨cursor, blocked⟩ := ih
    obtain ⟨cursor', blocked⟩ := blocked.turn last
    exact ⟨cursor'.trans cursor, blocked⟩

instance (r : Assertion) : Decidable (Digests r) :=
  decidable_of_iff (r.preStateRoot.length = 32 ∧ r.postStateRoot.length = 32 ∧ r.txRoot.length = 32 ∧
    r.txCount < 2 ^ 64) ⟨fun ⟨a, b, c, d⟩ => ⟨a, b, c, d⟩, fun ⟨a, b, c, d⟩ => ⟨a, b, c, d⟩⟩

/-- A post whose claimed root is no digest: one transaction of no bytes. -/
def rootless (w : L1) : Call := .post {
  parent := w.idAt 0
  preStateRoot := w.rootAt 0
  postStateRoot := []
  timestamp := w.now
  baseFee := 0
  feeRecipient := TrieVerifier.zero
  txBytes := [[]]
  txStarts := [0]
  traceLength := 1
  bond := 0 }

theorem rootless_post_blocks_watcher : ∃ s s', Starts L1.hashing floorConfig L1.floorDeployment .new s ∧
    ReflTransGen (Turn L1.hashing floorConfig (fun _ _ _ => True) fun _ => True) s s' ∧
    (∃ key ∈ s'.l1.chain.order, ∀ r rec, s'.l1.chain.assertions key = some r →
      parseRecord (recordView r) ≠ .ok rec) ∧
    ∀ s'', ReflTransGen (Turn L1.hashing floorConfig (fun _ _ _ => True) fun _ => True) s' s'' →
      s''.cursor = s'.cursor := by
  obtain ⟨s', told, listed, r, found, unreadable⟩ :
      ∃ s ∈ story (fun _ _ _ => True) (fun _ => True) L1.hashing floorConfig L1.floorDeployment .new 0
        [fun s => .l1 (.call (.fill 32 3) (rootless s.l1))], s.l1.chain.order[s.cursor]? = some (s.l1.idAt 1) ∧
          ∃ r ∈ s.l1.chain.assertions (s.l1.idAt 1), ¬Digests r := by
    decide +kernel
  obtain ⟨s, starts, turns⟩ := turns_of_story rfl told
  have blocked : Blocked s' := ⟨_, r, listed, found, unreadable⟩
  refine ⟨s, s', starts, turns, ⟨_, List.mem_of_getElem? listed, fun r' rec found' parsed => ?_⟩,
    fun _ later => (blocked.turns later).1⟩
  obtain rfl := Option.some.inj (found.symm.trans found')
  exact unreadable (parses_iff.mp ⟨rec, parsed⟩)

end Watcher
end Sena
