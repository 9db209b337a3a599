import Sena.Effects
import Sena.L1Proofs
import Sena.Watcher

/-! Runs of a watcher among everyone else's calls.

Between any two turns of the watcher's loops anyone may call the contracts. What a
turn does is said once here, whether it returned or threw: it only makes the
watcher's own calls, and it moves on past an assertion in one of three ways. -/
namespace Sena
namespace Watcher

open Effects L1Client Relation Assertions

/-- The batch of an assertion can be replayed: its record reads, and all of its
transactions decode and compile. -/
structure Playable (crypto : Crypto) (config : Config) (c : Chain) (id : Bytes) : Prop where
  readable : ∃ r rec, c.assertions id = some r ∧ parseRecord (recordView r) = .ok rec
  replayable : ∃ b txs programs, publishedBatch c id = .ok (some b) ∧ decodeAll 0 b.txBytes = .ok txs ∧
    compileAll crypto (context config b) 0 txs = .ok programs

/-- One thing that happens while the watcher stays where it is. -/
inductive Happens (crypto : Crypto) (config : Config) (allowed : L1 → Address → Call → Prop) :
    Session → Session → Prop
  | call (who : Address) (c : Call) (encodable : c.Encodable) (kept : allowed s.l1 who c)
      (accepted : s.l1.call crypto who c = .ok l1) :
      Happens crypto config allowed s
        { s with l1, sent := if who = config.me then s.sent ++ [c] else s.sent }
  | tick (now : U64) (later : s.l1.now.val ≤ now.val) :
      Happens crypto config allowed s { s with l1 := { s.l1 with now } }
  | noted (games : List Game) (saved : WatcherState) (report : Report)
      (playable : ∀ g ∈ games, g ∈ s.games ∨ Playable crypto config s.l1.chain g.assertion) :
      Happens crypto config allowed s { s with games, saved, report }

/-- One turn of a run in which only `allowed` calls are made and the watcher only
examines where it `may`. A turn of the watcher counts whether it returns or throws. -/
inductive Turn (crypto : Crypto) (config : Config) (allowed : L1 → Address → Call → Prop)
    (may : Session → Prop) : Session → Session → Prop
  | call (who : Address) (c : Call) (encodable : c.Encodable) (kept : allowed s.l1 who c)
      (accepted : s.l1.call crypto who c = .ok l1) :
      Turn crypto config allowed may s
        { s with l1, sent := if who = config.me then s.sent ++ [c] else s.sent }
  | tick (now : U64) (later : s.l1.now.val ≤ now.val) :
      Turn crypto config allowed may s { s with l1 := { s.l1 with now } }
  | reported (report : Report) : Turn crypto config allowed may s { s with report }
  | played (now : U64) (game : Game) :
      Turn crypto config allowed may s (outcome (playGame crypto config now game) s).2
  | examined (kept : may s) :
      Turn crypto config allowed may s (outcome (examineNext crypto config) s).2

/-- A turn of the watcher's own. -/
inductive OwnTurn (crypto : Crypto) (config : Config) : Session → Session → Prop
  | reported (report : Report) : OwnTurn crypto config s { s with report }
  | played (now : U64) (game : Game) : OwnTurn crypto config s (outcome (playGame crypto config now game) s).2
  | examined : OwnTurn crypto config s (outcome (examineNext crypto config) s).2

/-- A watcher created with the contracts, over the genesis they were created with. -/
structure Starts (crypto : Crypto) (config : Config) (d : L1.Deployment) (genesis : MerkleTrie)
    (s : Session) : Prop where
  created : ∃ now l1, L1.deploy crypto d now = .ok l1 ∧ new crypto config l1 genesis none = .ok s
  rooted : genesis.root.bytes = d.genesisRoot

variable {crypto : Crypto} {config : Config} {s s' : Session} {key : Bytes}

theorem returns_view {answer : L1 → Move (List Value)} :
    Returns (view answer) s values s' ↔ answer s.l1 = .ok values ∧ s = s' := by
  rw [view, returns_bind]
  simp only [returns_get]
  constructor
  · rintro ⟨_, _, ⟨rfl, rfl⟩, returns⟩
    split at returns <;> simp_all
  · rintro ⟨answered, rfl⟩
    exact ⟨s, s, ⟨rfl, rfl⟩, by simp [answered]⟩

@[simp] theorem returns_parsed :
    Returns (parsed result) s value s' ↔ result = .ok value ∧ s = s' := by
  cases result <;> simp [parsed]

@[simp] theorem returns_lifted :
    Returns (lifted result) s value s' ↔ result = .ok value ∧ s = s' := by
  cases result <;> simp [lifted]

theorem returns_submit : Returns (submit crypto config c) s u s' ↔
    ∃ l1, s.l1.call crypto config.me c = .ok l1 ∧ { s with l1, sent := s.sent ++ [c] } = s' := by
  rw [submit, returns_bind]
  simp only [returns_get]
  constructor
  · rintro ⟨_, _, ⟨rfl, rfl⟩, returns⟩
    split at returns
    · exact ⟨_, by assumption, by simpa using returns⟩
    · simp at returns
  · rintro ⟨l1, accepted, rfl⟩
    exact ⟨s, s, ⟨rfl, rfl⟩, by simp [accepted]⟩

theorem returns_record : Returns (record key) s rec s' ↔
    (∃ r, s.l1.chain.assertions key = some r ∧ parseRecord (recordView r) = .ok rec) ∧ s = s' := by
  simp only [record, returns_bind, returns_view, returns_parsed, Move.bind_eq_ok, disputeView,
    fetch_eq_ok, Move.pure_iff]
  constructor
  · rintro ⟨_, _, ⟨⟨r, found, rfl⟩, rfl⟩, parsed, rfl⟩
    exact ⟨⟨r, found, parsed⟩, rfl⟩
  · rintro ⟨⟨r, found, parsed⟩, rfl⟩
    exact ⟨_, _, ⟨⟨r, found, rfl⟩, rfl⟩, parsed, rfl⟩

theorem returns_batch : Returns (batch key) s b s' ↔ publishedBatch s.l1.chain key = .ok (some b) ∧ s = s' := by
  rw [batch, returns_bind]
  simp only [returns_get, returns_bind, returns_parsed]
  constructor
  · rintro ⟨_, _, ⟨rfl, rfl⟩, found, _, ⟨same, rfl⟩, returns⟩
    cases found <;> simp_all
  · rintro ⟨published, rfl⟩
    exact ⟨s, s, ⟨rfl, rfl⟩, some b, s, ⟨published, rfl⟩, by simp⟩

/-- The watcher's game over an assertion. -/
def Config.game (config : Config) (assertion : Bytes) : Disputes.GameId :=
  ⟨config.contract, Disputes.disputeId assertion config.me⟩

theorem returns_disputeState : Returns (disputeState config key) s d s' ↔
    (s.l1.registries config.contract).isSome ∧
      parseDispute (disputeStateView (s.l1.games (config.game key))) = .ok d ∧ s = s' := by
  simp only [disputeState, returns_bind, returns_view, returns_parsed, Move.bind_eq_ok, fetch_eq_ok,
    Move.pure_iff, L1.games, Config.game]
  constructor
  · rintro ⟨_, _, ⟨⟨r, known, rfl⟩, rfl⟩, parsed, rfl⟩
    exact ⟨by simp [known], by simpa [known] using parsed, rfl⟩
  · rintro ⟨known, parsed, rfl⟩
    obtain ⟨r, known⟩ := Option.isSome_iff_exists.mp known
    exact ⟨_, _, ⟨⟨r, known, rfl⟩, rfl⟩, by simpa [known] using parsed, rfl⟩

section Reads

variable {R : Session → Session → Prop} [IsPreorder Session R]

theorem does_view (answer : L1 → Move (List Value)) : Does R (view answer) := by
  refine .get_bind fun s => ?_
  split <;> exact refl_of R s

theorem does_parsed (result : Except L1Error α) : Does R (parsed result) := by
  cases result
  · exact .throw _
  · exact .pure _

theorem does_lifted (result : Except WatchError α) : Does R (lifted result) := by
  cases result
  · exact .throw _
  · exact .pure _

theorem does_record (key : Bytes) : Does R (record key) :=
  .bind (does_view _) fun _ => does_parsed _

theorem does_batch (key : Bytes) : Does R (batch key) := by
  refine .get_bind fun s => (does_parsed _).bind (fun found => ?_) s
  cases found
  · exact .throw _
  · exact .pure _

theorem does_disputeState (key : Bytes) : Does R (disputeState config key) :=
  .bind (does_view _) fun _ => does_parsed _

end Reads

theorem OwnTurn.turn (turn : OwnTurn crypto config s s') : Turn crypto config allowed (fun _ => True) s s' := by
  cases turn with
  | reported report => exact .reported report
  | played now game => exact .played now game
  | examined => exact .examined trivial

section Steps

variable (crypto config)

theorem turns_of_play : Does (ReflTransGen (OwnTurn crypto config)) (play crypto config) :=
  .get_bind fun s => Does.forM (fun game _ => .single (.played _ game)) s.games s

theorem turns_of_examineMany (n : Nat) : Does (ReflTransGen (OwnTurn crypto config)) (examineMany crypto config n) := by
  induction n with
  | zero => exact .pure ()
  | succ n ih => exact .bind (fun _ => .single .examined) fun _ => ih

theorem turns_of_examine : Does (ReflTransGen (OwnTurn crypto config)) (examine crypto config) := by
  refine .get_bind fun s => ?_
  have counted : Does (ReflTransGen (OwnTurn crypto config)) _ :=
    does_view fun l1 => .ok (assertionCountView l1.chain)
  exact counted.bind (fun _ => (does_parsed _).bind fun _ => turns_of_examineMany crypto config _) s

/-- What a step of the watcher does, however it ends, is a run of its own turns. -/
theorem turns_of_step : Does (ReflTransGen (OwnTurn crypto config)) (step crypto config) := by
  refine .bind (.modify fun _ => .single (.reported _)) fun _ => ?_
  refine .bind (turns_of_play crypto config) fun _ => ?_
  exact .bind (turns_of_examine crypto config) fun _ _ => .refl

end Steps

/-- The calls the watcher makes: it posts, finalizes and dissects nothing and
creates no registry. -/
def Watches : Call → Bool
  | .post _ | .finalize _ | .initializeRegistry _ | .dissect _ _ => false
  | _ => true

/-- The watcher's own calls. -/
def Own (config : Config) (_ : L1) (who : Address) (c : Call) : Prop :=
  who = config.me ∧ Watches c = true

theorem parseRecord_updates {r r' : Assertion} (updates : r.Updates r') (parsed : parseRecord (recordView r) = .ok rec) :
    parseRecord (recordView r') = .ok { rec with status := r'.status.code } := by
  obtain ⟨pre, post, txRoot, txCount, atPre, atPost, atRoot, atCount, rfl⟩ := parseRecord_eq_ok.mp parsed
  rw [parseRecord_eq_ok, updates.claim]
  exact ⟨pre, post, txRoot, txCount, atPre, atPost, atRoot, atCount, rfl⟩

theorem publishedBatch_evolves (evolves : Evolves c c') (published : publishedBatch c key = .ok (some b)) :
    publishedBatch c' key = .ok (some b) := by
  obtain ⟨more, grown⟩ := evolves.published
  simp only [publishedBatch, ← grown, List.find?_append] at published ⊢
  cases event : c.published.find? (·.assertion = key) with
  | none => simp [event] at published
  | some event' => simpa [event] using published

theorem Playable.evolve (playable : Playable crypto config c key) (evolves : Evolves c c') :
    Playable crypto config c' key := by
  obtain ⟨⟨r, rec, found, parsed⟩, b, txs, programs, published, decoded, compiled⟩ := playable
  obtain ⟨r', found', updates⟩ := evolves.records key r found
  exact ⟨⟨r', _, found', parseRecord_updates updates parsed⟩, b, txs, programs,
    publishedBatch_evolves evolves published, decoded, compiled⟩

/-- What happens on L1 around a watcher that stays where it is. -/
theorem Happens.step (happens : Happens crypto config allowed s s') :
    ReflTransGen (L1.StepWhen crypto allowed) s.l1 s'.l1 := by
  cases happens with
  | call who c encodable kept accepted => exact .single (.call who c encodable kept accepted)
  | tick now later => exact .single (.tick now later)
  | noted => exact .refl

section
variable (happens : ReflTransGen (Happens crypto config allowed) s s')
include happens

theorem steps_of_happens : ReflTransGen (L1.StepWhen crypto allowed) s.l1 s'.l1 := by
  induction happens with
  | refl => exact .refl
  | tail _ last ih => exact ih.trans last.step

theorem evolves_of_happens : Evolves s.l1.chain s'.l1.chain :=
  evolves_of_moves (L1.moves_of_steps (steps_of_happens happens))

theorem stays_of_happens : s'.cursor = s.cursor ∧ s'.head = s.head ∧ s'.replica = s.replica := by
  induction happens with
  | refl => exact ⟨rfl, rfl, rfl⟩
  | tail _ last ih => cases last <;> exact ih

end

/-- A run of the watcher's own calls and notes. -/
abbrev Acts (crypto : Crypto) (config : Config) : Session → Session → Prop :=
  ReflTransGen (Happens crypto config (Own config))

theorem acts_of_noted : Acts crypto config s { s with saved, report } :=
  .single (.noted s.games saved report fun _ member => .inl member)

theorem does_submit (watches : Watches c = true) : Does (Acts crypto config) (submit crypto config c) := by
  refine .get_bind fun s => ?_
  split
  · rename_i l1 accepted
    have encodable : c.Encodable := by
      cases c <;> trivial
    have made : Happens crypto config (Own config) s _ :=
      .call config.me c encodable ⟨rfl, watches⟩ accepted
    rw [if_pos rfl] at made
    exact .single made
  · exact .refl

section Leaves

variable {R : Session → Session → Prop} [IsPreorder Session R]
  (runs : ∀ tx timestamp setup, Does R (submit crypto config (.runJob config.contract tx timestamp setup)))
include runs

theorem does_ensureKeylessVerdict (txBytes : Bytes) (timestamp : U64) :
    Does R (ensureKeylessVerdict crypto config txBytes timestamp) := by
  unfold ensureKeylessVerdict
  split
  · refine .get_bind fun s => ?_
    split
    · exact runs _ _ _ s
    · exact refl_of R s
  · exact .pure ()

theorem does_compiledLeaf (rec : Record) (b : PublishedBatch) (i : Nat) :
    Does R (compiledLeaf crypto config rec b i) :=
  .bind (does_lifted _) fun _ => .bind (does_ensureKeylessVerdict runs _ _) fun _ => .pure _

end Leaves

theorem acts_of_runJob (tx : Bytes) (timestamp : U64) (setup : UInt8) :
    Does (Acts crypto config) (submit crypto config (.runJob config.contract tx timestamp setup)) := does_submit rfl

theorem does_openChallenge (key : Bytes) : Does (Acts crypto config) (openChallenge crypto config key) := by
  refine .bind (does_view _) fun answer => ?_
  split
  · exact does_submit rfl
  · exact .pure ()

theorem does_save : Does (Acts crypto config) save := .modify fun _ => acts_of_noted

theorem challenge_eq (crypto : Crypto) (config : Config) (key : Bytes) (rec : Record) (fault : Fault) :
    ∃ rest : WatchM Evidence,
      challenge crypto config key rec fault = (openChallenge crypto config key >>= fun _ => rest) ∧
      ∀ {R : Session → Session → Prop} [IsPreorder Session R], (∀ s s', Acts crypto config s s' → R s s') →
        (fault = .bisect → ∀ s, R s { s with games := s.games ++ [⟨key, s.replica.toBytes⟩] }) → Does R rest := by
  refine ⟨_, rfl, fun {R} _ acted notes => ?_⟩
  have acts {α : Type} {x : WatchM α} (does : Does (Acts crypto config) x) : Does R x := fun s => acted _ _ (does s)
  refine .bind (acts (does_batch key)) fun b => ?_
  cases fault with
  | uncompilable i =>
    exact acts (.bind (does_compiledLeaf acts_of_runJob rec b i) fun _ => .bind (does_submit rfl) fun _ => .pure _)
  | startGap i =>
    exact acts (.bind (does_compiledLeaf acts_of_runJob rec b _) fun _ => .bind (does_lifted _) fun _ =>
      .bind (does_submit rfl) fun _ => .pure _)
  | traceLength =>
    exact acts (.bind (does_compiledLeaf acts_of_runJob rec b _) fun _ => .bind (does_submit rfl) fun _ => .pure _)
  | bisect =>
    refine .bind (acts (does_disputeState _)) fun existing => ?_
    have opens : Does R (do
        modify fun s => { s with games := s.games ++ [⟨key, s.replica.toBytes⟩] }
        save
        return Evidence.bisection : WatchM Evidence) :=
      .bind (.modify (notes rfl)) fun _ => acts (.bind does_save fun _ => .pure _)
    split
    · exact .bind (acts (does_submit rfl)) fun _ => opens
    · exact opens

theorem does_challenge (key : Bytes) (rec : Record) (fault : Fault) (s : Session)
    (playable : fault = .bisect → Playable crypto config s.l1.chain key) :
    Acts crypto config s (outcome (challenge crypto config key rec fault) s).2 := by
  -- being replayable survives everything the challenge does before it opens the game
  let R (s s' : Session) : Prop :=
    (fault = .bisect → Playable crypto config s.l1.chain key) → Acts crypto config s s'
  have : IsPreorder Session R := {
    refl := fun _ _ => .refl
    trans := fun _ _ _ first second playable => (first playable).trans
      (second fun bisect => (playable bisect).evolve (evolves_of_happens (first playable))) }
  obtain ⟨rest, same, does⟩ := challenge_eq crypto config key rec fault
  rw [same]
  have opens : Does R (openChallenge crypto config key) := fun s _ => does_openChallenge key s
  refine opens.bind (fun _ => does (fun _ _ acts _ => acts) fun bisect s playable => ?_) s playable
  refine .single (.noted _ s.saved s.report fun game member => ?_)
  rcases List.mem_append.mp member with old | new
  · exact .inl old
  · obtain rfl := List.mem_singleton.mp new
    exact .inr (playable bisect)

/-- The calls of the watcher's move in a game. -/
def Answers (g : Disputes.GameId) : Call → Prop
  | .select g' _ | .oneStep g' _ _ _ | .claimTimeout g' => g' = g
  | .runJob _ _ _ _ => True
  | _ => False

theorem does_of_answers {R : Session → Session → Prop} [IsPreorder Session R] {game : Game}
    (made : ∀ c, Answers (config.game game.assertion) c → Does R (submit crypto config c))
    (noted : ∀ s games saved report, games ⊆ s.games → R s { s with games, saved, report }) (now : U64) :
    Does R (playGame crypto config now game) := by
  have counts : Does R countMove := .modify fun s => noted s s.games _ _ fun _ member => member
  refine .bind (does_record _) fun rec => .bind (does_disputeState _) fun d => ?_
  split
  · refine .bind (.modify fun s => ?_) fun _ => .bind (.modify fun s => ?_) fun _ => .modify fun s => ?_
    · exact noted s _ s.saved s.report fun g member => (List.mem_filter.mp member).1
    · exact noted s s.games _ s.report fun _ member => member
    · exact noted s s.games s.saved _ fun _ member => member
  refine .bind (does_batch _) fun b => .bind (does_lifted _) fun r => ?_
  split
  · exact .bind (does_lifted _) fun _ => .bind (made _ rfl) fun _ => counts
  split
  · exact .bind (does_compiledLeaf (fun _ _ _ => made _ trivial) _ _ _) fun _ => .bind (made _ rfl) fun _ => counts
  split
  · exact .bind (made _ rfl) fun _ => counts
  · exact .pure ()

theorem does_playGame (now : U64) (game : Game) : Does (Acts crypto config) (playGame crypto config now game) := by
  refine does_of_answers (fun c answers => does_submit ?_) (fun s games saved report kept => ?_) now
  · cases c <;> first | rfl | cases answers
  · exact .single (.noted games saved report fun g member => .inl (kept member))

/-- The replay of compiled transactions. -/
def Replay.of (crypto : Crypto) (pre : MerkleTrie) (programs : List (List Instruction)) : Replay where
  program := programs.flatten
  states := .start pre.root :: (execute crypto pre 0 programs.flatten).1
  txStarts := startsFrom 0 programs
  failsAt := (execute crypto pre 0 programs.flatten).2.1
  pre := pre
  post := (execute crypto pre 0 programs.flatten).2.2

theorem replay_eq_ok : replay crypto pre txs ctx = .ok r ↔ ∃ programs, compileAll crypto ctx 0 txs = .ok programs ∧
      r = .of crypto pre programs := by
  simp only [replay, Move.bind_eq_ok, Move.pure_iff]
  exact exists_congr fun programs => and_congr_right fun _ => eq_comm

/-- An assertion the watcher finds nothing wrong with: what it published is what
replaying it gives. -/
structure Confirmed (crypto : Crypto) (config : Config) (replica : MerkleTrie) (rec : Record)
    (b : PublishedBatch) (r : Replay) : Prop where
  replayed : ∃ txs, decodeAll 0 b.txBytes = .ok txs ∧
    replay crypto replica txs (context config b) = .ok r
  begins : rec.preStateRoot = replica.root
  starts : firstGap 1 r.txStarts.tail b.txStarts.tail = .ok none
  runs : r.failsAt = none
  ends : r.program.length = rec.traceLength.val
  result : r.post.root = rec.postStateRoot

/-- What is wrong with a batch that replays, if anything. -/
theorem judge_of_replay (decoded : decodeAll 0 b.txBytes = .ok txs) (begins : rec.preStateRoot = replica.root)
    (replayed : replay crypto replica txs (context config b) = .ok r) :
    judge crypto config replica rec b =
      (firstGap 1 r.txStarts.tail b.txStarts.tail).bind fun gap => .ok <|
        match gap with
        | some i => some (.startGap i)
        | none =>
          if r.failsAt.isNone ∧ r.program.length ≠ rec.traceLength.val then some .traceLength
          else if r.failsAt.isSome ∨ r.post.root ≠ rec.postStateRoot then some .bisect
          else none := by
  simp only [judge, decoded, begins, replayed, ne_eq, not_true_eq_false, if_false]
  refine congrArg _ (funext fun gap => ?_)
  cases gap with
  | some i => rfl
  | none =>
    simp only
    split
    · rfl
    · split <;> rfl

theorem replay_of_judge (judged : judge crypto config replica rec b = .ok verdict)
    (compiles : ∀ i, verdict ≠ some (.uncompilable i)) :
    ∃ txs r, decodeAll 0 b.txBytes = .ok txs ∧ rec.preStateRoot = replica.root ∧
      replay crypto replica txs (context config b) = .ok r := by
  unfold judge at judged
  split at judged
  · exact absurd (Except.ok.inj judged).symm (compiles _)
  rename_i txs decoded
  split at judged
  · cases judged
  rename_i begins
  split at judged
  · exact absurd (Except.ok.inj judged).symm (compiles _)
  rename_i r replayed
  exact ⟨txs, r, decoded, by simpa using begins, replayed⟩

theorem judge_eq_none : judge crypto config replica rec b = .ok none ↔
    ∃ r, Confirmed crypto config replica rec b r := by
  constructor
  · intro judged
    obtain ⟨txs, r, decoded, begins, replayed⟩ := replay_of_judge judged (by simp)
    rw [judge_of_replay decoded begins replayed] at judged
    obtain ⟨gap, starts, judged⟩ := Move.bind_eq_ok.mp judged
    cases gap with
    | some i => simp at judged
    | none =>
      simp only [Except.ok.injEq] at judged
      split at judged
      · cases judged
      rename_i ends
      split at judged
      · cases judged
      rename_i result
      simp only [not_or, Bool.not_eq_true, Option.isSome_eq_false_iff, Option.isNone_iff_eq_none,
        not_not] at result
      refine ⟨r, ⟨txs, decoded, replayed⟩, begins, starts, result.1, ?_, result.2⟩
      simpa [result.1] using ends
  · rintro ⟨r, ⟨txs, decoded, replayed⟩, begins, starts, runs, ends, result⟩
    rw [judge_of_replay decoded begins replayed, starts]
    simp [runs, ends, result, Except.bind]

theorem playable_of_bisect (found : s.l1.chain.assertions key = some held)
    (parsed : parseRecord (recordView held) = .ok rec)
    (published : publishedBatch s.l1.chain key = .ok (some b))
    (judged : judge crypto config replica rec b = .ok (some .bisect)) :
    Playable crypto config s.l1.chain key := by
  obtain ⟨txs, r, decoded, -, replayed⟩ := replay_of_judge judged (by simp)
  obtain ⟨programs, compiled, -⟩ := replay_eq_ok.mp replayed
  exact ⟨⟨held, rec, found, parsed⟩, b, txs, programs, published, decoded, compiled⟩

/-- What the watcher reads about the assertion at its cursor. -/
structure Reading (s : Session) (key : Bytes) (rec : Record) : Prop where
  listed : s.l1.chain.order[s.cursor]? = some key
  parsed : ∃ r, s.l1.chain.assertions key = some r ∧ parseRecord (recordView r) = .ok rec

/-- Whether the watcher looks into the assertion at its cursor. -/
def Concerns (s : Session) (rec : Record) : Prop := rec.parent = s.head ∧ rec.status ≠ status.REJECTED

instance : Decidable (Concerns s rec) := inferInstanceAs (Decidable (_ ∧ _))

/-- What a turn of the examining loop comes to. Only the last three move on. -/
inductive Examined (crypto : Crypto) (config : Config) (s : Session) : Session → Prop
  | stopped {s' : Session} (acts : Acts crypto config s s') : Examined crypto config s s'
  | passed {key : Bytes} (reading : Reading s key rec) (other : ¬Concerns s rec) :
      Examined crypto config s { s with cursor := s.cursor + 1, saved := saved }
  | adopted {key : Bytes} (reading : Reading s key rec) (concerns : Concerns s rec)
      (published : publishedBatch s.l1.chain key = .ok (some b))
      (confirmed : Confirmed crypto config s.replica rec b r) :
      Examined crypto config s
        { s with cursor := s.cursor + 1, head := key, replica := r.post, saved, report }
  | challenged {key : Bytes} (reading : Reading s key rec) (concerns : Concerns s rec)
      (published : publishedBatch s.l1.chain key = .ok (some b))
      (judged : judge crypto config s.replica rec b = .ok (some fault))
      (live : rec.status ≠ status.FINALIZED)
      (made : Returns (challenge crypto config key rec fault) s evidence s₁)
      (acts : Acts crypto config s s₁) :
      Examined crypto config s { s₁ with cursor := s₁.cursor + 1, saved, report }

/-- What comes of looking into an assertion. -/
inductive Looked (crypto : Crypto) (config : Config) (s : Session) (key : Bytes) (rec : Record) :
    Except WatchError Unit × Session → Prop
  | stopped {s' : Session} (acts : Acts crypto config s s') : Looked crypto config s key rec (.error e, s')
  | passed (other : ¬Concerns s rec) : Looked crypto config s key rec (.ok (), s)
  | adopted (concerns : Concerns s rec) (published : publishedBatch s.l1.chain key = .ok (some b))
      (confirmed : Confirmed crypto config s.replica rec b r) :
      Looked crypto config s key rec (.ok (), { s with head := key, replica := r.post, report })
  | challenged (concerns : Concerns s rec) (published : publishedBatch s.l1.chain key = .ok (some b))
      (judged : judge crypto config s.replica rec b = .ok (some fault))
      (live : rec.status ≠ status.FINALIZED)
      (made : Returns (challenge crypto config key rec fault) s evidence s₁)
      (acts : Acts crypto config s s₁) :
      Looked crypto config s key rec (.ok (), { s₁ with report })

theorem looked_of_examineAssertion (found : s.l1.chain.assertions key = some held)
    (parsed : parseRecord (recordView held) = .ok rec) :
    Looked crypto config s key rec (outcome (examineAssertion crypto config key rec) s) := by
  change Looked crypto config s key rec (outcome (ite _ _ _) s)
  split
  · rename_i concerns
    refine reads_bind (does_batch key) (fun _ => .stopped .refl) fun b read => ?_
    have published := (returns_batch.mp read).1
    refine reads_bind (does_lifted _) (fun _ => .stopped .refl) fun verdict judged => ?_
    have judged := (returns_lifted.mp judged).1
    cases verdict with
    | none =>
      obtain ⟨r, confirmed⟩ := judge_eq_none.mp judged
      obtain ⟨txs, decoded, replayed⟩ := confirmed.replayed
      simp only [decoded, Except.toOption, Option.getD_some, replayed]
      exact .adopted concerns published confirmed
    | some fault =>
      simp only
      split
      · exact .stopped .refl
      · rename_i live
        have acts : Acts crypto config s (outcome (challenge crypto config key rec fault) s).2 :=
          does_challenge key rec fault s fun bisect =>
            playable_of_bisect found parsed published (bisect ▸ judged)
        rw [outcome_bind]
        cases h : outcome (challenge crypto config key rec fault) s with | mk result s₁ =>
        rw [h] at acts
        cases result with
        | error e => exact .stopped acts
        | ok evidence => exact .challenged concerns published judged live h acts
  · rename_i other
    exact .passed other

theorem examined_of_examineNext (crypto : Crypto) (config : Config) (s : Session) :
    Examined crypto config s (outcome (examineNext crypto config) s).2 := by
  let Q (result : Except WatchError Unit × Session) := Examined crypto config s result.2
  change Q (outcome (examineNext crypto config) s)
  refine reads_bind (fun _ => rfl) (fun _ => .stopped .refl) fun s₀ got => ?_
  obtain ⟨rfl, -⟩ := returns_get.mp got
  refine reads_bind (does_view _) (fun _ => .stopped .refl) fun answer answered => ?_
  refine reads_bind (does_parsed _) (fun _ => .stopped .refl) fun key named => ?_
  refine reads_bind (does_record _) (fun _ => .stopped .refl) fun rec read => ?_
  obtain ⟨held, found, parsed⟩ := (returns_record.mp read).1
  have reading : Reading s key rec := by
    refine ⟨?_, held, found, parsed⟩
    simp only [returns_view, assertionAtView, assertionAt, Move.bind_eq_ok, Move.borrow_eq_ok,
      Move.pure_iff, and_true] at answered
    obtain ⟨listed, at', rfl⟩ := answered
    obtain rfl : listed = key := by simpa [bytesOf_ofBytes] using named
    exact at'
  have looked : Looked crypto config s key rec _ := looked_of_examineAssertion found parsed
  rw [outcome_bind]
  generalize outcome (examineAssertion crypto config key rec) s = result at looked
  cases looked with
  | stopped acts => exact .stopped acts
  | passed other => exact .passed reading other
  | adopted concerns published confirmed => exact .adopted reading concerns published confirmed
  | challenged concerns published judged live made acts =>
    exact .challenged reading concerns published judged live made acts

theorem Examined.acts (examined : Examined crypto config s s') :
    ∃ s₁, Acts crypto config s s₁ ∧ s'.l1 = s₁.l1 ∧ s'.sent = s₁.sent ∧ s'.games = s₁.games := by
  cases examined with
  | stopped acts => exact ⟨_, acts, rfl, rfl, rfl⟩
  | passed | adopted => exact ⟨s, .refl, rfl, rfl, rfl⟩
  | challenged _ _ _ _ _ _ acts => exact ⟨_, acts, rfl, rfl, rfl⟩

/-- What a turn does to L1, where the watcher's own calls are allowed. -/
theorem Turn.steps (turn : Turn crypto config allowed may s s')
    (own : ∀ w who c, Own config w who c → allowed w who c) :
    ReflTransGen (L1.StepWhen crypto allowed) s.l1 s'.l1 := by
  have acts {s s₁ : Session} (acts : Acts crypto config s s₁) :
      ReflTransGen (L1.StepWhen crypto allowed) s.l1 s₁.l1 :=
    ReflTransGen.mono (fun _ _ step => step.mono own) _ _ (steps_of_happens acts)
  cases turn with
  | call who c encodable kept accepted => exact .single (.call who c encodable kept accepted)
  | tick now later => exact .single (.tick now later)
  | reported => exact .refl
  | played now game => exact acts (does_playGame now game s)
  | examined =>
    obtain ⟨_, acted, same, -, -⟩ := (examined_of_examineNext crypto config s).acts
    rw [same]
    exact acts acted

theorem steps_of_turns (turns : ReflTransGen (Turn crypto config allowed may) s s')
    (own : ∀ w who c, Own config w who c → allowed w who c) :
    ReflTransGen (L1.StepWhen crypto allowed) s.l1 s'.l1 := by
  induction turns with
  | refl => exact .refl
  | tail _ last ih => exact ih.trans (last.steps own)

theorem Turn.free (turn : Turn crypto config allowed may s s') :
    Turn crypto config (fun _ _ _ => True) (fun _ => True) s s' := by
  cases turn with
  | call who c encodable _ accepted => exact .call who c encodable trivial accepted
  | tick now later => exact .tick now later
  | reported report => exact .reported report
  | played now game => exact .played now game
  | examined => exact .examined trivial

theorem Turn.moves (turn : Turn crypto config allowed may s s') :
    ReflTransGen (Moves crypto) s.l1.chain s'.l1.chain :=
  L1.moves_of_steps (turn.free.steps fun _ _ _ _ => trivial)

theorem moves_of_turns (turns : ReflTransGen (Turn crypto config allowed may) s s') :
    ReflTransGen (Moves crypto) s.l1.chain s'.l1.chain := by
  induction turns with
  | refl => exact .refl
  | tail _ last ih => exact ih.trans last.moves

theorem new_eq_ok (created : new crypto config l1 trie none = .ok s) :
    s.l1 = l1 ∧ s.cursor = 1 ∧ s.replica = trie ∧ s.games = [] ∧ s.sent = [] ∧
      l1.chain.order[0]? = some s.head ∧ (l1.registries config.contract).isSome := by
  simp only [new, Move.bind_eq_ok, answered, Move.mapError_eq_ok] at created
  obtain ⟨registry, known, setup, -, created⟩ := created
  split at created
  · cases created
  obtain ⟨key, asked, created⟩ := Move.bind_eq_ok.mp created
  split at created
  · cases created
  simp only [Move.pure_iff] at created
  obtain rfl := created
  exact ⟨rfl, rfl, rfl, rfl, rfl, Move.borrow_eq_ok.mp (Move.mapError_eq_ok.mp asked), by simp [fetch_eq_ok.mp known]⟩

theorem Starts.deployed (starts : Starts crypto config d trie s) : ∃ now, L1.deploy crypto d now = .ok s.l1 := by
  obtain ⟨⟨now, l1, deployed, created⟩, -⟩ := starts
  obtain ⟨rfl, -⟩ := new_eq_ok created
  exact ⟨now, deployed⟩

/-- The chain, the memory and the cursor a watcher starts with. -/
theorem Starts.begins (starts : Starts crypto config d trie s) :
    Sound crypto s.l1.chain ∧ s.cursor = 1 ∧ s.replica = trie ∧ s.games = [] ∧ s.sent = [] ∧
      s.l1.chain.order = [s.head] ∧
      s.l1.chain.assertions = Function.update (fun _ => none) s.head (some (Assertions.genesis d.admin d.genesisRoot)) ∧
      (∀ key, s.l1.chain.challenges key = none) ∧ (∀ g, s.l1.games g = none) := by
  obtain ⟨⟨now, l1, deployed, created⟩, _⟩ := starts
  have sound := (L1.deploy_eq_ok deployed).1
  obtain ⟨here, cursor, replica, games, sent, head, -⟩ := new_eq_ok created
  have fresh := congrFun (L1.deploy_eq_ok deployed).2.2.1
  simp only [L1.deploy, initializeChain, Move.bind_eq_ok, Move.pure_iff, Disputes.initializeRegistry_eq_ok] at deployed
  obtain ⟨_, ⟨key, -, rfl⟩, -, -, rfl⟩ := deployed
  obtain rfl : key = s.head := by simpa using head
  rw [here]
  exact ⟨sound, cursor, replica, games, sent, rfl, rfl, fun _ => rfl, fresh⟩

/-- One thing that happens in a scripted run. -/
inductive Event
  | l1 (event : L1.Event)
  | examine
deriving DecidableEq

section Script

variable (allowed : L1 → Address → Call → Prop) [∀ w who c, Decidable (allowed w who c)]
variable (may : Session → Prop) [DecidablePred may]

/-- Plays what the script says at this session. -/
def happen (crypto : Crypto) (config : Config) (s : Session) (event : Session → Event) : Option Session :=
  match event s with
  | .l1 (.call who c) =>
    if c.Encodable ∧ allowed s.l1 who c then
      (s.l1.call crypto who c).toOption.map fun l1 =>
        { s with l1, sent := if who = config.me then s.sent ++ [c] else s.sent }
    else none
  | .l1 (.tick now) => if s.l1.now.val ≤ now.val then some { s with l1 := { s.l1 with now } } else none
  | .examine => if may s then some (outcome (examineNext crypto config) s).2 else none

/-- A deployment and its watcher, followed by a script. -/
def story (crypto : Crypto) (config : Config) (d : L1.Deployment) (trie : MerkleTrie) (start : U64)
    (script : List (Session → Event)) : Option Session := do
  let l1 ← (L1.deploy crypto d start).toOption
  let s ← (new crypto config l1 trie none).toOption
  script.foldlM (happen allowed may crypto config) s

variable {allowed may}

theorem turn_of_happen (happened : happen allowed may crypto config s event = some s') :
    Turn crypto config allowed may s s' := by
  unfold happen at happened
  split at happened
  · rename_i who c _
    split at happened
    · rename_i kept
      obtain ⟨l1, accepted, rfl⟩ := Option.map_eq_some_iff.mp happened
      exact .call who c kept.1 kept.2 (Move.toOption_eq_some.mp accepted)
    · cases happened
  · split at happened
    · rename_i now _ later
      cases happened
      exact .tick now later
    · cases happened
  · split at happened
    · rename_i kept
      cases happened
      exact .examined kept
    · cases happened

theorem turns_of_story {trie : MerkleTrie} (rooted : trie.root.bytes = d.genesisRoot)
    (told : story allowed may crypto config d trie start script = some s') :
    ∃ s, Starts crypto config d trie s ∧ ReflTransGen (Turn crypto config allowed may) s s' := by
  obtain ⟨l1, deployed, told⟩ := Option.bind_eq_some_iff.mp told
  obtain ⟨s, created, told⟩ := Option.bind_eq_some_iff.mp told
  refine ⟨s, ⟨⟨start, l1, Move.toOption_eq_some.mp deployed, ?_⟩, rooted⟩, ?_⟩
  · cases made : new crypto config l1 trie none with
    | error e => simp [made, Except.toOption] at created
    | ok _ => simpa [made, Except.toOption] using created
  · refine L1.reflTransGen_of_foldlM (fun s event s' happened => ?_) told
    exact turn_of_happen happened

end Script

/-- A watcher for a deployment without keyless accounts, with every limit at its floor. -/
def floorConfig : Config where
  me := .fill 32 2
  contract := .fill 32 1
  bond := 0
  keyless := none
  keylessSetup := 0

/-- The sender of the package's compile vectors. -/
def vectorKey : FixedBytes 32 := .ofNat 32 0x8a88e3dd7409f195fd52db2d3cba5d72ca6709bf1d94121bf3748801b40f6f5c

def vectorSignature : FixedBytes 64 := .ofHalves
  0xeeefe0f5b1b247d30cba963ac777514ecd0c46b0e1ff1f683d94d44276d7e5c5
  0xa53898cff5e33de92f3fa42b33bc78a9dc5a3c40de34bac8f49866e7336a7506

/-- The vector that binds a social account. -/
def bindTransaction : Transaction where
  sender := vectorKey
  nonce := 0
  feeAsset := 1
  feeRate := 1000000
  feeIntrinsicGas := 10000
  gasLimit := 51000
  maxFeePerGas := 50000000000
  maxPriorityFeePerGas := 0
  payload := .bindIdentifier .handle (.ofNat 32 0x6ab5d1ac26db9769f4f16e6f30661ab69566b24f41aaacf043dd4ff9d5d8767e)
  authenticator := .ed25519 vectorKey vectorSignature

/-- SHA-256 as it is, and the vector's signature over its digest. -/
def vectorCrypto : Crypto := .accepting [(vectorKey.bytes, vectorSignature.bytes,
  be 32 0xe359693b80e49ac29c6266d4d414c7f3de9a9e069e20a904625eec47e764a43c)]

/-- The vector's transaction as a batch on genesis, with a trace of `length` steps. -/
def bindPost (length : U64) (root : Bytes) (w : L1) : Call := .post {
  parent := w.idAt 0
  preStateRoot := w.rootAt 0
  postStateRoot := root
  timestamp := w.now
  baseFee := 25000000000
  feeRecipient := TrieVerifier.zero
  txBytes := [bindTransaction.encode]
  txStarts := [0]
  traceLength := length
  bond := 0 }

end Watcher
end Sena
