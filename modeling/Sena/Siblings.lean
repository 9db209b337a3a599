import Sena.Finality
import Sena.Leaves

/-! Whether the watcher challenges every wrong child of what it verified.

It keeps one head and one cursor, and judges only children of the head. Once it has
adopted a child it passes that child's siblings by, so a wrong one among them goes
unchallenged. Where nobody posts a second child on an assertion, every wrong child
of a head is challenged before the cursor moves past it. -/
namespace Sena
namespace Watcher

open Effects L1Client Relation Assertions

variable {crypto : Crypto} {config : Config} {s s' : Session} {key key' : Bytes} {rec rec' : Record}

/-- Replaying the batch from `pre` gives exactly the starts, the length and the root
the assertion claims. -/
def Reproduced (crypto : Crypto) (config : Config) (pre : MerkleTrie) (rec : Record) (b : PublishedBatch) : Prop :=
  ∃ txs r, decodeAll 0 b.txBytes = .ok txs ∧ replay crypto pre txs (context config b) = .ok r ∧
    b.txStarts.map (·.val) = r.txStarts ∧ r.failsAt = none ∧ r.program.length = rec.traceLength.val ∧
    r.post.root = rec.postStateRoot

theorem firstGap_eq_none {own : List Nat} {starts : List U64} (paired : own.length = starts.length) :
    firstGap k own starts = .ok none ↔ starts.map (·.val) = own := by
  induction own generalizing k starts with
  | nil => simp [firstGap, List.length_eq_zero_iff.mp paired.symm]
  | cons first rest ih =>
    cases starts with
    | nil => cases paired
    | cons start others =>
      rw [firstGap]
      split
      · rename_i differs
        simp [Ne.symm differs]
      · rename_i same
        rw [ih (by simpa using paired)]
        simp [not_not.mp same]

theorem Confirmed.reproduced {replica : MerkleTrie} (confirmed : Confirmed crypto config replica rec b r)
    (paired : b.txStarts.length = b.txBytes.length) (first : ∀ a, b.txStarts[0]? = some a → a.val = 0) :
    Reproduced crypto config replica rec b := by
  obtain ⟨⟨txs, decoded, replayed⟩, -, starts, runs, ends, result⟩ := confirmed
  refine ⟨txs, r, decoded, replayed, ?_, runs, ends, result⟩
  obtain ⟨programs, compiled, rfl⟩ := replay_eq_ok.mp replayed
  change firstGap 1 (startsFrom 0 programs).tail b.txStarts.tail = .ok none at starts
  change b.txStarts.map (·.val) = startsFrom 0 programs
  have length : (startsFrom 0 programs).length = b.txStarts.length := by
    rw [length_startsFrom, ← (compileAll_eq_ok.mp compiled).length_eq, ← (decodeAll_eq_ok.mp decoded).length_eq, paired]
  have tails := (firstGap_eq_none (by simp [length])).mp starts
  cases theirs : b.txStarts with
  | nil =>
    rw [theirs] at length
    exact (List.length_eq_zero_iff.mp length).symm
  | cons a rest =>
    cases programs with
    | nil => simp [theirs, startsFrom] at length
    | cons program others =>
      rw [theirs] at tails
      simpa [startsFrom, first a (by simp [theirs])] using tails

/-- A post names a parent on which nobody has posted. -/
def OnlyChild (w : L1) (_ : Address) : Call → Prop
  | .post args => ∀ key ∈ w.chain.order, ∀ r ∈ w.chain.assertions key, r.parent ≠ args.parent
  | _ => True

instance : Decidable (OnlyChild w who c) := by
  induction c using Call.casesOn <;>
    first | exact isTrue trivial | exact inferInstanceAs (Decidable (∀ key ∈ w.chain.order, _))

theorem onlyChild_of_own : Own config w who c → OnlyChild w who c := by
  rintro ⟨-, watches⟩
  cases c with
  | post => cases watches
  | _ => trivial

/-- No two assertions have the same parent. -/
def Lone (c : Chain) : Prop :=
  ∀ key key' r r', c.assertions key = some r → c.assertions key' = some r' → r.parent = r'.parent → key = key'

theorem parent_of_updates {r r' : Assertion} (updates : r.Updates r') : r'.parent = r.parent := by
  rw [updates.claim]

theorem lone_step (step : L1.StepWhen crypto OnlyChild w w') (sound : Sound crypto w.chain)
    (lone : Lone w.chain) : Lone w'.chain := by
  rcases step.posts sound with old | ⟨who, args, _, _, _, fresh, alone, -, -, after⟩
  · intro key key' r r' found found' same
    obtain ⟨a, before, updates⟩ := old key r found
    obtain ⟨a', before', updates'⟩ := old key' r' found'
    rw [parent_of_updates updates, parent_of_updates updates'] at same
    exact lone key key' a a' before before' same
  · rw [Lone, after]
    have apart : ∀ key r, w.chain.assertions key = some r → True → r.parent ≠ args.parent := fun key r found _ =>
      alone key ((sound.ordered.listed key).mpr (by simp [found])) r found
    exact fun key key' r r' found found' => lone_write (fun a b ra rb foundA foundB _ _ =>
      lone a b ra rb foundA foundB) apart key key' r r' found found' trivial trivial

theorem lone_steps (steps : ReflTransGen (L1.StepWhen crypto OnlyChild) w w') (sound : Sound crypto w.chain)
    (lone : Lone w.chain) : Lone w'.chain := by
  induction steps with
  | refl => exact lone
  | tail before last ih => exact lone_step last (sound_of_moves sound (L1.moves_of_steps before)) ih

/-- The watcher stands on a head, or its cursor is past a child of it. -/
def Stood (head : Bytes) (replica : MerkleTrie) (s : Session) : Prop :=
  (s.head = head ∧ s.replica = replica) ∨ ∃ i child r, i < s.cursor ∧ s.l1.chain.order[i]? = some child ∧
    s.l1.chain.assertions child = some r ∧ r.parent = head

theorem Stood.turn (stood : Stood head replica s) (turn : Turn crypto config allowed may s s') :
    Stood head replica s' := by
  rcases stood with ⟨here, state⟩ | ⟨i, child, r, past, listed, found, parent⟩
  · rcases turn.stays_or_adopts with ⟨-, head', replica'⟩ | ⟨rec, b, r, reading, concerns, -, -, l1, cursor, -⟩
    · exact .inl ⟨head'.trans here, replica'.trans state⟩
    · -- what it adopts is the child
      obtain ⟨held, found, parsed⟩ := reading.parsed
      refine .inr ⟨s.cursor, s'.head, held, by omega, by rw [l1]; exact reading.listed, by rw [l1]; exact found, ?_⟩
      rw [← parent_of_parse parsed, concerns.1, here]
  · have evolves := evolves_of_moves turn.moves
    have cursor : s.cursor ≤ s'.cursor := by
      rcases turn.stays_or_adopts with ⟨cursor, -⟩ | ⟨_, _, _, _, _, _, _, _, cursor, _⟩ <;> omega
    obtain ⟨r', found', updates⟩ := evolves.records child r found
    obtain ⟨more, grown⟩ := evolves.order
    refine .inr ⟨i, child, r', by omega, ?_, found', (parent_of_updates updates).trans parent⟩
    rw [← grown, List.getElem?_append_left (List.getElem?_eq_some_iff.mp listed).1, listed]

theorem Stood.turns (stood : Stood head replica s) (turns : ReflTransGen (Turn crypto config allowed may) s s') :
    Stood head replica s' := by
  induction turns with
  | refl => exact stood
  | tail _ last ih => exact ih.turn last

theorem Reading.unique (reading : Reading s key rec) (reading' : Reading s key' rec') : key = key' ∧ rec = rec' := by
  obtain rfl : key = key' := by simpa [reading.listed] using reading'.listed
  obtain ⟨r, found, parsed⟩ := reading.parsed
  obtain ⟨r', found', parsed'⟩ := reading'.parsed
  obtain rfl : r = r' := by simpa [found] using found'
  exact ⟨rfl, by simpa [parsed] using parsed'⟩

theorem sent_of_happens (happens : ReflTransGen (Happens crypto config allowed) s s') : s.sent ⊆ s'.sent := by
  induction happens with
  | refl => exact List.Subset.refl _
  | tail _ last ih =>
    cases last with
    | call who c =>
      refine List.Subset.trans ih ?_
      dsimp only
      split
      · exact List.subset_append_left _ _
      · exact List.Subset.refl _
    | tick | noted => exact ih

theorem opened_of_challenge (made : Returns (challenge crypto config key rec fault) s evidence s') :
    config.me ∈ challengers s.l1.chain key ∨ .openChallenge key config.bond ∈ s'.sent := by
  obtain ⟨program, same, does⟩ := challenge_eq crypto config key rec fault
  rw [same] at made
  obtain ⟨_, mid, opened, rest⟩ := returns_bind.mp made
  let R (s s' : Session) : Prop := s.sent ⊆ s'.sent
  have : IsPreorder Session R := {
    refl := fun _ => List.Subset.refl _
    trans := fun _ _ _ => List.Subset.trans }
  have grows : R mid s' := by
    have grows := does (R := R) (fun _ _ => sent_of_happens) (fun _ _ => List.Subset.refl _) mid
    rwa [rest] at grows
  simp only [openChallenge, returns_bind, returns_view, Except.ok.injEq] at opened
  obtain ⟨_, _, ⟨rfl, rfl⟩, opened⟩ := opened
  split at opened
  · obtain ⟨l1, -, rfl⟩ := returns_submit.mp opened
    exact .inr (grows (List.mem_append_right _ List.mem_cons_self))
  · rename_i stands
    exact .inl ((listsAddress_challengersView _ _ _).mp (by simpa using stands))

/-- The assertion posted at `index` is a child of the head the watcher had in `s₁`,
not rejected, and replaying its batch there does not give what it claims. -/
structure WrongAt (crypto : Crypto) (config : Config) (s₁ s : Session) (index : Nat) (key : Bytes) (rec : Record)
    (b : PublishedBatch) : Prop where
  listed : s.l1.chain.order[index]? = some key
  parsed : ∃ r, s.l1.chain.assertions key = some r ∧ parseRecord (recordView r) = .ok rec
  child : rec.parent = s₁.head
  live : rec.status ≠ status.REJECTED
  published : publishedBatch s.l1.chain key = .ok (some b)
  wrong : ¬Reproduced crypto config s₁.replica rec b

/-- Where no post has a sibling, the watcher has challenged a wrong child of
any head it had when its cursor moves past it. -/
theorem wrong_children_are_challenged {trie : MerkleTrie} (starts : Starts crypto config d trie s₀)
    (before : ReflTransGen (Turn crypto config OnlyChild fun _ => True) s₀ s₁)
    (after : ReflTransGen (Turn crypto config OnlyChild fun _ => True) s₁ s)
    (wrongAt : WrongAt crypto config s₁ s s.cursor key rec b)
    (moved : (outcome (examineNext crypto config) s).2.cursor ≠ s.cursor) :
    config.me ∈ challengers s.l1.chain key ∨
      .openChallenge key config.bond ∈ (outcome (examineNext crypto config) s).2.sent := by
  obtain ⟨listed, parsed, child, live, published, wrong⟩ := wrongAt
  have reading : Reading s key rec := ⟨listed, parsed⟩
  have follows := starts.follows.turns (before.trans after)
  have lone : Lone s.l1.chain := by
    obtain ⟨sound, -, -, -, -, -, assertions, -⟩ := starts.begins
    refine lone_steps (steps_of_turns (before.trans after) fun _ _ _ => onlyChild_of_own) sound ?_
    have only : ∀ a r, s₀.l1.chain.assertions a = some r → a = s₀.head := by
      intro a r found
      by_contra elsewhere
      simp [assertions, elsewhere] at found
    intro a a' r r' found found' _
    rw [only a r found, only a' r' found']
  have stood : Stood s₁.head s₁.replica s := Stood.turns (.inl ⟨rfl, rfl⟩) after
  obtain ⟨held, found, parsed⟩ := parsed
  obtain ⟨i, place⟩ : ∃ i, s.cursor = i + 1 := ⟨_, (Nat.succ_pred follows.started.ne').symm⟩
  obtain ⟨args, recipient, postedAs, -, posted⟩ :=
    publishedBatch_of_sound follows.sound (place ▸ listed) found
  obtain rfl : Watcher.published args key recipient = b := by simpa [posted] using published
  -- it still stands on the parent: the one child of that is only now at its cursor
  have here : s.head = s₁.head ∧ s.replica = s₁.replica := by
    rcases stood with here | ⟨j, sibling, r', past, listed', found', parent⟩
    · exact here
    · obtain rfl := lone sibling key r' held found' found
        (parent.trans (child.symm.trans (parent_of_parse parsed)))
      have inside := (List.getElem?_eq_some_iff.mp listed').1
      have := (List.getElem?_inj inside follows.sound.ordered.nodup).mp (listed'.trans listed.symm)
      omega
  have examined := examined_of_examineNext crypto config s
  generalize (outcome (examineNext crypto config) s).2 = s' at examined moved ⊢
  cases examined with
  | stopped acts => exact absurd (stays_of_happens acts).1 moved
  | passed reading' other =>
    obtain ⟨rfl, rfl⟩ := reading.unique reading'
    exact absurd ⟨child.trans here.1.symm, live⟩ other
  | adopted reading' _ published' confirmed =>
    obtain ⟨rfl, rfl⟩ := reading.unique reading'
    obtain rfl : Watcher.published args key recipient = _ := by simpa [posted] using published'
    refine absurd (confirmed.reproduced (paired_of_shape postedAs.shape) fun a starts => ?_) (here.2 ▸ wrong)
    refine firstStart_of_shape postedAs.shape (fun none => ?_) starts
    have := paired_of_shape postedAs.shape
    simp_all [Watcher.published]
  | challenged reading' _ _ _ _ made _ =>
    obtain ⟨rfl, rfl⟩ := reading.unique reading'
    have opened := opened_of_challenge made
    exact opened

/-- The assertion posted at `index` is a child of genesis of one transaction that nobody
can decode. -/
def UndecodableAt (s : Session) (index : Nat) : Prop :=
  ∃ r ∈ s.l1.chain.assertions (s.l1.idAt index), ∃ rec, parseRecord (recordView r) = .ok rec ∧
    s.l1.chain.order[index]? = some (s.l1.idAt index) ∧ rec.parent = s.l1.idAt 0 ∧ rec.status ≠ status.REJECTED ∧
    ∃ batch, publishedBatch s.l1.chain (s.l1.idAt index) = .ok batch ∧ ∃ b ∈ batch, b.txBytes = [[]]

instance : Decidable (UndecodableAt s index) :=
  inferInstanceAs (Decidable (∃ r ∈ s.l1.chain.assertions (s.l1.idAt index), _))

theorem wrongAt_of_undecodableAt {trie : MerkleTrie} (starts : Starts crypto config d trie s)
    (turns : ReflTransGen (Turn crypto config allowed may) s s') (undecodable : UndecodableAt s' index) :
    ∃ rec b, WrongAt crypto config s s' index (s'.l1.idAt index) rec b := by
  obtain ⟨r, found, rec, parsed, listed, child, live, _, published, b, rfl, bytes⟩ := undecodable
  refine ⟨rec, b, listed, ⟨r, found, parsed⟩, child.trans ?_, live, published, ?_⟩
  · obtain ⟨-, -, -, -, -, order, -⟩ := starts.begins
    obtain ⟨more, grown⟩ := (evolves_of_moves (moves_of_turns turns)).order
    simp [L1.idAt, ← grown, order]
  · rintro ⟨txs, r, decoded, -⟩
    rw [bytes] at decoded
    cases decoded

/-- A wrong assertion on genesis is challenged. -/
theorem undecodable_child_is_challenged : ∃ s₀ s rec b, Starts L1.hashing floorConfig L1.floorDeployment .new s₀ ∧
    ReflTransGen (Turn L1.hashing floorConfig OnlyChild fun _ => True) s₀ s ∧
    WrongAt L1.hashing floorConfig s₀ s s.cursor (s.l1.idAt 1) rec b ∧
    (floorConfig.me ∈ challengers s.l1.chain (s.l1.idAt 1) ∨ .openChallenge (s.l1.idAt 1) floorConfig.bond ∈
      (outcome (examineNext L1.hashing floorConfig) s).2.sent) := by
  obtain ⟨s, told, undecodable, cursor, moved⟩ :
      ∃ s ∈ story OnlyChild (fun _ => True) L1.hashing floorConfig L1.floorDeployment .new 0
        [fun s => .l1 (.call (.fill 32 3) (L1.twoSteps s.l1))], UndecodableAt s 1 ∧ s.cursor = 1 ∧
          (outcome (examineNext L1.hashing floorConfig) s).2.cursor = 2 := by
    decide +kernel
  obtain ⟨s₀, starts, turns⟩ := turns_of_story rfl told
  obtain ⟨rec, b, wrongAt⟩ := wrongAt_of_undecodableAt starts turns undecodable
  have reached : WrongAt L1.hashing floorConfig s₀ s s.cursor (s.l1.idAt 1) rec b := by
    rw [cursor]
    exact wrongAt
  exact ⟨s₀, s, rec, b, starts, turns, reached,
    wrong_children_are_challenged starts .refl turns reached (by omega)⟩

/-- The watcher adopts an empty batch on genesis, and passes its wrong sibling by:
nothing is sent. -/
theorem wrong_sibling_goes_unchallenged : ∃ s₀ s rec b, Starts L1.hashing floorConfig L1.floorDeployment .new s₀ ∧
    ReflTransGen (Turn L1.hashing floorConfig (fun _ _ _ => True) fun _ => True) s₀ s ∧
    WrongAt L1.hashing floorConfig s₀ s 2 (s.l1.idAt 2) rec b ∧ 2 < s.cursor ∧ s.sent = [] := by
  obtain ⟨s, told, undecodable, passed⟩ :
      ∃ s ∈ story (fun _ _ _ => True) (fun _ => True) L1.hashing floorConfig L1.floorDeployment .new 0
        [fun s => .l1 (.call (.fill 32 3) (s.l1.idle 0 0)), fun s => .l1 (.call (.fill 32 3) (L1.twoSteps s.l1)),
          fun _ => .examine, fun _ => .examine], UndecodableAt s 2 ∧ 2 < s.cursor ∧ s.sent = [] := by
    decide +kernel
  obtain ⟨s₀, starts, turns⟩ := turns_of_story rfl told
  obtain ⟨rec, b, wrongAt⟩ := wrongAt_of_undecodableAt starts turns undecodable
  exact ⟨s₀, s, rec, b, starts, turns, wrongAt, passed⟩

end Watcher
end Sena
