import Sena.BisectionProofs
import Sena.WatcherReads

/-! How the watcher answers the offers made to it.

`play` goes through the watcher's games in turn and returns at the first error. Where
every offer is of digests the only error left is a transaction L1 refuses, and each
game whose turn comes is answered with the segment the watcher differs on. -/
namespace Sena
namespace Watcher

open Effects L1Client Relation Assertions

variable {crypto : Crypto} {config : Config} {s s' : Session} {key : Bytes}

/-- The dissections that offer digests. -/
def DigestOffers (_ : L1) (_ : Address) : Call → Prop
  | .dissect _ commitments => ∀ c ∈ commitments, c.length = 32
  | _ => True

instance : Decidable (DigestOffers w who c) := by
  induction c using Call.casesOn <;> first | exact isTrue trivial | exact inferInstanceAs (Decidable (∀ c ∈ _, _))

/-- Segment `index` is the first whose offered end is not our own commitment there,
or the last one if every offered end is. -/
structure Picks {α : Type} (own : Nat → α) (bounds : List U64) (offered : List α) (index : Nat) : Prop where
  agreed : ∀ j < index, ∀ p, bounds[j + 1]? = some p → offered[j]? = some (own p.val)
  differs : index < offered.length → ∀ p, bounds[index + 1]? = some p → offered[index]? ≠ some (own p.val)
  within : index ≤ offered.length

theorem Picks.map {own : Nat → α} {f : α → β} (picks : Picks own bounds offered index)
    (inj : Function.Injective f) : Picks (f ∘ own) bounds (offered.map f) index := by
  refine ⟨fun j before p at' => ?_, fun inside p at' => ?_, by simpa using picks.within⟩
  · simp [picks.agreed j before p at']
  · have differs := picks.differs (by simpa using inside) p at'
    simpa [inj.eq_iff] using differs

theorem firstDifference_picks {own : Nat → Hash256} {bounds : List U64} {offered : List Hash256}
    (long : j + offered.length < bounds.length) :
    ∃ k, Picks own (bounds.drop j) offered k ∧
      firstDifference own bounds j offered = .ok (if k < offered.length then some (j + k) else none) := by
  induction offered generalizing j with
  | nil => exact ⟨0, ⟨by simp, by simp, by simp⟩, by simp [firstDifference]⟩
  | cons first rest ih =>
    simp only [List.length_cons] at long
    have next : bounds[j + 1]? = some bounds[j + 1] := List.getElem?_eq_getElem (by omega)
    rw [firstDifference, next]
    by_cases same : own bounds[j + 1].val = first
    · obtain ⟨k, ⟨agreed, differs, within⟩, found⟩ := ih (j := j + 1) (by omega)
      refine ⟨k + 1, ⟨fun i before p at' => ?_, fun inside p at' => ?_, by simpa using within⟩, ?_⟩
      · cases i with
        | zero =>
          obtain rfl : bounds[j + 1] = p := by simpa [next] using at'
          simp [same]
        | succ i =>
          simp only [List.getElem?_drop, List.getElem?_cons_succ] at at' agreed ⊢
          exact agreed i (by omega) p (by rw [← at']; congr 1; omega)
      · simp only [List.getElem?_drop, List.getElem?_cons_succ, List.length_cons] at at' differs inside ⊢
        exact differs (by omega) p (by rw [← at']; congr 1; omega)
      · simp [same, found, Nat.add_assoc, Nat.add_comm 1]
    · refine ⟨0, ⟨by simp, fun _ p at' => ?_, by simp⟩, by simp [same]⟩
      obtain rfl : bounds[j + 1] = p := by simpa [next] using at'
      simpa [eq_comm] using same

/-- The segment the watcher selects. -/
theorem selection_picks {r : Replay} {d : DisputeState} (bounded : Disputes.boundaries d.lo d.hi = .ok bounds)
    (fits : d.offered.length = bounds.length - 2) (wide : 2 ≤ bounds.length) :
    ∃ k, Picks (r.commitmentAt crypto) bounds d.offered k ∧ selection crypto r d = .ok k := by
  have long : 0 + d.offered.length < bounds.length := by omega
  obtain ⟨k, picks, found⟩ := @firstDifference_picks _ (r.commitmentAt crypto) _ _ long
  refine ⟨k, by simpa using picks, ?_⟩
  have within := picks.within
  simp only [selection, Fraudproof.boundaries_of_contract bounded, Move.ok_bind, found, Move.pure_iff,
    Nat.zero_add]
  split
  · rfl
  · simp only [Option.getD_none]
    omega

theorem playable_of_happens (happens : ReflTransGen (Happens crypto config allowed) s s')
    (playable : ∀ g ∈ s.games, Playable crypto config s.l1.chain g.assertion) :
    ∀ g ∈ s'.games, Playable crypto config s'.l1.chain g.assertion := by
  induction happens with
  | refl => exact playable
  | tail _ last ih =>
    have evolves := evolves_of_happens (.single last)
    intro g member
    cases last with
    | call | tick => exact (ih g member).evolve evolves
    | noted _ _ _ checked => exact (checked g member).elim (ih g) id

theorem playable_of_turns (turns : ReflTransGen (Turn crypto config allowed may) s s')
    (playable : ∀ g ∈ s.games, Playable crypto config s.l1.chain g.assertion) :
    ∀ g ∈ s'.games, Playable crypto config s'.l1.chain g.assertion := by
  induction turns with
  | refl => exact playable
  | tail _ last ih =>
    have evolves := evolves_of_moves last.moves
    intro g member
    cases last with
    | call | tick | reported => exact (ih g member).evolve evolves
    | played now game => exact playable_of_happens (does_playGame now game _) ih g member
    | examined =>
      obtain ⟨_, acts, same, -, games⟩ := (examined_of_examineNext crypto config _).acts
      rw [games] at member
      rw [same]
      exact playable_of_happens acts ih g member

/-- Every offer in a game is of digests. -/
def OffersRead (w : L1) : Prop :=
  ∀ g d, w.games g = some d → ∀ c ∈ d.offered, c.length = 32

theorem offersRead_step (step : L1.StepWhen crypto DigestOffers w w') (offers : OffersRead w) : OffersRead w' := by
  cases step with
  | tick => exact offers
  | call who c encodable kept accepted =>
    have effect := L1.effect_of_call accepted
    intro g d' found
    cases before : w.games g with
    | none =>
      obtain ⟨_, _, _, _, opened, _⟩ := effect.opens before found
      simp [opened.noOffer.1]
    | some d =>
      obtain ⟨_, found', plays⟩ := effect.plays before
      rw [found', Option.some.injEq] at found
      subst found
      cases plays with
      | kept | stepped | timedOut | closed => exact offers g d before
      | dissected call _ dissected =>
        obtain ⟨_, _, _, _, rfl⟩ := dissected.result
        subst call
        exact kept
      | selected _ _ selected =>
        obtain ⟨_, _, _, _, _, _, _, _, _, _, _, _, _, _, _, _, rfl⟩ := selected.result
        simp

theorem offersRead_steps (steps : ReflTransGen (L1.StepWhen crypto DigestOffers) w w')
    (offers : OffersRead w) : OffersRead w' := by
  induction steps with
  | refl => exact offers
  | tail _ last ih => exact offersRead_step last ih

theorem exists_hashes (digests : ∀ c ∈ items, c.length = 32) :
    ∃ hashes : List Hash256, hashes.map (·.bytes) = items := by
  induction items with
  | nil => exact ⟨[], rfl⟩
  | cons first rest ih =>
    obtain ⟨h, same⟩ := exists_hash.mpr (digests first (by simp))
    obtain ⟨hashes, others⟩ := ih fun c member => digests c (by simp [member])
    exact ⟨h :: hashes, by simp [same, others]⟩

/-- What a watcher's games rest on in a run whose dissections offer digests: its registry
is there, the games are sound and every offer can be read. -/
structure Ready (crypto : Crypto) (config : Config) (s : Session) : Prop where
  known : (s.l1.registries config.contract).isSome
  playing : L1.Playing crypto s.l1
  offers : OffersRead s.l1
  kept : ∀ g ∈ s.games, Playable crypto config s.l1.chain g.assertion

theorem Starts.ready (starts : Starts crypto config plan trie s) : Ready crypto config s := by
  obtain ⟨_, _, _, games, -, -, -, -, fresh⟩ := starts.begins
  obtain ⟨now, deployed⟩ := starts.deployed
  obtain ⟨⟨_, l1, _, created⟩, _⟩ := starts
  obtain ⟨here, _, _, _, _, _, known⟩ := new_eq_ok created
  exact ⟨here ▸ known, L1.playing_of_deploy deployed, fun g d found => by simp [fresh] at found, by simp [games]⟩

theorem Ready.turns (ready : Ready crypto config s)
    (run : ReflTransGen (Turn crypto config DigestOffers fun _ => True) s s') : Ready crypto config s' := by
  have own (w who c) (own : Own config w who c) : DigestOffers w who c := by
    cases c <;> first | trivial | cases own.2
  have steps := steps_of_turns run own
  obtain ⟨_, known⟩ := Option.isSome_iff_exists.mp ready.known
  obtain ⟨_, known', _⟩ := L1.registry_of_steps steps known
  exact ⟨by simp [known'], ready.playing.steps steps, offersRead_steps steps ready.offers, playable_of_turns run ready.kept⟩

theorem Ready.reads (ready : Ready crypto config s) (key : Bytes) :
    ∃ state, Returns (disputeState config key) s state s ∧
      (state.doesExist = false ∨ ∃ d offered, s.l1.games (config.game key) = some d ∧
        offered.map (·.bytes) = d.offered ∧ state = .of d offered) := by
  cases found : s.l1.games (config.game key) with
  | none =>
    obtain ⟨state, read, absent⟩ : ∃ state, parseDispute (disputeStateView none) = .ok state ∧
        state.doesExist = false := ⟨_, rfl, rfl⟩
    exact ⟨state, returns_disputeState.mpr ⟨ready.known, by rw [found, read], rfl⟩, .inl absent⟩
  | some d =>
    obtain ⟨offered, read⟩ : ∃ offered : List Hash256, offered.map (·.bytes) = d.offered :=
      exists_hashes (ready.offers _ d found)
    refine ⟨.of d offered, returns_disputeState.mpr ⟨ready.known, ?_, rfl⟩, .inr ⟨d, offered, rfl, read, rfl⟩⟩
    rw [found]
    exact parseDispute_eq_ok.mpr ⟨offered, read, rfl⟩

theorem gameReplay_of_playable {game : Game} (playable : Playable crypto config c game.assertion)
    (loaded : MerkleTrie.fromBytes crypto game.preState = .ok pre) :
    ∃ b r, publishedBatch c game.assertion = .ok (some b) ∧ gameReplay crypto config game b = .ok r ∧ r.pre = pre := by
  obtain ⟨b, txs, programs, published, decoded, compiled⟩ := playable.replayable
  refine ⟨b, .of crypto pre programs, published, ?_, rfl⟩
  simp only [gameReplay, decoded, loaded, Except.mapError, Move.ok_bind, replay_eq_ok.mpr ⟨programs, compiled, rfl⟩]

/-- The segment the watcher selects in a game with an offer. -/
theorem selection_of_offer {d : Disputes.Dispute} (playing : L1.Playing crypto w) (found : w.games g = some d)
    (offer : d.hasOffer = true) (read : offered.map (·.bytes) = d.offered) (r : Replay) :
    ∃ bounds k, Disputes.boundaries d.lo d.hi = .ok bounds ∧ Picks (r.commitmentAt crypto) bounds offered k ∧
      selection crypto r (.of d offered) = .ok k := by
  obtain ⟨bounds, bounded, fits⟩ := (playing.games g d found).shape.fits offer
  have wide : 2 ≤ bounds.length := by
    rw [Disputes.length_boundaries bounded]
    have := Disputes.segments_pos (d.hi.val - d.lo.val)
    omega
  have lengths : (DisputeState.of d offered).offered.length = bounds.length - 2 := by
    rw [← fits, ← read]
    exact (List.length_map _).symm
  obtain ⟨k, picks, selected⟩ : ∃ k, Picks (r.commitmentAt crypto) bounds offered k ∧
      selection crypto r (.of d offered) = .ok k :=
    selection_picks bounded lengths wide
  exact ⟨bounds, k, bounded, picks, selected⟩

section Goes

variable {x : WatchM α} {f : α → WatchM β}

/-- L1 refuses a transaction the program submits. -/
def Refused (x : WatchM α) (s : Session) : Prop :=
  ∃ abort s', outcome x s = (.error (.l1 (.rejected abort)), s')

/-- The program returns, unless L1 refuses a transaction of it. -/
def Goes (x : WatchM α) (s : Session) : Prop := (∃ a s', Returns x s a s') ∨ Refused x s

theorem Goes.bind (first : Goes x s) (rest : ∀ a s₁, Returns x s a s₁ → Goes (f a) s₁) : Goes (x >>= f) s := by
  rcases first with ⟨a, s₁, returns⟩ | ⟨abort, s₁, refused⟩
  · rcases rest a s₁ returns with ⟨b, s₂, returns'⟩ | ⟨abort, s₂, refused⟩
    · exact .inl ⟨b, s₂, returns_bind.mpr ⟨a, s₁, returns, returns'⟩⟩
    · exact .inr ⟨abort, s₂, by rw [outcome_bind_of returns, refused]⟩
  · exact .inr ⟨abort, s₁, by rw [outcome_bind, refused]⟩

/-- After something that returns. -/
theorem Goes.after (returns : Returns x s a s₁) (rest : Goes (f a) s₁) : Goes (x >>= f) s := by
  refine Goes.bind (.inl ⟨a, s₁, returns⟩) fun b s₂ returns' => ?_
  cases returns.symm.trans returns'
  exact rest

theorem goes_submit (c : Call) (s : Session) : Goes (submit crypto config c) s := by
  cases answer : s.l1.call crypto config.me c with
  | ok l1 => exact .inl ⟨(), _, returns_submit.mpr ⟨l1, answer, rfl⟩⟩
  | error abort =>
    refine .inr ⟨abort, s, ?_⟩
    rw [submit, outcome_bind_of (returns_get.mpr ⟨rfl, rfl⟩), answer]
    rfl

theorem goes_modify (g : Session → Session) (s : Session) : Goes (modify g : WatchM PUnit) s :=
  .inl ⟨(), g s, returns_modify.mpr rfl⟩

end Goes

theorem goes_ensureKeylessVerdict (tx : Bytes) (timestamp : U64) (s : Session) :
    Goes (ensureKeylessVerdict crypto config tx timestamp) s := by
  unfold ensureKeylessVerdict
  split
  · refine .after (returns_get.mpr ⟨rfl, rfl⟩) ?_
    split
    · exact goes_submit _ s
    · exact .inl ⟨(), s, returns_pure.mpr ⟨rfl, rfl⟩⟩
  · exact .inl ⟨(), s, returns_pure.mpr ⟨rfl, rfl⟩⟩

theorem coveringLeaf_lt {starts : List U64} (some' : starts ≠ []) (pc : U64) :
    coveringLeaf starts pc < starts.length := by
  rw [coveringLeaf]
  cases last : (starts.zipIdx.filter (·.1.val ≤ pc.val)).getLast? with
  | none => simpa using List.length_pos_iff.mpr some'
  | some leaf =>
    have among := (List.mem_filter.mp (List.mem_of_getLast? last)).1
    simpa using (List.mem_zipIdx' among).1

theorem leafArgs_of_lt (paired : b.txStarts.length = b.txBytes.length) (inside : i < b.txStarts.length) :
    ∃ leaf, leafArgs crypto b i = .ok leaf := by
  rw [leafArgs, List.getElem?_eq_getElem inside, List.getElem?_eq_getElem (paired ▸ inside)]
  exact ⟨_, rfl⟩

/-- A trace with a step is published with a transaction. -/
theorem leaves_of_publishedBatch (sound : Sound crypto c) (found : c.assertions key = some r)
    (steps : 0 < r.traceLength.val) (fetched : publishedBatch c key = .ok (some b)) :
    b.txStarts ≠ [] ∧ b.txStarts.length = b.txBytes.length := by
  obtain ⟨i, listed⟩ : ∃ i, c.order[i + 1]? = some key := by
    cases event : c.published.find? (·.assertion = key) with
    | none => simp [publishedBatch, event] at fetched
    | some e =>
      obtain ⟨i, here⟩ := List.mem_iff_getElem?.mp (List.mem_of_find?_eq_some event)
      have same : e.assertion = key := by simpa using List.find?_some event
      exact ⟨i, same ▸ listed_of_event sound here⟩
  obtain ⟨args, recipient, postedAs, -, fetched'⟩ := publishedBatch_of_sound sound listed found
  obtain rfl : published args key recipient = b := by simpa [fetched'] using fetched
  have paired := paired_of_shape postedAs.shape
  refine ⟨fun empty => ?_, paired⟩
  have traced : args.traceLength.val = 0 := traceLength_of_shape postedAs.shape (by
    rw [← paired]
    exact congrArg List.length empty)
  obtain ⟨_, _, _, updates⟩ := postedAs.record
  rw [updates.claim] at steps
  exact absurd traced (Nat.ne_of_gt steps)

theorem Ready.goes {game : Game} (ready : Ready crypto config s)
    (playable : Playable crypto config s.l1.chain game.assertion)
    (loaded : MerkleTrie.fromBytes crypto game.preState = .ok pre) (now : U64) :
    Goes (playGame crypto config now game) s := by
  obtain ⟨held, rec, recordAt, parsed⟩ := playable.readable
  obtain ⟨b, r, fetched, replayed, -⟩ := gameReplay_of_playable playable loaded
  obtain ⟨state, read, shown⟩ := ready.reads game.assertion
  refine .after (returns_record.mpr ⟨⟨held, recordAt, parsed⟩, rfl⟩) (.after read ?_)
  split
  · exact .bind (goes_modify _ _) fun _ _ _ => .bind (goes_modify _ _) fun _ _ _ => goes_modify _ _
  rename_i open'
  obtain ⟨d, offered, found, same, rfl⟩ := shown.resolve_left fun absent => open' (.inl absent)
  refine .after (returns_batch.mpr ⟨fetched, rfl⟩) (.after (returns_lifted.mpr ⟨replayed, rfl⟩) ?_)
  split
  · rename_i ours
    obtain ⟨_, k, -, -, selected⟩ := selection_of_offer ready.playing found ours.2.2 same r
    exact .after (returns_lifted.mpr ⟨selected, rfl⟩) (.bind (goes_submit _ _) fun _ _ _ => goes_modify _ _)
  split
  · -- the game is over a trace with steps, so there is a leaf to show
    have game' := ready.playing.games _ d found
    obtain ⟨about, -⟩ : game.assertion = d.assertion ∧ _ := disputeId_inj.mp game'.named
    obtain ⟨r', found', -, within⟩ := game'.record
    have proper := game'.shape.proper
    obtain ⟨some', paired⟩ := leaves_of_publishedBatch ready.playing.sound (about ▸ found') (by omega) fetched
    obtain ⟨leaf, args⟩ : ∃ leaf, leafArgs crypto b _ = .ok leaf :=
      leafArgs_of_lt paired (coveringLeaf_lt some' d.lo)
    refine .bind (.after (returns_lifted.mpr ⟨args, rfl⟩) ?_) fun _ _ _ =>
      .bind (goes_submit _ _) fun _ _ _ => goes_modify _ _
    exact .bind (goes_ensureKeylessVerdict _ _ _) fun _ s₁ _ => .inl ⟨leaf, s₁, returns_pure.mpr ⟨rfl, rfl⟩⟩
  split
  · exact .bind (goes_submit _ _) fun _ _ _ => goes_modify _ _
  · exact .inl ⟨(), s, returns_pure.mpr ⟨rfl, rfl⟩⟩

theorem Ready.goes_forM (ready : Ready crypto config s) (now : U64) (games : List Game)
    (playable : ∀ g ∈ games, Playable crypto config s.l1.chain g.assertion)
    (loads : ∀ g ∈ games, ∃ pre, MerkleTrie.fromBytes crypto g.preState = .ok pre) :
    Goes (games.forM (playGame crypto config now)) s := by
  induction games generalizing s with
  | nil => exact .inl ⟨(), s, returns_pure.mpr ⟨rfl, rfl⟩⟩
  | cons game rest ih =>
    obtain ⟨pre, loaded⟩ := loads game (by simp)
    refine .bind (ready.goes (playable game (by simp)) loaded now) fun _ s₁ returns => ?_
    have turn : Turn crypto config DigestOffers (fun _ => True) s s₁ := by
      have played := @Turn.played crypto config DigestOffers (fun _ => True) s now game
      rwa [show outcome (playGame crypto config now game) s = _ from returns] at played
    have evolves := evolves_of_moves turn.moves
    exact ih (ready.turns (.single turn)) (fun g among => (playable g (by simp [among])).evolve evolves)
      fun g among => loads g (by simp [among])

theorem games_of_answers {w w' : L1} (accepted : w.call crypto who c = .ok w') (answers : Answers g' c) (apart : g ≠ g') :
    w'.games g = w.games g := by
  have effect := L1.effect_of_call accepted
  cases before : w.games g with
  | none =>
    by_contra changed
    obtain ⟨d, found⟩ := Option.ne_none_iff_exists'.mp changed
    obtain ⟨_, _, rfl, _⟩ := effect.opens before found
    exact answers
  | some d =>
    obtain ⟨d', found, plays⟩ := effect.plays before
    cases plays with
    | kept => exact found
    | dissected call =>
      subst call
      exact answers.elim
    | selected call | stepped call | timedOut call =>
      subst call
      exact absurd answers apart
    | closed about => cases c <;> first | exact answers.elim | cases about

theorem games_of_playGame {game : Game} (apart : game.assertion ≠ key) (now : U64) :
    Does (fun s s' : Session => s'.l1.games (config.game key) = s.l1.games (config.game key))
      (playGame crypto config now game) := by
  let R (s s' : Session) : Prop := s'.l1.games (config.game key) = s.l1.games (config.game key)
  have : IsPreorder Session R := {
    refl := fun _ => rfl
    trans := fun _ _ _ first second => second.trans first }
  refine does_of_answers (R := R) (fun c answers => .get_bind fun s => ?_) (fun _ _ _ _ _ => rfl) now
  split
  · rename_i l1 accepted
    refine games_of_answers accepted answers fun same => apart ?_
    exact (disputeId_inj.mp (congrArg Disputes.GameId.id same)).1.symm
  · exact refl_of R s

theorem games_of_forM {games : List Game} (apart : ∀ g ∈ games, g.assertion ≠ key)
    (returns : Returns (games.forM (playGame crypto config now)) s () s') :
    s'.l1.games (config.game key) = s.l1.games (config.game key) := by
  induction games generalizing s with
  | nil =>
    obtain ⟨-, rfl⟩ := returns_pure.mp returns
    rfl
  | cons game rest ih =>
    obtain ⟨_, s₁, first, others⟩ := returns_bind.mp returns
    have kept := (games_of_playGame (apart game (by simp)) now : Does _ (playGame crypto config now game)) s
    rw [show outcome (playGame crypto config now game) s = _ from first] at kept
    exact (ih (fun g among => apart g (by simp [among])) others).trans kept

theorem status_of_parse {r : Assertion} (parsed : parseRecord (recordView r) = .ok rec) :
    rec.status = r.status.code := by
  obtain ⟨_, _, _, _, _, _, _, _, rfl⟩ := parseRecord_eq_ok.mp parsed
  rfl

/-- The watcher's answer to an offer it can read. -/
theorem playGame_selects {d : Disputes.Dispute} {game : Game}
    (recordAt : s.l1.chain.assertions game.assertion = some held)
    (parsed : parseRecord (recordView held) = .ok rec) (live : held.status ≠ .rejected)
    (found : s.l1.games (config.game game.assertion) = some d)
    (stage : d.stage = .bisecting) (turn : d.turn = .challenger) (offer : d.hasOffer = true)
    (read : offered.map (·.bytes) = d.offered) (published : publishedBatch s.l1.chain game.assertion = .ok (some b))
    (replayed : gameReplay crypto config game b = .ok r) (selected : selection crypto r (.of d offered) = .ok k) :
    outcome (playGame crypto config now game) s = outcome (do
      submit crypto config (.select (config.game game.assertion) (Fin.ofNat _ k))
      countMove) s := by
  have state : Returns (disputeState config game.assertion) s (.of d offered) s := by
    obtain ⟨_, known, _⟩ := L1.games_eq_some.mp found
    refine returns_disputeState.mpr ⟨Option.isSome_of_eq_some known, ?_, rfl⟩
    rw [found]
    exact parseDispute_eq_ok.mpr ⟨offered, read, rfl⟩
  have notRejected : rec.status ≠ status.REJECTED := by
    rw [status_of_parse parsed]
    revert live
    cases held.status <;> decide
  rw [playGame, outcome_bind_of (returns_record.mpr ⟨⟨held, recordAt, parsed⟩, rfl⟩), outcome_bind_of state]
  have goesOn : ¬((DisputeState.of d offered).doesExist = false ∨ (DisputeState.of d offered).stage = 2 ∨
      rec.status = status.REJECTED) := by
    simp only [DisputeState.of, stage, stageCode, notRejected, or_false]
    decide
  have ours : (DisputeState.of d offered).turn = 1 ∧ (DisputeState.of d offered).stage = 0 ∧
      (DisputeState.of d offered).hasOffer = true := by
    simp [DisputeState.of, stage, turn, offer, stageCode, turnCode]
  rw [if_neg goesOn, move, outcome_bind_of (returns_batch.mpr ⟨published, rfl⟩),
    outcome_bind_of (returns_lifted.mpr ⟨replayed, rfl⟩), if_pos ours,
    outcome_bind_of (returns_lifted.mpr ⟨selected, rfl⟩)]
  rfl

theorem outcome_play (listed : s.games = before ++ game :: after)
    (reached : Returns (before.forM (playGame crypto config s.l1.now)) s () s₁) :
    outcome (play crypto config) s = outcome (do
      playGame crypto config s.l1.now game
      after.forM (playGame crypto config s.l1.now)) s₁ := by
  rw [play, outcome_bind_of (returns_get.mpr ⟨rfl, rfl⟩), listed]
  change outcome (forM (before ++ game :: after) _) s = _
  rw [List.forM_append]
  exact outcome_bind_of reached

/-- Two batches that cannot execute are posted and challenged, and their proposer offers
these for the inner boundaries of the traces. -/
def offerScript (first second : List Bytes) : List (Session → Event) :=
  [fun s => .l1 (.call (.fill 32 3) (bindPost 2 TrieVerifier.zero s.l1)),
   fun s => .l1 (.call (.fill 32 3) (bindPost 3 TrieVerifier.zero s.l1)),
   fun _ => .examine, fun _ => .examine,
   fun s => .l1 (.call (.fill 32 3) (.dissect (floorConfig.game (s.l1.idAt 1)) first)),
   fun s => .l1 (.call (.fill 32 3) (.dissect (floorConfig.game (s.l1.idAt 2)) second))]

/-- It is the watcher's turn to answer this offer in the game over an assertion. -/
def Asked (s : Session) (key : Bytes) (offered : List Bytes) (d : Disputes.Dispute) : Prop :=
  s.l1.games (floorConfig.game key) = some d ∧
    d.stage = .bisecting ∧ d.turn = .challenger ∧ d.hasOffer = true ∧ d.offered = offered

instance : Decidable (Asked s key offered d) := inferInstanceAs (Decidable (_ ∧ _))

theorem exists_ok {x : Except ε α} (some' : x.toOption.isSome = true) : ∃ a, x = .ok a := by
  cases x with
  | error => cases some'
  | ok a => exact ⟨a, rfl⟩

end Watcher
end Sena
