import Sena.L1Proofs

/-! What becomes of one dispute while everyone calls whatever they like.

A game is opened once, played by its two parties and resolved; nothing else
touches it. From that follows what holds of every game in every registry. -/
namespace Sena

open Move Assertions Disputes Relation

namespace Assertions

variable {c c' : Chain} {key : Bytes}

theorem hasOpenChallenge_iff : hasOpenChallenge c key who = true ↔ ∃ x ∈ c.openOn key, x.challenger = who := by
  unfold hasOpenChallenge Chain.openOn
  cases c.challenges key <;> simp

/-- Nobody challenges an assertion of their own, nor one assertion twice. -/
structure Contested (c : Chain) : Prop where
  others : ∀ key r, c.assertions key = some r → ∀ x ∈ c.openOn key, x.challenger ≠ r.proposer
  once : ∀ key, ((c.openOn key).map (·.challenger)).Nodup

/-- Moves that write one known record, keep its proposer and add no challenge. -/
theorem Contested.write (contested : Contested c) (recordAt : c.assertions key = some record)
    (wrote : c'.assertions = Function.update c.assertions key (some written))
    (proposer : written.proposer = record.proposer)
    (fewer : ∀ other, (c'.openOn other).Sublist (c.openOn other)) : Contested c' := by
  refine ⟨fun other r found x inside => ?_, fun other => ?_⟩
  · have before := (fewer other).subset inside
    rw [wrote] at found
    by_cases here : other = key
    · obtain rfl : written = r := by simpa [here] using found
      rw [proposer]
      exact contested.others key record recordAt x (here ▸ before)
    · exact contested.others other r (by simpa [here] using found) x before
  · exact ((fewer other).map _).nodup (contested.once other)

theorem Contested.challenged (contested : Contested c) (challenged : Challenged c challenger key bond record count) :
    Contested (c.challenged challenger key bond record count) := by
  have fresh : ∀ x ∈ c.openOn key, x.challenger ≠ challenger := by
    intro x inside same
    have opened := hasOpenChallenge_iff.mpr ⟨x, inside, same⟩
    simp [challenged.notTwice] at opened
  refine ⟨fun other r found x inside => ?_, fun other => ?_⟩
  · by_cases same : other = key
    · subst same
      obtain rfl : { record with status := .challenged, openChallenges := count } = r := by
        simpa [Chain.challenged] using found
      rw [c.openOn_challenged, List.mem_append, List.mem_singleton] at inside
      rcases inside with inside | rfl
      · exact contested.others _ record challenged.recordAt x inside
      · exact challenged.notSelf
    · rw [c.openOn_challenged_of_ne same] at inside
      exact contested.others other r (by simpa [Chain.challenged, same] using found) x inside
  · by_cases same : other = key
    · subst same
      rw [c.openOn_challenged, List.map_append]
      refine List.nodup_append.mpr ⟨contested.once _, List.nodup_singleton _, ?_⟩
      simpa using fresh
    · rw [c.openOn_challenged_of_ne same]
      exact contested.once other

theorem Moves.contested (moves : Moves crypto c c') (books : Books c) (contested : Contested c) : Contested c' := by
  cases moves with
  | posted now proposer args _ posted =>
    refine ⟨fun other r found x inside => ?_, contested.once⟩
    cases known : c.assertions other with
    | none =>
      change x ∈ c.openOn other at inside
      simp [books.unknown other known] at inside
    | some r₀ =>
      obtain rfl : r₀ = r := by simpa [posted.keeps known] using found
      exact contested.others other r₀ known x inside
  | challenged challenger challenged => exact contested.challenged challenged
  | @defended key _ _ loser defended =>
    obtain ⟨recordAt, _, _, _, _, _, _, _, _, _, rfl⟩ := defended
    refine contested.write recordAt rfl rfl fun other => ?_
    by_cases same : other = key
    · simpa [Chain.openOn, same] using List.eraseP_sublist
    · simp [Chain.openOn, same]
  | rejected rejected =>
    obtain ⟨recordAt, _, challenges, left, _, _, rfl⟩ := rejected
    refine contested.write recordAt rfl rfl fun other => ?_
    change ((challenges other).getD []).Sublist _
    rw [left other]
    split
    · exact List.nil_sublist _
    · exact .refl _
  | finalized now finalized =>
    obtain ⟨recordAt, _, _, _, _, _, _, rfl⟩ := finalized
    exact contested.write recordAt rfl rfl fun other => .refl _

theorem contested_of_moves (sound : Sound crypto c) (contested : Contested c)
    (moves : ReflTransGen (Moves crypto) c c') : Contested c' := by
  induction moves with
  | refl => exact contested
  | tail before last ih => exact last.contested (sound_of_moves sound before).books ih

theorem challenged_keeps (inside : x ∈ c.openOn key) :
    x ∈ (c.challenged challenger at' bond record count).openOn key := by
  by_cases here : key = at'
  · subst here
    rw [c.openOn_challenged]
    exact List.mem_append_left _ inside
  · rwa [c.openOn_challenged_of_ne here]

/-- This assertion has been rejected. -/
def Chain.Fallen (c : Chain) (key : Bytes) : Prop :=
  ∃ r, c.assertions key = some r ∧ r.status = .rejected

theorem Chain.Fallen.evolve (fallen : c.Fallen key) (evolves : Evolves c c') : c'.Fallen key := by
  obtain ⟨r, found, rejected⟩ := fallen
  obtain ⟨r', found', updates⟩ := evolves.records key r found
  exact ⟨r', found', by rw [updates.settled (.inr rejected), rejected]⟩

theorem hasOpenChallenge_of_rejections (rejections : ReflTransGen Rejection c c')
    (opened : hasOpenChallenge c key who = true) :
    hasOpenChallenge c' key who = true ∨ c'.Fallen key := by
  induction rejections with
  | refl => exact .inl opened
  | tail _ last ih =>
    obtain ⟨key', record, rejected⟩ := last
    have evolves := rejected.evolves
    rcases ih with opened | fallen
    · obtain ⟨recordAt, _, challenges, left, _, _, rfl⟩ := rejected
      by_cases here : key = key'
      · subst here
        exact .inr ⟨_, Function.update_self _ _ _, rfl⟩
      · refine .inl (hasOpenChallenge_iff.mpr ?_)
        obtain ⟨x, inside, same⟩ := hasOpenChallenge_iff.mp opened
        refine ⟨x, ?_, same⟩
        change x ∈ (challenges key).getD []
        rwa [left key, if_neg here]
    · exact .inr (fallen.evolve evolves)

theorem hasOpenChallenge_of_defended (defended : Defended c at' loser record c')
    (opened : hasOpenChallenge c key who = true) (other : ¬(key = at' ∧ who = loser)) :
    hasOpenChallenge c' key who = true := by
  obtain ⟨_, _, _, _, _, _, _, _, _, _, rfl⟩ := defended
  obtain ⟨x, inside, same⟩ := hasOpenChallenge_iff.mp opened
  refine hasOpenChallenge_iff.mpr ⟨x, ?_, same⟩
  by_cases here : key = at'
  · subst here
    have apart : x.challenger ≠ loser := fun lost => other ⟨rfl, same.symm.trans lost⟩
    simpa [Chain.openOn, List.mem_eraseP_of_neg, apart] using inside
  · simpa [Chain.openOn, here] using inside

end Assertions

namespace Disputes

theorem segments_pos (span : Nat) : 0 < segments span := by
  unfold segments
  split <;> omega

theorem segments_le (positive : 0 < span) : segments span ≤ span := by
  unfold segments
  split <;> omega

/-- Where the boundary `i` of an interval lies. -/
def boundaryAt (lo hi i : Nat) : Nat := lo + (hi - lo) * i / segments (hi - lo)

theorem boundaryAt_zero (lo hi : Nat) : boundaryAt lo hi 0 = lo := by simp [boundaryAt]

theorem boundaryAt_last (ordered : lo ≤ hi) : boundaryAt lo hi (segments (hi - lo)) = hi := by
  rw [boundaryAt, Nat.mul_div_cancel _ (segments_pos _)]
  omega

/-- Every segment of a proper interval has a step in it. -/
theorem boundaryAt_lt (proper : lo < hi) (i : Nat) : boundaryAt lo hi i < boundaryAt lo hi (i + 1) := by
  have few := segments_le (show 0 < hi - lo by omega)
  have positive := segments_pos (hi - lo)
  unfold boundaryAt
  rw [Nat.mul_succ]
  have more : ((hi - lo) * i + segments (hi - lo)) / segments (hi - lo) ≤
      ((hi - lo) * i + (hi - lo)) / segments (hi - lo) := Nat.div_le_div_right (by omega)
  rw [Nat.add_div_right _ positive] at more
  omega

theorem boundaryAt_mono (proper : lo < hi) (later : i ≤ j) : boundaryAt lo hi i ≤ boundaryAt lo hi j :=
  (strictMono_nat_of_lt_succ (boundaryAt_lt proper)).monotone later

theorem forall₂_values {items : List Nat} {bounds : List U64} {g : Nat → Nat} :
    List.Forall₂ (fun i p => p.val = g i) items bounds ↔ bounds.map (·.val) = items.map g := by
  have swap : (fun (i : Nat) (p : U64) => p.val = g i) = fun i p => g i = p.val := by
    funext i p
    exact propext eq_comm
  rw [swap, ← List.forall₂_map_right_iff, ← List.forall₂_map_left_iff, List.forall₂_eq_eq_eq, eq_comm]

/-- The boundaries of an interval, where the products that compute them fit. -/
def Bounds (lo hi : U64) (bounds : List U64) : Prop :=
  lo.val ≤ hi.val ∧ (hi.val - lo.val) * segments (hi.val - lo.val) < 2 ^ 64 ∧
    bounds.map (·.val) = (List.range (segments (hi.val - lo.val) + 1)).map (boundaryAt lo.val hi.val)

/-- Boundaries computed one after another. -/
theorem bounds_iff_forall₂ {lo hi : U64} : Bounds lo hi bounds ↔ lo.val ≤ hi.val ∧
    List.Forall₂ (fun i p => (hi.val - lo.val) * i < 2 ^ 64 ∧ p.val = boundaryAt lo.val hi.val i)
      (List.range (segments (hi.val - lo.val) + 1)) bounds := by
  rw [Bounds, List.forall₂_and_left, forall₂_values]
  refine and_congr_right fun _ => and_congr_left fun _ => ⟨fun fits i inside => ?_, fun each => ?_⟩
  · rw [List.mem_range] at inside
    exact Nat.lt_of_le_of_lt (Nat.mul_le_mul_left _ (by omega)) fits
  · exact each _ (by simp)

/-- What the contract computes. -/
theorem boundaries_eq_ok : boundaries lo hi = .ok bounds ↔ Bounds lo hi bounds := by
  simp only [boundaries, bind_eq_ok, sub_eq_ok, mapM_ok_iff, checked_eq_ok, bounds_iff_forall₂]
  constructor
  · rintro ⟨span, ⟨ordered, width⟩, each⟩
    rw [width] at each
    refine ⟨ordered, each.imp ?_⟩
    rintro i p ⟨scaled, product, here⟩
    exact ⟨product ▸ scaled.isLt, by rw [here, product, boundaryAt]⟩
  · rintro ⟨ordered, each⟩
    refine ⟨⟨hi.val - lo.val, by omega⟩, ⟨ordered, rfl⟩, each.imp ?_⟩
    rintro i p ⟨product, here⟩
    exact ⟨⟨_, product⟩, rfl, here⟩

theorem length_boundaries {lo hi : U64} (bounded : boundaries lo hi = .ok bounds) :
    bounds.length = segments (hi.val - lo.val) + 1 := by
  have lengths := congrArg List.length (boundaries_eq_ok.mp bounded).2.2
  simpa using lengths

theorem getElem?_boundaries {lo hi : U64} (bounded : boundaries lo hi = .ok bounds)
    (found : bounds[i]? = some p) : p.val = boundaryAt lo.val hi.val i := by
  have inside : i < segments (hi.val - lo.val) + 1 :=
    length_boundaries bounded ▸ (List.getElem?_eq_some_iff.mp found).1
  have values := congrArg (·[i]?) (boundaries_eq_ok.mp bounded).2.2
  simpa [found, inside] using values

theorem segments_le_arity (span : Nat) : segments span ≤ ARITY.val := by
  have arity : ARITY.val = 8 := rfl
  unfold segments
  split <;> omega

theorem exists_boundaries {lo hi : U64} (proper : lo.val < hi.val) (room : (hi.val - lo.val) * ARITY.val < 2 ^ 64) :
    ∃ bounds, boundaries lo hi = .ok bounds := by
  have product : (hi.val - lo.val) * segments (hi.val - lo.val) < 2 ^ 64 :=
    Nat.lt_of_le_of_lt (Nat.mul_le_mul_left _ (segments_le_arity _)) room
  have inside : ∀ i ∈ List.range (segments (hi.val - lo.val) + 1), boundaryAt lo.val hi.val i < 2 ^ 64 := by
    intro i within
    rw [List.mem_range] at within
    have last := boundaryAt_mono proper (show i ≤ segments (hi.val - lo.val) by omega)
    rw [boundaryAt_last proper.le] at last
    exact Nat.lt_of_le_of_lt last hi.isLt
  refine ⟨(List.range (segments (hi.val - lo.val) + 1)).pmap (fun i here => ⟨boundaryAt lo.val hi.val i, here⟩) inside, ?_⟩
  rw [boundaries_eq_ok]
  refine ⟨proper.le, product, ?_⟩
  rw [List.map_pmap, List.pmap_eq_map]

theorem two_le_segments (wide : 1 < span) : 2 ≤ segments span := by
  have arity : ARITY.val = 8 := rfl
  unfold segments
  split <;> omega

theorem boundaryAt_narrows (wide : lo + 1 < hi) (inside : i < segments (hi - lo)) :
    boundaryAt lo hi (i + 1) - boundaryAt lo hi i < hi - lo := by
  have proper : lo < hi := by omega
  have several : 2 ≤ segments (hi - lo) := two_le_segments (by omega)
  have first := boundaryAt_mono proper (Nat.zero_le i)
  have last := boundaryAt_mono proper (show i + 1 ≤ segments (hi - lo) by omega)
  rw [boundaryAt_zero] at first
  rw [boundaryAt_last proper.le] at last
  have step := boundaryAt_lt proper i
  -- some step lies outside: before the segment, or after it
  rcases Nat.eq_zero_or_pos i with rfl | later
  · have beyond := boundaryAt_mono proper several
    rw [boundaryAt_last proper.le] at beyond
    have next : boundaryAt lo hi (0 + 1) < boundaryAt lo hi 2 := boundaryAt_lt proper 1
    omega
  · have second := boundaryAt_mono proper (show 0 + 1 ≤ i from later)
    have start := boundaryAt_lt proper 0
    rw [boundaryAt_zero] at start
    omega

theorem boundaryAt_le_add (proper : lo < hi) (share : hi - lo ≤ 8 * m) (i : Nat) :
    boundaryAt lo hi (i + 1) ≤ boundaryAt lo hi i + m := by
  have arity : ARITY.val = 8 := rfl
  have wide : 0 < hi - lo := by omega
  unfold boundaryAt
  by_cases few : hi - lo < ARITY.val
  · -- one step for each segment
    have each : segments (hi - lo) = hi - lo := by
      unfold segments
      split <;> omega
    rw [each, Nat.mul_div_cancel_left _ wide, Nat.mul_div_cancel_left _ wide]
    omega
  · have full : segments (hi - lo) = 8 := by
      unfold segments
      split <;> omega
    rw [full, Nat.mul_succ]
    omega

theorem boundaries_first (bounded : boundaries lo hi = .ok bounds) : bounds[0]? = some lo := by
  have length := length_boundaries bounded
  have found : bounds[0]? = some bounds[0] := List.getElem?_eq_getElem (by omega)
  have value := getElem?_boundaries bounded found
  rw [boundaryAt_zero] at value
  rw [found, Fin.ext value]

theorem boundaries_last (bounded : boundaries lo hi = .ok bounds) : bounds[bounds.length - 1]? = some hi := by
  have length := length_boundaries bounded
  have last : bounds.length - 1 = segments (hi.val - lo.val) := by omega
  obtain ⟨p, found⟩ : ∃ p, bounds[segments (hi.val - lo.val)]? = some p :=
    ⟨_, List.getElem?_eq_getElem (by omega)⟩
  have value := getElem?_boundaries bounded found
  rw [boundaryAt_last (boundaries_eq_ok.mp bounded).1] at value
  rw [last, found, Fin.ext value]

/-- The interval, the turn and the offer of a game fit its stage. -/
structure Shape (d : Dispute) : Prop where
  proper : d.lo.val < d.hi.val
  wide : d.stage = .bisecting → d.lo.val + 1 < d.hi.val
  offered : d.stage = .bisecting → (d.turn = .challenger ↔ d.hasOffer = true)
  fits : d.hasOffer = true → ∃ bounds, boundaries d.lo d.hi = .ok bounds ∧
    d.offered.length = bounds.length - 2
  narrow : d.stage = .oneStep → d.hi.val = d.lo.val + 1 ∧ d.turn = .challenger

theorem Shape.opened (opened : Opened crypto w who registry assertion record d) : Shape d := by
  obtain ⟨lo, hi⟩ := opened.interval
  obtain ⟨-, hasOffer⟩ := opened.noOffer
  have traced := opened.traced
  have starts := opened.starts
  have zero : d.lo.val = 0 := by rw [lo]; rfl
  refine ⟨by rw [zero, hi]; exact traced, fun bisecting => ?_, fun bisecting => ?_, by simp [hasOffer],
    fun oneStep => ?_⟩
  · split at starts
    · simp [starts.1] at bisecting
    · rw [zero, hi]
      omega
  · split at starts
    · simp [starts.1] at bisecting
    · simp [starts.2, hasOffer]
  · split at starts
    · rename_i single
      exact ⟨by rw [zero, hi, single], starts.2⟩
    · simp [starts.1] at oneStep

theorem Shape.dissected (shape : Shape d) (dissected : Dissected d now commitments d') : Shape d' := by
  obtain ⟨left, deadline, -, -, rfl⟩ := dissected.result
  obtain ⟨bounds, bounded, fits⟩ := dissected.bounded
  have stage := dissected.stage
  exact ⟨shape.proper, shape.wide, fun _ => by simp, fun _ => ⟨bounds, bounded, fits⟩,
    fun oneStep => by simp [stage] at oneStep⟩

theorem Selected.inside (selected : Selected d now index d') (proper : d.lo.val < d.hi.val) :
    d.lo.val ≤ d'.lo.val ∧ d'.lo.val < d'.hi.val ∧ d'.hi.val ≤ d.hi.val := by
  obtain ⟨bounds, _, _, lo, hi, _, _, bounded, inside, loAt, hiAt, _, _, _, _, _, rfl⟩ := selected.result
  have loEq := getElem?_boundaries bounded loAt
  have hiEq := getElem?_boundaries bounded hiAt
  rw [length_boundaries bounded] at inside
  have first := boundaryAt_mono proper (Nat.zero_le index)
  have last := boundaryAt_mono proper (show index + 1 ≤ segments (d.hi.val - d.lo.val) by omega)
  rw [boundaryAt_zero] at first
  rw [boundaryAt_last proper.le] at last
  exact ⟨loEq ▸ first, loEq ▸ hiEq ▸ boundaryAt_lt proper index, hiEq ▸ last⟩

theorem Shape.selected (shape : Shape d) (selected : Selected d now index d') : Shape d' := by
  have inside := Selected.inside selected shape.proper
  obtain ⟨_, _, _, lo, hi, _, _, _, _, _, _, _, _, _, _, _, rfl⟩ := selected.result
  simp only at inside
  refine ⟨inside.2.1, fun bisecting => ?_, fun bisecting => ?_, by simp, fun oneStep => ?_⟩
  · by_cases one : hi.val - lo.val = 1
    · simp [one] at bisecting
    · simp only
      omega
  · by_cases one : hi.val - lo.val = 1
    · simp [one] at bisecting
    · simp [one]
  · by_cases one : hi.val - lo.val = 1
    · simp only [one, if_true, and_true]
      omega
    · simp [one] at oneStep

theorem Shape.resolve (shape : Shape d) (left : U64) (winner : Party) :
    Shape ((d.setClock .challenger left).resolve winner) ∧ Shape (d.resolve winner) := by
  have decided {p : Prop} {stage : Stage} (same : Stage.resolved = stage) (other : stage ≠ .resolved) : p :=
    absurd same.symm other
  obtain ⟨proper, _, _, fits, _⟩ := shape
  constructor <;> exact ⟨proper, fun stage => decided stage (by decide),
    fun stage => decided stage (by decide), fits, fun stage => decided stage (by decide)⟩

end Disputes

theorem disputeId_inj : disputeId a x = disputeId b y ↔ a = b ∧ x = y := by
  constructor
  · intro same
    obtain ⟨assertion, challenger⟩ := List.append_inj' same (by simp)
    exact ⟨assertion, FixedBytes.ext challenger⟩
  · rintro ⟨rfl, rfl⟩
    rfl

namespace L1

variable {crypto : Crypto} {w w' : L1} {who : Address} {c : Call} {g : GameId} {d d' : Dispute}

/-- What an accepted call does to the game `g`. -/
inductive Plays (crypto : Crypto) (w : L1) (who : Address) (c : Call) (g : GameId) (d : Dispute) :
    Dispute → Prop
  | kept : Plays crypto w who c g d d
  | dissected {d' : Dispute} (call : c = .dissect g commitments) (mover : who = d.defender)
      (dissected : Dissected d w.now commitments d') : Plays crypto w who c g d d'
  | selected {d' : Dispute} (call : c = .select g index) (mover : who = d.challenger)
      (selected : Selected d w.now index.val d') : Plays crypto w who c g d d'
  | stepped (call : c = .oneStep g leafIndex leaf witness) (mover : who = d.challenger)
      (stepped : Stepped crypto w g.registry d leafIndex.val leaf witness left winner) :
      Plays crypto w who c g d ((d.setClock .challenger left).resolve winner)
  | timedOut (call : c = .claimTimeout g) (unresolved : d.stage ≠ .resolved) :
      Plays crypto w who c g d (d.resolve d.turn.other)
  | closed (about : c.structural = some (g.registry, assertion)) (own : g.id = disputeId assertion who) :
      Plays crypto w who c g d (d.resolve .challenger)

theorem plays_of_write {after : GameId → Option Dispute}
    (wrote : after = Function.update w.games at' (some written)) (found : w.games g = some d)
    (here : g = at' → Plays crypto w who c g d written) :
    ∃ d', after g = some d' ∧ Plays crypto w who c g d d' := by
  subst wrote
  by_cases same : g = at'
  · exact ⟨written, by simp [same], here same⟩
  · exact ⟨d, by simpa [same] using found, .kept⟩

theorem Effect.plays (effect : Effect crypto w who c w') (found : w.games g = some d) :
    ∃ d', w'.games g = some d' ∧ Plays crypto w who c g d d' := by
  cases effect with
  | posted | challenged | finalized => exact ⟨d, found, .kept⟩
  | created fresh => exact ⟨d, by rwa [games_created fresh], .kept⟩
  | worked known => exact ⟨d, by rwa [games_worked known], .kept⟩
  | opened opened =>
    obtain ⟨_, known⟩ := opened.created
    refine plays_of_write (games_withGame known) found fun same => ?_
    rw [same, opened.fresh] at found
    cases found
  | @dissected at' d₀ _ _ found' mover dissected =>
    refine plays_of_write (games_rewrite found') found fun same => ?_
    subst same
    obtain rfl : d₀ = d := by simpa [found'] using found
    exact .dissected rfl mover dissected
  | @selected at' d₀ _ _ found' _ mover selected =>
    refine plays_of_write (games_rewrite found') found fun same => ?_
    subst same
    obtain rfl : d₀ = d := by simpa [found'] using found
    exact .selected rfl mover selected
  | @stepped at' d₀ _ _ _ _ _ _ found' _ mover stepped =>
    refine plays_of_write (games_settled found') found fun same => ?_
    subst same
    obtain rfl : d₀ = d := by simpa [found'] using found
    exact .stepped rfl mover stepped
  | @timedOut at' d₀ _ found' unresolved =>
    refine plays_of_write (games_settled found') found fun same => ?_
    subst same
    obtain rfl : d₀ = d := by simpa [found'] using found
    exact .timedOut rfl unresolved
  | @proved registry assertion _ _ about proved =>
    obtain ⟨c', _, rfl⟩ := proved.result
    rcases closeGame_cases { w with chain := c' } ⟨registry, disputeId assertion who⟩ with
      ⟨_, same⟩ | ⟨d₀, found', wrote⟩
    · exact ⟨d, by rw [same]; exact found, .kept⟩
    · refine plays_of_write (wrote ▸ games_rewrite found') found fun same => ?_
      subst same
      obtain rfl : d₀ = d := Option.some.inj (found'.symm.trans found)
      exact .closed about rfl

/-- A game that was not there before was opened by its challenger. -/
theorem Effect.opens (effect : Effect crypto w who c w') (fresh : w.games g = none)
    (found : w'.games g = some d) :
    ∃ assertion record, c = .openDispute g.registry assertion ∧ g.id = disputeId assertion who ∧
      Opened crypto w who g.registry assertion record d ∧ w'.chain = w.chain := by
  have elsewhere {c' : Chain} {at' : GameId} {before written : Dispute} (old : w.games at' = some before)
      (found : ({ w with chain := c' }.withGame at' written).games g = some d) : False := by
    have apart : g ≠ at' := by
      rintro rfl
      simp [old] at fresh
    rw [games_settled old, Function.update_of_ne apart] at found
    exact absurd (found.symm.trans fresh) (by simp)
  cases effect with
  | posted | challenged | finalized => exact absurd (found.symm.trans fresh) (by simp)
  | created new =>
    rw [games_created new, fresh] at found
    cases found
  | worked known =>
    rw [games_worked known, fresh] at found
    cases found
  | @opened registry assertion record written opened =>
    obtain ⟨_, known⟩ := opened.created
    rw [games_withGame known] at found
    by_cases same : g = ⟨registry, disputeId assertion who⟩
    · subst same
      obtain rfl : written = d := by simpa using found
      exact ⟨assertion, record, rfl, rfl, opened, rfl⟩
    · simp [same, fresh] at found
  | dissected old | selected old | stepped old | timedOut old => exact (elsewhere old found).elim
  | @proved registry assertion _ _ about proved =>
    obtain ⟨c', _, rfl⟩ := proved.result
    rcases closeGame_cases { w with chain := c' } ⟨registry, disputeId assertion who⟩ with
      ⟨_, same⟩ | ⟨_, old, wrote⟩
    · exact absurd ((same ▸ found).symm.trans fresh) (by simp)
    · exact (elsewhere old (wrote ▸ found)).elim

theorem opened_of_call (called : w.call crypto who (.openDispute registry assertion) = .ok w') :
    ∃ record d, Opened crypto w who registry assertion record d ∧
      w'.games = Function.update w.games ⟨registry, disputeId assertion who⟩ (some d) ∧
      w' = w.withGame ⟨registry, disputeId assertion who⟩ d := by
  obtain ⟨record, d, opened, rfl⟩ := opened_of_openDispute called
  obtain ⟨_, known⟩ := opened.created
  exact ⟨record, d, opened, games_withGame known, rfl⟩

/-- What holds of every game: who plays it over which interval, and that while it is
undecided its challenge stands, unless the same challenger's game over the same
assertion was decided in another registry. -/
structure GameSound (w : L1) (g : GameId) (d : Dispute) : Prop where
  named : g.id = disputeId d.assertion d.challenger
  apart : d.challenger ≠ d.defender
  record : ∃ r, w.chain.assertions d.assertion = some r ∧ d.defender = r.proposer ∧
    d.hi.val ≤ r.traceLength.val
  since : d.lastMoveAt.val ≤ w.now.val
  shape : Shape d
  standing : d.stage ≠ .resolved → hasOpenChallenge w.chain d.assertion d.challenger = true ∨
    w.chain.Fallen d.assertion ∨
    ∃ other d', other ≠ g.registry ∧ w.games ⟨other, g.id⟩ = some d' ∧ d'.stage = .resolved

/-- What holds in every state a deployment gets into, of the chain and the games. -/
structure Playing (crypto : Crypto) (w : L1) : Prop where
  sound : Sound crypto w.chain
  contested : Contested w.chain
  games : ∀ g d, w.games g = some d → GameSound w g d

theorem gameSound_of_opened (opened : Opened crypto w who registry assertion record d)
    (contested : Contested w.chain) : GameSound w ⟨registry, disputeId assertion who⟩ d := by
  have shape := Shape.opened opened
  obtain ⟨rfl, defender, rfl⟩ := opened.parties
  obtain ⟨lo, hi⟩ := opened.interval
  obtain ⟨_, _, last, _⟩ := opened.clocks
  obtain ⟨x, inside, same⟩ := hasOpenChallenge_iff.mp opened.challenging
  refine ⟨rfl, ?_, ⟨record, opened.recordAt, defender, by rw [hi]⟩, by rw [last], shape,
    fun _ => .inl opened.challenging⟩
  rw [defender, ← same]
  exact contested.others _ record opened.recordAt x inside

/-- A game goes on with the same parties over a part of its interval. -/
theorem Plays.parties (plays : Plays crypto w who c g d d') (shape : Shape d) :
    d'.assertion = d.assertion ∧ d'.challenger = d.challenger ∧ d'.defender = d.defender ∧
      d'.hi.val ≤ d.hi.val ∧ Shape d' ∧ (d'.lastMoveAt.val ≤ w.now.val ∨ d'.lastMoveAt = d.lastMoveAt) := by
  cases plays with
  | kept => exact ⟨rfl, rfl, rfl, Nat.le_refl _, shape, .inr rfl⟩
  | dissected _ _ dissected =>
    have shape' := shape.dissected dissected
    obtain ⟨_, _, _, _, rfl⟩ := dissected.result
    exact ⟨rfl, rfl, rfl, Nat.le_refl _, shape', .inl (Nat.le_refl _)⟩
  | selected _ _ selected =>
    have shape' := shape.selected selected
    have inside := Selected.inside selected shape.proper
    obtain ⟨_, _, _, _, _, _, _, _, _, _, _, _, _, _, _, _, rfl⟩ := selected.result
    exact ⟨rfl, rfl, rfl, inside.2.2, shape', .inl (Nat.le_refl _)⟩
  | stepped _ _ stepped =>
    exact ⟨rfl, rfl, rfl, Nat.le_refl _, (shape.resolve _ _).1, .inr rfl⟩
  | timedOut | closed =>
    exact ⟨rfl, rfl, rfl, Nat.le_refl _, (shape.resolve 0 _).2, .inr rfl⟩

/-- A decided game stays decided. -/
theorem Plays.resolved (plays : Plays crypto w who c g d d') (resolved : d.stage = .resolved) :
    d'.stage = .resolved := by
  cases plays with
  | kept => exact resolved
  | dissected _ _ dissected => simp [dissected.stage] at resolved
  | selected _ _ selected => simp [selected.stage] at resolved
  | stepped | timedOut | closed => rfl

/-- An open challenge stays open, unless the assertion falls or the call decides a game
of the challenger over it. -/
theorem Effect.standing (effect : Effect crypto w who c w')
    (named : ∀ g d, w.games g = some d → g.id = disputeId d.assertion d.challenger)
    (opened : hasOpenChallenge w.chain assertion challenger = true) :
    hasOpenChallenge w'.chain assertion challenger = true ∨ w'.chain.Fallen assertion ∨
      ∃ registry d d', w.games ⟨registry, disputeId assertion challenger⟩ = some d ∧ d.stage ≠ .resolved ∧
        w'.games ⟨registry, disputeId assertion challenger⟩ = some d' ∧ d'.stage = .resolved := by
  have settled {d after : Dispute} {at' : GameId} {winner : Party} {c' : Chain} (found : w.games at' = some d)
      (unresolved : d.stage ≠ .resolved) (settles : Settles w.chain d winner c') (resolved : after.stage = .resolved) :
      hasOpenChallenge c' assertion challenger = true ∨ c'.Fallen assertion ∨
        ∃ registry d d', w.games ⟨registry, disputeId assertion challenger⟩ = some d ∧ d.stage ≠ .resolved ∧
          ({ w with chain := c' }.withGame at' after).games ⟨registry, disputeId assertion challenger⟩ =
            some d' ∧ d'.stage = .resolved := by
    cases settles with
    | moot => exact .inl opened
    | won won =>
      exact (hasOpenChallenge_of_rejections (rejections_of_challengerWon won) opened).imp_right .inl
    | lost lost =>
      obtain ⟨_, defended⟩ := defended_of_defenderWon lost
      by_cases own : assertion = d.assertion ∧ challenger = d.challenger
      · have same : (⟨at'.registry, disputeId assertion challenger⟩ : GameId) = at' := by
          rw [own.1, own.2, ← named _ _ found]
        refine .inr (.inr ⟨at'.registry, d, after, by rw [same, found], unresolved, ?_, resolved⟩)
        rw [games_settled found, same, Function.update_self]
      · exact .inl (hasOpenChallenge_of_defended defended opened own)
  cases effect with
  | posted | created | worked | opened | dissected | selected => exact .inl opened
  | challenged challenged =>
    obtain ⟨x, inside, same⟩ := hasOpenChallenge_iff.mp opened
    refine .inl (hasOpenChallenge_iff.mpr ⟨x, ?_, same⟩)
    exact challenged_keeps inside
  | finalized finalized =>
    obtain ⟨_, _, _, _, _, _, _, rfl⟩ := finalized
    exact .inl opened
  | stepped found _ _ stepped settles => exact settled found stepped.charged.unresolved settles rfl
  | timedOut found unresolved _ settles => exact settled found unresolved settles rfl
  | proved _ proved =>
    exact (hasOpenChallenge_of_rejections (rejections_of_challengerWon proved.won) opened).imp_right .inl

theorem Effect.now (effect : Effect crypto w who c w') : w'.now = w.now := by
  cases effect with
  | proved _ proved =>
    obtain ⟨_, _, rfl⟩ := proved.result
    exact now_closeGame _ _
  | _ => rfl

/-- A game goes on soundly. -/
theorem GameSound.effect (game : GameSound w g d) (effect : Effect crypto w who c w') (encodable : c.Encodable)
    (named : ∀ g d, w.games g = some d → g.id = disputeId d.assertion d.challenger)
    (plays : Plays crypto w who c g d d') (found : w'.games g = some d') :
    GameSound w' g d' := by
  obtain ⟨assertion, challenger, defender, inside, shape, moved⟩ := plays.parties game.shape
  have evolves := evolves_of_moves (effect.moves encodable)
  obtain ⟨r, recordAt, proposer, within⟩ := game.record
  obtain ⟨r', recordAt', updates⟩ := evolves.records _ r recordAt
  refine ⟨by rw [assertion, challenger, game.named], by rw [challenger, defender]; exact game.apart,
    ⟨r', by rw [assertion, recordAt'], ?_, ?_⟩, ?_, shape, fun open' => ?_⟩
  · rw [defender, proposer, updates.claim]
  · rw [updates.claim]
    exact Nat.le_trans inside within
  · rw [effect.now]
    rcases moved with late | same
    · exact late
    · exact same ▸ game.since
  · rw [assertion, challenger]
    rcases game.standing (fun resolved => open' (plays.resolved resolved)) with
      standing | fallen | ⟨other, d₁, apart, decided, resolved⟩
    · rcases effect.standing named standing with
        still | fallen | ⟨other, _, d₁, _, _, found₁, resolved⟩
      · exact .inl still
      · exact .inr (.inl fallen)
      · -- the decided game is not this one
        rw [← game.named] at found₁
        refine .inr (.inr ⟨other, d₁, fun same => ?_, found₁, resolved⟩)
        subst same
        exact open' ((Option.some.inj (found₁.symm.trans found)) ▸ resolved)
    · exact .inr (.inl (fallen.evolve evolves))
    · obtain ⟨d₂, found₂, plays₂⟩ := effect.plays decided
      exact .inr (.inr ⟨other, d₂, apart, found₂, plays₂.resolved resolved⟩)

theorem Playing.step (playing : Playing crypto w) (step : StepWhen crypto allowed w w') : Playing crypto w' := by
  obtain ⟨sound, contested, games⟩ := playing
  cases step with
  | call who c encodable _ accepted =>
    have effect := effect_of_call accepted
    have moves := effect.moves encodable
    have named g d found := (games g d found).named
    refine ⟨sound_of_moves sound moves, contested_of_moves sound contested moves, fun g d' found => ?_⟩
    cases before : w.games g with
    | none =>
      obtain ⟨assertion, record, rfl, here, opened, same⟩ := effect.opens before found
      obtain ⟨registry, id⟩ := g
      obtain rfl : id = _ := here
      have game := gameSound_of_opened opened contested
      have now := effect.now
      exact ⟨game.named, game.apart, by rw [same]; exact game.record, by rw [now]; exact game.since,
        game.shape, fun _ => .inl (by rw [same, opened.parties.1, opened.parties.2.2]; exact opened.challenging)⟩
    | some d =>
      obtain ⟨d₁, found₁, plays⟩ := effect.plays before
      obtain rfl : d₁ = d' := by simpa [found₁] using found
      exact (games g d before).effect effect encodable named plays found
  | tick now later =>
    refine ⟨sound, contested, fun g d found => ?_⟩
    obtain ⟨named, apart, record, since, shape, standing⟩ := games g d found
    exact ⟨named, apart, record, Nat.le_trans since later, shape, standing⟩

theorem Playing.steps (playing : Playing crypto w) (steps : ReflTransGen (StepWhen crypto allowed) w w') :
    Playing crypto w' := by
  induction steps with
  | refl => exact playing
  | tail _ last ih => exact ih.step last

theorem playing_of_deploy (deployed : deploy crypto plan start = .ok w) : Playing crypto w := by
  obtain ⟨sound, -, fresh, -⟩ := deploy_eq_ok deployed
  simp only [deploy, initializeChain, bind_eq_ok, pure_iff, initializeRegistry_eq_ok] at deployed
  obtain ⟨_, ⟨_, _, rfl⟩, _, _, rfl⟩ := deployed
  exact ⟨sound, ⟨fun _ _ _ x inside => by simp [Chain.openOn] at inside, fun _ => List.nodup_nil⟩,
    fun g d found => by simp [fresh] at found⟩

theorem Reachable.playing (reachable : Reachable crypto plan w) : Playing crypto w := by
  obtain ⟨_, _, deployed, steps⟩ := reachable
  exact (playing_of_deploy deployed).steps steps

end L1
end Sena
