import Sena.BisectionProofs
import Sena.LedgerRuns
import Sena.TracePlayer

/-! The reference verifier wins where its disagreement lies inside its own trace.

Over every division a defender offers, the player agrees with the dispute at the low
end and disagrees at the high end, until one step is left that it can prove. This
takes an end the player has a state of its own for, and a claim about that state that
is not the player's. Against a trace length past the player's trace, and against a
true claim about too short a trace, the defender only has to repeat the player's
commitments. -/
namespace Sena

namespace Fraudproof

open Disputes (Party)
open Search (AgreesAt FirstDifference SegmentAt Span)

section
variable {own : U64 → Hash256}

theorem firstOther_cases {points : List U64} {ends : List Hash256} (long : ends.length ≤ points.length) (index : Nat) :
    (∃ k < ends.length, firstOther own index points ends = some (some (index + k)) ∧
      (∀ j < k, AgreesAt own points ends j) ∧ ¬AgreesAt own points ends k) ∨
    (firstOther own index points ends = some none ∧ ∀ j, AgreesAt own points ends j) := by
  induction ends generalizing points index with
  | nil => exact .inr ⟨by simp [firstOther], fun j p c _ claimed => by simp at claimed⟩
  | cons claimed rest ih =>
    cases points with
    | nil => simp at long
    | cons point points =>
      have head : AgreesAt own (point :: points) (claimed :: rest) 0 ↔ own point = claimed := by
        simp [AgreesAt, eq_comm]
      have tail : ∀ j, AgreesAt own (point :: points) (claimed :: rest) (j + 1) ↔ AgreesAt own points rest j := by
        simp [AgreesAt]
      by_cases same : own point = claimed
      · have here : firstOther own index (point :: points) (claimed :: rest) = firstOther own (index + 1) points rest := by
          simp [firstOther, same]
        rcases @ih points (by simpa using long) (index + 1) with ⟨k, inside, found, before, differs⟩ | ⟨found, all⟩
        · refine .inl ⟨k + 1, by simpa using inside, ?_, fun j earlier => ?_, fun agrees => differs ((tail k).mp agrees)⟩
          · rw [here, found, Nat.add_assoc, Nat.add_comm 1]
          · cases j with
            | zero => exact head.mpr same
            | succ j => exact (tail j).mpr (before j (by omega))
        · refine .inr ⟨here.trans found, fun j => ?_⟩
          cases j with
          | zero => exact head.mpr same
          | succ j => exact (tail j).mpr (all j)
      · exact .inl ⟨0, by simp, by simp [firstOther, same], by simp, fun agrees => same (head.mp agrees)⟩

theorem firstOther_spec {points : List U64} {ends : List Hash256}
    (paired : points.length = ends.length + 1) (agreed : AgreesAt own points (start :: ends) 0) :
    (∃ k, k + 1 < points.length ∧ firstOther own 0 points.tail ends = some (some k) ∧
      FirstDifference own points (start :: ends) k) ∨
    (firstOther own 0 points.tail ends = some none ∧ ∀ j, AgreesAt own points (start :: ends) j) := by
  cases points with
  | nil => simp at paired
  | cons point points =>
    have tail : ∀ j, AgreesAt own (point :: points) (start :: ends) (j + 1) ↔ AgreesAt own points ends j := by
      simp [AgreesAt]
    simp only [List.length_cons, Nat.add_right_cancel_iff] at paired
    rcases @firstOther_cases own _ _ paired.ge 0 with ⟨k, inside, found, before, differs⟩ | ⟨found, all⟩
    · refine .inl ⟨k, by simpa [paired] using inside, by simpa using found, fun j earlier => ?_,
        fun agrees => differs ((tail k).mp agrees)⟩
      cases j with
      | zero => exact agreed
      | succ j => exact (tail j).mpr (before j (by omega))
    · refine .inr ⟨found, fun j => ?_⟩
      cases j with
      | zero => exact agreed
      | succ j => exact (tail j).mpr (all j)

end

namespace Dispute

variable {d d' : Dispute} {now : U64} {limit : Nat}

/-- Where a dispute stands: one step is left, a division is awaited, or one is offered
that fits. -/
inductive Standing (d : Dispute) : Prop
  | narrow (width : d.hi.val = d.lo.val + 1) (stage : d.stage = .oneStep)
  | awaited (wide : d.lo.val + 1 < d.hi.val) (stage : d.stage = .bisecting none) (turn : d.turn = .defender)
  | offered (wide : d.lo.val + 1 < d.hi.val) (stage : d.stage = .bisecting (some offered))
      (turn : d.turn = .challenger) (bounded : d.boundaries = some bounds) (fits : offered.length = bounds.length - 2)

/-- What every undecided dispute over at most `limit` steps keeps. -/
structure Shape (limit : Nat) (d : Dispute) : Prop where
  arity : d.arity = DEFAULT_ARITY
  proper : d.lo.val < d.hi.val
  within : d.hi.val ≤ limit
  timely : d.lastMoveAt.val ≤ d.deadline.val
  standing : Standing d

theorem le_saturatingAdd (a b : U64) : a.val ≤ (saturatingAdd a b).val := by
  have bound := a.isLt
  simp only [saturatingAdd]
  omega

theorem Shape.bounded (shape : Shape limit d) (few : limit < 2 ^ 61) :
    ∃ bounds, d.boundaries = some bounds ∧ Disputes.boundaries d.lo d.hi = .ok bounds := by
  have arity : Disputes.ARITY.val = 8 := rfl
  have within := shape.within
  obtain ⟨bounds, bounded⟩ := Disputes.exists_boundaries shape.proper (by rw [arity]; omega)
  refine ⟨bounds, ?_, bounded⟩
  rw [boundaries, shape.arity]
  exact boundaries_of_contract bounded

theorem shape_entered (arity : d.arity = DEFAULT_ARITY) (proper : d.lo.val < d.hi.val) (within : d.hi.val ≤ limit)
    (timely : d.lastMoveAt.val ≤ d.deadline.val) (stage : d.stage = .bisecting none) (turn : d.turn = .defender) :
    Shape limit d.enterOneStepIfNarrow := by
  unfold enterOneStepIfNarrow
  split
  · rename_i width
    exact ⟨arity, proper, within, timely, .narrow (by dsimp only; omega) rfl⟩
  · exact ⟨arity, proper, within, timely, .awaited (by omega) stage turn⟩

theorem shape_open (opening : Opening) (start : U64) (positive : 1 ≤ opening.traceLength.val) :
    Shape opening.traceLength.val (Dispute.open opening start) :=
  shape_entered rfl positive (Nat.le_refl _) (le_saturatingAdd _ _) rfl rfl

/-- Paying for time changes a clock only. -/
theorem Shape.setClock (shape : Shape limit d) (party : Party) (left : U64) : Shape limit (d.setClock party left) := by
  obtain ⟨arity, proper, within, timely, standing⟩ := shape
  have kept : Standing (d.setClock party left) := by
    cases party with
    | defender | challenger =>
      cases standing with
      | narrow width stage => exact .narrow width stage
      | awaited wide stage turn => exact .awaited wide stage turn
      | offered wide stage turn bounded fits => exact .offered wide stage turn bounded fits
  cases party with
  | defender | challenger => exact ⟨arity, proper, within, timely, kept⟩

theorem Shape.offers (shape : Shape limit d)
    (played : d.dissect now commitments = some (d', .ok ())) : Shape limit d' := by
  obtain ⟨left, offered, bounds, charged, stage, bounded, fits, rfl⟩ := dissect_eq_ok.mp played
  have wide : d.lo.val + 1 < d.hi.val := by
    cases shape.standing with
    | narrow _ oneStep => simp [stage] at oneStep
    | awaited wide | offered wide => exact wide
  have turn : d.turn.other = .challenger := by rw [charged.turn]; rfl
  exact ⟨shape.arity, shape.proper, shape.within, le_saturatingAdd _ _, .offered wide rfl turn bounded fits⟩

/-- A selected segment is shorter than the interval it is taken from. -/
theorem Shape.selects (shape : Shape limit d) (few : limit < 2 ^ 61) (played : d.select now index = some (d', .ok ())) :
    Shape limit d' ∧ d'.hi.val - d'.lo.val < d.hi.val - d.lo.val := by
  obtain ⟨left, offered, bounds, s, charged, stage, bounded, inside, segment, rfl⟩ := select_eq_ok.mp played
  obtain ⟨bounds', bounded', contract⟩ := shape.bounded few
  obtain rfl : bounds = bounds' := by simpa [bounded] using bounded'
  have wide : d.lo.val + 1 < d.hi.val := by
    cases shape.standing with
    | narrow _ oneStep => simp [stage] at oneStep
    | awaited wide | offered wide => exact wide
  have low := Disputes.getElem?_boundaries contract segment.lo
  have high := Disputes.getElem?_boundaries contract segment.hi
  have length := Disputes.length_boundaries contract
  have proper := Disputes.boundaryAt_lt shape.proper index
  have last := Disputes.boundaryAt_mono shape.proper
    (show index + 1 ≤ Disputes.segments (d.hi.val - d.lo.val) by omega)
  rw [Disputes.boundaryAt_last shape.proper.le] at last
  have narrows := Disputes.boundaryAt_narrows wide (show index < Disputes.segments (d.hi.val - d.lo.val) by omega)
  rw [← low, ← high] at proper narrows
  rw [← high] at last
  have turn : d.turn.other = .defender := by rw [charged.turn]; rfl
  obtain ⟨sameLo, sameHi, -, -⟩ := Span.mk.inj (span_narrowed d now left s)
  refine ⟨shape_entered shape.arity proper (Nat.le_trans last shape.within) (le_saturatingAdd _ _) rfl turn, ?_⟩
  rwa [sameLo, sameHi]

end Dispute

/-- No division is pending: one step is left, or the defender is to divide. -/
def Dispute.Ready (d : Dispute) : Prop :=
  d.stage = .oneStep ∨ d.stage = .bisecting none ∧ d.turn = .defender

theorem Dispute.ready_entered {d : Dispute} (stage : d.stage = .bisecting none) (turn : d.turn = .defender) :
    d.enterOneStepIfNarrow.Ready := by
  unfold Dispute.enterOneStepIfNarrow
  split
  · exact .inl rfl
  · exact .inr ⟨stage, turn⟩

/-- What happens in a dispute the player challenges: a division is offered, or the
player answers one. -/
inductive Action where
  | divide (commitments : List Hash256)
  | answer
deriving DecidableEq

namespace TracePlayer

/-- One move of a dispute in which nobody is late. A division may be refused. -/
def Plays (crypto : Crypto) (player : TracePlayer) (d : Dispute) (m : U64 × Action) (d' : Dispute) : Prop :=
  match m.2 with
  | .divide commitments =>
    ∃ result, d.dissect m.1 commitments = some (d', result) ∧ result ≠ .error .alreadyResolved
  | .answer => player.play crypto d .challenger m.1 = some (d', .ok ())

/-- A move of the challenger's at `now` is in time. -/
structure InTime (d : Dispute) (now : U64) : Prop where
  since : d.lastMoveAt.val ≤ now.val
  inTime : now.val ≤ d.deadline.val
  affordable : now.val - d.lastMoveAt.val ≤ d.challengerClock.val

/-- Whatever divisions are offered, the player answers each in time, every answer
narrows the dispute, and the proof of the step that is left wins. -/
structure Wins (crypto : Crypto) (program : List Instruction) (player : TracePlayer) (start : Dispute) : Prop where
  answers : ∀ moves d now, Run (Plays crypto player) start moves d → d.turn = .challenger →
    1 < d.hi.val - d.lo.val → InTime d now → ∃ d', player.play crypto d .challenger now = some (d', .ok ())
  narrows : ∀ moves d, Run (Plays crypto player) start moves d →
    0 < d.hi.val - d.lo.val ∧
      (moves.filter (·.2 = .answer)).length + (d.hi.val - d.lo.val) ≤ start.hi.val - start.lo.val
  proves : ∀ moves d, Run (Plays crypto player) start moves d → d.hi.val - d.lo.val = 1 →
    ∃ proof, player.oneStepProof crypto d = some proof ∧
      (adjudicate crypto program d proof).map (·.winner) = some .challenger

variable {crypto : Crypto} {player : TracePlayer} {d d' : Dispute} {now : U64} {limit : Nat}

theorem play_eq_ok : player.play crypto d .challenger now = some (d', .ok ()) ↔
    ∃ offered index, d.stage = .bisecting (some offered) ∧
      player.firstDisagreement crypto d offered = some (some index) ∧ d.select now index = some (d', .ok ()) := by
  simp only [play]
  split
  · rename_i offered stage
    simp only [stage, Stage.bisecting.injEq, Option.some.injEq, exists_and_left, exists_eq_left',
      Option.bind_eq_bind, Option.bind_eq_some_iff]
    constructor
    · rintro ⟨found, searched, played⟩
      cases found with
      | none => simp at played
      | some index =>
        obtain ⟨⟨next, result⟩, selected, same⟩ := Option.bind_eq_some_iff.mp played
        simp only [Option.pure_def, Option.some.injEq, Prod.mk.injEq] at same
        obtain ⟨rfl, accepted⟩ := same
        obtain rfl := Move.mapError_eq_ok.mp accepted
        exact ⟨index, searched, selected⟩
    · rintro ⟨index, searched, selected⟩
      exact ⟨some index, searched, by simp [selected, Except.mapError]⟩
  · rename_i other
    simp only [Option.some.injEq, Prod.mk.injEq, reduceCtorEq, and_false, false_iff]
    rintro ⟨offered, _, stage, _⟩
    exact other offered stage

theorem shape_plays {m : U64 × Action} (shape : d.Shape limit) (few : limit < 2 ^ 61)
    (plays : Plays crypto player d m d') : d'.Shape limit ∧
      (if m.2 = .answer then 1 else 0) + (d'.hi.val - d'.lo.val) ≤ d.hi.val - d.lo.val := by
  obtain ⟨now, action⟩ := m
  cases action with
  | answer =>
    obtain ⟨_, _, _, _, selected⟩ := play_eq_ok.mp plays
    obtain ⟨shape', narrower⟩ := shape.selects few selected
    refine ⟨shape', ?_⟩
    rw [if_pos rfl]
    omega
  | divide commitments =>
    obtain ⟨result, played, inTime⟩ := plays
    rw [if_neg (by simp), Nat.zero_add]
    cases (Dispute.dissect_spec played).1 with
    | refused => exact ⟨shape, Nat.le_refl _⟩
    | decided => exact absurd rfl inTime
    | misfit => exact ⟨shape.setClock _ _, Nat.le_refl _⟩
    | accepted =>
      obtain ⟨_, _, _, _, _, _, _, rfl⟩ := Dispute.dissect_eq_ok.mp played
      exact ⟨shape.offers played, Nat.le_refl _⟩

theorem shape_run {moves : List (U64 × Action)} (shape : d.Shape limit) (few : limit < 2 ^ 61)
    (ran : Run (Plays crypto player) d moves d') : d'.Shape limit ∧
      (moves.filter (·.2 = .answer)).length + (d'.hi.val - d'.lo.val) ≤ d.hi.val - d.lo.val := by
  induction moves generalizing d with
  | nil =>
    cases ran
    exact ⟨shape, by simp⟩
  | cons m moves ih =>
    obtain ⟨mid, plays, ran⟩ := ran
    obtain ⟨shape₁, first⟩ := shape_plays shape few plays
    obtain ⟨shape', rest⟩ := ih shape₁ ran
    refine ⟨shape', ?_⟩
    rw [List.filter_cons]
    split at first
    · rename_i answered
      rw [if_pos (by simpa using answered), List.length_cons]
      omega
    · rename_i other
      rw [if_neg (by simpa using other)]
      omega

/-- The player finds the first end it disputes, if there is one. -/
theorem firstDisagreement_cases {offered : List Hash256} {bounds : List U64} (bounded : d.boundaries = some bounds)
    (contract : Disputes.boundaries d.lo d.hi = .ok bounds) (paired : bounds.length = offered.length + 2)
    (agreed : d.loCommitment = player.commitmentAt crypto d.lo) :
    (∃ k, k + 1 < bounds.length ∧ player.firstDisagreement crypto d offered = some (some k) ∧
      FirstDifference (player.commitmentAt crypto) bounds (d.claims offered) k) ∨
    (player.firstDisagreement crypto d offered = some none ∧
      ∀ j, AgreesAt (player.commitmentAt crypto) bounds (d.claims offered) j) := by
  have searched : player.firstDisagreement crypto d offered =
      firstOther (player.commitmentAt crypto) 0 bounds.tail (offered ++ [d.hiCommitment]) := by
    simp [firstDisagreement, bounded]
  rw [searched]
  refine firstOther_spec (by simpa using paired) ?_
  intro p c at' claimed
  rw [Disputes.boundaries_first contract, Option.some.injEq] at at'
  rw [List.getElem?_cons_zero, Option.some.injEq] at claimed
  rw [← at', ← claimed, agreed]

section
variable (shape : d.Shape limit) (few : limit < 2 ^ 61)
include shape few

theorem bounds_of_offer {offered : List Hash256}
    (stage : d.stage = .bisecting (some offered)) : ∃ bounds, d.boundaries = some bounds ∧
      Disputes.boundaries d.lo d.hi = .ok bounds ∧ bounds.length = offered.length + 2 := by
  obtain ⟨bounds, bounded, contract⟩ := shape.bounded few
  refine ⟨bounds, bounded, contract, ?_⟩
  have length := Disputes.length_boundaries contract
  have positive := Disputes.segments_pos (d.hi.val - d.lo.val)
  cases shape.standing with
  | narrow _ other | awaited _ other => simp [stage] at other
  | @offered offered' bounds' _ stage' _ bounded' fits =>
    rw [stage, Stage.bisecting.injEq, Option.some.injEq] at stage'
    rw [bounded, Option.some.injEq] at bounded'
    subst stage' bounded'
    omega

theorem answers_contested (contested : d.span.Contested (player.commitmentAt crypto)) (turn : d.turn = .challenger)
    (wide : 1 < d.hi.val - d.lo.val) (inTime : InTime d now) :
    ∃ d', player.play crypto d .challenger now = some (d', .ok ()) := by
  obtain ⟨offered, stage⟩ : ∃ offered, d.stage = .bisecting (some offered) := by
    cases shape.standing with
    | narrow width => omega
    | awaited _ _ other => simp [turn] at other
    | offered _ stage => exact ⟨_, stage⟩
  obtain ⟨bounds, bounded, contract, paired⟩ := bounds_of_offer shape few stage
  rcases firstDisagreement_cases bounded contract paired contested.agreed with ⟨k, inside, found, _⟩ | ⟨_, all⟩
  · obtain ⟨s, segment⟩ : ∃ s, SegmentAt bounds (d.claims offered) k s :=
      Search.exists_segmentAt (by simp [Dispute.claims, paired]) inside
    have charged : Dispute.Charged d now .challenger (d.challengerClock - (now - d.lastMoveAt)) := by
      have elapsed : (now - d.lastMoveAt).val = now.val - d.lastMoveAt.val := Fin.sub_val_of_le inTime.since
      refine ⟨by simp [Dispute.isResolved, stage], inTime.since, turn, inTime.inTime, inTime.affordable, ?_⟩
      rw [Fin.sub_val_of_le (by rw [Fin.le_def, elapsed]; exact inTime.affordable), elapsed]
      rfl
    exact ⟨_, play_eq_ok.mpr ⟨offered, k, stage, found,
      Dispute.select_eq_ok.mpr ⟨_, offered, bounds, s, charged, stage, bounded, by omega, segment, rfl⟩⟩⟩
  · -- the end of the interval is claimed otherwise than the player has it
    refine absurd (all (bounds.length - 1) _ _ (Disputes.boundaries_last contract) ?_) contested.differs
    simp [Dispute.claims, paired, Dispute.span]

/-- An answer leaves a contested interval contested. -/
theorem contested_of_play (agreed : d.loCommitment = player.commitmentAt crypto d.lo)
    (played : player.play crypto d .challenger now = some (d', .ok ())) :
    d'.span.Contested (player.commitmentAt crypto) := by
  obtain ⟨offered, index, stage, found, selected⟩ := play_eq_ok.mp played
  obtain ⟨_, offered', bounds, s, _, stage', bounded, inside, segment, rfl⟩ := Dispute.select_eq_ok.mp selected
  obtain rfl : offered = offered' := by simpa [stage] using stage'
  obtain ⟨bounds', bounded', contract, paired⟩ := bounds_of_offer shape few stage
  obtain rfl : bounds = bounds' := by simpa [bounded] using bounded'
  rw [Dispute.span_narrowed]
  rcases firstDisagreement_cases bounded contract paired agreed with ⟨k, _, found', first⟩ | ⟨found', _⟩
  · obtain rfl : index = k := by simpa [found] using found'
    exact first.contested segment
  · simp [found] at found'

theorem contested_plays
    (contested : d.span.Contested (player.commitmentAt crypto)) (plays : Plays crypto player d m d') :
    d'.span.Contested (player.commitmentAt crypto) := by
  obtain ⟨now, action⟩ := m
  cases action with
  | answer => exact contested_of_play shape few contested.agreed plays
  | divide commitments =>
    obtain ⟨result, played, inTime⟩ := plays
    cases (Dispute.dissect_spec played).1 with
    | refused => exact contested
    | decided => exact absurd rfl inTime
    | misfit => exact contested
    | accepted =>
      obtain ⟨_, _, _, _, _, _, _, rfl⟩ := Dispute.dissect_eq_ok.mp played
      exact contested

theorem contested_run
    (contested : d.span.Contested (player.commitmentAt crypto)) (ran : Run (Plays crypto player) d moves d') :
    d'.span.Contested (player.commitmentAt crypto) :=
  (ran.invariant (fun d => d.Shape limit ∧ d.span.Contested (player.commitmentAt crypto))
    (fun _ _ _ _ kept plays => ⟨(shape_plays kept.1 few plays).1, contested_plays kept.1 few kept.2 plays⟩)
    ⟨shape, contested⟩).2

end

/-- The string hashed for a machine state. -/
def stateImage (s : MachineState) : Bytes := canonical .machineState [s.stateRoot.bytes, be 8 s.pc.val]

theorem stateImage_inj : stateImage s = stateImage t ↔ s = t := by
  constructor
  · intro same
    have small : ∀ (s : MachineState), ∀ b ∈ [s.stateRoot.bytes, be 8 s.pc.val], Framable b := by
      intro s b member
      simp only [List.mem_cons, List.not_mem_nil, or_false] at member
      rcases member with rfl | rfl
      · simp [Framable]
      · simp [Framable]
    obtain ⟨_, fields⟩ := canonical_inj (small s) (small t) same
    simp only [List.cons.injEq, FixedBytes.bytes_inj, and_true] at fields
    obtain ⟨sameRoot, samePc⟩ := fields
    have pcs := (be_inj (by have := s.pc.isLt; omega) (by have := t.pc.isLt; omega)).mp samePc
    obtain ⟨root, pc⟩ := s
    obtain ⟨root', pc'⟩ := t
    obtain rfl : root = root' := sameRoot
    obtain rfl : pc = pc' := Fin.ext pcs
    rfl
  · rintro rfl
    rfl

theorem commitment_inj {s t : MachineState} (free : CollisionFree crypto.sha256 images)
    (inS : stateImage s ∈ images) (inT : stateImage t ∈ images) :
    s.commitment crypto = t.commitment crypto ↔ s = t := by
  constructor
  · intro same
    exact stateImage_inj.mp (free.inj inS inT same)
  · rintro rfl
    rfl

open Execute (Steps Traced stepImages witnessFor verifyStep batchProgram executeBatch)

/-- The state the proposer claims the batch ends in. -/
def claimedState (a : Assertion) : MachineState := ⟨a.postStateRoot, Fin.ofNat _ a.traceLength⟩

/-- What is hashed for the states of the player's trace and the claimed one, and for the
steps up to the claimed end. -/
def gameImages (crypto : Crypto) (player : TracePlayer) (a : Assertion) : Set Bytes :=
  {b | ∃ s, (s ∈ player.trace.states ∨ s = claimedState a) ∧ b = stateImage s} ∪
    {b | ∃ k < a.traceLength, ∃ trie i, Run (Steps crypto) player.preState (player.trace.instructions.take k) trie ∧
      player.trace.instructions[k]? = some i ∧ b ∈ stepImages crypto trie i (witnessFor crypto trie i)}

section Proving

variable {post : MerkleTrie} {a : Assertion}

theorem stateAt_of_traced (traced : Traced crypto player.preState player.trace post) (step : U64)
    (inside : step.val ≤ player.trace.instructions.length) :
    ∃ trie, Run (Steps crypto) player.preState (player.trace.instructions.take step.val) trie ∧
      player.stateAt step = ⟨trie.root, step⟩ := by
  obtain ⟨trie, ran, found⟩ := traced.states step.val inside
  refine ⟨trie, ran, ?_⟩
  rw [stateAt, found, Option.getD_some]
  congr 1
  exact Fin.ext (Nat.mod_eq_of_lt step.isLt)

theorem foldlM_of_run {is : List Instruction} (ran : Run (Steps crypto) trie is trie') :
    is.foldlM (Execute.apply crypto) trie = .ok trie' :=
  Run.foldlM_eq_ok.mpr (ran.mono fun _ _ _ _ stepped => stepped.1)

section
variable (traced : Traced crypto player.preState player.trace post)
  (built : MerkleTrie.Built crypto player.preState)
  (free : CollisionFree crypto.sha256 (gameImages crypto player a)) (stage : d.stage = .oneStep)
  (width : d.hi.val = d.lo.val + 1) (claimed : d.lo.val < a.traceLength)
  (inside : d.lo.val < player.trace.instructions.length)
include traced built free stage width claimed inside

theorem oneStepProof_of_traced : ∃ i witness,
      player.trace.instructions[d.lo.val]? = some i ∧
        player.oneStepProof crypto d = some ⟨player.stateAt d.lo, witness⟩ ∧
        verifyStep crypto (player.stateAt d.lo) i witness = .ok (player.stateAt d.hi) := by
  obtain ⟨i, found⟩ : ∃ i, player.trace.instructions[d.lo.val]? = some i := ⟨_, List.getElem?_eq_getElem inside⟩
  obtain ⟨trie, ran, before⟩ := stateAt_of_traced traced d.lo inside.le
  obtain ⟨trie', ran', after⟩ := stateAt_of_traced traced d.hi (by omega)
  -- one more instruction from the same trie
  rw [width, List.take_add_one, found, Option.toList_some] at ran'
  obtain ⟨mid, toMid, last⟩ := Run.append_iff.mp ran'
  obtain rfl : mid = trie := by simpa [foldlM_of_run ran] using (foldlM_of_run toMid).symm
  have stepped := Run.singleton_iff.mp last
  have freeStep : CollisionFree crypto.sha256 (stepImages crypto mid i (witnessFor crypto mid i)) :=
    free.mono fun b member => .inr ⟨d.lo.val, claimed, mid, i, ran, found, member⟩
  obtain ⟨tree, repr⟩ := (built.run_steps ran).represents (freeStep.mono fun b member => .inl (.inl member))
  refine ⟨i, witnessFor crypto mid i, found, ?_, ?_⟩
  · simp only [oneStepProof, Dispute.disputedStep, stage, Option.bind_eq_bind, Option.bind_some, found,
      foldlM_of_run ran, Except.toOption, Option.pure_def]
    rfl
  · have next : d.lo + 1 = d.hi := by
      apply Fin.ext
      rw [width, Fin.val_add_eq_of_add_lt (by have := d.hi.isLt; simpa using (by omega : d.lo.val + 1 < 2 ^ 64))]
      rfl
    have early : d.lo.val < 2 ^ 64 - 1 := by have := d.hi.isLt; omega
    rw [before, after, Execute.verifyStep_witnessFor repr freeStep early, stepped.1, ← next]
    rfl

theorem adjudicate_oneStepProof (agreed : d.loCommitment = player.commitmentAt crypto d.lo) :
    ∃ proof, player.oneStepProof crypto d = some proof ∧
      ((adjudicate crypto player.trace.instructions d proof).map (·.winner) = some .challenger ↔
        d.hiCommitment ≠ player.commitmentAt crypto d.hi) := by
  obtain ⟨i, witness, found, proved, verified⟩ := oneStepProof_of_traced traced built free stage width claimed inside
  refine ⟨_, proved, ?_⟩
  have opens : (player.stateAt d.lo).commitment crypto = d.loCommitment := agreed.symm
  have ends : (player.stateAt d.hi).commitment crypto = player.commitmentAt crypto d.hi := rfl
  simp only [adjudicate, Dispute.disputedStep, stage, Option.bind_eq_bind, Option.bind_some, opens, ne_eq,
    not_true_eq_false, if_false, found, verified, ends]
  split
  · rename_i confirmed
    simp [confirmed]
  · rename_i refuted
    simp [Ne.symm refuted]

end

/-- A defender can repeat a view of the points at once. -/
theorem divides_echo (own : U64 → Hash256) (shape : d.Shape limit) (few : limit < 2 ^ 61)
    (stage : d.stage = .bisecting none) (turn : d.turn = .defender) : ∃ first rest d₁,
      d.dissect d.lastMoveAt (rest.dropLast.map own) = some (d₁, .ok ()) ∧ d₁.boundaries = some (first :: rest) ∧
        d₁.stage = .bisecting (some (rest.dropLast.map own)) ∧ d₁.turn = .challenger ∧ d₁.span = d.span ∧
        InTime d₁ d.lastMoveAt := by
  obtain ⟨bounds, bounded, contract⟩ := shape.bounded few
  have length := Disputes.length_boundaries contract
  obtain ⟨first, rest, rfl⟩ := List.exists_cons_of_length_pos (show 0 < bounds.length by omega)
  have charged : Dispute.Charged d d.lastMoveAt .defender d.defenderClock :=
    ⟨by simp [Dispute.isResolved, stage], Nat.le_refl _, turn, shape.timely, by simp, by simp [Dispute.clock]⟩
  have fits : (rest.dropLast.map own).length = (first :: rest).length - 2 := by simp
  refine ⟨first, rest, _, Dispute.dissect_eq_ok.mpr ⟨_, none, _, charged, stage, bounded, fits, rfl⟩, bounded, rfl,
    congrArg Party.other turn, rfl, Nat.le_refl _, Dispute.le_saturatingAdd _ _, ?_⟩
  simp [Dispute.passTurn]

/-- Where the division repeats the player, it can only select the last segment. -/
theorem selects_last {rest : List U64} (shape : d.Shape limit) (few : limit < 2 ^ 61)
    (bounded : d.boundaries = some (first :: rest))
    (stage : d.stage = .bisecting (some (rest.dropLast.map (player.commitmentAt crypto))))
    (agreed : d.loCommitment = player.commitmentAt crypto d.lo)
    (played : player.play crypto d .challenger now = some (d', .ok ())) :
    d'.Ready ∧ d'.hi = d.hi ∧ d'.hiCommitment = d.hiCommitment := by
  obtain ⟨offered, index, stage', found, selected⟩ := play_eq_ok.mp played
  rw [stage, Stage.bisecting.injEq, Option.some.injEq] at stage'
  subst stage'
  obtain ⟨bounds, bounded', contract, paired⟩ := bounds_of_offer shape few stage
  obtain rfl : first :: rest = bounds := by simpa [bounded] using bounded'
  have low : first = d.lo := Option.some.inj (Disputes.boundaries_first contract)
  have last := Disputes.boundaries_last contract
  have interior : ∀ j ≤ rest.length - 1, AgreesAt (player.commitmentAt crypto) (first :: rest)
      (d.claims (rest.dropLast.map (player.commitmentAt crypto))) j := fun j inside =>
    Search.agreesAt_echo (agreed.trans (congrArg _ low.symm)) j (by simp at paired ⊢; omega)
  rcases firstDisagreement_cases bounded contract paired agreed with ⟨k, inside, found', difference⟩ | ⟨found', _⟩
  · obtain rfl : index = k := Option.some.inj (Option.some.inj (found.symm.trans found'))
    have final : index + 1 = (first :: rest).length - 1 := by
      have := difference.eq_last interior (by simp at inside; omega)
      simp at inside ⊢
      omega
    obtain ⟨left, offered, bounds, s, charged, stage', bounded', _, segment, rfl⟩ := Dispute.select_eq_ok.mp selected
    rw [stage, Stage.bisecting.injEq, Option.some.injEq] at stage'
    rw [bounded, Option.some.injEq] at bounded'
    subst stage' bounded'
    have high := segment.hi
    have claimed := segment.atHi
    rw [final, last, Option.some.injEq] at high
    rw [final, paired] at claimed
    have ends : d.hiCommitment = s.atHi := by simpa [Dispute.claims] using claimed
    have turn : d.turn.other = .defender := by rw [charged.turn]; rfl
    obtain ⟨_, sameHi, _, sameClaim⟩ := Span.mk.inj (Dispute.span_narrowed d now left s)
    exact ⟨Dispute.ready_entered rfl turn, sameHi.trans high.symm, sameClaim.trans ends.symm⟩
  · exact absurd (found.symm.trans found') (by simp)

variable {start : Dispute} {moves : List (U64 × Action)}

theorem echoed
    (wins : Wins crypto program player start) (ran : Run (Plays crypto player) start moves d) (shape : d.Shape limit)
    (few : limit < 2 ^ 61) (stage : d.stage = .bisecting none) (turn : d.turn = .defender)
    (agreed : d.loCommitment = player.commitmentAt crypto d.lo) : ∃ moves' d',
      Run (Plays crypto player) start moves' d' ∧ d'.Ready ∧ d'.hi = d.hi ∧ d'.hiCommitment = d.hiCommitment ∧
        d'.loCommitment = player.commitmentAt crypto d'.lo ∧ d'.hi.val - d'.lo.val < d.hi.val - d.lo.val := by
  obtain ⟨first, rest, d₁, divided, bounded, stage₁, turn₁, span₁, inTime₁⟩ :=
    divides_echo (player.commitmentAt crypto) shape few stage turn
  obtain ⟨lo₁, hi₁, loCommitment₁, hiCommitment₁⟩ := Span.mk.inj span₁
  have shape₁ := shape.offers divided
  have agreed₁ : d₁.loCommitment = player.commitmentAt crypto d₁.lo := by rw [loCommitment₁, lo₁, agreed]
  have wide : 1 < d₁.hi.val - d₁.lo.val := by
    cases shape₁.standing with
    | narrow _ other => simp [stage₁] at other
    | awaited wide | offered wide => omega
  have ran₁ : Run (Plays crypto player) start (moves ++ [(d.lastMoveAt, .divide _)]) d₁ :=
    Run.append_iff.mpr ⟨d, ran, Run.singleton_iff.mpr ⟨_, divided, by simp⟩⟩
  obtain ⟨d', played⟩ := wins.answers _ d₁ _ ran₁ turn₁ wide inTime₁
  obtain ⟨ready, sameHi, sameClaim⟩ := selects_last shape₁ few bounded stage₁ agreed₁ played
  obtain ⟨_, _, _, _, selected⟩ := play_eq_ok.mp played
  have answered : Run (Plays crypto player) d₁ [(d.lastMoveAt, .answer)] d' := Run.singleton_iff.mpr played
  refine ⟨_, d', Run.append_iff.mpr ⟨d₁, ran₁, answered⟩, ready, sameHi.trans hi₁, sameClaim.trans hiCommitment₁, (contested_of_play shape₁ few agreed₁ played).agreed, ?_⟩
  have narrower := (shape₁.selects few selected).2
  rwa [lo₁, hi₁] at narrower

theorem inside_of_oneStepProof (proved : player.oneStepProof crypto d = some proof) :
    d.lo.val < player.trace.instructions.length := by
  simp only [oneStepProof, Option.bind_eq_bind, Option.bind_eq_some_iff] at proved
  obtain ⟨step, disputed, i, found, _⟩ := proved
  obtain rfl : d.lo = step := by
    unfold Dispute.disputedStep at disputed
    split at disputed
    · exact Option.some.inj disputed
    · cases disputed
  exact (List.getElem?_eq_some_iff.mp found).1

theorem differs_of_wins (wins : Wins crypto player.trace.instructions player start)
    (traced : Traced crypto player.preState player.trace post) (built : MerkleTrie.Built crypto player.preState)
    (free : CollisionFree crypto.sha256 (gameImages crypto player a)) (shape : start.Shape a.traceLength)
    (few : a.traceLength < 2 ^ 61) (ran : Run (Plays crypto player) start moves d) (ready : d.Ready)
    (agreed : d.loCommitment = player.commitmentAt crypto d.lo) :
    d.hi.val ≤ player.trace.instructions.length ∧ d.hiCommitment ≠ player.commitmentAt crypto d.hi := by
  -- on the width: each repeated division moves the low end up
  induction width : d.hi.val - d.lo.val using Nat.strong_induction_on generalizing d moves with
  | _ w ih =>
    have shape' := (shape_run shape few ran).1
    have within := shape'.within
    rcases ready with stage | ⟨stage, turn⟩
    · have single : d.hi.val = d.lo.val + 1 := by
        cases shape'.standing with
        | narrow width => exact width
        | awaited _ other | offered _ other => simp [stage] at other
      obtain ⟨proof, proved, won⟩ := wins.proves moves d ran (by omega)
      have inside := inside_of_oneStepProof proved
      obtain ⟨proof', proved', verdict⟩ :=
        adjudicate_oneStepProof traced built free stage single (by omega) inside agreed
      obtain rfl : proof = proof' := Option.some.inj (proved.symm.trans proved')
      exact ⟨by omega, verdict.mp won⟩
    · obtain ⟨moves', d', ran', ready', sameHi, sameClaim, agreed', narrower⟩ :=
        echoed wins ran shape' few stage turn agreed
      have rest := ih _ (by omega) ran' ready' agreed' rfl
      rwa [sameHi, sameClaim] at rest

/-- A contested dispute inside the player's trace is won. -/
theorem wins_of_contested (traced : Traced crypto player.preState player.trace post)
    (built : MerkleTrie.Built crypto player.preState) (free : CollisionFree crypto.sha256 (gameImages crypto player a))
    (shape : start.Shape a.traceLength) (few : a.traceLength < 2 ^ 61)
    (inside : a.traceLength ≤ player.trace.instructions.length)
    (contested : start.span.Contested (player.commitmentAt crypto)) :
    Wins crypto player.trace.instructions player start := by
  refine ⟨fun moves d now ran turn wide inTime => ?_, fun moves d ran => ?_, fun moves d ran width => ?_⟩
  · exact answers_contested (shape_run shape few ran).1 few (contested_run shape few contested ran) turn wide inTime
  · obtain ⟨shape', narrower⟩ := shape_run shape few ran
    exact ⟨Nat.sub_pos_of_lt shape'.proper, narrower⟩
  · have shape' := (shape_run shape few ran).1
    have contested' := contested_run shape few contested ran
    have within := shape'.within
    obtain ⟨single, stage⟩ : d.hi.val = d.lo.val + 1 ∧ d.stage = .oneStep := by
      cases shape'.standing with
      | narrow width stage => exact ⟨width, stage⟩
      | awaited wide | offered wide => omega
    obtain ⟨proof, proved, verdict⟩ :=
      adjudicate_oneStepProof traced built free stage single (by omega) (by omega) contested'.agreed
    exact ⟨proof, proved, verdict.mpr contested'.differs⟩

end Proving

theorem span_openDispute (crypto : Crypto) (player : TracePlayer) (identity : U32) (assertionId : Hash256) (a : Assertion) (challengeWindow now : U64) :
    (player.openDispute crypto identity assertionId a challengeWindow now).span =
      ⟨0, Fin.ofNat _ a.traceLength, player.commitmentAt crypto 0, (claimedState a).commitment crypto⟩ :=
  Dispute.enterOneStepIfNarrow_span _

/-- The verifier wins the disputes it opens exactly when the claimed trace length is not
past its own trace and the claimed root is not the root it has there. So it does whenever
the trace length is right. -/
theorem verifier_wins_iff {post : MerkleTrie} {ctx : Execute.BatchContext} {txs : List Transaction}
    (player : TracePlayer) (executed : executeBatch crypto player.preState ctx txs = .ok (post, player.trace))
    (built : MerkleTrie.Built crypto player.preState) (a : Assertion) (positive : 1 ≤ a.traceLength)
    (few : a.traceLength < 2 ^ 61) (diverges : checkAssertion a player.trace player.started ≠ .agrees)
    (free : CollisionFree crypto.sha256 (gameImages crypto player a)) (identity : U32) (assertionId : Hash256)
    (challengeWindow now : U64) : ∃ program, batchProgram crypto ctx txs = .ok program ∧
      (Wins crypto program player (player.openDispute crypto identity assertionId a challengeWindow now) ↔
        a.traceLength ≤ player.trace.instructions.length ∧
          player.trace.states[a.traceLength]?.map (·.stateRoot) ≠ some a.postStateRoot) ∧
      (a.traceLength = player.trace.instructions.length →
        Wins crypto program player (player.openDispute crypto identity assertionId a challengeWindow now)) := by
  obtain ⟨traced, compiled⟩ := Execute.traced_of_executeBatch executed
  have length : (Fin.ofNat (2 ^ 64) a.traceLength).val = a.traceLength := Nat.mod_eq_of_lt (by omega)
  have shape : (player.openDispute crypto identity assertionId a challengeWindow now).Shape
      (Fin.ofNat (2 ^ 64) a.traceLength).val := 
    Dispute.shape_open (player.opening crypto identity assertionId a challengeWindow) now (length.symm ▸ positive)
  rw [length] at shape
  have ready : (player.openDispute crypto identity assertionId a challengeWindow now).Ready :=
    Dispute.ready_entered rfl rfl
  have span := span_openDispute crypto player identity assertionId a challengeWindow now
  generalize player.openDispute crypto identity assertionId a challengeWindow now = start at shape ready span
  obtain ⟨low, high, agreed, claimed⟩ := Span.mk.inj span
  -- inside the trace, the player's state at the claimed end
  have ended : a.traceLength ≤ player.trace.instructions.length → ∃ root,
      player.trace.states[a.traceLength]? = some ⟨root, Fin.ofNat _ a.traceLength⟩ ∧
        player.stateAt (Fin.ofNat _ a.traceLength) = ⟨root, Fin.ofNat _ a.traceLength⟩ := by
    intro inside
    obtain ⟨trie, _, found⟩ := traced.states a.traceLength inside
    exact ⟨trie.root, found, by rw [stateAt, length, found]; rfl⟩
  have wins_iff : Wins crypto player.trace.instructions player start ↔
      a.traceLength ≤ player.trace.instructions.length ∧
        player.trace.states[a.traceLength]?.map (·.stateRoot) ≠ some a.postStateRoot := by
    constructor
    · intro wins
      have begun : Run (Plays crypto player) start [] start := rfl
      obtain ⟨inside, differs⟩ := differs_of_wins wins traced built free shape few begun ready (by rw [agreed, low])
      rw [high, length] at inside
      obtain ⟨root, found, state⟩ := ended inside
      refine ⟨inside, fun same => differs ?_⟩
      rw [found, Option.map_some, Option.some.injEq] at same
      rw [claimed, high, commitmentAt, state, claimedState, ← same]
    · rintro ⟨inside, other⟩
      obtain ⟨root, found, state⟩ := ended inside
      refine wins_of_contested traced built free shape few inside ⟨?_, fun same => other ?_⟩
      · exact agreed.trans (congrArg _ low.symm)
      · have equal : (claimedState a).commitment crypto = MachineState.commitment crypto ⟨root, Fin.ofNat _ a.traceLength⟩ := by
          rw [← claimed, ← state, ← high]
          exact same
        have states := (commitment_inj free (.inl ⟨_, .inr rfl, rfl⟩)
          (.inl ⟨_, .inl (List.mem_of_getElem? found), rfl⟩)).mp equal
        rw [found, Option.map_some, (MachineState.mk.inj states).1]
  refine ⟨player.trace.instructions, compiled, wins_iff, fun same => wins_iff.mpr ⟨same.le, fun root => diverges ?_⟩⟩
  rw [same] at root
  have last : player.trace.states[player.trace.instructions.length]? = some (player.trace.finalState player.started) := by
    rw [Execute.ExecutionTrace.finalState, ← List.getLast?_eq_some_getLast, List.getLast?_eq_getElem?, traced.length]
    rfl
  rw [last, Option.map_some, Option.some.injEq] at root
  simp [checkAssertion, root, same]

/-- The strings of a game as a list that can be checked. -/
def gameList (crypto : Crypto) (player : TracePlayer) (a : Assertion) : List Bytes :=
  (claimedState a :: player.trace.states).map stateImage ++
    (List.range a.traceLength).flatMap fun k =>
      match (player.trace.instructions.take k).foldlM (Execute.apply crypto) player.preState,
        player.trace.instructions[k]? with
      | .ok trie, some i => Execute.stepList crypto trie i
      | _, _ => []

theorem gameImages_subset : gameImages crypto player a ⊆ {b | b ∈ gameList crypto player a} := by
  rintro b (⟨s, among, rfl⟩ | ⟨k, before, trie, i, ran, found, member⟩)
  · exact List.mem_append_left _ (List.mem_map_of_mem (List.mem_cons.mpr among.symm))
  · refine List.mem_append_right _ (List.mem_flatMap.mpr ⟨k, List.mem_range.mpr before, ?_⟩)
    rw [foldlM_of_run ran, found]
    exact Execute.stepImages_subset member

end TracePlayer
end Fraudproof

namespace Devnet

open Execute (executeBatch)
open Fraudproof

/-- The verifier of the small devnet once it has re-executed the payment. -/
def verifier : Option TracePlayer := do
  let genesis ← (small.buildState crypto hashing).toOption
  let (_, trace) ← (executeBatch crypto genesis context [payment]).toOption
  if started : trace.states ≠ [] then return ⟨trace, genesis, started⟩ else none

theorem executes_of_verifier {player : TracePlayer} (held : verifier = some player) :
    small.buildState crypto hashing = .ok player.preState ∧
      ∃ post, executeBatch crypto player.preState context [payment] = .ok (post, player.trace) := by
  simp only [verifier, Option.bind_eq_bind, Option.bind_eq_some_iff, Prod.exists] at held
  obtain ⟨genesis, state, post, trace, executed, held⟩ := held
  split at held
  · cases held
    exact ⟨Move.toOption_eq_some.mp state, post, Move.toOption_eq_some.mp executed⟩
  · cases held

/-- A claim about the payment's batch. -/
def claimOf (player : TracePlayer) (postStateRoot : Hash256) (traceLength : Nat) : Assertion where
  parent := Hash256.zero
  proposer := 0
  preStateRoot := player.preState.root
  postStateRoot := postStateRoot
  batchCommitment := Hash256.zero
  traceLength := traceLength
  bond := 1

/-- The verifier wins over a false root at the end of the payment's eight steps. -/
theorem false_root_is_defeated : ∃ player program, verifier = some player ∧
    Execute.batchProgram crypto context [payment] = .ok program ∧
    checkAssertion (claimOf player Hash256.zero 8) player.trace player.started ≠ .agrees ∧
    TracePlayer.Wins crypto program player
      (player.openDispute crypto 7 Hash256.zero (claimOf player Hash256.zero 8) 86400 5) := by
  obtain ⟨player, held, eight, diverges, apart⟩ : ∃ player ∈ verifier, player.trace.instructions.length = 8 ∧
      checkAssertion (claimOf player Hash256.zero 8) player.trace player.started ≠ .agrees ∧
      MerkleTrie.digestsApart crypto.sha256 (player.gameList crypto (claimOf player Hash256.zero 8)) = true := by
    decide +kernel
  obtain ⟨state, post, executed⟩ := executes_of_verifier held
  have free := (MerkleTrie.collisionFree_of_digestsApart apart).mono TracePlayer.gameImages_subset
  obtain ⟨program, compiled, _, wins⟩ := TracePlayer.verifier_wins_iff player executed
    (GenesisConfig.built_of_buildState state) (claimOf player Hash256.zero 8) (show 1 ≤ 8 by decide)
    (show 8 < 2 ^ 61 by decide) diverges free 7 Hash256.zero 86400 5
  exact ⟨player, program, held, compiled, diverges, wins eight.symm⟩

/-- A proposer who ends the payment's trace after its first step, with the true root there,
is challenged and wins. -/
theorem understated_trace_defeats_verifier : ∃ player s proof verdict, verifier = some player ∧
    player.trace.states[1]? = some s ∧
    checkAssertion (claimOf player s.stateRoot 1) player.trace player.started ≠ .agrees ∧
    player.oneStepProof crypto (player.openDispute crypto 7 Hash256.zero (claimOf player s.stateRoot 1) 86400 5) =
      some proof ∧
    Execute.batchProgram crypto context [payment] = .ok player.trace.instructions ∧
    adjudicate crypto player.trace.instructions
      (player.openDispute crypto 7 Hash256.zero (claimOf player s.stateRoot 1) 86400 5) proof = some verdict ∧
    verdict.winner = .defender := by
  obtain ⟨player, held, s, first, diverges, proof, proved, verdict, settled, won⟩ :
      ∃ player ∈ verifier, ∃ s ∈ player.trace.states[1]?,
        checkAssertion (claimOf player s.stateRoot 1) player.trace player.started ≠ .agrees ∧
        ∃ proof ∈ player.oneStepProof crypto
          (player.openDispute crypto 7 Hash256.zero (claimOf player s.stateRoot 1) 86400 5),
        ∃ verdict ∈ adjudicate crypto player.trace.instructions
          (player.openDispute crypto 7 Hash256.zero (claimOf player s.stateRoot 1) 86400 5) proof,
          verdict.winner = .defender := by
    decide +kernel
  obtain ⟨_, _, executed⟩ := executes_of_verifier held
  exact ⟨player, s, proof, verdict, held, first, diverges, proved, (Execute.traced_of_executeBatch executed).2,
    settled, won⟩

end Devnet
end Sena
