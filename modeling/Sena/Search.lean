import Mathlib.Data.List.Basic

/-! Searching an interval for a disagreement.

One party claims what stands at every point that divides an interval; the other has
a view of its own of every point. If the two agree at the low end, the first segment
whose end they disagree about is an interval of the same kind. Where every claim is
the view there is nothing to find. -/
namespace Sena.Search

variable {P α : Type}

/-- An interval, and what is claimed at its ends. -/
structure Span (P α : Type) where
  lo : P
  hi : P
  atLo : α
  atHi : α

/-- The view agrees with the claim at the low end, not with the one at the high end. -/
structure Span.Contested (own : P → α) (s : Span P α) : Prop where
  agreed : s.atLo = own s.lo
  differs : s.atHi ≠ own s.hi

/-- Segment `i` of a division, with a claim for each point. -/
structure SegmentAt (points : List P) (claims : List α) (i : Nat) (s : Span P α) : Prop where
  lo : points[i]? = some s.lo
  hi : points[i + 1]? = some s.hi
  atLo : claims[i]? = some s.atLo
  atHi : claims[i + 1]? = some s.atHi

/-- The claim at point `i`, if there is one, is the view. -/
def AgreesAt (own : P → α) (points : List P) (claims : List α) (i : Nat) : Prop :=
  ∀ p c, points[i]? = some p → claims[i]? = some c → c = own p

variable {own : P → α} {points : List P} {claims : List α} {s : Span P α} {i : Nat}

/-- Up to its end a segment's points are agreed, and its end is not. -/
structure FirstDifference (own : P → α) (points : List P) (claims : List α) (i : Nat) : Prop where
  before : ∀ j ≤ i, AgreesAt own points claims j
  here : ¬AgreesAt own points claims (i + 1)

/-- What is searched stays contested. -/
theorem FirstDifference.contested (first : FirstDifference own points claims i)
    (segment : SegmentAt points claims i s) : s.Contested own := by
  refine ⟨first.before i (Nat.le_refl i) _ _ segment.lo segment.atLo, fun same => first.here ?_⟩
  intro p c at' claimed
  rw [segment.hi, Option.some.injEq] at at'
  rw [segment.atHi, Option.some.injEq] at claimed
  rw [← at', ← claimed, same]

theorem FirstDifference.eq_last (first : FirstDifference own points claims i)
    (interior : ∀ j ≤ n, AgreesAt own points claims j) (inside : i ≤ n) : i = n := by
  rcases Nat.lt_or_eq_of_le inside with before | last
  · exact absurd (interior (i + 1) before) first.here
  · exact last

theorem agreesAt_echo {p : P} {rest : List P} {first last : α} (agreed : first = own p) (j : Nat)
    (inside : j + 1 < (p :: rest).length) :
    AgreesAt own (p :: rest) (first :: rest.dropLast.map own ++ [last]) j := by
  intro q c at' claimed
  cases j with
  | zero =>
    simp only [List.getElem?_cons_zero, List.cons_append, Option.some.injEq] at at' claimed
    rw [← at', ← claimed, agreed]
  | succ j =>
    simp only [List.length_cons] at inside
    rw [List.getElem?_cons_succ] at at'
    rw [List.cons_append, List.getElem?_cons_succ, List.getElem?_append_left (by simp; omega), List.getElem?_map,
      List.getElem?_dropLast, if_pos (by omega), at'] at claimed
    exact (Option.some.inj claimed).symm

theorem exists_segmentAt (paired : points.length = claims.length) (inside : i + 1 < points.length) :
    ∃ s : Span P α, SegmentAt points claims i s :=
  ⟨⟨points[i], points[i + 1], claims[i], claims[i + 1]⟩, List.getElem?_eq_getElem _, List.getElem?_eq_getElem _,
    List.getElem?_eq_getElem _, List.getElem?_eq_getElem _⟩

end Sena.Search
