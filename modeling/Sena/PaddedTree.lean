import Mathlib.Data.List.Basic
import Mathlib.Data.Nat.Bitwise
import Mathlib.Tactic.Ring

/-! Binary trees over a list of leaves padded to a power of two, kept as their
levels from the leaves up.

A leaf's path collects its sibling at every level. Folding the leaf with that
path gives the one node of the last level. -/
namespace Sena.PaddedTree

variable {H : Type} (node : H → H → H)

/-- The level above: one node for each pair. -/
def above : List H → List H
  | left :: right :: rest => node left right :: above rest
  | _ => []

/-- The levels from this one up to the first with at most one node. -/
def levels : (fuel : Nat) → List H → List (List H)
  | 0, level => [level]
  | fuel + 1, level =>
    if level.length ≤ 1 then [level] else level :: levels fuel (above node level)

/-- The sibling met at each level below the last, from the leaf up. -/
def path (fallback : H) : List (List H) → (index : Nat) → List H
  | level :: next :: rest, index =>
    level.getD (index ^^^ 1) fallback :: path fallback (next :: rest) (index / 2)
  | _, _ => []

/-- Folds a node with the siblings of its path; the index says on which side the
node stands. -/
def climb : (index : Nat) → List H → H → H
  | _, [], running => running
  | index, sibling :: rest, running =>
    climb (index / 2) rest (if index % 2 = 0 then node running sibling else node sibling running)

/-- Doubles a width until it covers `n`, counting the doublings. -/
def double : (fuel width height n : Nat) → Nat × Nat
  | 0, width, height, _ => (width, height)
  | fuel + 1, width, height, n =>
    if width < n then double fuel (width * 2) (height + 1) n else (width, height)

/-- The least power of two that covers `n`, with its exponent. -/
def cover (n : Nat) : Nat × Nat := double n 1 0 n

theorem double_spec (enough : n ≤ 2 ^ (height + fuel)) :
    ∃ m, double fuel (2 ^ height) height n = (2 ^ m, m) ∧ n ≤ 2 ^ m ∧
      (m = height ∨ 2 ^ (m - 1) < n) := by
  induction fuel generalizing height with
  | zero => exact ⟨height, rfl, enough, .inl rfl⟩
  | succ fuel ih =>
    rw [double]
    split
    · rename_i short
      rw [show 2 ^ height * 2 = 2 ^ (height + 1) from (pow_succ 2 height).symm]
      obtain ⟨m, result, covers, least⟩ := ih (show n ≤ 2 ^ (height + 1 + fuel) by
        rwa [Nat.add_right_comm, Nat.add_assoc])
      refine ⟨m, result, covers, .inr ?_⟩
      rcases least with rfl | below
      · simpa using short
      · exact below
    · rename_i covered
      exact ⟨height, rfl, Nat.le_of_not_lt covered, .inl rfl⟩

theorem cover_spec (n : Nat) : ∃ m, cover n = (2 ^ m, m) ∧ n ≤ 2 ^ m ∧ ∀ k, n ≤ 2 ^ k → m ≤ k := by
  obtain ⟨m, result, covers, least⟩ := double_spec (n := n)
    (show n ≤ 2 ^ (0 + n) by rw [Nat.zero_add]; exact Nat.lt_two_pow_self.le)
  refine ⟨m, result, covers, fun k small => ?_⟩
  rcases least with rfl | below
  · exact Nat.zero_le k
  · have smaller : 2 ^ (m - 1) < 2 ^ k := Nat.lt_of_lt_of_le below small
    have := (Nat.pow_lt_pow_iff_right (by decide : 1 < 2)).mp smaller
    omega

theorem above_length (level : List H) (even : level.length = 2 * n) : (above node level).length = n := by
  induction n generalizing level with
  | zero => rw [List.length_eq_zero_iff.mp even]; rfl
  | succ n ih =>
    match level, even with
    | left :: right :: rest, even =>
      simp only [above, List.length_cons]
      rw [ih rest (by simp only [List.length_cons] at even; omega)]

theorem above_getD (fallback : H) (level : List H) (even : level.length = 2 * n) (inside : i < n) :
    (above node level).getD i fallback =
      node (level.getD (2 * i) fallback) (level.getD (2 * i + 1) fallback) := by
  induction n generalizing level i with
  | zero => omega
  | succ n ih =>
    match level, even with
    | left :: right :: rest, even =>
      cases i with
      | zero => rfl
      | succ i =>
        have deeper := ih rest (by simp only [List.length_cons] at even; omega) (show i < n by omega)
        simpa [above, show 2 * (i + 1) = 2 * i + 2 by ring] using deeper

theorem xor_one (i : Nat) : i ^^^ 1 = if i % 2 = 0 then i + 1 else i - 1 := by
  have half : (i ^^^ 1) / 2 = i / 2 := by simp [Nat.xor_div_two]
  have parity : (i ^^^ 1) % 2 = (i + 1) % 2 := Nat.xor_mod_two_eq
  split <;> omega

/-- The node of the last level. -/
def root (fallback : H) (levels : List (List H)) : H := (levels.getLastD []).getD 0 fallback

theorem levels_ne_nil (fuel : Nat) (level : List H) : levels node fuel level ≠ [] := by
  cases fuel with
  | zero => simp [levels]
  | succ fuel => rw [levels]; split <;> simp

theorem levels_singleton (fuel : Nat) (single : level.length = 1) : levels node fuel level = [level] := by
  cases fuel with
  | zero => rfl
  | succ fuel => rw [levels, if_pos (by omega)]

theorem levels_pairs (wide : level.length = 2 ^ (h + 1)) (enough : h + 1 ≤ fuel) :
    levels node fuel level = level :: levels node (fuel - 1) (above node level) := by
  obtain ⟨fuel, rfl⟩ : ∃ k, fuel = k + 1 := ⟨fuel - 1, by omega⟩
  have positive : 0 < 2 ^ h := Nat.two_pow_pos h
  rw [levels, if_neg (by rw [wide, pow_succ]; omega), Nat.add_sub_cancel]

theorem path_cons (fallback : H) (level : List H) (nonempty : rest ≠ []) (i : Nat) : path fallback (level :: rest) i =
      level.getD (i ^^^ 1) fallback :: path fallback rest (i / 2) := by
  cases rest with
  | nil => exact absurd rfl nonempty
  | cons next rest => rfl

theorem root_cons (fallback : H) (level : List H) (nonempty : rest ≠ []) :
    root fallback (level :: rest) = root fallback rest := by
  cases rest with
  | nil => exact absurd rfl nonempty
  | cons next rest => rfl

theorem path_length (fallback : H) (sized : level.length = 2 ^ h) (enough : h ≤ fuel) (i : Nat) :
    (path fallback (levels node fuel level) i).length = h := by
  induction h generalizing level fuel i with
  | zero => rw [levels_singleton node fuel (by simpa using sized)]; rfl
  | succ h ih =>
    rw [levels_pairs node sized enough, path_cons fallback level (levels_ne_nil node _ _)]
    rw [List.length_cons, ih (above_length node level (by rw [sized, pow_succ]; ring)) (by omega)]

/-- Folding a leaf with its own path leads to the root. -/
theorem climb_path (fallback : H) (sized : level.length = 2 ^ h) (enough : h ≤ fuel) (inside : i < 2 ^ h) :
    climb node i (path fallback (levels node fuel level) i) (level.getD i fallback) =
      root fallback (levels node fuel level) := by
  induction h generalizing level fuel i with
  | zero =>
    obtain rfl : i = 0 := by simpa using inside
    rw [levels_singleton node fuel (by simpa using sized)]
    rfl
  | succ h ih =>
    have even : level.length = 2 * 2 ^ h := by rw [sized, pow_succ]; ring
    have half : i / 2 < 2 ^ h := by rw [pow_succ] at inside; omega
    have deeper := ih (above_length node level even) (show h ≤ fuel - 1 by omega) half
    rw [above_getD node fallback level even half] at deeper
    rw [levels_pairs node sized enough, path_cons fallback level (levels_ne_nil node _ _),
      root_cons fallback level (levels_ne_nil node _ _), ← deeper, climb, xor_one]
    -- the leaf and its sibling are the two halves of the pair above them
    by_cases left : i % 2 = 0
    · rw [if_pos left, if_pos left, show 2 * (i / 2) = i by omega]
    · rw [if_neg left, if_neg left, show 2 * (i / 2) = i - 1 by omega, show i - 1 + 1 = i by omega]

/-- The pairs joined on the way up. -/
def joined : (index : Nat) → List H → H → List (H × H)
  | _, [], _ => []
  | index, sibling :: rest, running =>
    (if index % 2 = 0 then (running, sibling) else (sibling, running)) ::
      joined (index / 2) rest (if index % 2 = 0 then node running sibling else node sibling running)

theorem climb_inj {p q : List H} (sized : p.length = q.length)
    (inj : ∀ a ∈ joined node i p x, ∀ b ∈ joined node i q y, node a.1 a.2 = node b.1 b.2 → a = b)
    (same : climb node i p x = climb node i q y) : x = y ∧ p = q := by
  induction p generalizing i q x y with
  | nil =>
    obtain rfl := List.length_eq_zero_iff.mp sized.symm
    exact ⟨same, rfl⟩
  | cons s p ih =>
    obtain _ | ⟨t, q⟩ := q
    · cases sized
    simp only [joined, List.mem_cons, forall_eq_or_imp] at inj
    obtain ⟨⟨here, _⟩, above⟩ := inj
    obtain ⟨nodes, rfl⟩ := ih (Nat.succ.inj sized) (fun a member b member' => (above a member).2 b member') same
    by_cases left : i % 2 = 0
    · simp only [if_pos left] at here nodes
      obtain ⟨rfl, rfl⟩ := Prod.mk.inj (here nodes)
      exact ⟨rfl, rfl⟩
    · simp only [if_neg left] at here nodes
      obtain ⟨rfl, rfl⟩ := Prod.mk.inj (here nodes)
      exact ⟨rfl, rfl⟩

end Sena.PaddedTree
