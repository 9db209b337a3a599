import Mathlib.Algebra.Order.Ring.Nat

/-! Runs of a machine that consumes a list of labels, one step each.

A fallible fold is such a run, a run of runs is a run of the labels one after
another, and what every step keeps or simulates the run does. -/
namespace Sena

variable {σ τ α β ε : Type}

/-- From `s` the machine reaches `s'` by one step for each label in turn. -/
def Run (step : σ → α → σ → Prop) : σ → List α → σ → Prop
  | s, [], s' => s = s'
  | s, a :: as, s' => ∃ mid, step s a mid ∧ Run step mid as s'

namespace Run

variable {step : σ → α → σ → Prop} {s s' : σ}

@[simp] theorem nil_iff : Run step s [] s' ↔ s = s' := Iff.rfl

@[simp] theorem cons_iff {as : List α} : Run step s (a :: as) s' ↔ ∃ mid, step s a mid ∧ Run step mid as s' :=
  Iff.rfl

theorem append_iff {as bs : List α} : Run step s (as ++ bs) s' ↔ ∃ mid, Run step s as mid ∧ Run step mid bs s' := by
  induction as generalizing s with
  | nil => simp
  | cons a as ih =>
    simp only [List.cons_append, cons_iff, ih]
    constructor
    · rintro ⟨first, stepped, mid, ran, rest⟩
      exact ⟨mid, ⟨first, stepped, ran⟩, rest⟩
    · rintro ⟨mid, ⟨first, stepped, ran⟩, rest⟩
      exact ⟨first, stepped, mid, ran, rest⟩

theorem singleton_iff : Run step s [a] s' ↔ step s a s' := by simp

theorem map_iff {f : β → α} {bs : List β} :
    Run step s (bs.map f) s' ↔ Run (fun s b s' => step s (f b) s') s bs s' := by
  induction bs generalizing s with
  | nil => rfl
  | cons b bs ih => simp only [List.map_cons, cons_iff, ih]

/-- Steps that are themselves runs. -/
theorem flatMap_iff {f : β → List α} {bs : List β} :
    Run step s (bs.flatMap f) s' ↔ Run (fun s b s' => Run step s (f b) s') s bs s' := by
  induction bs generalizing s with
  | nil => rfl
  | cons b bs ih => simp only [List.flatMap_cons, append_iff, cons_iff, ih]

theorem foldlM_eq_ok {f : σ → α → Except ε σ} {as : List α} :
    as.foldlM f s = .ok s' ↔ Run (fun s a s' => f s a = .ok s') s as s' := by
  induction as generalizing s with
  | nil => simp [pure, Except.pure]
  | cons a as ih =>
    rw [List.foldlM_cons, cons_iff]
    cases first : f s a with
    | error e => simp [bind, Except.bind]
    | ok mid =>
      simp only [bind, Except.bind, Except.ok.injEq, exists_eq_left']
      exact ih

theorem foldlM_eq_some {f : σ → α → Option σ} {as : List α} :
    as.foldlM f s = some s' ↔ Run (fun s a s' => f s a = some s') s as s' := by
  induction as generalizing s with
  | nil => simp
  | cons a as ih => simp only [List.foldlM_cons, Option.bind_eq_bind, Option.bind_eq_some_iff, cons_iff, ih]

theorem foldlM_fst_eq_ok {f : σ × τ → α → Except ε (σ × τ)} {as : List α}
    (each : ∀ s t a s', (∃ t', f (s, t) a = .ok (s', t')) ↔ step s a s') (t : τ) :
    (∃ t', as.foldlM f (s, t) = .ok (s', t')) ↔ Run step s as s' := by
  induction as generalizing s t with
  | nil => simp [pure, Except.pure]
  | cons a as ih =>
    simp only [foldlM_eq_ok, cons_iff, Prod.exists] at ih ⊢
    constructor
    · rintro ⟨t', mid, kept, first, rest⟩
      exact ⟨mid, (each s t a mid).mp ⟨kept, first⟩, (ih kept).mp ⟨t', rest⟩⟩
    · rintro ⟨mid, first, rest⟩
      obtain ⟨kept, first⟩ := (each s t a mid).mpr first
      obtain ⟨t', rest⟩ := (ih kept).mpr rest
      exact ⟨t', mid, kept, first, rest⟩

theorem foldlM_rule {f : σ → α → Except ε σ} {as : List α} (I : σ → Prop) (E : ε → Prop)
    (each : ∀ s a, a ∈ as → I s → (∀ s', f s a = .ok s' → I s') ∧ ∀ e, f s a = .error e → E e) (start : I s) :
    (∀ s', as.foldlM f s = .ok s' → I s') ∧ ∀ e, as.foldlM f s = .error e → E e := by
  induction as generalizing s with
  | nil => exact ⟨fun _ same => Except.ok.inj same ▸ start, fun _ failed => nomatch failed⟩
  | cons a as ih =>
    obtain ⟨kept, allowed⟩ := each s a List.mem_cons_self start
    have rest := fun s b among => each s b (List.mem_cons_of_mem a among)
    rw [List.foldlM_cons]
    cases first : f s a with
    | error e =>
      refine ⟨fun _ same => (nomatch same), fun _ failed => ?_⟩
      cases failed
      exact allowed e first
    | ok mid => exact ih rest (kept mid first)

/-- The rule of invariants. -/
theorem invariant (I : σ → Prop) (ran : Run step s as s')
    (kept : ∀ s a s', a ∈ as → I s → step s a s' → I s') (start : I s) : I s' := by
  induction as generalizing s with
  | nil => exact ran ▸ start
  | cons a as ih =>
    obtain ⟨mid, stepped, ran⟩ := ran
    exact ih ran (fun s b s' among => kept s b s' (List.mem_cons_of_mem a among))
      (kept s a mid List.mem_cons_self start stepped)

/-- A run is one of every machine whose steps include its own. -/
theorem mono {step' : σ → α → σ → Prop} (ran : Run step s as s')
    (each : ∀ s a s', a ∈ as → step s a s' → step' s a s') : Run step' s as s' := by
  induction as generalizing s with
  | nil => exact ran
  | cons a as ih =>
    obtain ⟨mid, stepped, ran⟩ := ran
    exact ⟨mid, each s a mid List.mem_cons_self stepped,
      ih ran fun s b s' among => each s b s' (List.mem_cons_of_mem a among)⟩

theorem crosses (P : σ → Prop) (ran : Run step s as s') (start : P s) (stop : ¬P s') :
    ∃ before a after mid mid', as = before ++ a :: after ∧ step mid a mid' ∧ Run step mid' after s' ∧
      P mid ∧ ¬P mid' := by
  induction as generalizing s with
  | nil => exact absurd (ran ▸ start) stop
  | cons a as ih =>
    obtain ⟨next, stepped, ran⟩ := ran
    by_cases still : P next
    · obtain ⟨before, b, after, mid, mid', rfl, crossing⟩ := ih ran still
      exact ⟨a :: before, b, after, mid, mid', rfl, crossing⟩
    · exact ⟨[], a, as, s, next, rfl, stepped, ran, start, still⟩

/-- The rule of simulation. -/
theorem simulate {step' : τ → α → τ → Prop} (R : σ → τ → Prop) (ran : Run step s as s')
    (simulated : ∀ s a s' t, a ∈ as → R s t → step s a s' → ∃ t', step' t a t' ∧ R s' t') (start : R s t) :
    ∃ t', Run step' t as t' ∧ R s' t' := by
  induction as generalizing s t with
  | nil => exact ⟨t, rfl, ran ▸ start⟩
  | cons a as ih =>
    obtain ⟨mid, stepped, ran⟩ := ran
    obtain ⟨next, stepped', related⟩ := simulated s a mid t List.mem_cons_self start stepped
    obtain ⟨t', ran', related'⟩ :=
      ih ran (fun s b s' t among => simulated s b s' t (List.mem_cons_of_mem a among)) related
    exact ⟨t', ⟨next, stepped', ran'⟩, related'⟩

/-- A quantity each step changes by its label's amounts, over a whole run. -/
theorem balance (ran : Run step s as s') (measure : σ → Nat) (taken given : α → Nat)
    (each : ∀ s a s', a ∈ as → step s a s' → measure s' + taken a = measure s + given a) :
    measure s' + (as.map taken).sum = measure s + (as.map given).sum := by
  induction as generalizing s with
  | nil =>
    cases ran
    rfl
  | cons a as ih =>
    obtain ⟨mid, stepped, ran⟩ := ran
    have first := each s a mid List.mem_cons_self stepped
    have rest := ih ran fun s b s' among => each s b s' (List.mem_cons_of_mem a among)
    simp only [List.map_cons, List.sum_cons]
    omega

theorem zeros (as : List α) : (as.map fun _ => 0).sum = 0 := by
  induction as <;> simp_all

section
variable {as : List α} (ran : Run step s as s')
include ran

theorem gains (measure : σ → Nat) (gain : α → Nat)
    (each : ∀ s a s', a ∈ as → step s a s' → measure s' = measure s + gain a) :
    measure s' = measure s + (as.map gain).sum := by
  simpa only [zeros, Nat.add_zero] using ran.balance measure (fun _ => 0) gain each

theorem spends (measure : σ → Nat) (cost : α → Nat)
    (each : ∀ s a s', a ∈ as → step s a s' → measure s' + cost a = measure s) :
    measure s' + (as.map cost).sum = measure s := by
  simpa only [zeros, Nat.add_zero] using ran.balance measure cost (fun _ => 0) (fun s a s' among stepped =>
    (each s a s' among stepped).trans (Nat.add_zero _).symm)

theorem loses_at_most (measure : σ → Nat) (cost : α → Nat)
    (each : ∀ s a s', a ∈ as → step s a s' → measure s ≤ measure s' + cost a) :
    measure s ≤ measure s' + (as.map cost).sum := by
  induction as generalizing s with
  | nil =>
    cases ran
    exact Nat.le_add_right _ _
  | cons a as ih =>
    obtain ⟨mid, stepped, ran⟩ := ran
    have first := each s a mid List.mem_cons_self stepped
    have rest := ih ran fun s b s' among => each s b s' (List.mem_cons_of_mem a among)
    simp only [List.map_cons, List.sum_cons]
    omega

theorem folds {order : α → Option γ} {g : β → γ → β} (view : σ → β)
    (each : ∀ s a s', a ∈ as → step s a s' → view s' = (order a).elim (view s) (g (view s))) :
    view s' = (as.filterMap order).foldl g (view s) := by
  induction as generalizing s with
  | nil =>
    cases ran
    rfl
  | cons a as ih =>
    obtain ⟨mid, stepped, ran⟩ := ran
    have first := each s a mid List.mem_cons_self stepped
    rw [ih ran fun s b s' among => each s b s' (List.mem_cons_of_mem a among), first]
    cases given : order a with
    | none => rw [List.filterMap_cons_none given, Option.elim_none]
    | some c => rw [List.filterMap_cons_some given, Option.elim_some, List.foldl_cons]

theorem tickets (ticket : α → Option β) (number : β → Nat) (good : β → Prop)
    (I : Nat → σ → Prop) (each : ∀ n s a s', I n s → step s a s' →
      (ticket a).elim (I n s') fun b => number b = n ∧ good b ∧ I (n + 1) s') (start : I n s) :
    (as.filterMap ticket).map number = List.range' n (as.filterMap ticket).length ∧
      (∀ b ∈ as.filterMap ticket, good b) ∧ I (n + (as.filterMap ticket).length) s' := by
  induction as generalizing s n with
  | nil =>
    cases ran
    exact ⟨rfl, by simp, start⟩
  | cons a as ih =>
    obtain ⟨mid, stepped, ran⟩ := ran
    have first := each n s a mid start stepped
    cases held : ticket a with
    | none =>
      rw [held] at first
      rw [List.filterMap_cons_none held]
      exact ih ran first
    | some b =>
      rw [held] at first
      obtain ⟨numbered, fine, next⟩ := first
      obtain ⟨order, others, last⟩ := ih ran next
      rw [List.filterMap_cons_some held, List.map_cons, List.length_cons, List.range'_succ, order, numbered,
        List.forall_mem_cons]
      exact ⟨rfl, ⟨fine, others⟩, by rwa [Nat.add_right_comm] at last⟩

end

end Run
end Sena
