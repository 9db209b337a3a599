import Mathlib.Order.Defs.Unbundled

/-! Programs that keep what they did when they fail.

A program of `ExceptT ε (StateM σ)` ends in a state whether it returns or throws.
`Returns` speaks of one that returned, `Does` of the state any of them leaves. -/
namespace Sena
namespace Effects

variable {ε σ α β : Type} {x : ExceptT ε (StateM σ) α} {f : α → ExceptT ε (StateM σ) β} {s s' : σ}

/-- What a program returns or throws, and the state it leaves. -/
def outcome (x : ExceptT ε (StateM σ) α) (s : σ) : Except ε α × σ := x.run s

/-- The program returns this from `s`, and leaves `s'`. -/
def Returns (x : ExceptT ε (StateM σ) α) (s : σ) (a : α) (s' : σ) : Prop := outcome x s = (.ok a, s')

theorem outcome_bind : outcome (x >>= f) s = match outcome x s with
    | (.ok a, s) => outcome (f a) s
    | (.error e, s) => (.error e, s) := by
  change (match x.run s with
    | (r, s) => ExceptT.bindCont f r s : Except ε β × σ) = _
  cases h : outcome x s with | mk r s₁ =>
  rw [show x.run s = (r, s₁) from h]
  cases r <;> rfl

theorem outcome_bind_of (returns : Returns x s a s₁) : outcome (x >>= f) s = outcome (f a) s₁ := by
  rw [outcome_bind, returns]

theorem returns_bind : Returns (x >>= f) s b s' ↔ ∃ a s₁, Returns x s a s₁ ∧ Returns (f a) s₁ b s' := by
  simp only [Returns, outcome_bind]
  cases outcome x s with | mk r s₁ =>
  cases r with
  | error e => simp
  | ok a =>
    constructor
    · exact fun returns => ⟨a, s₁, rfl, returns⟩
    · rintro ⟨_, _, same, returns⟩
      cases same
      exact returns

@[simp] theorem returns_pure : Returns (pure a : ExceptT ε (StateM σ) α) s b s' ↔ a = b ∧ s = s' := by
  constructor
  · intro returns
    cases returns
    exact ⟨rfl, rfl⟩
  · rintro ⟨rfl, rfl⟩
    rfl

@[simp] theorem returns_throw : ¬Returns (throw e : ExceptT ε (StateM σ) α) s a s' :=
  fun returns => nomatch returns

@[simp] theorem returns_get : Returns (get : ExceptT ε (StateM σ) σ) s s₁ s' ↔ s = s₁ ∧ s = s' := by
  constructor
  · intro returns
    cases returns
    exact ⟨rfl, rfl⟩
  · rintro ⟨rfl, rfl⟩
    rfl

@[simp] theorem returns_set : Returns (set s₁ : ExceptT ε (StateM σ) PUnit) s u s' ↔ s₁ = s' := by
  constructor
  · intro returns
    cases returns
    rfl
  · rintro rfl
    rfl

@[simp] theorem returns_modify {g : σ → σ} :
    Returns (modify g : ExceptT ε (StateM σ) PUnit) s u s' ↔ g s = s' := by
  constructor
  · intro returns
    cases returns
    rfl
  · rintro rfl
    rfl

theorem outcome_liftExcept {r : Except ε α} : outcome (liftM r : ExceptT ε (StateM σ) α) s = (r, s) := rfl

theorem outcome_adapt {g : ε → ε'} : outcome (x.adapt g) s = ((outcome x s).1.mapError g, (outcome x s).2) := rfl

theorem outcome_foldlM_error {τ : Type} {g : τ → α → ExceptT ε (StateM σ) τ} {items : List α} {t : τ}
    (failed : outcome (items.foldlM g t) s = (.error e, s')) : ∃ before a after t₁ s₁, items = before ++ a :: after ∧
      Returns (before.foldlM g t) s t₁ s₁ ∧ outcome (g t₁ a) s₁ = (.error e, s') := by
  induction items generalizing t s with
  | nil => cases failed
  | cons a items ih =>
    rw [List.foldlM_cons, outcome_bind] at failed
    cases first : outcome (g t a) s with | mk r s₁ =>
    rw [first] at failed
    cases r with
    | error e₁ =>
      cases failed
      exact ⟨[], a, items, t, s, rfl, returns_pure.mpr ⟨rfl, rfl⟩, first⟩
    | ok t₁ =>
      obtain ⟨before, b, after, t₂, s₂, rfl, returns, stopped⟩ := ih failed
      refine ⟨a :: before, b, after, t₂, s₂, rfl, ?_, stopped⟩
      rw [List.foldlM_cons]
      exact returns_bind.mpr ⟨t₁, s₁, first, returns⟩

theorem returns_foldlM {τ : Type} {g : τ → α → ExceptT ε (StateM σ) τ} {f : σ × τ → α → Except ε (σ × τ)}
    (each : ∀ a s t s' t', Returns (g t a) s t' s' ↔ f (s, t) a = .ok (s', t')) {items : List α} {t t' : τ} :
    Returns (items.foldlM g t) s t' s' ↔ items.foldlM f (s, t) = .ok (s', t') := by
  induction items generalizing t s with
  | nil =>
    simp only [List.foldlM_nil, returns_pure]
    constructor
    · rintro ⟨rfl, rfl⟩
      rfl
    · intro same
      cases same
      exact ⟨rfl, rfl⟩
  | cons a items ih =>
    simp only [List.foldlM_cons, returns_bind, each, ih]
    cases f (s, t) a with
    | error e => simp [bind, Except.bind]
    | ok next =>
      constructor
      · rintro ⟨t₁, s₁, same, rest⟩
        cases same
        exact rest
      · exact fun rest => ⟨next.2, next.1, rfl, rest⟩

/-- From any state the program goes to one `R` relates to it. -/
def Does (R : σ → σ → Prop) (x : ExceptT ε (StateM σ) α) : Prop := ∀ s, R s (outcome x s).2

theorem reads_bind {Q : Except ε β × σ → Prop} (reads : Does (· = ·) x) (stop : ∀ e, Q (.error e, s))
    (rest : ∀ a, Returns x s a s → Q (outcome (f a) s)) : Q (outcome (x >>= f) s) := by
  have here := reads s
  rw [outcome_bind]
  cases h : outcome x s with | mk r s₁ =>
  rw [h] at here
  obtain rfl : s = s₁ := here
  cases r with
  | ok a => exact rest a h
  | error e => exact stop e

section Rules

variable {R : σ → σ → Prop}

theorem Does.modify {g : σ → σ} (step : ∀ s, R s (g s)) : Does R (modify g : ExceptT ε (StateM σ) PUnit) := step

theorem Does.get_bind {f : σ → ExceptT ε (StateM σ) β} (rest : ∀ s, R s (outcome (f s) s).2) :
    Does R (get >>= f) := rest

variable [IsPreorder σ R]

theorem Does.pure (a : α) : Does R (Pure.pure a : ExceptT ε (StateM σ) α) := refl_of R

theorem Does.throw (e : ε) : Does R (throw e : ExceptT ε (StateM σ) α) := refl_of R

theorem Does.bind (first : Does R x) (rest : ∀ a, Does R (f a)) : Does R (x >>= f) := by
  intro s
  have here := first s
  rw [outcome_bind]
  cases h : outcome x s with | mk r s₁ =>
  rw [h] at here
  cases r with
  | ok a => exact trans_of R here (rest a s₁)
  | error e => exact here

theorem Does.forM {g : α → ExceptT ε (StateM σ) PUnit} (each : ∀ a, Does R (g a)) (items : List α) :
    Does R (items.forM g) := by
  induction items with
  | nil => exact .pure _
  | cons item rest ih => exact .bind (each item) fun _ => ih

end Rules

end Effects
end Sena
