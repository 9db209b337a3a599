import Mathlib.Data.List.Forall2
import Sena.Primitives

/-! What the contract's language does to every function of it: a call returns or
aborts, integers are checked, and a digest is taken over framed fields.

An aborted transaction leaves the chain as it was, so a call is a function into
`Move`, and what an accepted call did is read off by inverting its checks. -/
namespace Sena

/-- The modules of the package. Abort codes overlap between them. -/
inductive MoveModule
  | codec | trie | batch | gas | osp | compiler | poseidon | keyless | keylessJobs
  | assertions | disputes | bridge
deriving DecidableEq, Repr

/-- Why a transaction aborted: a code of one of the package's modules, or one of
the checks the virtual machine and the framework make themselves. -/
inductive Abort
  | code (origin : MoveModule) (code : Nat)
  | arithmetic
  | vectorIndex
  | option
  | table
  | resource
  | transfer
deriving DecidableEq, Repr

abbrev Move := Except Abort

namespace Move

/-- `assert!(condition, code)`. -/
def ensure (condition : Prop) [Decidable condition] (abort : Abort) : Move Unit :=
  if condition then .ok () else .error abort

/-- A result of integer arithmetic, which aborts when the type cannot hold it. -/
def checked (w n : Nat) : Move (Fin (2 ^ w)) :=
  if small : n < 2 ^ w then .ok ⟨n, small⟩ else .error .arithmetic

def add (a b : Fin (2 ^ w)) : Move (Fin (2 ^ w)) := checked w (a.val + b.val)

def sub (a b : Fin (2 ^ w)) : Move (Fin (2 ^ w)) :=
  if b.val ≤ a.val then checked w (a.val - b.val) else .error .arithmetic

def mul (a b : Fin (2 ^ w)) : Move (Fin (2 ^ w)) := checked w (a.val * b.val)

/-- `*vector::borrow(items, index)`. -/
def borrow (items : List α) (index : Nat) : Move α :=
  match items[index]? with
  | some item => .ok item
  | none => .error .vectorIndex

section Inversion

variable {x : Except ε α} {f : α → Except ε β}

theorem bind_eq_ok : (x >>= f) = .ok b ↔ ∃ a, x = .ok a ∧ f a = .ok b := by
  cases x <;> simp [bind, Except.bind]

theorem bind_eq_error : (x >>= f) = .error e ↔ x = .error e ∨ ∃ a, x = .ok a ∧ f a = .error e := by
  cases x <;> simp [bind, Except.bind]

@[simp] theorem ok_bind (a : α) : ((.ok a : Except ε α) >>= f) = f a := rfl

@[simp] theorem error_bind (e : ε) : ((.error e : Except ε α) >>= f) = .error e := rfl

theorem exists_of_isOk {x : Except ε α} (accepted : x.isOk = true) : ∃ a, x = .ok a := by
  cases x with
  | ok a => exact ⟨a, rfl⟩
  | error e => cases accepted

instance decidableExistsOk {p : α → Prop} [DecidablePred p] (x : Except ε α) : Decidable (∃ a, x = .ok a ∧ p a) :=
  match x with
  | .ok a => decidable_of_iff (p a) (by simp)
  | .error _ => isFalse (by simp)

instance decidableOk (x : Except ε α) : Decidable (∃ a, x = .ok a) :=
  match x with
  | .ok a => isTrue ⟨a, rfl⟩
  | .error _ => isFalse (by simp)

theorem toOption_eq_some {x : Except ε α} : x.toOption = some a ↔ x = .ok a := by
  cases x <;> simp [Except.toOption]

theorem mapError_eq_ok {f : ε → ε'} {x : Except ε α} : x.mapError f = .ok a ↔ x = .ok a := by
  cases x <;> simp [Except.mapError]

theorem mapError_eq_error {f : ε → ε'} {x : Except ε α} :
    x.mapError f = .error e ↔ ∃ e', x = .error e' ∧ f e' = e := by
  cases x <;> simp [Except.mapError]

@[simp] theorem pure_eq_ok (a : α) : (pure a : Except ε α) = .ok a := rfl

theorem pure_iff : (pure a : Except ε α) = .ok b ↔ a = b := by
  simp

@[simp] theorem throw_eq_error (e : ε) : (throw e : Except ε α) = .error e := rfl

/-- A check before the rest. -/
theorem check_eq_ok {bad : Prop} [Decidable bad] {x : Except ε β} :
    (if bad then (throw e : Except ε α) >>= f else x) = .ok b ↔ ¬bad ∧ x = .ok b := by
  split <;> simp_all

theorem check_eq_error {bad : Prop} [Decidable bad] {x : Except ε β} :
    (if bad then (throw e' : Except ε α) >>= f else x) = .error e ↔ bad ∧ e' = e ∨ ¬bad ∧ x = .error e := by
  split <;> simp_all

theorem ite_throw_eq_ok [Decidable good] : (if good then x else throw e) = .ok a ↔ good ∧ x = .ok a := by
  split <;> simp_all

theorem dite_throw_eq_ok [Decidable good] {x : good → Except ε α} :
    (if h : good then x h else throw e) = .ok a ↔ ∃ h, x h = .ok a := by
  split <;> simp_all

theorem ite_throw_eq_error [Decidable good] :
    (if good then x else throw e') = .error e ↔ good ∧ x = .error e ∨ ¬good ∧ e' = e := by
  split <;> simp_all

theorem dite_throw_eq_error [Decidable good] {x : good → Except ε α} :
    (if h : good then x h else throw e') = .error e ↔ (∃ h, x h = .error e) ∨ ¬good ∧ e' = e := by
  split <;> simp_all

@[simp] theorem ensure_eq_ok [Decidable condition] :
    ensure condition e = .ok u ↔ condition := by
  unfold ensure
  split <;> simp_all

theorem ensure_of [Decidable condition] (met : condition) : ensure condition e = .ok () := if_pos met

@[simp] theorem checked_eq_ok {r : Fin (2 ^ w)} : checked w n = .ok r ↔ r.val = n := by
  unfold checked
  split
  · simp [Fin.ext_iff, eq_comm]
  · rename_i large
    simp only [reduceCtorEq, false_iff]
    rintro rfl
    exact large r.isLt

theorem checked_of_lt (small : n < 2 ^ w) : checked w n = .ok ⟨n, small⟩ := dif_pos small

@[simp] theorem add_eq_ok {a b r : Fin (2 ^ w)} : add a b = .ok r ↔ r.val = a.val + b.val :=
  checked_eq_ok

@[simp] theorem sub_eq_ok {a b r : Fin (2 ^ w)} :
    sub a b = .ok r ↔ b.val ≤ a.val ∧ r.val = a.val - b.val := by
  unfold sub
  split <;> simp_all

theorem sub_accepts {a b : Fin (2 ^ w)} (enough : b.val ≤ a.val) : ∃ r, sub a b = .ok r :=
  ⟨⟨a.val - b.val, by omega⟩, sub_eq_ok.mpr ⟨enough, rfl⟩⟩

theorem sub_of_le {a b : Fin (2 ^ w)} (enough : b.val ≤ a.val) : sub a b = .ok (a - b) :=
  sub_eq_ok.mpr ⟨enough, Fin.sub_val_of_le enough⟩

theorem add_of_lt {a b : Fin (2 ^ w)} (small : a.val + b.val < 2 ^ w) : add a b = .ok (a + b) :=
  add_eq_ok.mpr (by rw [Fin.val_add, Nat.mod_eq_of_lt small])

@[simp] theorem mul_eq_ok {a b r : Fin (2 ^ w)} : mul a b = .ok r ↔ r.val = a.val * b.val :=
  checked_eq_ok

@[simp] theorem borrow_eq_ok {items : List α} : borrow items index = .ok a ↔ items[index]? = some a := by
  unfold borrow
  split <;> simp_all

theorem mapM_ok_iff {items : List α} : items.mapM f = .ok out ↔ List.Forall₂ (fun a b => f a = .ok b) items out := by
  induction items generalizing out with
  | nil => simp [eq_comm]
  | cons a rest ih =>
    rw [List.mapM_cons, bind_eq_ok]
    cases out with
    | nil => simp [bind_eq_ok]
    | cons b others => simp [bind_eq_ok, ih]

end Inversion
end Move

namespace Codec

open Move

def E_TRUNCATED : Nat := 1
def E_TRAILING_BYTES : Nat := 2
def E_UNKNOWN_VARIANT : Nat := 3
def E_NOT_CANONICAL : Nat := 4

/-- A field longer than its four-byte length can say aborts on the cast. -/
def putField (buf field : Bytes) : Move Bytes := do
  let length ← checked 32 field.length
  return buf ++ be 4 length.val ++ field

/-- `begin`, one `put_field` for each field in order, then `commit`. -/
def digest (crypto : Crypto) (domain : Domain) (fields : List Bytes) : Move Bytes := do
  let buf ← putField [] domain.tag
  let buf ← fields.foldlM putField buf
  return (crypto.sha256 buf).bytes

theorem putField_of_framable (small : Framable field) : putField buf field = .ok (buf ++ frame field) := by
  simp [putField, checked_of_lt small, frame]

theorem putField_eq_ok : putField buf field = .ok out ↔ Framable field ∧ out = buf ++ frame field := by
  constructor
  · intro accepted
    obtain ⟨length, sized, -⟩ := bind_eq_ok.mp accepted
    have small : Framable field := by
      rw [Framable, ← checked_eq_ok.mp sized]
      exact length.isLt
    rw [putField_of_framable small] at accepted
    exact ⟨small, (Except.ok.inj accepted).symm⟩
  · rintro ⟨small, rfl⟩
    exact putField_of_framable small

private theorem foldlM_putField_eq_ok {fields : List Bytes} : fields.foldlM putField buf = .ok out ↔
      (∀ field ∈ fields, Framable field) ∧ out = buf ++ framed fields := by
  induction fields generalizing buf with
  | nil => simp [eq_comm]
  | cons field rest ih =>
    rw [List.foldlM_cons, bind_eq_ok]
    simp only [putField_eq_ok, ih, List.mem_cons, forall_eq_or_imp, framed_cons]
    constructor
    · rintro ⟨_, ⟨small, rfl⟩, smaller, rfl⟩
      exact ⟨⟨small, smaller⟩, by simp⟩
    · rintro ⟨⟨small, smaller⟩, rfl⟩
      exact ⟨_, ⟨small, rfl⟩, smaller, by simp⟩

theorem digest_eq_ok : digest crypto domain fields = .ok out ↔
      (∀ field ∈ fields, Framable field) ∧ out = (crypto.sha256 (canonical domain fields)).bytes := by
  rw [digest, putField_of_framable domain.tag_framable]
  simp only [ok_bind, List.nil_append, bind_eq_ok, foldlM_putField_eq_ok, pure_iff]
  constructor
  · rintro ⟨_, ⟨small, rfl⟩, rfl⟩
    exact ⟨small, rfl⟩
  · rintro ⟨small, rfl⟩
    exact ⟨_, ⟨small, rfl⟩, rfl⟩

/-- Reads off the input that remains; the source keeps the whole input and an
offset into it. -/
abbrev Take := StateT Bytes Move

def takeBytes (n : Nat) : Take Bytes := fun input =>
  if n ≤ input.length then .ok (input.take n, input.drop n) else .error (.code .codec E_TRUNCATED)

def takeU8 : Take UInt8 := fun input =>
  match input with
  | byte :: rest => .ok (byte, rest)
  | [] => .error (.code .codec E_TRUNCATED)

def takeU32 : Take U32 := do return ofBeFin 32 (← takeBytes 4)
def takeU64 : Take U64 := do return ofBeFin 64 (← takeBytes 8)
def takeU128 : Take U128 := do return ofBeFin 128 (← takeBytes 16)

def takeField : Take Bytes := do
  let length ← takeU32
  takeBytes length.val

def takeBool : Take Bool := do
  let byte ← takeU8
  if byte = 0 ∨ byte = 1 then return byte = 1
  else throw (.code .codec E_UNKNOWN_VARIANT)

/-- Everything has been read. -/
def finish : Take Unit := fun input =>
  if input.isEmpty then .ok ((), input) else .error (.code .codec E_TRAILING_BYTES)

/-- `n` items in turn. -/
def takeMany (item : Take α) : (n : Nat) → Take (List α)
  | 0 => return []
  | n + 1 => do
    let first ← item
    let rest ← takeMany item n
    return first :: rest

theorem framable_be (k n : Nat) (short : k < 2 ^ 32) : Framable (be k n) := by
  simpa [Framable] using short

end Codec
end Sena
