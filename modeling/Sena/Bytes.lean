import Mathlib.Data.List.Basic
import Mathlib.Data.Nat.Digits.Defs
import Mathlib.Tactic.Ring

/-! Byte strings, fixed-width integers and length-prefixed fields.

Everything two implementations compare is a byte string built from big-endian
integers and framed fields. The facts here are the ones a comparison rests on:
a fixed-width integer is recovered from its bytes, and a list of framed fields
is recovered from the concatenation. -/
namespace Sena

abbrev Bytes := List UInt8
abbrev U32 := Fin (2 ^ 32)
abbrev U64 := Fin (2 ^ 64)
abbrev U128 := Fin (2 ^ 128)

instance (priority := 2000) neZeroU32 : NeZero (2 ^ 32) := ⟨by decide⟩
instance (priority := 2000) neZeroU64 : NeZero (2 ^ 64) := ⟨by decide⟩
instance (priority := 2000) neZeroU128 : NeZero (2 ^ 128) := ⟨by decide⟩

/-- A byte array whose length is part of its type. -/
structure FixedBytes (n : Nat) where
  bytes : Bytes
  length_eq : bytes.length = n
deriving DecidableEq

namespace FixedBytes

@[ext] theorem ext {a b : FixedBytes n} (same : a.bytes = b.bytes) : a = b := by
  cases a; cases b; simp_all

@[simp] theorem bytes_length (a : FixedBytes n) : a.bytes.length = n := a.length_eq

@[simp] theorem bytes_inj {a b : FixedBytes n} : a.bytes = b.bytes ↔ a = b :=
  ⟨ext, congrArg bytes⟩

/-- The array holding one byte throughout. -/
def fill (n : Nat) (byte : UInt8) : FixedBytes n := ⟨List.replicate n byte, by simp⟩

/-- The array with exactly these bytes, when there are as many as it takes. -/
def ofBytes? (n : Nat) (b : Bytes) : Option (FixedBytes n) :=
  if sized : b.length = n then some ⟨b, sized⟩ else none

@[simp] theorem ofBytes?_bytes (a : FixedBytes n) : ofBytes? n a.bytes = some a := by
  simp [ofBytes?]

theorem ofBytes?_eq_some {b : Bytes} {a : FixedBytes n} : ofBytes? n b = some a ↔ a.bytes = b := by
  constructor
  · intro found
    unfold ofBytes? at found
    split at found
    · simp only [Option.some.injEq] at found
      rw [← found]
    · cases found
  · rintro rfl
    exact ofBytes?_bytes a

end FixedBytes

/-- The `k` low-order bytes of `n`, most significant first. -/
def be : Nat → Nat → Bytes
  | 0, _ => []
  | k + 1, n => UInt8.ofNat (n / 256 ^ k) :: be k n

/-- The number a big-endian byte string spells. -/
def ofBe (b : Bytes) : Nat := b.foldl (fun value byte => value * 256 + byte.toNat) 0

@[simp] theorem be_length (k n : Nat) : (be k n).length = k := by
  induction k with
  | zero => rfl
  | succ k ih => simp [be, ih]

/-- The array that spells a number, most significant byte first. -/
def FixedBytes.ofNat (n value : Nat) : FixedBytes n := ⟨be n value, be_length n value⟩

/-- The array whose two halves spell these. -/
def FixedBytes.ofHalves (high low : Nat) : FixedBytes 64 := ⟨be 32 high ++ be 32 low, by simp⟩

theorem ofBe_eq (b : Bytes) : ofBe b = Nat.ofDigits 256 (b.map (·.toNat)).reverse := by
  simp [ofBe, Nat.ofDigits_eq_foldr, List.foldr_reverse, List.foldl_map, Nat.add_comm, Nat.mul_comm]

theorem digits_lt (b : Bytes) : ∀ d ∈ (b.map (·.toNat)).reverse, d < 256 := by
  simpa using fun (x : UInt8) (_ : x ∈ b) => x.toNat_lt

theorem ofBe_append (a b : Bytes) : ofBe (a ++ b) = ofBe a * 256 ^ b.length + ofBe b := by
  simp only [ofBe_eq, List.map_append, List.reverse_append, Nat.ofDigits_append, List.length_reverse, List.length_map]
  ring

theorem ofBe_cons (x : UInt8) (b : Bytes) : ofBe (x :: b) = x.toNat * 256 ^ b.length + ofBe b := by
  rw [← List.singleton_append, ofBe_append]
  simp [ofBe]

@[simp] theorem ofBe_be (k n : Nat) : ofBe (be k n) = n % 256 ^ k := by
  induction k with
  | zero => simp [be, ofBe, Nat.mod_one]
  | succ k ih =>
    rw [be, ofBe_cons, ih, be_length, UInt8.toNat_ofNat', pow_succ 256, Nat.mod_mul, Nat.add_comm, Nat.mul_comm]

theorem ofBe_be_of_lt (small : n < 256 ^ k) : ofBe (be k n) = n := by
  rw [ofBe_be, Nat.mod_eq_of_lt small]

theorem be_inj (smallM : m < 256 ^ k) (smallN : n < 256 ^ k) : be k m = be k n ↔ m = n := by
  constructor
  · intro same
    rw [← ofBe_be_of_lt smallM, same, ofBe_be_of_lt smallN]
  · rintro rfl
    rfl

theorem ofBe_lt (b : Bytes) : ofBe b < 256 ^ b.length := by
  rw [ofBe_eq]
  simpa using Nat.ofDigits_lt_base_pow_length (by decide) (digits_lt b)

theorem ofBe_inj {a b : Bytes} (lengths : a.length = b.length) (same : ofBe a = ofBe b) : a = b := by
  rw [ofBe_eq, ofBe_eq] at same
  have digits := Nat.ofDigits_inj_of_len_eq (by decide) (by simpa using lengths) (digits_lt a) (digits_lt b) same
  exact List.map_injective_iff.mpr (fun _ _ => UInt8.toNat_inj.mp) (List.reverse_injective digits)

/-- Reads a fixed-width integer off exactly as many bytes as it takes. -/
def ofBeFin (w : Nat) (b : Bytes) : Fin (2 ^ w) := Fin.ofNat (2 ^ w) (ofBe b)

theorem ofBeFin_be (w : Nat) (wide : w = 8 * k) (n : Fin (2 ^ w)) : ofBeFin w (be k n.val) = n := by
  have width : (256 : Nat) ^ k = 2 ^ w := by
    rw [wide, pow_mul]
    norm_num
  have small : n.val < 256 ^ k := width.symm ▸ n.isLt
  apply Fin.ext
  simp only [ofBeFin, Fin.ofNat, ofBe_be_of_lt small]
  exact Nat.mod_eq_of_lt n.isLt

/-- A field with its length in front, four bytes big-endian. -/
def frame (b : Bytes) : Bytes := be 4 b.length ++ b

/-- The concatenation of framed fields. -/
def framed (fields : List Bytes) : Bytes := fields.flatMap frame

theorem frame_length (b : Bytes) : (frame b).length = 4 + b.length := by simp [frame]

@[simp] theorem framed_nil : framed [] = [] := rfl

@[simp] theorem framed_cons (b : Bytes) (rest : List Bytes) :
    framed (b :: rest) = frame b ++ framed rest := rfl

/-- A field short enough for its four-byte length. -/
def Framable (b : Bytes) : Prop := b.length < 2 ^ 32

instance (b : Bytes) : Decidable (Framable b) := inferInstanceAs (Decidable (_ < _))

theorem frame_append_inj (smallB : Framable b) (smallC : Framable c) :
    frame b ++ x = frame c ++ y ↔ b = c ∧ x = y := by
  constructor
  · intro same
    simp only [frame, List.append_assoc] at same
    obtain ⟨lengths, rest⟩ := List.append_inj same (by simp)
    have lengths := (be_inj (by unfold Framable at smallB; omega)
      (by unfold Framable at smallC; omega)).mp lengths
    exact List.append_inj rest lengths
  · rintro ⟨rfl, rfl⟩
    rfl

theorem frame_inj (smallB : Framable b) (smallC : Framable c) (same : frame b = frame c) : b = c := by
  rw [← List.append_nil (frame b), ← List.append_nil (frame c)] at same
  exact ((frame_append_inj smallB smallC).mp same).1

theorem be_append_inj (wide : w = 8 * k) {m n : Fin (2 ^ w)} : be k m.val ++ x = be k n.val ++ y ↔ m = n ∧ x = y := by
  constructor
  · intro same
    obtain ⟨heads, tails⟩ := List.append_inj same (by simp)
    refine ⟨?_, tails⟩
    rw [← ofBeFin_be w wide m, heads, ofBeFin_be w wide n]
  · rintro ⟨rfl, rfl⟩
    rfl

theorem be_val_inj (wide : w = 8 * k) {m n : Fin (2 ^ w)} : be k m.val = be k n.val ↔ m = n := by
  rw [← List.append_nil (be k m.val), ← List.append_nil (be k n.val), be_append_inj wide]
  exact and_iff_left rfl

theorem FixedBytes.append_inj {a b : FixedBytes n} : a.bytes ++ x = b.bytes ++ y ↔ a = b ∧ x = y := by
  constructor
  · intro same
    obtain ⟨heads, tails⟩ := List.append_inj same (by simp)
    exact ⟨FixedBytes.ext heads, tails⟩
  · rintro ⟨rfl, rfl⟩
    rfl

/-- Framing forgets no field boundary. -/
theorem framed_inj {xs ys : List Bytes} (smallX : ∀ b ∈ xs, Framable b)
    (smallY : ∀ b ∈ ys, Framable b) (same : framed xs = framed ys) : xs = ys := by
  induction xs generalizing ys with
  | nil =>
    cases ys with
    | nil => rfl
    | cons c ys =>
      have lengths := congrArg List.length same
      simp [frame] at lengths
      omega
  | cons b xs ih =>
    cases ys with
    | nil =>
      have lengths := congrArg List.length same
      simp [frame] at lengths
    | cons c ys =>
      simp only [List.mem_cons, forall_eq_or_imp] at smallX smallY
      obtain ⟨rfl, rest⟩ := (frame_append_inj smallX.1 smallY.1).mp same
      rw [ih smallX.2 smallY.2 rest]

end Sena
