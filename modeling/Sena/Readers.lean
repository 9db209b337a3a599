import Sena.Gas
import Sena.TxCodec

/-! What the three readers of this development read.

The node reads with errors, the contracts read stored records with aborts and
published transactions with a cursor that fails. A successful read of any of
them says the same: the input begins with the encoding of what was read. -/
namespace Sena

theorem be_ofBeFin (wide : w = 8 * k) (sized : b.length = k) : be k (ofBeFin w b).val = b := by
  have width : (256 : Nat) ^ k = 2 ^ w := by
    rw [wide, pow_mul]
    norm_num
  have bound := ofBe_lt b
  rw [sized] at bound
  have value : (ofBeFin w b).val = ofBe b := Nat.mod_eq_of_lt (width ▸ bound)
  rw [value]
  exact ofBe_inj (by simp [sized]) (ofBe_be_of_lt bound)

/-- An integer read off `k` bytes. -/
theorem read_be (wide : w = 8 * k) {n : Fin (2 ^ w)} :
    (∃ b middle, (b.length = k ∧ input = b ++ middle) ∧ n = ofBeFin w b ∧ rest = middle) ↔
      input = be k n.val ++ rest := by
  constructor
  · rintro ⟨b, middle, ⟨sized, rfl⟩, rfl, rfl⟩
    rw [be_ofBeFin wide sized]
  · rintro rfl
    exact ⟨_, _, ⟨be_length _ _, rfl⟩, (ofBeFin_be w wide n).symm, rfl⟩

theorem take_drop_iff {input : Bytes} :
    (n ≤ input.length ∧ input.take n = b ∧ input.drop n = rest) ↔ b.length = n ∧ input = b ++ rest := by
  constructor
  · rintro ⟨enough, rfl, rfl⟩
    exact ⟨by simp [enough], (List.take_append_drop n input).symm⟩
  · rintro ⟨rfl, rfl⟩
    simp

theorem read_frame : (∃ (n : U32) (middle : Bytes), input = be 4 n.val ++ middle ∧ b.length = n.val ∧
    middle = b ++ rest) ↔ Framable b ∧ input = frame b ++ rest := by
  constructor
  · rintro ⟨n, _, rfl, sized, rfl⟩
    exact ⟨by rw [Framable, sized]; exact n.isLt, by simp [frame, sized]⟩
  · rintro ⟨small, rfl⟩
    exact ⟨⟨b.length, small⟩, _, by simp [frame], rfl, rfl⟩

theorem many_iff (R : Nat → Bytes → List β → Bytes → Prop) (encode : α → Bytes) (P : α → Prop)
    (view : α → β) (zero : ∀ input l rest, R 0 input l rest ↔ l = [] ∧ rest = input)
    (succ : ∀ n input l rest, R (n + 1) input l rest ↔ ∃ a middle l', P a ∧ input = encode a ++ middle ∧
      R n middle l' rest ∧ l = view a :: l') :
    R n input l rest ↔ ∃ items : List α, items.length = n ∧ (∀ a ∈ items, P a) ∧
      input = items.flatMap encode ++ rest ∧ l = items.map view := by
  induction n generalizing input l with
  | zero =>
    rw [zero]
    constructor
    · rintro ⟨rfl, rfl⟩
      exact ⟨[], rfl, by simp, rfl, rfl⟩
    · rintro ⟨items, none, _, rfl, rfl⟩
      obtain rfl := List.length_eq_zero_iff.mp none
      exact ⟨rfl, rfl⟩
  | succ n ih =>
    rw [succ]
    constructor
    · rintro ⟨a, middle, l', good, rfl, others, rfl⟩
      obtain ⟨items, sized, fine, rfl, rfl⟩ := ih.mp others
      exact ⟨a :: items, by simp [sized], by simpa using ⟨good, fine⟩, by simp, rfl⟩
    · rintro ⟨items, sized, fine, rfl, rfl⟩
      cases items with
      | nil => cases sized
      | cons a items =>
        rw [List.forall_mem_cons] at fine
        exact ⟨a, _, items.map view, fine.1, by simp, ih.mpr ⟨items, Nat.succ.inj sized, fine.2, rfl, rfl⟩,
          rfl⟩

@[simp] theorem Gas.encodeBool_inj : Gas.encodeBool v = Gas.encodeBool v' ↔ v = v' := by
  cases v <;> cases v' <;> decide

theorem Gas.eq_encodeBool_iff : byte = Gas.encodeBool v ↔ (byte = 0 ∨ byte = 1) ∧ v = decide (byte = 1) := by
  constructor
  · rintro rfl
    cases v <;> decide
  · rintro ⟨rfl | rfl, rfl⟩ <;> rfl

namespace Reader

variable {input rest : Bytes}

theorem ite_eq_ok {c : Prop} [Decidable c] {yes no : StateT Bytes (Except ε) α} :
    (if c then yes else no) input = .ok (a, rest) ↔
      (c ∧ yes input = .ok (a, rest)) ∨ (¬c ∧ no input = .ok (a, rest)) := by
  split <;> simp_all

theorem throw_eq_ok : (throw e : StateT Bytes (Except ε) α) input = .ok (a, rest) ↔ False := by
  change (Except.error e : Except ε (α × Bytes)) = .ok (a, rest) ↔ False
  simp

theorem u8_eq_ok : u8 input = .ok (byte, rest) ↔ input = byte :: rest := by
  cases input <;> simp [u8]

theorem array_eq_ok {a : FixedBytes n} : array n input = .ok (a, rest) ↔ input = a.bytes ++ rest := by
  constructor
  · intro read
    unfold array at read
    split at read
    · rename_i enough
      simp only [Except.ok.injEq, Prod.mk.injEq] at read
      obtain ⟨rfl, rfl⟩ := read
      exact (List.take_append_drop n input).symm
    · cases read
  · rintro rfl
    exact array_append a rest

private theorem int_eq_ok (wide : w = 8 * k) {n : Fin (2 ^ w)} :
    (do return ofBeFin w (← array k).bytes : Reader (Fin (2 ^ w))) input = .ok (n, rest) ↔
      input = be k n.val ++ rest := by
  rw [← read_be wide, bind_eq_ok]
  constructor
  · rintro ⟨a, middle, read, value⟩
    obtain ⟨rfl, rfl⟩ := pure_eq_ok.mp value
    exact ⟨a.bytes, _, ⟨a.length_eq, array_eq_ok.mp read⟩, rfl, rfl⟩
  · rintro ⟨b, _, ⟨sized, same⟩, rfl, rfl⟩
    exact ⟨⟨b, sized⟩, _, array_eq_ok.mpr same, pure_eq_ok.mpr ⟨rfl, rfl⟩⟩

theorem u32_eq_ok : u32 input = .ok (n, rest) ↔ input = be 4 n.val ++ rest := int_eq_ok rfl

theorem u64_eq_ok : u64 input = .ok (n, rest) ↔ input = be 8 n.val ++ rest := int_eq_ok rfl

theorem u128_eq_ok : u128 input = .ok (n, rest) ↔ input = be 16 n.val ++ rest := int_eq_ok rfl

theorem hash_eq_ok : hash input = .ok (h, rest) ↔ input = h.bytes ++ rest := array_eq_ok

theorem bool_eq_ok : bool input = .ok (v, rest) ↔ input = Gas.encodeBool v :: rest := by
  rw [bool, bind_eq_ok]
  constructor
  · rintro ⟨byte, middle, read, chosen⟩
    obtain rfl := u8_eq_ok.mp read
    split at chosen
    · obtain ⟨rfl, rfl⟩ := pure_eq_ok.mp chosen
      simp_all [Gas.encodeBool]
    · split at chosen
      · obtain ⟨rfl, rfl⟩ := pure_eq_ok.mp chosen
        simp_all [Gas.encodeBool]
      · cases chosen
  · rintro rfl
    refine ⟨_, rest, u8_eq_ok.mpr rfl, ?_⟩
    cases v <;> rfl

theorem bytes_eq_ok : bytes input = .ok (b, rest) ↔ Framable b ∧ input = frame b ++ rest := by
  constructor
  · intro read
    rw [← read_frame]
    obtain ⟨n, middle, length, read⟩ := bind_eq_ok.mp read
    obtain ⟨_, _, got, read⟩ := bind_eq_ok.mp read
    cases got
    split at read
    · cases read
    · obtain ⟨a, _, took, value⟩ := bind_eq_ok.mp read
      obtain ⟨rfl, rfl⟩ := pure_eq_ok.mp value
      exact ⟨n, _, u32_eq_ok.mp length, a.length_eq, array_eq_ok.mp took⟩
  · rintro ⟨small, rfl⟩
    exact bytes_append small rest

theorem string_eq_ok : string input = .ok (s, rest) ↔
    ∃ b, (Framable b ∧ input = frame b ++ rest) ∧ s = Utf8.lossy b := by
  rw [string, bind_eq_ok]
  constructor
  · rintro ⟨b, _, read, value⟩
    obtain ⟨rfl, rfl⟩ := pure_eq_ok.mp value
    exact ⟨b, bytes_eq_ok.mp read, rfl⟩
  · rintro ⟨b, read, rfl⟩
    exact ⟨b, rest, bytes_eq_ok.mpr read, pure_eq_ok.mpr ⟨rfl, rfl⟩⟩

theorem finish_eq_ok : finish input = .ok (u, rest) ↔ input = [] ∧ rest = [] := by
  cases input with
  | nil =>
    change (Except.ok ((), []) : Except DecodeError (Unit × Bytes)) = _ ↔ _
    simp [eq_comm]
  | cons byte input =>
    constructor
    · intro read
      cases read
    · rintro ⟨none, _⟩
      cases none

end Reader

namespace Codec

open Reader (bind_eq_ok pure_eq_ok)

variable {input rest : Bytes}

theorem takeBytes_eq_ok : takeBytes n input = .ok (b, rest) ↔ b.length = n ∧ input = b ++ rest := by
  rw [← take_drop_iff]
  unfold takeBytes
  split <;> simp_all

theorem takeU8_eq_ok : takeU8 input = .ok (byte, rest) ↔ input = byte :: rest := by
  cases input <;> simp [takeU8]

private theorem takeInt_eq_ok (wide : w = 8 * k) {n : Fin (2 ^ w)} :
    (do return ofBeFin w (← takeBytes k) : Take (Fin (2 ^ w))) input = .ok (n, rest) ↔
      input = be k n.val ++ rest := by
  simp only [← read_be wide, bind_eq_ok, pure_eq_ok, takeBytes_eq_ok]

theorem takeU32_eq_ok : takeU32 input = .ok (n, rest) ↔ input = be 4 n.val ++ rest := takeInt_eq_ok rfl

theorem takeU64_eq_ok : takeU64 input = .ok (n, rest) ↔ input = be 8 n.val ++ rest := takeInt_eq_ok rfl

theorem takeU128_eq_ok : takeU128 input = .ok (n, rest) ↔ input = be 16 n.val ++ rest := takeInt_eq_ok rfl

theorem takeField_eq_ok : takeField input = .ok (b, rest) ↔ Framable b ∧ input = frame b ++ rest := by
  simp only [← read_frame, takeField, bind_eq_ok, takeU32_eq_ok, takeBytes_eq_ok]

theorem takeBool_eq_ok : takeBool input = .ok (v, rest) ↔ input = Gas.encodeBool v :: rest := by
  rw [takeBool, bind_eq_ok]
  constructor
  · rintro ⟨byte, middle, read, chosen⟩
    obtain rfl := takeU8_eq_ok.mp read
    split at chosen
    · rename_i binary
      obtain ⟨rfl, rfl⟩ := pure_eq_ok.mp chosen
      rw [← Gas.eq_encodeBool_iff.mpr ⟨binary, rfl⟩]
    · cases chosen
  · rintro rfl
    refine ⟨_, rest, takeU8_eq_ok.mpr rfl, ?_⟩
    cases v <;> rfl

theorem finish_eq_ok : finish input = .ok (u, rest) ↔ input = [] ∧ rest = [] := by
  cases input <;> simp [finish, eq_comm]

theorem takeMany_eq_ok (encode : α → Bytes) (P : α → Prop) (view : α → β)
    (reads : ∀ input b rest, item input = .ok (b, rest) ↔ ∃ a, P a ∧ input = encode a ++ rest ∧ b = view a) :
    takeMany item n input = .ok (l, rest) ↔ ∃ items : List α, items.length = n ∧ (∀ a ∈ items, P a) ∧
      input = items.flatMap encode ++ rest ∧ l = items.map view := by
  refine many_iff (fun n input l rest => takeMany item n input = .ok (l, rest)) encode P view
    (fun input l rest => by rw [takeMany]; exact pure_eq_ok) fun n input l rest => ?_
  simp only [takeMany, bind_eq_ok, pure_eq_ok, reads]
  constructor
  · rintro ⟨_, middle, ⟨a, good, rfl, rfl⟩, l', _, others, rfl, rfl⟩
    exact ⟨a, middle, l', good, rfl, others, rfl⟩
  · rintro ⟨a, middle, l', good, rfl, others, rfl⟩
    exact ⟨_, middle, ⟨a, good, rfl, rfl⟩, l', _, others, rfl, rfl⟩

end Codec

namespace TxCodec

variable {input rest : Bytes}

theorem bind_eq_some {next : α → Cursor β} : (cursor >>= next) input = some (b, rest) ↔
      ∃ a middle, cursor input = some (a, middle) ∧ next a middle = some (b, rest) := by
  change (cursor input >>= fun p => next p.1 p.2) = _ ↔ _
  cases cursor input with
  | none => simp
  | some p =>
    obtain ⟨a, middle⟩ := p
    simp

theorem pure_eq_some : (pure a : Cursor α) input = some (b, rest) ↔ b = a ∧ rest = input := by
  change some (a, input) = some (b, rest) ↔ _
  simp [eq_comm]

theorem ite_eq_some {c : Prop} [Decidable c] {yes no : Cursor α} : (if c then yes else no) input = some (a, rest) ↔
      (c ∧ yes input = some (a, rest)) ∨ (¬c ∧ no input = some (a, rest)) := by
  split <;> simp_all

theorem failure_eq_some : (failure : Cursor α) input = some (b, rest) ↔ False := by
  change (none : Option (α × Bytes)) = some (b, rest) ↔ False
  simp

theorem guard_eq_some [Decidable bad] {stop : γ → Cursor α} :
    (if bad then (failure >>= stop) else next) input = some (b, rest) ↔
      ¬bad ∧ next input = some (b, rest) := by
  split
  · rename_i failed
    simp only [bind_eq_some, failure_eq_some, false_and, exists_false, failed, not_true_eq_false]
  · rename_i fine
    simp [fine]

theorem liftM_eq_some : (liftM x : Cursor α) input = some (b, rest) ↔ x = some b ∧ rest = input := by
  change (x >>= fun a => some (a, input)) = _ ↔ _
  cases x with
  | none => simp
  | some a => simp [eq_comm]

theorem run'_eq_some {cursor : Cursor α} : cursor.run' input = some a ↔ ∃ rest, cursor input = some (a, rest) := by
  change Prod.fst <$> cursor input = _ ↔ _
  cases cursor input with
  | none => simp
  | some p =>
    obtain ⟨value, rest⟩ := p
    simp

theorem takeBytes_eq_some : takeBytes n input = some (b, rest) ↔ b.length = n ∧ input = b ++ rest := by
  rw [← take_drop_iff]
  unfold takeBytes
  split <;> simp_all

theorem takeU8_eq_some : takeU8 input = some (byte, rest) ↔ input = byte :: rest := by
  cases input <;> simp [takeU8]

private theorem takeInt_eq_some (wide : w = 8 * k) {n : Fin (2 ^ w)} :
    (do return ofBeFin w (← takeBytes k) : Cursor (Fin (2 ^ w))) input = some (n, rest) ↔
      input = be k n.val ++ rest := by
  simp only [← read_be wide, bind_eq_some, pure_eq_some, takeBytes_eq_some]

theorem takeU32_eq_some : takeU32 input = some (n, rest) ↔ input = be 4 n.val ++ rest :=
  takeInt_eq_some rfl

theorem takeU64_eq_some : takeU64 input = some (n, rest) ↔ input = be 8 n.val ++ rest :=
  takeInt_eq_some rfl

theorem takeU128_eq_some : takeU128 input = some (n, rest) ↔ input = be 16 n.val ++ rest :=
  takeInt_eq_some rfl

theorem takeField_eq_some : takeField input = some (b, rest) ↔ Framable b ∧ input = frame b ++ rest := by
  simp only [← read_frame, takeField, bind_eq_some, takeU32_eq_some, takeBytes_eq_some]

theorem takeString_eq_some : takeString input = some (b, rest) ↔
    utf8Valid b = true ∧ Framable b ∧ input = frame b ++ rest := by
  rw [takeString, bind_eq_some]
  constructor
  · rintro ⟨s, middle, read, checked⟩
    split at checked
    · rename_i valid
      obtain ⟨rfl, rfl⟩ := pure_eq_some.mp checked
      exact ⟨valid, takeField_eq_some.mp read⟩
    · exact (failure_eq_some.mp checked).elim
  · rintro ⟨valid, read⟩
    exact ⟨b, rest, takeField_eq_some.mpr read, by rw [if_pos valid]; exact pure_eq_some.mpr ⟨rfl, rfl⟩⟩

theorem takeBool_eq_some : takeBool input = some (v, rest) ↔ input = Gas.encodeBool v :: rest := by
  rw [takeBool, bind_eq_some]
  constructor
  · rintro ⟨byte, middle, read, chosen⟩
    obtain rfl := takeU8_eq_some.mp read
    split at chosen
    · exact (failure_eq_some.mp chosen).elim
    · rename_i binary
      obtain ⟨rfl, rfl⟩ := pure_eq_some.mp chosen
      have small : byte = 0 ∨ byte = 1 := by
        rw [UInt8.not_lt, UInt8.le_iff_toNat_le] at binary
        rw [← UInt8.toNat_inj, ← UInt8.toNat_inj]
        change byte.toNat ≤ 1 at binary
        change byte.toNat = 0 ∨ byte.toNat = 1
        omega
      rw [← Gas.eq_encodeBool_iff.mpr ⟨small, rfl⟩]
  · rintro rfl
    refine ⟨_, rest, takeU8_eq_some.mpr rfl, ?_⟩
    cases v <;> rfl

theorem done_eq_some : done input = some (u, rest) ↔ input = [] ∧ rest = [] := by
  cases input <;> simp [done, eq_comm]

theorem takeMany_eq_some (encode : α → Bytes) (P : α → Prop) (view : α → β)
    (reads : ∀ input b rest, item input = some (b, rest) ↔ ∃ a, P a ∧ input = encode a ++ rest ∧ b = view a) :
    takeMany item n input = some (l, rest) ↔ ∃ items : List α, items.length = n ∧ (∀ a ∈ items, P a) ∧
      input = items.flatMap encode ++ rest ∧ l = items.map view := by
  refine many_iff (fun n input l rest => takeMany item n input = some (l, rest)) encode P view
    (fun input l rest => by rw [takeMany]; exact pure_eq_some) fun n input l rest => ?_
  simp only [takeMany, bind_eq_some, pure_eq_some, reads]
  constructor
  · rintro ⟨_, middle, ⟨a, good, rfl, rfl⟩, l', _, others, rfl, rfl⟩
    exact ⟨a, middle, l', good, rfl, others, rfl⟩
  · rintro ⟨a, middle, l', good, rfl, others, rfl⟩
    exact ⟨_, middle, ⟨a, good, rfl, rfl⟩, l', _, others, rfl, rfl⟩

end TxCodec

theorem utf8LossyFrom_of_valid {input : Bytes} (valid : utf8ValidFrom fuel input = true)
    (enough : input.length ≤ fuel) : utf8LossyFrom fuel input = input := by
  induction fuel generalizing input with
  | zero => simpa [utf8LossyFrom] using (List.length_eq_zero_iff.mp (Nat.le_zero.mp enough)).symm
  | succ fuel ih =>
    cases input with
    | nil => rfl
    | cons first input =>
      cases head : utf8Head (first :: input) with
      | mk ok used =>
        rw [utf8ValidFrom, head] at valid
        · obtain ⟨rfl, valid⟩ : ok = true ∧ _ := by simpa using valid
          have progress : 0 < used := by
            simp only [utf8Head] at head
            split at head
            · cases head
            · have := (Prod.mk.inj head).2
              omega
          rw [utf8LossyFrom, head]
          · simp only [if_true]
            rw [ih valid (by simp only [List.length_drop, List.length_cons] at *; omega),
              List.take_append_drop]
          · simp
        · simp

theorem Utf8.ext {s t : Utf8} (same : s.bytes = t.bytes) : s = t := by
  cases s
  cases t
  simp_all

theorem Utf8.lossy_bytes_iff : (Utf8.lossy b).bytes = b ↔ utf8Valid b = true := by
  constructor
  · intro same
    rw [← same]
    exact (Utf8.lossy b).valid
  · intro valid
    exact utf8LossyFrom_of_valid valid (Nat.le_refl _)

@[simp] theorem Utf8.lossy_bytes (s : Utf8) : Utf8.lossy s.bytes = s :=
  Utf8.ext (Utf8.lossy_bytes_iff.mpr s.valid)

end Sena
