import Mathlib.Data.Set.Function
import Mathlib.Data.List.Nodup
import Sena.Sha256

/-! The primitives both implementations share: digests, addresses, domain tags
and the canonical encoding.

SHA-256, strict Ed25519 and the keyless proof system are third-party code. They
are parameters here, gathered in `Crypto`, and both implementations receive the
same ones. -/
namespace Sena

/-- A 32-byte SHA-256 digest. -/
abbrev Hash256 := FixedBytes 32

/-- A 32-byte account address, on the L2 and on L1 alike. -/
abbrev L2Address := FixedBytes 32

/-- The all-zero digest, the empty-subtree sentinel of the trie. -/
def Hash256.zero : Hash256 := FixedBytes.fill 32 0

/-- Domain separation tags. Rust and Move spell the same byte strings. -/
inductive Domain where
  /-- SENA:v1:keyless-address -/
  | keylessAddress
  /-- SENA:v1:trie-internal -/
  | trieInternal
  /-- SENA:v1:trie-leaf -/
  | trieLeaf
  /-- SENA:v1:batch -/
  | batch
  /-- SENA:v1:batch-leaf -/
  | batchLeaf
  /-- SENA:v1:batch-node -/
  | batchNode
  /-- SENA:v1:assertion -/
  | assertion
  /-- SENA:v1:machine-state -/
  | machineState
  /-- SENA:v1:transaction -/
  | transaction
  /-- SENA:v1:governance-update -/
  | governanceUpdate
  /-- SENA:v1:state:account -/
  | account
  /-- SENA:v1:state:social-by-identifier -/
  | socialByIdentifier
  /-- SENA:v1:state:asset -/
  | asset
  /-- SENA:v1:state:parameter -/
  | parameter
  /-- SENA:v1:state:council -/
  | council
  /-- SENA:v1:state:jwk -/
  | jwk
  /-- SENA:v1:state:fee-market -/
  | feeMarket
  /-- SENA:v1:state:fee-split -/
  | feeSplit
  /-- SENA:v1:withdrawal -/
  | withdrawal
  /-- SENA:v1:keyless-job -/
  | keylessJob
  /-- SENA:v1:no-honest-state -/
  | noHonestState
deriving DecidableEq, Repr

namespace Domain

/-- The bytes of the tag, spelled out so that evaluating an encoding does not
decode a string each time. -/
def tag : Domain → Bytes
  | keylessAddress => be 23 0x53454e413a76313a6b65796c6573732d61646472657373
  | trieInternal => be 21 0x53454e413a76313a747269652d696e7465726e616c
  | trieLeaf => be 17 0x53454e413a76313a747269652d6c656166
  | batch => be 13 0x53454e413a76313a6261746368
  | batchLeaf => be 18 0x53454e413a76313a62617463682d6c656166
  | batchNode => be 18 0x53454e413a76313a62617463682d6e6f6465
  | assertion => be 17 0x53454e413a76313a617373657274696f6e
  | machineState => be 21 0x53454e413a76313a6d616368696e652d7374617465
  | transaction => be 19 0x53454e413a76313a7472616e73616374696f6e
  | governanceUpdate => be 25 0x53454e413a76313a676f7665726e616e63652d757064617465
  | account => be 21 0x53454e413a76313a73746174653a6163636f756e74
  | socialByIdentifier => be 34 0x53454e413a76313a73746174653a736f6369616c2d62792d6964656e746966696572
  | asset => be 19 0x53454e413a76313a73746174653a6173736574
  | parameter => be 23 0x53454e413a76313a73746174653a706172616d65746572
  | council => be 21 0x53454e413a76313a73746174653a636f756e63696c
  | jwk => be 17 0x53454e413a76313a73746174653a6a776b
  | feeMarket => be 24 0x53454e413a76313a73746174653a6665652d6d61726b6574
  | feeSplit => be 23 0x53454e413a76313a73746174653a6665652d73706c6974
  | withdrawal => be 18 0x53454e413a76313a7769746864726177616c
  | keylessJob => be 19 0x53454e413a76313a6b65796c6573732d6a6f62
  | noHonestState => be 23 0x53454e413a76313a6e6f2d686f6e6573742d7374617465

/-- The bytes an ASCII string spells. -/
def ascii (s : String) : Bytes := s.toList.map fun c => UInt8.ofNat c.toNat

theorem tag_framable (d : Domain) : Framable d.tag := by
  cases d <;> decide

theorem tag_inj {c d : Domain} (same : c.tag = d.tag) : c = d := by
  cases c <;> cases d <;> first | rfl | exact absurd same (by decide)

end Domain

/-- The byte strings on which a digest function is assumed to behave: no two of
them collide and none hashes to the empty-subtree sentinel. Every use names the
strings a scenario hashes; no function into 32 bytes has this on all strings. -/
structure CollisionFree (sha256 : Bytes → Hash256) (images : Set Bytes) : Prop where
  inj : Set.InjOn sha256 images
  nonzero : ∀ b ∈ images, sha256 b ≠ Hash256.zero

theorem CollisionFree.mono (free : CollisionFree sha256 images) (included : part ⊆ images) :
    CollisionFree sha256 part :=
  ⟨free.inj.mono included, fun b member => free.nonzero b (included member)⟩

theorem collisionFree_list_iff (images : List Bytes) : CollisionFree sha256 {b | b ∈ images} ↔
    (∀ a ∈ images, ∀ b ∈ images, sha256 a = sha256 b → a = b) ∧
      ∀ a ∈ images, sha256 a ≠ Hash256.zero :=
  ⟨fun free => ⟨fun _ inA _ inB same => free.inj inA inB same, free.nonzero⟩,
    fun ⟨distinct, nonzero⟩ => ⟨fun a inA b inB same => distinct a inA b inB same, nonzero⟩⟩

instance (sha256 : Bytes → Hash256) (images : List Bytes) :
    Decidable (CollisionFree sha256 {b | b ∈ images}) :=
  decidable_of_iff _ (collisionFree_list_iff images).symm

/-- Why a strict Ed25519 check refuses. -/
inductive SignatureFault where
  | malformedKey
  | badSignature
deriving DecidableEq, Repr

/-- The fields of a keyless authorisation its circuit's public input covers. -/
structure KeylessInputs where
  issHash : Bytes
  idc : Bytes
  ephemeralPublicKey : Bytes
  expDateSecs : U64
  expHorizonSecs : U64
  jwtHeaderHash : Bytes
  jwkHash : Bytes
  extraFieldHash : Option Bytes
deriving DecidableEq

/-- The cryptography neither implementation defines itself. -/
structure Crypto where
  sha256 : Bytes → Hash256
  /-- Strict Ed25519 verification of a message under a public key. -/
  ed25519Strict : (publicKey signature message : Bytes) → Except SignatureFault Unit
  /-- The Poseidon hash of the circuit's public inputs, as a scalar; none when an
  input is not a canonical field element. -/
  publicInputsHash : KeylessInputs → Option Nat
  /-- The Groth16 check of a 128-byte proof under one of the known setups. -/
  groth16Verify : (setup : UInt8) → (proof : Bytes) → (input : Nat) → Bool

/-- SHA-256 as it is, and these for the signatures that verify: each with its key
and the message it is over. -/
def Crypto.accepting (signatures : List (Bytes × Bytes × Bytes)) : Crypto where
  sha256 := Sha256.digest
  ed25519Strict key signature message :=
    if (key, signature, message) ∈ signatures then .ok () else .error .badSignature
  publicInputsHash := fun _ => none
  groth16Verify := fun _ _ _ => false

/-- Hashes the canonical encoding of `fields` in `domain`: the domain tag and
every field carry their length. -/
def Crypto.commit (crypto : Crypto) (domain : Domain) (fields : List Bytes) : Hash256 :=
  crypto.sha256 (framed (domain.tag :: fields))

/-- The preimage `Crypto.commit` hashes. -/
def canonical (domain : Domain) (fields : List Bytes) : Bytes := framed (domain.tag :: fields)

theorem canonical_inj (smallX : ∀ b ∈ xs, Framable b) (smallY : ∀ b ∈ ys, Framable b)
    (same : canonical c xs = canonical d ys) : c = d ∧ xs = ys := by
  have fields := framed_inj (by simpa using ⟨c.tag_framable, smallX⟩)
    (by simpa using ⟨d.tag_framable, smallY⟩) same
  rw [List.cons.injEq] at fields
  exact ⟨Domain.tag_inj fields.1, fields.2⟩

/-- Why decoding a stored or published value failed. -/
inductive DecodeError where
  | truncated
  | unknownVariant (discriminant : UInt8)
  | trailingBytes (remaining : Nat)
  | lengthOverflow
deriving DecidableEq, Repr

/-- Reads values off the input that remains. -/
abbrev Reader := StateT Bytes (Except DecodeError)

namespace Reader

def u8 : Reader UInt8
  | [] => .error .truncated
  | byte :: rest => .ok (byte, rest)

def array (n : Nat) : Reader (FixedBytes n) := fun input =>
  if enough : n ≤ input.length then
    .ok (⟨input.take n, by simp [enough]⟩, input.drop n)
  else .error .truncated

def u32 : Reader U32 := do return ofBeFin 32 (← array 4).bytes
def u64 : Reader U64 := do return ofBeFin 64 (← array 8).bytes
def u128 : Reader U128 := do return ofBeFin 128 (← array 16).bytes

/-- Any byte other than zero and one is rejected, so a boolean has exactly two
encodings. -/
def bool : Reader Bool := do
  let byte ← u8
  if byte = 0 then return false
  else if byte = 1 then return true
  else throw (.unknownVariant byte)

def hash : Reader Hash256 := array 32

def bytes : Reader Bytes := do
  let len ← u32
  let remaining ← get
  if remaining.length < len.val then throw .lengthOverflow
  else return (← array len.val).bytes

def finish : Reader Unit := do
  let remaining ← get
  if remaining = [] then return ()
  else throw (.trailingBytes remaining.length)

/-- Runs a reader over a whole input and returns what it read. -/
def readAll (reader : Reader α) (input : Bytes) : Except DecodeError α := reader.run' input

/-! What was written first is read first, and the rest is left alone. -/

theorem bind_eq_ok {next : α → StateT Bytes (Except ε) β} : (reader >>= next) input = .ok (b, rest) ↔
      ∃ a middle, reader input = .ok (a, middle) ∧ next a middle = .ok (b, rest) := by
  change (reader input >>= fun p => next p.1 p.2) = _ ↔ _
  cases reader input with
  | error e =>
    constructor
    · intro read
      cases read
    · rintro ⟨_, _, read, _⟩
      cases read
  | ok p =>
    obtain ⟨a, middle⟩ := p
    constructor
    · intro read
      exact ⟨a, middle, rfl, read⟩
    · rintro ⟨_, _, same, read⟩
      cases same
      exact read

theorem pure_eq_ok : (pure a : StateT Bytes (Except ε) α) input = .ok (b, rest) ↔ b = a ∧ rest = input := by
  change (Except.ok (a, input) : Except ε _) = .ok (b, rest) ↔ _
  simp [eq_comm]

theorem run'_eq_ok {reader : StateT Bytes (Except ε) α} :
    reader.run' input = .ok a ↔ ∃ rest, reader input = .ok (a, rest) := by
  change Prod.fst <$> reader input = _ ↔ _
  cases reader input with
  | error e => simp
  | ok p =>
    obtain ⟨value, rest⟩ := p
    simp

theorem bind_ok {next : α → Reader β} (read : reader input = .ok (a, rest)) :
    (reader >>= next) input = next a rest := by
  change (reader input >>= fun p => next p.1 p.2) = _
  rw [read]
  rfl

theorem array_append (a : FixedBytes n) (rest : Bytes) : array n (a.bytes ++ rest) = .ok (a, rest) := by
  have enough : n ≤ (a.bytes ++ rest).length := by simp
  have front : (a.bytes ++ rest).take n = a.bytes := by simp
  have back : (a.bytes ++ rest).drop n = rest := by simp
  simp only [array, enough, dite_true, front, back]

theorem hash_append (h : Hash256) (rest : Bytes) : hash (h.bytes ++ rest) = .ok (h, rest) :=
  array_append h rest

private theorem beArray_append (k n : Nat) (rest : Bytes) :
    array k (be k n ++ rest) = .ok (⟨be k n, be_length k n⟩, rest) :=
  array_append ⟨be k n, be_length k n⟩ rest

theorem u32_append (n : U32) (rest : Bytes) : u32 (be 4 n.val ++ rest) = .ok (n, rest) := by
  rw [u32, bind_ok (beArray_append 4 n.val rest)]
  simp only [ofBeFin_be 32 (k := 4) rfl]
  rfl

theorem bytes_append (small : Framable b) (rest : Bytes) : bytes (frame b ++ rest) = .ok (b, rest) := by
  have length := u32_append ⟨b.length, small⟩ (b ++ rest)
  simp only [frame, List.append_assoc, bytes]
  have remaining : (get : Reader Bytes) (b ++ rest) = .ok (b ++ rest, b ++ rest) := rfl
  rw [bind_ok length, bind_ok remaining, if_neg (by simp), bind_ok (array_append ⟨b, rfl⟩ rest)]
  rfl

end Reader

/-- The ranges the bytes after a sequence's first byte have to lie in; none if no
UTF-8 sequence starts with it. -/
def utf8Ranges (first : UInt8) : Option (List (UInt8 × UInt8)) :=
  if first < 0x80 then some []
  else if 0xC2 ≤ first ∧ first ≤ 0xDF then some [(0x80, 0xBF)]
  else if 0xE0 ≤ first ∧ first ≤ 0xEF then
    some [(if first = 0xE0 then 0xA0 else 0x80, if first = 0xED then 0x9F else 0xBF), (0x80, 0xBF)]
  else if 0xF0 ≤ first ∧ first ≤ 0xF4 then
    some [(if first = 0xF0 then 0x90 else 0x80, if first = 0xF4 then 0x8F else 0xBF), (0x80, 0xBF),
      (0x80, 0xBF)]
  else none

/-- How many leading bytes lie in their ranges. -/
def utf8Matched : List (UInt8 × UInt8) → Bytes → Nat
  | (low, high) :: ranges, byte :: rest =>
    if low ≤ byte ∧ byte ≤ high then utf8Matched ranges rest + 1 else 0
  | _, _ => 0

/-- Whether the bytes start with a well-formed UTF-8 sequence, and how many of
them a decoder consumes before it goes on: the sequence, or the maximal part of
an ill-formed one. -/
def utf8Head : Bytes → Bool × Nat
  | [] => (true, 0)
  | first :: rest =>
    match utf8Ranges first with
    | none => (false, 1)
    | some ranges => (utf8Matched ranges rest = ranges.length, 1 + utf8Matched ranges rest)

/-- Decodes at most `fuel` sequences, replacing each ill-formed part by U+FFFD. -/
def utf8LossyFrom : (fuel : Nat) → Bytes → Bytes
  | 0, _ => []
  | _ + 1, [] => []
  | fuel + 1, input =>
    let (valid, used) := utf8Head input
    (if valid then input.take used else [0xEF, 0xBF, 0xBD]) ++
      utf8LossyFrom fuel (input.drop used)

/-- A sequence takes at least one byte, so the length of the input is fuel enough. -/
def fromUtf8Lossy (input : Bytes) : Bytes := utf8LossyFrom input.length input

def utf8ValidFrom : (fuel : Nat) → Bytes → Bool
  | 0, _ => true
  | _ + 1, [] => true
  | fuel + 1, input =>
    let (valid, used) := utf8Head input
    valid && utf8ValidFrom fuel (input.drop used)

/-- Whether the bytes are well-formed UTF-8 throughout. -/
def utf8Valid (input : Bytes) : Bool := utf8ValidFrom input.length input

theorem utf8Matched_take {ranges : List (UInt8 × UInt8)} {input : Bytes}
    (full : utf8Matched ranges input = ranges.length) (rest : Bytes) :
    utf8Matched ranges (input.take ranges.length ++ rest) = ranges.length := by
  induction ranges generalizing input with
  | nil => rfl
  | cons range ranges ih =>
    cases input with
    | nil => cases full
    | cons byte input =>
      rw [utf8Matched] at full
      split at full
      · rename_i inside
        have full := ih (Nat.succ.inj full)
        simp only [List.length_cons, List.take_succ_cons, List.cons_append, utf8Matched, inside,
          and_self, if_true, full]
      · cases full

theorem utf8Head_take {input : Bytes} (nonempty : input ≠ []) (valid : utf8Head input = (true, used))
    (rest : Bytes) : utf8Head (input.take used ++ rest) = (true, used) := by
  cases input with
  | nil => exact absurd rfl nonempty
  | cons first input =>
    simp only [utf8Head] at valid
    split at valid
    · cases valid
    · rename_i ranges found
      simp only [Prod.mk.injEq, decide_eq_true_eq] at valid
      obtain ⟨full, rfl⟩ := valid
      have again := utf8Matched_take full rest
      simp only [full, Nat.add_comm 1, List.take_succ_cons, List.cons_append, utf8Head, found, again,
        decide_true]

theorem utf8Matched_le (ranges : List (UInt8 × UInt8)) (input : Bytes) : utf8Matched ranges input ≤ input.length := by
  induction ranges generalizing input with
  | nil => exact Nat.zero_le _
  | cons range ranges ih =>
    cases input with
    | nil => exact Nat.le_refl _
    | cons byte input =>
      rw [utf8Matched]
      split
      · exact Nat.succ_le_succ (ih input)
      · exact Nat.zero_le _

theorem utf8Head_le (valid : utf8Head input = (true, used)) : used ≤ input.length := by
  cases input with
  | nil =>
    cases valid
    exact Nat.le_refl _
  | cons first input =>
    simp only [utf8Head] at valid
    split at valid
    · cases valid
    · rename_i ranges found
      have bound := utf8Matched_le ranges input
      simp only [Prod.mk.injEq] at valid
      rw [List.length_cons]
      omega

private theorem utf8ValidFrom_append {chunk : Bytes} (head : utf8Head (chunk ++ tail) = (true, chunk.length))
    (valid : ∀ fuel, utf8ValidFrom fuel tail = true) : ∀ fuel, utf8ValidFrom fuel (chunk ++ tail) = true
  | 0 => by simp [utf8ValidFrom]
  | fuel + 1 => by
    cases whole : chunk ++ tail with
    | nil => rfl
    | cons first rest =>
      rw [utf8ValidFrom, ← whole, head]
      · simpa using valid fuel
      · simp

private theorem utf8ValidFrom_lossy (n : Nat) (input : Bytes) (fuel : Nat) :
    utf8ValidFrom fuel (utf8LossyFrom n input) = true := by
  induction n generalizing input fuel with
  | zero => cases fuel <;> rfl
  | succ n ih =>
    cases input with
    | nil => cases fuel <;> rfl
    | cons first input =>
      rw [utf8LossyFrom]
      · cases head : utf8Head (first :: input) with
        | mk valid used =>
          cases valid with
          | true =>
            have same := utf8Head_take (by simp) head (utf8LossyFrom n ((first :: input).drop used))
            have length : ((first :: input).take used).length = used := by
              rw [List.length_take, Nat.min_eq_left (utf8Head_le head)]
            exact utf8ValidFrom_append (by simpa [length] using same) (ih _) fuel
          | false => exact utf8ValidFrom_append rfl (ih _) fuel
      · simp

/-- A string, kept as its UTF-8 bytes. -/
structure Utf8 where
  bytes : Bytes
  valid : utf8Valid bytes = true
deriving DecidableEq

/-- `String::from_utf8_lossy`: each ill-formed part becomes U+FFFD. -/
def Utf8.lossy (input : Bytes) : Utf8 := ⟨fromUtf8Lossy input, utf8ValidFrom_lossy _ _ _⟩

/-- Invalid UTF-8 is replaced rather than rejected: the bytes are what the trie
committed to. -/
def Reader.string : Reader Utf8 := do return Utf8.lossy (← Reader.bytes)

end Sena
