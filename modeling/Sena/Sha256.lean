import Sena.Bytes

/-! SHA-256 as FIPS 180-4 defines it, written to be evaluated.

The development treats the digest as a parameter wherever it proves something.
This is the function that parameter stands for, so that a scenario can be run
on the digests two independent implementations really compare. A message, a block
and a state are each one number, and the words are shifted out of it: the lists of
words would cost most of the time. -/
namespace Sena.Sha256

/-- Evaluates `n` before it is used: carrying it unevaluated would repeat its
computation at every use. -/
def force {α : Type} (n : Nat) (use : Nat → α) : α :=
  match n with
  | 0 => use 0
  | m + 1 => use (Nat.succ m)

/-- The word `shift` bits from the low end. -/
def wordAt (n shift : Nat) : Nat := Nat.mod (Nat.shiftRight n shift) 4294967296

/-- The exclusive or of three right rotations. Doubling the word side by side
turns a rotation into a shift. -/
def rotations (x i j k : Nat) : Nat :=
  Nat.mod (Nat.xor (Nat.shiftRight (Nat.mul x 4294967297) i)
    (Nat.xor (Nat.shiftRight (Nat.mul x 4294967297) j) (Nat.shiftRight (Nat.mul x 4294967297) k))) 4294967296

/-- Two right rotations and a shift, as the message schedule mixes words. -/
def rotationsShift (x i j k : Nat) : Nat :=
  Nat.xor (Nat.mod (Nat.xor (Nat.shiftRight (Nat.mul x 4294967297) i)
    (Nat.shiftRight (Nat.mul x 4294967297) j)) 4294967296) (Nat.shiftRight x k)

def choose (x y z : Nat) : Nat := Nat.xor z (Nat.land x (Nat.xor y z))

def majority (x y z : Nat) : Nat := Nat.lor (Nat.land x y) (Nat.land z (Nat.lor x y))

def roundConstants : List Nat := [
  0x428a2f98, 0x71374491, 0xb5c0fbcf, 0xe9b5dba5, 0x3956c25b, 0x59f111f1, 0x923f82a4, 0xab1c5ed5,
  0xd807aa98, 0x12835b01, 0x243185be, 0x550c7dc3, 0x72be5d74, 0x80deb1fe, 0x9bdc06a7, 0xc19bf174,
  0xe49b69c1, 0xefbe4786, 0x0fc19dc6, 0x240ca1cc, 0x2de92c6f, 0x4a7484aa, 0x5cb0a9dc, 0x76f988da,
  0x983e5152, 0xa831c66d, 0xb00327c8, 0xbf597fc7, 0xc6e00bf3, 0xd5a79147, 0x06ca6351, 0x14292967,
  0x27b70a85, 0x2e1b2138, 0x4d2c6dfc, 0x53380d13, 0x650a7354, 0x766a0abb, 0x81c2c92e, 0x92722c85,
  0xa2bfe8a1, 0xa81a664b, 0xc24b8b70, 0xc76c51a3, 0xd192e819, 0xd6990624, 0xf40e3585, 0x106aa070,
  0x19a4c116, 0x1e376c08, 0x2748774c, 0x34b0bcb5, 0x391c0cb3, 0x4ed8aa4a, 0x5b9cca4f, 0x682e6ff3,
  0x748f82ee, 0x78a5636f, 0x84c87814, 0x8cc70208, 0x90befffa, 0xa4506ceb, 0xbef9a3f7, 0xc67178f2]

/-- The initial state, its eight words one after another. -/
def initial : Nat := 0x6a09e667bb67ae853c6ef372a54ff53a510e527f9b05688c1f83d9ab5be0cd19

/-- What a round takes: the eight working words and the sixteen schedule words. -/
abbrev Round : Type :=
  (a b c d e f g h w0 w1 w2 w3 w4 w5 w6 w7 w8 w9 w10 w11 w12 w13 w14 w15 : Nat) → Nat

/-- One round, before the `next` ones. The schedule words slide: a round uses the
first and appends the word sixteen positions later. -/
def round (k : Nat) (next : Round) : Round :=
  fun a b c d e f g h w0 w1 w2 w3 w4 w5 w6 w7 w8 w9 w10 w11 w12 w13 w14 w15 =>
    (fun t => next (Nat.mod (Nat.add t (Nat.add (rotations a 2 13 22) (majority a b c))) 4294967296) a b c
      (Nat.mod (Nat.add d t) 4294967296) e f g w1 w2 w3 w4 w5 w6 w7 w8 w9 w10 w11 w12 w13 w14 w15
      (Nat.mod (Nat.add (Nat.add (rotationsShift w14 17 19 10) w9) (Nat.add (rotationsShift w1 7 18 3) w0))
        4294967296))
    (Nat.add (Nat.add (Nat.add h (rotations e 6 11 25)) (choose e f g)) (Nat.add k w0))

/-- The word of the state at `shift` with what the rounds made of it, after the
words packed in `high`. -/
def append (state high shift x : Nat) : Nat :=
  Nat.add (Nat.mul high 4294967296) (Nat.mod (Nat.add (wordAt state shift) x) 4294967296)

/-- The rounds of one block, each word of their result added to the state's. -/
def compress (state block : Nat) : Nat :=
  roundConstants.foldr round
    (fun a b c d e f g h _ _ _ _ _ _ _ _ _ _ _ _ _ _ _ _ =>
      append state (append state (append state (append state (append state (append state (append state
        (append state 0 224 a) 192 b) 160 c) 128 d) 96 e) 64 f) 32 g) 0 h)
    (wordAt state 224) (wordAt state 192) (wordAt state 160) (wordAt state 128)
    (wordAt state 96) (wordAt state 64) (wordAt state 32) (wordAt state 0)
    (wordAt block 480) (wordAt block 448) (wordAt block 416) (wordAt block 384)
    (wordAt block 352) (wordAt block 320) (wordAt block 288) (wordAt block 256)
    (wordAt block 224) (wordAt block 192) (wordAt block 160) (wordAt block 128)
    (wordAt block 96) (wordAt block 64) (wordAt block 32) (wordAt block 0)

/-- The last `n` blocks of a padded message. -/
def blocks : Nat → (state message : Nat) → Nat
  | 0, state, _ => state
  | n + 1, state, message =>
    force (compress state (Nat.mod (Nat.shiftRight message (Nat.mul 512 n)) (Nat.pow 2 512)))
      fun next => blocks n next message

/-- The message of `length` bytes that spell `value`, a one bit, zeros up to the last
eight bytes of a block, and the message's length in bits. -/
def pad (length value : Nat) : Nat :=
  Nat.add (Nat.mul (Nat.add (Nat.mul value 256) 128)
    (Nat.pow 2 (Nat.add (Nat.mul 8 (Nat.mod (Nat.sub 119 (Nat.mod length 64)) 64)) 64)))
    (Nat.mod (Nat.mul 8 length) (Nat.pow 2 64))

def digest (message : Bytes) : FixedBytes 32 :=
  force message.length fun length =>
  force (ofBe message) fun value =>
  force (blocks (Nat.div (Nat.add length 72) 64) initial (pad length value)) fun state =>
  ⟨be 32 state, be_length 32 state⟩

/-- The FIPS 180-4 example messages of one block and of two. -/
example : (digest [0x61, 0x62, 0x63]).bytes =
    be 32 0xba7816bf8f01cfea414140de5dae2223b00361a396177a9cb410ff61f20015ad := by
  decide +kernel

example : (digest ("abcdbcdecdefdefgefghfghighijhijkijkljklmklmnlmnomnopnopq".toUTF8.toList)).bytes =
    be 32 0x248d6a61d20638b8e5c026930c3e6039a33ce45964ff2167f6ecedd419db06c1 := by
  decide +kernel

end Sena.Sha256
