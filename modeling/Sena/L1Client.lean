import Mathlib.Data.List.TakeWhile
import Sena.Disputes

/-! The client's side of L1: what a fullnode answers to a view, and how the
client reads it.

Byte vectors arrive as `0x` hex, 64- and 128-bit integers as decimal strings,
small integers as numbers. The client reads each field back at the width its own
type has, and a field that does not fit is an error of the whole answer. -/
namespace Sena

namespace L1Client

abbrev Text := List Char

/-- A JSON value, as far as views return any. -/
inductive Value where
  | null
  | bool (value : Bool)
  | number (value : Nat)
  | string (text : Text)
  | array (items : List Value)

/-- What the client did not understand. -/
inductive Malformed where
  | notString | notHex | expected32Bytes | notNumber | notBool | notArray
  | recordFields (count : Nat) | disputeFields (count : Nat)
  | status | stage | turn | count | assertionAt | keylessSetup | feeRecipient
deriving DecidableEq

inductive L1Error where
  | rejected (abort : Abort)
  | malformed (what : Malformed)
deriving DecidableEq

def hexByte (byte : UInt8) : Text := [(byte.toNat / 16).digitChar, (byte.toNat % 16).digitChar]

def hexEncode (b : Bytes) : Text := b.flatMap hexByte

namespace Value

def ofBytes (b : Bytes) : Value := string ('0' :: 'x' :: hexEncode b)
def ofAddress (a : Address) : Value := ofBytes a.bytes
/-- 64- and 128-bit integers. -/
def ofInteger (n : Nat) : Value := string (Nat.toDigits 10 n)
def ofU8 (n : UInt8) : Value := number n.toNat

end Value

def stageCode : Disputes.Stage → UInt8
  | .bisecting => 0
  | .oneStep => 1
  | .resolved => 2

def turnCode : Disputes.Party → UInt8
  | .defender => 0
  | .challenger => 1

/-- `assertions::record`. -/
def recordView (r : Assertions.Assertion) : List Value :=
  [.ofBytes r.parent, .ofAddress r.proposer, .ofBytes r.preStateRoot, .ofBytes r.postStateRoot,
    .ofInteger r.timestamp.val, .ofInteger r.txCount, .ofBytes r.txRoot, .ofInteger r.traceLength.val,
    .ofInteger r.bond.val, .ofInteger r.postedAt.val, .ofU8 r.status.code]

/-- `disputes::dispute_state`; a game nobody opened reads as all zeros. -/
def disputeStateView : Option Disputes.Dispute → List Value
  | none =>
    [.bool false, .ofU8 0, .ofU8 0, .ofInteger 0, .ofInteger 0, .bool false, .array [], .ofInteger 0]
  | some d =>
    [.bool true, .ofU8 (stageCode d.stage), .ofU8 (turnCode d.turn), .ofInteger d.lo.val,
      .ofInteger d.hi.val, .bool d.hasOffer, .array (d.offered.map .ofBytes),
      .ofInteger d.deadline.val]

def challengersView (c : Assertions.Chain) (id : Bytes) : List Value :=
  [.array ((Assertions.challengers c id).map .ofAddress)]

def assertionCountView (c : Assertions.Chain) : List Value := [.ofInteger c.order.length]

def assertionAtView (c : Assertions.Chain) (index : Nat) : Move (List Value) := do
  let id ← Assertions.assertionAt c index
  return [.ofBytes id]

def hexValue (c : Char) : Option Nat :=
  if '0' ≤ c ∧ c ≤ '9' then some (c.toNat - '0'.toNat)
  else if 'a' ≤ c ∧ c ≤ 'f' then some (c.toNat - 'a'.toNat + 10)
  else if 'A' ≤ c ∧ c ≤ 'F' then some (c.toNat - 'A'.toNat + 10)
  else none

/-- `hex::decode`: two digits a byte. -/
def hexDecode : Text → Option Bytes
  | [] => some []
  | [_] => none
  | high :: low :: rest => do
    let h ← hexValue high
    let l ← hexValue low
    let bytes ← hexDecode rest
    return UInt8.ofNat (h * 16 + l) :: bytes

def asStr : Value → Except L1Error Text
  | .string text => .ok text
  | _ => .error (.malformed .notString)

def strip0x : Text → Text
  | '0' :: 'x' :: rest => rest
  | text => text

/-- `bytes_of`. -/
def bytesOf (v : Value) : Except L1Error Bytes := do
  let text ← asStr v
  match hexDecode (strip0x text) with
  | some bytes => return bytes
  | none => throw (.malformed .notHex)

/-- `hash_of`: exactly 32 bytes. -/
def hashOf (v : Value) : Except L1Error Hash256 := do
  let bytes ← bytesOf v
  match FixedBytes.ofBytes? 32 bytes with
  | some hash => return hash
  | none => throw (.malformed .expected32Bytes)

def dropPlus : Text → Text
  | '+' :: rest => rest
  | text => text

/-- `str::parse::<u128>`: one optional plus sign, then digits. -/
def parseU128 (text : Text) : Option U128 :=
  if dropPlus text = [] ∨ (dropPlus text).all Char.isDigit = false then none
  else if small : Nat.ofDigitChars 10 (dropPlus text) 0 < 2 ^ 128 then some ⟨_, small⟩ else none

/-- A JSON number counts if it fits 64 bits. -/
def u128Of : Value → Except L1Error U128
  | .string text =>
    match parseU128 text with
    | some n => .ok n
    | none => .error (.malformed .notNumber)
  | .number n =>
    if small : n < 2 ^ 64 then .ok ⟨n, Nat.lt_trans small (by decide)⟩
    else .error (.malformed .notNumber)
  | _ => .error (.malformed .notNumber)

/-- `u64_of`: a number, or a string of digits. -/
def u64Of (v : Value) : Except L1Error U64 := do
  let n ← u128Of v
  if small : n.val < 2 ^ 64 then return ⟨n.val, small⟩ else throw (.malformed .notNumber)

/-- The one-byte fields, each with its own complaint. -/
def u8Of (v : Value) (complaint : Malformed) : Except L1Error UInt8 := do
  let n ← u64Of v
  if n.val < 256 then return UInt8.ofNat n.val else throw (.malformed complaint)

/-- `bool_of`. -/
def boolOf : Value → Except L1Error Bool
  | .bool value => .ok value
  | _ => .error (.malformed .notBool)

/-- An assertion as the client sees it. -/
structure Record where
  parent : Bytes
  proposer : Text
  preStateRoot : Hash256
  postStateRoot : Hash256
  timestamp : U64
  txCount : U64
  txRoot : Hash256
  traceLength : U64
  bond : U128
  postedAt : U64
  status : UInt8
deriving DecidableEq

def status.FINALIZED : UInt8 := 2
def status.REJECTED : UInt8 := 3

/-- `parse_record`: the answer of the `record_view` of an assertion. -/
def parseRecord : List Value → Except L1Error Record
  | [parent, proposer, pre, post, timestamp, txCount, txRoot, traceLength, bond, postedAt, status] => do
    let parent ← bytesOf parent
    let proposer ← asStr proposer
    let preStateRoot ← hashOf pre
    let postStateRoot ← hashOf post
    let timestamp ← u64Of timestamp
    let txCount ← u64Of txCount
    let txRoot ← hashOf txRoot
    let traceLength ← u64Of traceLength
    let bond ← u128Of bond
    let postedAt ← u64Of postedAt
    let status ← u8Of status .status
    return {
      parent, proposer, preStateRoot, postStateRoot, timestamp, txCount, txRoot, traceLength, bond,
      postedAt, status }
  | fields => .error (.malformed (.recordFields fields.length))

/-- A game as the client sees it. -/
structure DisputeState where
  doesExist : Bool
  stage : UInt8
  turn : UInt8
  lo : U64
  hi : U64
  hasOffer : Bool
  offered : List Hash256
  deadline : U64
deriving DecidableEq

/-- The offer, as `parse_dispute` reads it. -/
def hashesOf : Value → Except L1Error (List Hash256)
  | .array items => items.mapM hashOf
  | _ => .error (.malformed .notArray)

/-- `parse_dispute`: refuses an offer that is not all hashes. -/
def parseDispute : List Value → Except L1Error DisputeState
  | [opened, stage, turn, lo, hi, hasOffer, offered, deadline] => do
    let offered ← hashesOf offered
    let doesExist ← boolOf opened
    let stage ← u8Of stage .stage
    let turn ← u8Of turn .turn
    let lo ← u64Of lo
    let hi ← u64Of hi
    let hasOffer ← boolOf hasOffer
    let deadline ← u64Of deadline
    return { doesExist, stage, turn, lo, hi, hasOffer, offered, deadline }
  | fields => .error (.malformed (.disputeFields fields.length))

/-- The batch an assertion published, with the recipient as an address. -/
structure PublishedBatch where
  assertion : Bytes
  timestamp : U64
  baseFee : U128
  feeRecipient : L2Address
  txBytes : List Bytes
  txStarts : List U64
deriving DecidableEq

def parseBatchEvent (event : Assertions.BatchPublished) : Except L1Error PublishedBatch :=
  match FixedBytes.ofBytes? 32 event.feeRecipient with
  | none => .error (.malformed .feeRecipient)
  | some feeRecipient =>
    .ok ⟨event.assertion, event.timestamp, event.baseFee, feeRecipient, event.txBytes, event.txStarts⟩

/-- The batch data published for an assertion, if it is found. -/
def publishedBatch (c : Assertions.Chain) (assertion : Bytes) : Except L1Error (Option PublishedBatch) :=
  match c.published.find? (·.assertion = assertion) with
  | none => .ok none
  | some event => some <$> parseBatchEvent event

/-- Drops every leading `0x`, as `trim_start_matches` does. -/
def trim0x : Text → Text
  | '0' :: 'x' :: rest => trim0x rest
  | text => text

/-- `norm`, by which addresses compare. -/
def normAddress (text : Text) : Text := ((trim0x text).dropWhile (· = '0')).map Char.toLower

/-- Compares addresses, tolerating leading zeros. -/
def sameAddress (a b : Text) : Bool := normAddress a = normAddress b

/-- An address as the client spells its own. -/
def addressText (a : Address) : Text := '0' :: 'x' :: hexEncode a.bytes

/-- Whether an answer to `challengers` lists the address. -/
def listsAddress (answer : List Value) (who : Address) : Bool :=
  match answer with
  | .array items :: _ => items.any fun
    | .string text => sameAddress text (addressText who)
    | _ => false
  | _ => false

/-- `assertions::assertion_id`; the proposer tag is always zero on L1. -/
def assertionId (crypto : Crypto) (parent pre post batchCommitment : Hash256) (traceLength : U64)
    (bond : U128) : Hash256 :=
  crypto.commit .assertion [parent.bytes, be 8 0, pre.bytes, post.bytes, batchCommitment.bytes,
    be 8 traceLength.val, be 16 bond.val]

/-- `genesis_id`. -/
def genesisId (crypto : Crypto) (genesisRoot : Hash256) : Hash256 :=
  assertionId crypto Hash256.zero Hash256.zero genesisRoot Hash256.zero 0 0

theorem hexValue_digitChar (small : n < 16) : hexValue n.digitChar = some n := by
  have all : ∀ n : Fin 16, hexValue n.val.digitChar = some n.val := by decide
  exact all ⟨n, small⟩

theorem hexDecode_hexEncode (b : Bytes) : hexDecode (hexEncode b) = some b := by
  induction b with
  | nil => rfl
  | cons byte rest ih =>
    have bound := byte.toNat_lt
    have whole : byte.toNat / 16 * 16 + byte.toNat % 16 = byte.toNat := by omega
    simp only [hexEncode, List.flatMap_cons, hexByte, List.cons_append, List.nil_append]
    rw [hexDecode, hexValue_digitChar (by omega), hexValue_digitChar (by omega)]
    change (hexDecode (hexEncode rest)).bind _ = _
    rw [ih]
    simp [whole]

@[simp] theorem bytesOf_ofBytes (b : Bytes) : bytesOf (.ofBytes b) = .ok b := by
  change (match hexDecode (hexEncode b) with
    | some bytes => pure bytes
    | none => throw (.malformed .notHex) : Except L1Error Bytes) = _
  rw [hexDecode_hexEncode]
  rfl

@[simp] theorem asStr_ofAddress (a : Address) : asStr (.ofAddress a) = .ok (addressText a) := rfl

theorem hashOf_ofBytes (b : Bytes) : hashOf (.ofBytes b) = match FixedBytes.ofBytes? 32 b with
    | some hash => .ok hash
    | none => .error (.malformed .expected32Bytes) := by
  rw [hashOf, bytesOf_ofBytes, Move.ok_bind]
  cases FixedBytes.ofBytes? 32 b <;> rfl

theorem hashOf_ofBytes_eq_ok {b : Bytes} : hashOf (.ofBytes b) = .ok h ↔ h.bytes = b := by
  rw [hashOf_ofBytes, ← FixedBytes.ofBytes?_eq_some]
  cases FixedBytes.ofBytes? 32 b <;> simp

theorem parseU128_eq_some {text : Text} (proper : text ≠ []) (digits : text.all Char.isDigit = true)
    (value : Nat.ofDigitChars 10 text 0 = n) : parseU128 text = some m ↔ m.val = n := by
  have unsigned : dropPlus text = text := by
    unfold dropPlus
    split
    · exact absurd (List.all_eq_true.mp digits '+' List.mem_cons_self) (by decide)
    · rfl
  have proper : ¬ (text = [] ∨ text.all Char.isDigit = false) := by simp [proper, digits]
  rw [parseU128, unsigned, if_neg proper]
  split
  · simp [Fin.ext_iff, value, eq_comm]
  · rename_i large
    simp only [reduceCtorEq, false_iff]
    rintro rfl
    exact large (value ▸ m.isLt)

theorem u128Of_ofInteger_eq_ok : u128Of (.ofInteger n) = .ok m ↔ m.val = n := by
  have digits : (Nat.toDigits 10 n).all Char.isDigit = true :=
    List.all_eq_true.mpr fun c member => Nat.isDigit_of_mem_toDigits (by decide) (by decide) member
  rw [Value.ofInteger, u128Of,
    ← parseU128_eq_some Nat.toDigits_ne_nil digits Nat.ofDigitChars_ten_toDigits]
  cases parseU128 (Nat.toDigits 10 n) <;> simp

@[simp] theorem u128Of_ofInteger (n : U128) : u128Of (.ofInteger n.val) = .ok n :=
  u128Of_ofInteger_eq_ok.mpr rfl

theorem u64Of_ofInteger_eq_ok : u64Of (.ofInteger n) = .ok m ↔ m.val = n := by
  rw [u64Of, Move.bind_eq_ok]
  constructor
  · rintro ⟨wide, read, narrowed⟩
    split at narrowed
    · cases narrowed
      exact u128Of_ofInteger_eq_ok.mp read
    · cases narrowed
  · rintro rfl
    have wide : m.val < 2 ^ 128 := Nat.lt_trans m.isLt (by decide)
    exact ⟨⟨m.val, wide⟩, u128Of_ofInteger_eq_ok.mpr rfl, dif_pos m.isLt⟩

@[simp] theorem u64Of_ofInteger (n : U64) : u64Of (.ofInteger n.val) = .ok n :=
  u64Of_ofInteger_eq_ok.mpr rfl

@[simp] theorem u8Of_ofU8 (n : UInt8) (complaint : Malformed) : u8Of (.ofU8 n) complaint = .ok n := by
  have bound := n.toNat_lt
  have wide : n.toNat < 2 ^ 64 := by omega
  have read : u64Of (.ofU8 n) = .ok ⟨n.toNat, wide⟩ := by
    rw [u64Of, Value.ofU8, u128Of, dif_pos wide, Move.ok_bind, dif_pos wide]
    rfl
  rw [u8Of, read, Move.ok_bind, if_pos bound, UInt8.ofNat_toNat]
  rfl

/-- What the client makes of a record all of whose roots are digests. -/
def Record.of (r : Assertions.Assertion) (pre post txRoot : Hash256) (txCount : U64) : Record where
  parent := r.parent
  proposer := addressText r.proposer
  preStateRoot := pre
  postStateRoot := post
  timestamp := r.timestamp
  txCount := txCount
  txRoot := txRoot
  traceLength := r.traceLength
  bond := r.bond
  postedAt := r.postedAt
  status := r.status.code

/-- A record is read exactly if its roots are digests, and then as it stands. -/
theorem parseRecord_eq_ok {r : Assertions.Assertion} : parseRecord (recordView r) = .ok rec ↔
    ∃ pre post txRoot txCount, pre.bytes = r.preStateRoot ∧ post.bytes = r.postStateRoot ∧
      txRoot.bytes = r.txRoot ∧ txCount.val = r.txCount ∧ rec = .of r pre post txRoot txCount := by
  simp only [parseRecord, recordView, bytesOf_ofBytes, asStr_ofAddress, u64Of_ofInteger,
    u128Of_ofInteger, u8Of_ofU8, Move.ok_bind, Move.bind_eq_ok, hashOf_ofBytes_eq_ok,
    u64Of_ofInteger_eq_ok, Move.pure_iff]
  constructor
  · rintro ⟨pre, atPre, post, atPost, txCount, atCount, txRoot, atRoot, same⟩
    exact ⟨pre, post, txRoot, txCount, atPre, atPost, atRoot, atCount, same.symm⟩
  · rintro ⟨pre, post, txRoot, txCount, atPre, atPost, atRoot, atCount, same⟩
    exact ⟨pre, atPre, post, atPost, txCount, atCount, txRoot, atRoot, same.symm⟩

theorem hashesOf_ofBytes_eq_ok {items : List Bytes} :
    hashesOf (.array (items.map .ofBytes)) = .ok hashes ↔ hashes.map (·.bytes) = items := by
  rw [hashesOf]
  induction items generalizing hashes with
  | nil =>
    rw [List.map_nil, List.mapM_nil, Move.pure_iff, List.map_eq_nil_iff, eq_comm]
  | cons b items ih =>
    rw [List.map_cons, List.mapM_cons, Move.bind_eq_ok]
    constructor
    · rintro ⟨h, first, others⟩
      obtain ⟨hs, rest, same⟩ := Move.bind_eq_ok.mp others
      cases same
      rw [List.map_cons, hashOf_ofBytes_eq_ok.mp first, ih.mp rest]
    · intro same
      cases hashes with
      | nil => cases same
      | cons h hs =>
        obtain ⟨first, rest⟩ := List.cons.inj same
        refine ⟨h, hashOf_ofBytes_eq_ok.mpr first, ?_⟩
        rw [ih.mpr rest]
        rfl

/-- What the client makes of a game whose offer is all digests. -/
def DisputeState.of (d : Disputes.Dispute) (offered : List Hash256) : DisputeState where
  doesExist := true
  stage := stageCode d.stage
  turn := turnCode d.turn
  lo := d.lo
  hi := d.hi
  hasOffer := d.hasOffer
  offered := offered
  deadline := d.deadline

theorem parseDispute_eq_ok {d : Disputes.Dispute} : parseDispute (disputeStateView (some d)) = .ok state ↔
      ∃ offered, offered.map (·.bytes) = d.offered ∧ state = .of d offered := by
  simp only [parseDispute, disputeStateView, boolOf, u8Of_ofU8, u64Of_ofInteger, Move.ok_bind,
    Move.bind_eq_ok, hashesOf_ofBytes_eq_ok, Move.pure_iff]
  exact exists_congr fun offered => and_congr_right fun _ => eq_comm

/-! Addresses of one length differ in more than leading zeros. -/

theorem digitChar_ne_x (small : n < 16) : n.digitChar ≠ 'x' := by
  have all : ∀ n : Fin 16, n.val.digitChar ≠ 'x' := by decide
  exact all ⟨n, small⟩

theorem toLower_digitChar (small : n < 16) : n.digitChar.toLower = n.digitChar := by
  have all : ∀ n : Fin 16, n.val.digitChar.toLower = n.val.digitChar := by decide
  exact all ⟨n, small⟩

theorem digit_of_mem_hexEncode (member : c ∈ hexEncode b) : ∃ n < 16, c = n.digitChar := by
  obtain ⟨byte, -, inByte⟩ := List.mem_flatMap.mp member
  have bound := byte.toNat_lt
  simp only [hexByte, List.mem_cons, List.not_mem_nil, or_false] at inByte
  rcases inByte with rfl | rfl
  · exact ⟨_, by omega, rfl⟩
  · exact ⟨_, by omega, rfl⟩

theorem hexEncode_inj (same : hexEncode a = hexEncode b) : a = b := by
  have decoded := congrArg hexDecode same
  simpa only [hexDecode_hexEncode, Option.some.injEq] using decoded

theorem hexEncode_length (b : Bytes) : (hexEncode b).length = 2 * b.length := by
  induction b with
  | nil => rfl
  | cons byte rest ih =>
    simp only [hexEncode, List.flatMap_cons, List.length_append, List.length_cons] at ih ⊢
    rw [ih]
    simp only [hexByte, List.length_cons, List.length_nil]
    omega

theorem normAddress_addressText (a : Address) :
    normAddress (addressText a) = (hexEncode a.bytes).dropWhile (· = '0') := by
  have digits := fun c member => digit_of_mem_hexEncode (c := c) (b := a.bytes) member
  rw [addressText, normAddress, trim0x]
  have trimmed : trim0x (hexEncode a.bytes) = hexEncode a.bytes := by
    generalize hexEncode a.bytes = text at digits
    unfold trim0x
    split
    · obtain ⟨n, small, wrong⟩ := digits 'x' (by simp)
      exact absurd wrong.symm (digitChar_ne_x small)
    · rfl
  rw [trimmed]
  refine (List.map_congr_left fun c member => ?_).trans (List.map_id _)
  obtain ⟨n, small, rfl⟩ := digits c (List.dropWhile_subset _ member)
  exact toLower_digitChar small

theorem eq_of_dropWhile_eq {xs ys : Text} (lengths : xs.length = ys.length)
    (same : xs.dropWhile (· = '0') = ys.dropWhile (· = '0')) : xs = ys := by
  have zeros : ∀ text : Text, text.takeWhile (· = '0') =
      List.replicate (text.length - (text.dropWhile (· = '0')).length) '0' := by
    intro text
    have parts := congrArg List.length (List.takeWhile_append_dropWhile (p := (· = '0')) (l := text))
    rw [List.length_append] at parts
    rw [List.eq_replicate_iff]
    refine ⟨by omega, fun c member => ?_⟩
    simpa using List.mem_takeWhile_imp member
  rw [← List.takeWhile_append_dropWhile (p := (· = '0')) (l := xs),
    ← List.takeWhile_append_dropWhile (p := (· = '0')) (l := ys), zeros xs, zeros ys, same, lengths]

theorem sameAddress_iff (a b : Address) : sameAddress (addressText a) (addressText b) = true ↔ a = b := by
  rw [sameAddress, decide_eq_true_eq, normAddress_addressText, normAddress_addressText]
  constructor
  · intro same
    have lengths : (hexEncode a.bytes).length = (hexEncode b.bytes).length := by
      simp only [hexEncode_length, FixedBytes.bytes_length]
    exact FixedBytes.ext (hexEncode_inj (eq_of_dropWhile_eq lengths same))
  · rintro rfl
    rfl

theorem listsAddress_challengersView (c : Assertions.Chain) (id : Bytes) (who : Address) :
    listsAddress (challengersView c id) who = true ↔ who ∈ Assertions.challengers c id := by
  simp only [listsAddress, challengersView, List.any_map, List.any_eq_true, Function.comp_apply]
  constructor
  · rintro ⟨other, member, same⟩
    rwa [← (sameAddress_iff other who).mp same]
  · intro member
    exact ⟨who, member, (sameAddress_iff who who).mpr rfl⟩

end L1Client
end Sena
