import Mathlib.Data.Set.Function
import Sena.CompilerProofs
import Sena.LabelledRuns

/-! State by the name of its slots.

The trie keys every record by a digest. As long as no two of the slots in
question share a key, a trie is a function from slots to contents, and applying
an instruction changes that function at one slot. -/
namespace Sena

/-- What a record is stored for. -/
inductive Slot where
  | account (address : L2Address)
  | social (identifier : Hash256)
  | asset (id : U32)
  | parameter (name : Utf8)
  | council
  | feeMarket
  | feeSplit
  | jwk (issHash jwkHash : FixedBytes 32)
deriving DecidableEq

namespace Slot

/-- The domain and the fields the slot's key is a digest of. -/
def fields : Slot → Domain × List Bytes
  | account address => (.account, [address.bytes])
  | social identifier => (.socialByIdentifier, [identifier.bytes])
  | asset id => (.asset, [be 8 id.val])
  | parameter name => (.parameter, [name.bytes])
  | council => (.council, [])
  | feeMarket => (.feeMarket, [])
  | feeSplit => (.feeSplit, [])
  | jwk issHash jwkHash => (.jwk, [issHash.bytes, jwkHash.bytes])

/-- The string whose digest is the slot's key. -/
def image (s : Slot) : Bytes := canonical s.fields.1 s.fields.2

def key (crypto : Crypto) (s : Slot) : Hash256 := crypto.sha256 s.image

/-- A parameter's name can be framed; nothing else names a slot at length. -/
def Fits : Slot → Prop
  | parameter name => Framable name.bytes
  | _ => True

theorem framable_fields {s : Slot} (fits : s.Fits) : ∀ b ∈ s.fields.2, Framable b := by
  cases s <;> simp only [fields, List.mem_cons, List.not_mem_nil, or_false, forall_eq_or_imp, forall_eq,
    false_imp_iff, implies_true]
  case parameter => exact fits
  all_goals first
    | exact FixedBytes.framable_of_le (by decide)
    | exact Codec.framable_be _ _ (by decide)
    | exact ⟨FixedBytes.framable_of_le (by decide), FixedBytes.framable_of_le (by decide)⟩

theorem fields_inj {s t : Slot} (same : s.fields = t.fields) : s = t := by
  cases s <;> cases t <;> simp_all [fields]
  case asset id id' =>
    exact Fin.ext ((be_inj (Nat.lt_trans id.isLt (by decide)) (Nat.lt_trans id'.isLt (by decide))).mp same)
  case parameter name name' =>
    cases name; cases name'
    simp_all

theorem image_inj {s t : Slot} (fits : s.Fits) (fits' : t.Fits) (same : s.image = t.image) : s = t := by
  obtain ⟨domains, contents⟩ := canonical_inj (framable_fields fits) (framable_fields fits') same
  exact fields_inj (Prod.ext domains contents)

/-- No two of these slots share a key. -/
def Apart (crypto : Crypto) (slots : Set Slot) : Prop := Set.InjOn (key crypto) slots

theorem apart_of_free {slots : Set Slot} (free : CollisionFree crypto.sha256 (image '' slots))
    (fits : ∀ s ∈ slots, s.Fits) : Apart crypto slots := by
  intro s inS t inT same
  have images := free.inj ⟨s, inS, rfl⟩ ⟨t, inT, rfl⟩ same
  exact image_inj (fits s inS) (fits t inT) images

end Slot

/-- The slot an instruction reads and writes. -/
def Instruction.on : Instruction → Slot
  | consumeNonce account _ | debit account _ _ | credit account _ _ => .account account
  | bindIdentifier identifier _ | unbindIdentifier identifier _ => .social identifier
  | verifyGasAsset asset _ _ | disableGasAsset asset => .asset asset
  | chargeBaseFee _ _ _ | setFeeMarket _ _ => .feeMarket
  | verifyFeeSplit _ | setFeeSplit _ => .feeSplit
  | setGasAsset record => .asset record.asset
  | verifyCouncil _ _ _ _ => .council
  | setParameter name _ => .parameter name
  | verifyJwk issHash jwkHash | setJwk issHash jwkHash _ => .jwk issHash jwkHash

theorem Instruction.slot_eq (i : Instruction) : i.slot crypto = i.on.key crypto := by cases i <;> rfl

theorem Instruction.on_fits {i : Instruction} (fits : i.Fits) : i.on.Fits := by
  cases i with
  | setParameter name value => exact fits
  | _ => trivial

/-- The encoder of what the instruction writes did not panic. -/
def Instruction.Encodable : Instruction → (written : Bytes) → Prop
  | consumeNonce _ _, written | debit _ _ _, written | credit _ _ _, written =>
    written.length < 12 + 20 * 2 ^ 32
  | _, _ => True

variable {crypto : Crypto} {trie trie' : MerkleTrie} {i : Instruction}

/-- State as what each slot holds. -/
abbrev Store := Slot → Option Bytes

/-- The trie, looked at slot by slot. -/
def MerkleTrie.bySlot (crypto : Crypto) (trie : MerkleTrie) : Store := fun s => trie.get (s.key crypto)

/-- One instruction on a store. -/
def Store.Steps (crypto : Crypto) (σ : Store) (i : Instruction) (σ' : Store) : Prop :=
  ∃ written, Execute.transition crypto i (σ i.on) = .ok written ∧ i.Encodable written ∧
    σ' = Function.update σ i.on (some written)

namespace Execute

/-- One instruction on a trie, executed without a panic. -/
def Steps (crypto : Crypto) (trie : MerkleTrie) (i : Instruction) (trie' : MerkleTrie) : Prop :=
  apply crypto trie i = .ok trie' ∧ panics crypto trie' i = false

theorem apply_eq_ok : apply crypto trie i = .ok trie' ↔
    ∃ written, transition crypto i (trie.bySlot crypto i.on) = .ok written ∧
      trie' = trie.insert crypto (i.on.key crypto) written := by
  simp only [apply, Move.bind_eq_ok, Move.pure_iff, Instruction.slot_eq, MerkleTrie.bySlot,
    eq_comm (b := trie')]

theorem panics_insert (i : Instruction) (written : Bytes) :
    panics crypto (trie.insert crypto (i.on.key crypto) written) i = false ↔ i.Encodable written := by
  have account : ∀ a : L2Address, ((trie.insert crypto (Slot.key crypto (.account a)) written).get
      (Keys.account crypto a)).any (12 + 20 * 2 ^ 32 ≤ ·.length) = false ↔ written.length < 12 + 20 * 2 ^ 32 := by
    intro a
    rw [show Keys.account crypto a = Slot.key crypto (.account a) from rfl, MerkleTrie.get_insert, if_pos rfl]
    simp
  cases i with
  | consumeNonce a _ => exact account a
  | debit a _ _ => exact account a
  | credit a _ _ => exact account a
  | _ => simp [panics, Instruction.Encodable]

theorem steps_iff : Steps crypto trie i trie' ↔
    ∃ written, transition crypto i (trie.bySlot crypto i.on) = .ok written ∧ i.Encodable written ∧
      trie' = trie.insert crypto (i.on.key crypto) written := by
  unfold Steps
  rw [apply_eq_ok]
  constructor
  · rintro ⟨⟨written, computed, rfl⟩, calm⟩
    exact ⟨written, computed, (panics_insert i written).mp calm, rfl⟩
  · rintro ⟨written, computed, encodable, rfl⟩
    exact ⟨⟨written, computed, rfl⟩, (panics_insert i written).mpr encodable⟩

end Execute

variable {slots : Set Slot} {σ σ' : Store}

theorem MerkleTrie.bySlot_insert (apart : Slot.Apart crypto slots) (inSlots : s ∈ slots)
    (same : Set.EqOn (trie.bySlot crypto) σ slots) (written : Bytes) :
    Set.EqOn ((trie.insert crypto (s.key crypto) written).bySlot crypto) (Function.update σ s (some written))
      slots := by
  intro t inT
  unfold MerkleTrie.bySlot
  rw [MerkleTrie.get_insert]
  by_cases here : t = s
  · subst here
    simp
  · rw [Function.update_of_ne here, if_neg fun keys => here (apart inT inSlots keys.symm)]
    exact same inT

section
variable (apart : Slot.Apart crypto slots) (inSlots : i.on ∈ slots) (same : Set.EqOn (trie.bySlot crypto) σ slots)
include apart inSlots same

theorem Store.steps_of_trie (stepped : Execute.Steps crypto trie i trie') :
    ∃ σ', σ.Steps crypto i σ' ∧ Set.EqOn (trie'.bySlot crypto) σ' slots := by
  obtain ⟨written, computed, encodable, rfl⟩ := Execute.steps_iff.mp stepped
  rw [same inSlots] at computed
  exact ⟨_, ⟨written, computed, encodable, rfl⟩, MerkleTrie.bySlot_insert apart inSlots same written⟩

theorem Store.trie_of_steps (stepped : σ.Steps crypto i σ') :
    ∃ trie', Execute.Steps crypto trie i trie' ∧ Set.EqOn (trie'.bySlot crypto) σ' slots := by
  obtain ⟨written, computed, encodable, rfl⟩ := stepped
  rw [← same inSlots] at computed
  exact ⟨_, Execute.steps_iff.mpr ⟨written, computed, encodable, rfl⟩,
    MerkleTrie.bySlot_insert apart inSlots same written⟩

end

end Sena
