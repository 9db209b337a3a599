import Sena.StepProofs
import Sena.TrieHistory

/-! One step, checked without the state.

Against the root of a trie only the trie's own witness is accepted, and with it a
step checked in isolation is the step applied to the trie: the same root, or the
same refusal. -/
namespace Sena

theorem MerkleTrie.Built.run_steps
    (built : MerkleTrie.Built crypto trie) (ran : Run (Execute.Steps crypto) trie is reached) :
    MerkleTrie.Built crypto reached := by
  refine ran.invariant (MerkleTrie.Built crypto) (fun _ i _ _ built stepped => ?_) built
  obtain ⟨written, _, rfl⟩ := Execute.apply_eq_ok.mp stepped.1
  exact .insert _ _ built

namespace Execute

variable {crypto : Crypto} {trie : MerkleTrie} {tree : Tree} {i : Instruction}

/-- The slot an instruction touches, as the trie holds and proves it. -/
def witnessFor (crypto : Crypto) (trie : MerkleTrie) (i : Instruction) : StepWitness :=
  ⟨i.slot crypto, trie.get (i.slot crypto), trie.prove (i.slot crypto)⟩

/-- The strings hashed for the trie, for a witness and for the two values of the
slot they speak of. -/
def stepImages (crypto : Crypto) (trie : MerkleTrie) (i : Instruction) (witness : StepWitness) : Set Bytes :=
  MerkleTrie.images trie.nodes ∪ MerkleTrie.proofImages crypto witness.proof witness.slot ∪
    {b | trie.get (i.slot crypto) = some b ∨ witness.value = some b}

/-- The same for a trie's own witness, as a list that can be checked. -/
def stepList (crypto : Crypto) (trie : MerkleTrie) (i : Instruction) : List Bytes :=
  MerkleTrie.imageList trie.nodes ++
    (((trieScheme crypto).climbNodes 0 (i.slot crypto) (trie.prove (i.slot crypto)).siblings
      (trie.prove (i.slot crypto)).terminal).map Node.image ++ (trie.get (i.slot crypto)).toList)

theorem stepImages_subset :
    stepImages crypto trie i (witnessFor crypto trie i) ⊆ {b | b ∈ stepList crypto trie i} := by
  rintro b ((stored | ⟨n, path, rfl⟩) | held)
  · exact List.mem_append_left _ (MerkleTrie.mem_imageList stored)
  · exact List.mem_append_right _ (List.mem_append_left _ (List.mem_map.mpr ⟨n, path, rfl⟩))
  · exact List.mem_append_right _ (List.mem_append_right _ (Option.mem_toList.mpr ((or_self _).mp held)))

section
variable (repr : MerkleTrie.Represents crypto trie tree)
include repr

/-- A witness cannot be chosen. -/
theorem shows_iff (free : CollisionFree crypto.sha256 (stepImages crypto trie i witness)) :
    Shows crypto trie.root i witness ↔ witness = witnessFor crypto trie i := by
  have freeTrie : MerkleTrie.Free crypto trie := free.mono fun b member => .inl (.inl member)
  obtain ⟨slot, value, proof⟩ := witness
  have reaches : proof.Reaches crypto slot trie.root ↔ proof = _ := repr.reaches_iff free
    (fun b member => .inl (.inl member)) (fun b member => .inl (.inr member))
  have drawn := repr.prove_eq freeTrie (i.slot crypto)
  constructor
  · rintro ⟨same, reached, contents⟩
    obtain rfl : slot = i.slot crypto := same
    obtain rfl := reaches.mp reached
    have held : value = trie.get (i.slot crypto) := by
      cases value with
      | none => exact (repr.get_eq_none_iff.mp contents).symm
      | some b => exact ((repr.get_eq_some_iff free (fun b' found => .inr (.inl found)) (.inr (.inr rfl))).mp
          contents).symm
    rw [witnessFor, held, drawn]
  · intro honest
    obtain ⟨rfl, rfl, rfl⟩ := StepWitness.mk.inj honest
    refine ⟨rfl, reaches.mpr drawn, ?_⟩
    simp only [drawn]
    cases found : trie.get (i.slot crypto) with
    | none => exact repr.get_eq_none_iff.mpr found
    | some b => exact (repr.terminal_eq_leaf_iff _ _).mpr (by rw [found]; rfl)

theorem updatedRoot_prove (free : MerkleTrie.Free crypto trie)
    (key : Hash256) (value : Bytes) : (trie.prove key).updatedRoot crypto key (crypto.sha256 value) =
      (trie.insert crypto key value).root := by
  have written : _ = (trieScheme crypto).root ((trieScheme crypto).insert 0 key (crypto.sha256 value) tree) :=
    (trieScheme crypto).climb_updated
  rw [(repr.insert free key value).root_eq, ← written, repr.prove_eq free key, MerkleProof.updatedRoot, Nat.zero_add]

theorem verifyStep_witnessFor
    (free : CollisionFree crypto.sha256 (stepImages crypto trie i (witnessFor crypto trie i))) {pc : U64}
    (early : pc.val < 2 ^ 64 - 1) : verifyStep crypto ⟨trie.root, pc⟩ i (witnessFor crypto trie i) =
      (apply crypto trie i).map fun trie' => ⟨trie'.root, pc + 1⟩ := by
  have freeTrie : MerkleTrie.Free crypto trie := free.mono fun b member => .inl (.inl member)
  have counter : (⟨min (pc.val + 1) (2 ^ 64 - 1), by omega⟩ : U64) = pc + 1 := by
    rw [Fin.ext_iff, Fin.val_add_eq_of_add_lt (by simpa using (by omega : pc.val + 1 < 2 ^ 64))]
    exact Nat.min_eq_left (by omega)
  have reached : ∀ updated, after crypto ⟨trie.root, pc⟩ (witnessFor crypto trie i) updated =
      ⟨(trie.insert crypto (i.slot crypto) updated).root, pc + 1⟩ := by
    intro updated
    rw [after, ← counter, ← updatedRoot_prove repr freeTrie]
    rfl
  rw [verifyStep_of_shows ((shows_iff repr free).mpr rfl), apply]
  change (transition crypto i (trie.get (i.slot crypto))).map _ = _
  cases transition crypto i (trie.get (i.slot crypto)) with
  | error e => rfl
  | ok updated => simpa [Except.map] using reached updated

theorem verifyStep_of_other (free : CollisionFree crypto.sha256 (stepImages crypto trie i other))
    (stepped : verifyStep crypto ⟨trie.root, pc⟩ i other = result)
    (faultless : ∀ e, result = .error e → e.isWitnessFault = false) :
    verifyStep crypto ⟨trie.root, pc⟩ i (witnessFor crypto trie i) = result := by
  let pre : MachineState := ⟨trie.root, pc⟩
  by_cases shown : Shows crypto pre.stateRoot i other
  · rw [← (shows_iff repr free).mp shown]
    exact stepped
  · obtain ⟨e, refused, fault⟩ := verifyStep_of_not_shows shown
    have := faultless e (stepped.symm.trans refused)
    simp [fault] at this

end

/-- One-step verification is execution. With the trie's own witness a step gives
the state the trie reaches, or the error applying it gives; any other witness
that is not refused as such gives the same. -/
theorem verifyStep_is_apply (built : MerkleTrie.Built crypto trie) (i : Instruction) (pc : U64)
    (early : pc.val < 2 ^ 64 - 1) (other : StepWitness)
    (free : CollisionFree crypto.sha256 (stepImages crypto trie i (witnessFor crypto trie i) ∪
      stepImages crypto trie i other)) :
    let pre : MachineState := ⟨trie.root, pc⟩
    (∀ post, verifyStep crypto pre i (witnessFor crypto trie i) = .ok post ↔
        ∃ trie', apply crypto trie i = .ok trie' ∧ post = ⟨trie'.root, pc + 1⟩) ∧
      (∀ e, verifyStep crypto pre i (witnessFor crypto trie i) = .error e ↔ apply crypto trie i = .error e) ∧
      (∀ post, verifyStep crypto pre i other = .ok post →
        ∃ trie', apply crypto trie i = .ok trie' ∧ post = ⟨trie'.root, pc + 1⟩) ∧
      ∀ e, verifyStep crypto pre i other = .error e → e.isWitnessFault = false →
        apply crypto trie i = .error e := by
  intro pre
  obtain ⟨tree, repr⟩ := built.represents (free.mono fun b member => .inl (.inl (.inl member)))
  have honest := verifyStep_witnessFor repr (free.mono fun b member => .inl member) early
  have freeOther := free.mono fun b (member : b ∈ stepImages crypto trie i other) => .inr member
  have done : ∀ post, verifyStep crypto pre i (witnessFor crypto trie i) = .ok post ↔
      ∃ trie', apply crypto trie i = .ok trie' ∧ post = ⟨trie'.root, pc + 1⟩ := by
    intro post
    rw [honest]
    cases apply crypto trie i with
    | error e => simp [Except.map]
    | ok trie' => simp [Except.map, eq_comm]
  have refused : ∀ e, verifyStep crypto pre i (witnessFor crypto trie i) = .error e ↔
      apply crypto trie i = .error e := by
    intro e
    rw [honest]
    cases apply crypto trie i with
    | error e' => simp [Except.map]
    | ok trie' => simp [Except.map]
  refine ⟨done, refused, fun post stepped => ?_, fun e stepped faultless => ?_⟩
  · exact (done post).mp (verifyStep_of_other repr freeOther stepped fun e failed => by cases failed)
  · exact (refused e).mp (verifyStep_of_other repr freeOther stepped fun e' failed => by
      cases failed
      exact faultless)

def holdStep : Instruction := .debit Payment.payer 1 1025

/-- The hold of a payment, checked without the state and applied to it. -/
theorem hold_checked_is_hold_applied : ∃ trie',
    apply Payment.crypto Osp.payerTrie holdStep = .ok trie' ∧
      verifyStep Payment.crypto ⟨Osp.payerTrie.root, 3⟩ holdStep (witnessFor Payment.crypto Osp.payerTrie holdStep) =
        .ok ⟨trie'.root, 4⟩ := by
  have free : CollisionFree Payment.crypto.sha256 {b | b ∈ stepList Payment.crypto Osp.payerTrie holdStep} := by
    decide +kernel
  obtain ⟨trie', applied⟩ : ∃ trie', apply Payment.crypto Osp.payerTrie holdStep = .ok trie' := by
    decide +kernel
  exact ⟨trie', applied, ((verifyStep_is_apply (.insert _ _ (.insert _ _ .new)) holdStep 3 (by decide)
    (witnessFor Payment.crypto Osp.payerTrie holdStep)
    ((free.mono stepImages_subset).mono fun b member => (or_self _).mp member)).1 _).mpr ⟨trie', applied, rfl⟩⟩

end Execute
end Sena
