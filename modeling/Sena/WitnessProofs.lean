import Sena.Proof
import Sena.TrieVerifierProofs

/-! What a proof has to satisfy, for the node and for the contract alike.

Both check a proof by the same three conditions: its path is no longer than a
key, a leaf at its end lies on the path, and folding it up gives the root. What
either accepts against the root of a tree is the proof drawn from that tree, so
a witness cannot be chosen. -/
namespace Sena

open Move

namespace MerkleProof

variable {crypto : Crypto} {proof : MerkleProof} {key root : Hash256}

/-- A leaf at the end of the path agrees with the key along it. -/
def OnPath (proof : MerkleProof) (key : Hash256) : Prop :=
  ∀ leafKey value, proof.terminal = .leaf leafKey value →
    ∀ i < proof.siblings.length, leafKey.bit i = key.bit i

/-- The proof folds up to this root along the key's path. -/
structure Reaches (crypto : Crypto) (proof : MerkleProof) (key root : Hash256) : Prop where
  short : proof.siblings.length ≤ MAX_DEPTH
  onPath : proof.OnPath key
  folds : (trieScheme crypto).climb 0 key proof.siblings
    ((trieScheme crypto).terminalRoot proof.terminal) = root

theorem climb_eq (siblings : List Hash256) (base : Hash256) (level : Nat) :
    climb crypto key level siblings base = (trieScheme crypto).climb level key siblings base := by
  induction siblings generalizing level with
  | nil => rfl
  | cons sibling deeper ih =>
    rw [climb, HashTrie.Scheme.climb, ih]
    rfl

theorem onPath_eq_ok {leafKey : Hash256} : onPath leafKey key depth = .ok u ↔
    ∀ i < depth, leafKey.bit i = key.bit i := by
  unfold onPath
  split
  · rename_i i found
    have differs := List.find?_some found
    have among := List.mem_of_find?_eq_some found
    simp only [reduceCtorEq, false_iff]
    intro agree
    simp [agree i (List.mem_range.mp among)] at differs
  · rename_i none
    simp only [true_iff]
    intro i below
    have same := List.find?_eq_none.mp none i (List.mem_range.mpr below)
    simpa using same

theorem reconstructRoot_eq_ok : proof.reconstructRoot crypto key = .ok root ↔ proof.Reaches crypto key root := by
  unfold reconstructRoot
  by_cases deep : proof.siblings.length > MAX_DEPTH
  · rw [if_pos deep]
    simp only [throw_eq_error, error_bind, reduceCtorEq, false_iff]
    exact fun reaches => absurd reaches.short (Nat.not_le.mpr deep)
  · rw [if_neg deep]
    cases ends : proof.terminal with
    | empty =>
      simp only [pure_iff, climb_eq]
      constructor
      · intro folded
        exact ⟨Nat.not_lt.mp deep, fun _ _ leaf => by simp [ends] at leaf, by rw [ends]; exact folded⟩
      · intro reaches
        rw [← reaches.folds, ends]
        rfl
    | leaf leafKey value =>
      simp only [bind_eq_ok, pure_iff, climb_eq, onPath_eq_ok]
      constructor
      · rintro ⟨_, agree, folded⟩
        refine ⟨Nat.not_lt.mp deep, fun _ _ leaf => ?_, by rw [ends]; exact folded⟩
        cases ends.symm.trans leaf
        exact agree
      · intro reaches
        refine ⟨(), reaches.onPath _ _ ends, ?_⟩
        rw [← reaches.folds, ends]
        rfl

theorem verifyInclusion_eq_ok : proof.verifyInclusion crypto root key value = .ok () ↔
    proof.Reaches crypto key root ∧ proof.terminal = .leaf key (crypto.sha256 value) := by
  unfold verifyInclusion verifyInclusionHashed
  rw [bind_eq_ok]
  simp only [reconstructRoot_eq_ok]
  constructor
  · rintro ⟨computed, reaches, checked⟩
    split at checked
    · cases checked
    · rename_i same
      obtain rfl := not_ne_iff.mp same
      split at checked
      · cases checked
      · split at checked
        · cases checked
        · split at checked
          · simp_all
          · cases checked
  · rintro ⟨reaches, ends⟩
    refine ⟨root, reaches, ?_⟩
    simp [ends]

theorem verifyNonInclusion_eq_ok : proof.verifyNonInclusion crypto root key = .ok () ↔
    proof.Reaches crypto key root ∧ ∀ value, proof.terminal ≠ .leaf key value := by
  unfold verifyNonInclusion
  rw [bind_eq_ok]
  simp only [reconstructRoot_eq_ok]
  constructor
  · rintro ⟨computed, reaches, checked⟩
    split at checked
    · cases checked
    · rename_i same
      obtain rfl := not_ne_iff.mp same
      split at checked
      · simp_all
      · split at checked
        · simp_all
        · cases checked
  · rintro ⟨reaches, absent⟩
    refine ⟨root, reaches, ?_⟩
    cases ends : proof.terminal with
    | empty => simp
    | leaf leafKey value =>
      have other : leafKey ≠ key := fun same => absent value (by rw [ends, same])
      simp [other]

theorem splitHash_eq (a x b y : Hash256) (apart : ∃ i, depth ≤ i ∧ i < depth + fuel ∧ a.bit i ≠ b.bit i) :
    splitHash crypto fuel depth a x b y =
      .ok ((trieScheme crypto).root ((trieScheme crypto).split fuel depth a x b y)) := by
  induction fuel generalizing depth with
  | zero =>
    obtain ⟨i, above, below, _⟩ := apart
    omega
  | succ fuel ih =>
    rw [splitHash]
    by_cases same : a.bit depth = b.bit depth
    · rw [if_pos same, ih ((trieScheme crypto).apart_deeper apart same),
        show (trieScheme crypto).split (fuel + 1) depth a x b y = _ from if_pos same]
      cases turn : a.bit depth <;> simp [turn] <;> rfl
    · rw [if_neg same, show (trieScheme crypto).split (fuel + 1) depth a x b y = _ from if_neg same]
      cases turn : a.bit depth <;> simp [turn] <;> rfl

/-- The root after a write through the proof: what takes the terminal's place,
folded up the same path. -/
def updatedRoot (crypto : Crypto) (proof : MerkleProof) (key value : Hash256) : Hash256 :=
  (trieScheme crypto).climb 0 key proof.siblings ((trieScheme crypto).root
    ((trieScheme crypto).updated proof.siblings.length key value proof.terminal))

theorem computeUpdatedRoot_eq (short : proof.siblings.length ≤ MAX_DEPTH) (onPath : proof.OnPath key)
    (value : Hash256) : proof.computeUpdatedRoot crypto key value = .ok (proof.updatedRoot crypto key value) := by
  unfold computeUpdatedRoot updatedRoot
  rw [if_neg (Nat.not_lt.mpr short)]
  cases ends : proof.terminal with
  | empty =>
    simp only [ok_bind, climb_eq]
    rfl
  | leaf existing old =>
    have agree := onPath _ _ ends
    simp only [HashTrie.Scheme.updated]
    by_cases same : existing = key
    · rw [if_pos same, if_pos same]
      simp only [ok_bind, climb_eq]
      rfl
    · have apart := (trieScheme crypto).apart_of_ne (Ne.symm same) (fun i below => (agree i below).symm) short
      have split : splitHash crypto (MAX_DEPTH - proof.siblings.length) proof.siblings.length key value existing
        old = _ := splitHash_eq key value existing old apart
      rw [if_neg same, if_neg same, onPath_eq_ok (u := ()) |>.mpr agree, ok_bind, split, ok_bind, climb_eq]
      rfl

end MerkleProof

namespace TrieVerifier

variable {crypto : Crypto} {proof : MerkleProof} {key root : Hash256}

theorem onPath_bytes_iff {a b : Hash256} (bound : depth ≤ MAX_DEPTH) :
    onPath a.bytes b.bytes depth = .ok u ↔ ∀ i < depth, a.bit i = b.bit i := by
  constructor
  · intro accepted i below
    have each := forM_eq_ok.mp accepted i (List.mem_range.mpr below)
    simpa only [bit_bytes a (show i < MAX_DEPTH by omega), bit_bytes b (show i < MAX_DEPTH by omega), ok_bind,
      ensure_eq_ok] using each
  · exact onPath_bytes a b bound

theorem terminalOnPath_bytes (short : proof.siblings.length ≤ MAX_DEPTH) :
    terminalOnPath (ofTerminal proof.terminal) key.bytes proof.siblings.length = .ok u ↔ proof.OnPath key := by
  unfold MerkleProof.OnPath
  cases proof.terminal with
  | empty => simp [terminalOnPath, ofTerminal, emptyTerminal]
  | leaf leafKey value =>
    simp only [terminalOnPath, ofTerminal, leafTerminal, if_true, onPath_bytes_iff short]
    constructor
    · rintro agree _ _ ⟨⟩
      exact agree
    · intro agree
      exact agree _ _ rfl

theorem reconstructRoot_bytes : reconstructRoot crypto (ofProof proof) key.bytes = .ok out ↔
    ∃ root, proof.Reaches crypto key root ∧ out = root.bytes := by
  have length : (ofProof proof).siblings.length = proof.siblings.length := by simp [ofProof]
  simp only [reconstructRoot, bind_eq_ok, ensure_eq_ok, length]
  constructor
  · rintro ⟨_, short, _, onPath, running, hashed, climbed⟩
    rw [show (ofProof proof).terminal = ofTerminal proof.terminal from rfl] at onPath hashed
    rw [terminalHash_bytes] at hashed
    cases hashed
    rw [show (ofProof proof).siblings = proof.siblings.map (·.bytes) from rfl,
      climb_bytes crypto key _ _ (by simpa using short)] at climbed
    cases climbed
    exact ⟨_, ⟨short, (terminalOnPath_bytes short).mp onPath, rfl⟩, rfl⟩
  · rintro ⟨root, ⟨short, onPath, rfl⟩, rfl⟩
    exact ⟨(), short, (), (terminalOnPath_bytes short).mpr onPath, _, terminalHash_bytes crypto proof.terminal,
      climb_bytes crypto key proof.siblings _ (by simpa using short)⟩

/-- The contract accepts an inclusion proof when the node does. -/
theorem verifyInclusion_bytes :
    verifyInclusion crypto (ofProof proof) root.bytes key.bytes (hashValue crypto value) = .ok () ↔
      proof.verifyInclusion crypto root key value = .ok () := by
  rw [MerkleProof.verifyInclusion_eq_ok]
  simp only [verifyInclusion, bind_eq_ok, ensure_eq_ok, reconstructRoot_bytes]
  constructor
  · rintro ⟨_, ⟨_, reaches, rfl⟩, _, same, _, leaf, _, here, bound⟩
    rw [FixedBytes.bytes_inj] at same
    subst same
    refine ⟨reaches, ?_⟩
    cases ends : proof.terminal with
    | empty => simp [ofProof, ends, ofTerminal, emptyTerminal] at leaf
    | leaf leafKey valueHash =>
      simp only [ofProof, ends, ofTerminal, leafTerminal, FixedBytes.bytes_inj, hashValue] at here bound
      rw [here, bound]
  · rintro ⟨reaches, ends⟩
    exact ⟨_, ⟨_, reaches, rfl⟩, (), rfl, (), by simp [ofProof, ends, ofTerminal, leafTerminal], (),
      by simp [ofProof, ends, ofTerminal, leafTerminal],
      by simp [ofProof, ends, ofTerminal, leafTerminal, hashValue]⟩

theorem verifyNonInclusion_bytes : verifyNonInclusion crypto (ofProof proof) root.bytes key.bytes = .ok () ↔
      proof.verifyNonInclusion crypto root key = .ok () := by
  rw [MerkleProof.verifyNonInclusion_eq_ok]
  simp only [verifyNonInclusion, bind_eq_ok, ensure_eq_ok, reconstructRoot_bytes]
  constructor
  · rintro ⟨_, ⟨_, reaches, rfl⟩, _, same, absent⟩
    rw [FixedBytes.bytes_inj] at same
    subst same
    refine ⟨reaches, fun value ends => ?_⟩
    simp [ofProof, ends, ofTerminal, leafTerminal] at absent
  · rintro ⟨reaches, absent⟩
    refine ⟨_, ⟨_, reaches, rfl⟩, (), rfl, ?_⟩
    cases ends : proof.terminal with
    | empty => simp [ofProof, ends, ofTerminal, emptyTerminal]
    | leaf leafKey value =>
      have other : leafKey ≠ key := fun same => absent value (by rw [ends, same])
      simp [ofProof, ends, ofTerminal, leafTerminal, other]

/-- The contract writes through a proof as the node does. -/
theorem computeUpdatedRoot_bytes (short : proof.siblings.length ≤ MAX_DEPTH) (path : proof.OnPath key)
    (value : Hash256) : computeUpdatedRoot crypto (ofProof proof) key.bytes value.bytes =
      .ok (proof.updatedRoot crypto key value).bytes := by
  have length : (ofProof proof).siblings.length = proof.siblings.length := by simp [ofProof]
  have written : writtenHash crypto (ofProof proof) key.bytes value.bytes = .ok ((trieScheme crypto).root
      ((trieScheme crypto).updated proof.siblings.length key value proof.terminal)).bytes := by
    cases ends : proof.terminal with
    | empty =>
      simp only [writtenHash, ofProof, ends, ofTerminal, emptyTerminal, if_true]
      exact hashLeaf_bytes crypto key value
    | leaf other old =>
      have agree := path _ _ ends
      simp only [writtenHash, ofProof, ends, ofTerminal, leafTerminal, Bool.true_eq_false, if_false,
        FixedBytes.bytes_inj, List.length_map, HashTrie.Scheme.updated]
      by_cases same : other = key
      · rw [if_pos same, if_pos same]
        exact hashLeaf_bytes crypto key value
      · have apart := (trieScheme crypto).apart_of_ne (Ne.symm same) (fun i below => (agree i below).symm) short
        rw [if_neg same, if_neg same, onPath_bytes other key short agree, ok_bind]
        exact splitHash_bytes crypto key value other old (by omega) apart
  rw [computeUpdatedRoot, ensure_of (by rw [length]; exact short), ok_bind, written, ok_bind]
  exact climb_bytes crypto key proof.siblings _ (by simpa using short)

end TrieVerifier
end Sena
