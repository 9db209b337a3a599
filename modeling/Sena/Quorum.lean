import Mathlib.Data.Finset.Card
import Sena.Histories

/-! What a threshold of signatures counts.

An order's signatures name seats of the council in increasing order, so no seat is
counted twice. The keys in the seats are those of the genesis, which may give two
seats to one key. -/
namespace Sena

open Move

section

variable {K : Type} {roster : List K} {seats : List Nat}

/-- The keys in some seats of a roster. -/
def keysIn (roster : List K) (seats : List Nat) : List K := seats.filterMap (roster[·]?)

theorem length_keysIn (taken : ∀ seat ∈ seats, ∃ key, roster[seat]? = some key) :
    (keysIn roster seats).length = seats.length :=
  List.filterMap_length_eq_length.mpr fun seat among => Option.isSome_iff_exists.mpr (taken seat among)

theorem nodup_keysIn (distinct : roster.Nodup) (ordered : seats.Pairwise (· < ·)) : (keysIn roster seats).Nodup := by
  refine List.Nodup.filterMap ?_ (ordered.imp Nat.ne_of_lt)
  intro seat other key held held'
  obtain ⟨within, rfl⟩ := List.getElem?_eq_some_iff.mp held
  obtain ⟨within', same⟩ := List.getElem?_eq_some_iff.mp held'
  exact (distinct.getElem_inj_iff.mp same).symm

theorem le_card_keysIn [DecidableEq K] (distinct : needed ≤ 1 ∨ roster.Nodup) (ordered : seats.Pairwise (· < ·))
    (taken : ∀ seat ∈ seats, ∃ key, roster[seat]? = some key) (enough : needed ≤ seats.length) :
    needed ≤ (keysIn roster seats).toFinset.card := by
  have counted := length_keysIn taken
  rcases distinct with one | distinct
  · rcases Nat.eq_zero_or_pos seats.length with none | some
    · omega
    · refine Nat.le_trans one (Finset.card_pos.mpr ?_)
      obtain ⟨key, held⟩ := List.exists_mem_of_length_pos (counted ▸ some)
      exact ⟨key, List.mem_toFinset.mpr held⟩
  · rw [List.toFinset_card_of_nodup (nodup_keysIn distinct ordered), counted]
    exact enough

end

/-- No step changes the council's seats or thresholds. -/
theorem Store.InOffice.step {σ σ' : Store} (counted : council.members.length < 2 ^ 32) (office : σ.InOffice council n)
    (stepped : σ.Steps crypto i σ') : ∃ n', σ'.InOffice council n' := by
  obtain ⟨epoch, counts, stored⟩ := office
  by_cases here : i.on = .council
  · obtain ⟨written, computed, _, rfl⟩ := stepped
    cases i with
    | verifyCouncil epoch' digest signatures guardian =>
      obtain ⟨b, held, found, decoded, current, _, next, _, rfl⟩ := Execute.transition_verifyCouncil.mp computed
      have known : Council.decode { council with epoch : Council }.encode = .ok { council with epoch } :=
        Council.decode_eq_ok.mpr ⟨counted, rfl⟩
      rw [show Instruction.on (.verifyCouncil _ _ _ _) = .council from rfl, stored] at found
      cases found
      cases known.symm.trans decoded
      exact ⟨next.val, next, rfl, Function.update_self _ _ _⟩
    | _ => cases here
  · exact ⟨n, epoch, counts, (stepped.frame here).trans stored⟩

namespace Execute

variable {crypto : Crypto} {trie trie' : MerkleTrie} {c : CouncilConfig}

/-- What a verified order shows of a council in office. -/
theorem keys_of_verified {signatures : List CouncilSignature} {council : Council}
    (distinct : council.threshold.val ≤ 1 ∨ council.members.Nodup)
    (verified : Governance.verifyCouncilSignatures crypto council digest signatures false = .ok ()) :
    ∃ keys : Finset (FixedBytes 32), council.threshold.val ≤ keys.card ∧
      ∀ key ∈ keys, ∃ s ∈ signatures,
        crypto.ed25519Strict key.bytes s.signature.bytes digest.bytes = .ok () := by
  obtain ⟨_, checked, enough⟩ := Osp.verifyCouncilSignatures_eq_ok.mp verified
  obtain ⟨_, checked⟩ := Move.exists_of_isOk checked
  obtain ⟨_, ordered, signed⟩ := Governance.checkSignatures_eq_ok.mp checked
  refine ⟨(keysIn council.members (signatures.map (·.index.val))).toFinset, ?_, fun key among => ?_⟩
  · refine le_card_keysIn distinct (List.pairwise_map.mpr ordered) ?_ ?_
    · intro seat taken
      obtain ⟨s, listed, rfl⟩ := List.mem_map.mp taken
      obtain ⟨member, held, _⟩ := signed s listed
      exact ⟨member, held⟩
    · rw [List.length_map]
      exact enough
  · obtain ⟨seat, taken, held⟩ := List.mem_filterMap.mp (List.mem_toFinset.mp among)
    obtain ⟨s, listed, rfl⟩ := List.mem_map.mp taken
    obtain ⟨member, seated, valid⟩ := signed s listed
    cases held.symm.trans seated
    exact ⟨s, listed, valid⟩

/-- A threshold of signatures is one of keys, as long as a genesis that needs more than
one signature gives no two seats to one key: whatever order a state on the way
accepts, at least as many different keys as the threshold says signed it. -/
theorem threshold_counts_keys {config : GenesisConfig} (configured : config.council = some c)
    (decoded : decodeMembers 0 c.members = .ok members) (distinct : c.threshold.val ≤ 1 ∨ members.Nodup)
    (passes : config.Passes crypto hashing batches done trie)
    (free : CollisionFree crypto.sha256 (Slot.image '' config.named crypto hashing batches))
    (epoch : U64) (digest : Hash256) (signatures : List CouncilSignature)
    (verified : apply crypto trie (.verifyCouncil epoch digest signatures false) = .ok trie') :
    ∃ keys : Finset (FixedBytes 32), c.threshold.val ≤ keys.card ∧
      ∀ key ∈ keys, ∃ s ∈ signatures,
        crypto.ed25519Strict key.bytes s.signature.bytes digest.bytes = .ok () := by
  have apart := Slot.apart_of_free free fun s named => GenesisConfig.fits_of_mem_named named
  obtain ⟨members', hashes, σ₀, σ, accepted, founded, ran, same⟩ := passes.onStore apart (subset_refl _)
  obtain ⟨decoded', counted⟩ := accepted.council c configured
  cases decoded.symm.trans decoded'
  obtain ⟨n, current, _, stored⟩ := ran.invariant
    (fun σ => ∃ n, σ.InOffice ⟨members, c.threshold, 0, c.guardianThreshold⟩ n)
    (fun _ _ _ _ ⟨_, office⟩ stepped => office.step counted stepped) ⟨0, office_of_plan configured founded⟩
  obtain ⟨written, computed, _⟩ := apply_eq_ok.mp verified
  rw [show Instruction.on (.verifyCouncil _ _ _ _) = .council from rfl, same (.inl (.inl rfl)), stored] at computed
  obtain ⟨b, held, found, decoded, _, signed, _⟩ := transition_verifyCouncil.mp computed
  cases found
  have known : Council.decode (Council.encode ⟨members, c.threshold, current, c.guardianThreshold⟩) = .ok _ :=
    Council.decode_eq_ok.mpr ⟨counted, rfl⟩
  cases known.symm.trans decoded
  exact keys_of_verified distinct signed

end Execute

namespace Devnet

def termsByCarol : FixedBytes 64 := .ofHalves
  0x9cb90484e5140cafbe4808c2974f7790dd651273c2e211aa8cd11268ebcc1393
  0x9101d9634c55ea54b4fc4b73926f878f461b28e7d487ac9d07e4e3464f071000

def termsByAlice : FixedBytes 64 := .ofHalves
  0x0bbc93e19d51f6693a30f73fadf4002801b8fc4b4e91fe5bc30bf6411a182352
  0xfa2932ba1e105eac5dede53131269efe4d0a3e0fb5bb127c97576510ab97bb07

def orderSignature : FixedBytes 64 := .ofHalves
  0x224dc7416d3e04acf77ed5300ba5597a995cf8de3e1c0ea531eeae6a9ea8edc9
  0x968b82982fd77d985e8eaf85506d0ad04a9171f82ed59fafea152bcad26f0103

def termsDigest : Hash256 :=
  .ofNat 32 0x93f25978c4503923c7bbb9225a4357b5bf75c372d25564cbad5d15fe8bed576f

def orderDigest : Bytes :=
  be 32 0x09ef465cbfc9c90e406b625b3290f9a0fce76c8074989389ee77d26f0eee93c8

theorem accepting_eq_ok : (Crypto.accepting signatures).ed25519Strict key signed message = .ok () ↔
    (key, signed, message) ∈ signatures := by
  by_cases listed : (key, signed, message) ∈ signatures <;> simp [Crypto.accepting, listed]

/-- Both members of the pair signed the terms. -/
def pairing : Crypto :=
  .accepting [(carol.bytes, termsByCarol.bytes, termsDigest.bytes), (alice.bytes, termsByAlice.bytes, termsDigest.bytes)]

/-- Carol alone signed the terms, and Alice the transaction that carries them. -/
def twinning : Crypto :=
  .accepting [(carol.bytes, termsByCarol.bytes, termsDigest.bytes), (alice.bytes, orderSignature.bytes, orderDigest)]

def carolHex : Bytes := Domain.ascii "af93a908c8d2fa7b8f67650bf37b33686f98c795b6c3bfaf19b38bcd51b9e836"

def aliceHex : Bytes := Domain.ascii "171cab50deb65aea19f204ae1f26922c4a74d07b0d743aa264fdbad9ee2ca056"

/-- A council of two, both of whom have to sign. -/
def pair : GenesisConfig := { small with council := some ⟨[carolHex, aliceHex], 2, 1⟩ }

/-- The same key in both seats. -/
def twin : GenesisConfig := { small with council := some ⟨[carolHex, carolHex], 2, 1⟩ }

theorem pair_free : CollisionFree pairing.sha256 {b | b ∈ slots.map Slot.image} := free

theorem pair_named (named : s ∈ pair.named pairing hashing []) : s ∈ slots := by
  rcases named with (rfl | rfl | rfl | ⟨record, listed, rfl⟩ | ⟨a, listed, rfl⟩ | ⟨hashes, hashed, h, listed, rfl⟩) |
    ⟨_, among, _⟩
  · decide
  · decide
  · decide
  · rw [List.mem_singleton.mp listed]
    decide
  · rw [List.mem_singleton.mp listed]
    decide
  · cases hashed
    cases listed
  · cases among

/-- Two members sign for a threshold of two. -/
theorem pair_signs_with_two_keys : ∃ genesis trie', pair.buildState pairing hashing = .ok genesis ∧
    Execute.apply pairing genesis
      (.verifyCouncil 0 termsDigest [⟨0, termsByCarol⟩, ⟨1, termsByAlice⟩] false) = .ok trie' ∧
    ∃ keys : Finset (FixedBytes 32), 2 ≤ keys.card ∧ ∀ key ∈ keys, ∃ s ∈ [⟨0, termsByCarol⟩, ⟨1, termsByAlice⟩],
      pairing.ed25519Strict key.bytes (CouncilSignature.signature s).bytes termsDigest.bytes = .ok () := by
  obtain ⟨genesis, built, trie', verified⟩ : ∃ genesis, pair.buildState pairing hashing = .ok genesis ∧
      ∃ trie', Execute.apply pairing genesis
        (.verifyCouncil 0 termsDigest [⟨0, termsByCarol⟩, ⟨1, termsByAlice⟩] false) = .ok trie' := by
    decide +kernel
  have decoded : decodeMembers 0 [carolHex, aliceHex] = .ok [carol, alice] := by decide +kernel
  have passes : pair.Passes pairing hashing [] [] genesis := ⟨genesis, built, List.nil_prefix, rfl⟩
  refine ⟨genesis, trie', built, verified, Execute.threshold_counts_keys rfl decoded (.inr (by decide)) passes
    (pair_free.mono ?_) 0 termsDigest _ verified⟩
  rintro _ ⟨s, named, rfl⟩
  exact List.mem_map_of_mem (pair_named named)

/-- One signature of the one key in both seats passes a threshold of two. -/
theorem twin_passes_with_one_key : ∃ genesis trie trace, twin.buildState twinning hashing = .ok genesis ∧
    Execute.executeBatch twinning genesis context
      [transaction 0 100000 (.governance 0 (.setFeeMarket 30000000000 5000000)
        [⟨0, termsByCarol⟩, ⟨1, termsByCarol⟩]) orderSignature] = .ok (trie, trace) ∧
    .verifyCouncil 0 termsDigest [⟨0, termsByCarol⟩, ⟨1, termsByCarol⟩] false ∈ trace.instructions ∧
    ∀ key signature, twinning.ed25519Strict key signature termsDigest.bytes = .ok () → key = carol.bytes := by
  obtain ⟨genesis, built, ⟨trie, trace⟩, executed, among⟩ : ∃ genesis, twin.buildState twinning hashing = .ok genesis ∧
      ∃ run, Execute.executeBatch twinning genesis context
        [transaction 0 100000 (.governance 0 (.setFeeMarket 30000000000 5000000)
          [⟨0, termsByCarol⟩, ⟨1, termsByCarol⟩]) orderSignature] = .ok run ∧
        .verifyCouncil 0 termsDigest [⟨0, termsByCarol⟩, ⟨1, termsByCarol⟩] false ∈ run.2.instructions := by
    decide +kernel
  refine ⟨genesis, trie, trace, built, executed, among, fun key signature valid => ?_⟩
  have listed := accepting_eq_ok.mp valid
  have others : termsDigest.bytes ≠ orderDigest := by decide
  simp only [List.mem_cons, Prod.mk.injEq, List.not_mem_nil, or_false, others, and_false] at listed
  exact listed.1

end Devnet
end Sena
