import Sena.GovernanceRuns

/-! Runs step by step, and who holds an identifier along them.

Between the states that batches leave there is one after every instruction. A slot
is written only by the instructions on it, so what it holds at two such states is
explained by the transactions in between: an identifier's slot by the bindings and
unbindings of its holders. -/
namespace Sena

open Move

namespace Execute

/-- A step of a run: an instruction, with the transaction whose program it is of. -/
abbrev Taken := Entry × Instruction

/-- One such step. -/
def Takes (crypto : Crypto) (trie : MerkleTrie) (l : Taken) (trie' : MerkleTrie) : Prop :=
  Steps crypto trie l.2 trie'

/-- The steps of some transactions, in the order they are taken. -/
def stepsOf (crypto : Crypto) (es : List Entry) : List Taken :=
  es.flatMap fun e => ((compile crypto e.2 e.1).toOption.getD []).map (e, ·)

variable {crypto : Crypto} {trie trie' : MerkleTrie} {es : List Entry} {l : Taken}

theorem mem_stepsOf (taken : l ∈ stepsOf crypto es) :
    l.1 ∈ es ∧ ∃ program, compile crypto l.1.2 l.1.1 = .ok program ∧ l.2 ∈ program := by
  obtain ⟨e, among, here⟩ := List.mem_flatMap.mp taken
  obtain ⟨i, emitted, rfl⟩ := List.mem_map.mp here
  refine ⟨among, ?_⟩
  cases compiled : compile crypto e.2 e.1 with
  | error _ => simp [compiled, Except.toOption] at emitted
  | ok program => exact ⟨program, rfl, by simpa [compiled, Except.toOption] using emitted⟩

theorem stepsOf_append (es es' : List Entry) : stepsOf crypto (es ++ es') = stepsOf crypto es ++ stepsOf crypto es' :=
  List.flatMap_append

theorem takes_of_run (ran : Run (Executes crypto) trie es trie') :
    Run (Takes crypto) trie (stepsOf crypto es) trie' := by
  rw [stepsOf, Run.flatMap_iff]
  refine ran.mono fun trie e trie' _ executed => ?_
  obtain ⟨program, compiled, ran⟩ := executed
  rw [compiled]
  exact Run.map_iff.mpr ran

end Execute

namespace GenesisConfig

open Execute

variable {config : GenesisConfig}

/-- A state on the way of some batches from a genesis: the first of their steps have
been taken. -/
def Passes (crypto : Crypto) (hashing : JwkHashing) (config : GenesisConfig)
    (batches : List (BatchContext × List Transaction)) (done : List Taken) (trie : MerkleTrie) : Prop :=
  ∃ genesis, config.buildState crypto hashing = .ok genesis ∧ done <+: stepsOf crypto (entries batches) ∧
    Run (Takes crypto) genesis done trie

theorem on_mem_named (taken : l ∈ stepsOf crypto (entries batches)) :
    l.2.on ∈ config.named crypto hashing batches := by
  obtain ⟨among, program, compiled, emitted⟩ := mem_stepsOf taken
  exact .inr ⟨l.1, among, program, compiled, l.2, emitted, rfl⟩

/-- What a state on the way shows is what the steps leave of the genesis on a store. -/
theorem Passes.onStore {slots : Set Slot} (passes : config.Passes crypto hashing batches done trie)
    (apart : Slot.Apart crypto slots) (inSlots : config.named crypto hashing batches ⊆ slots) :
    ∃ members hashes σ₀ σ, config.Accepted hashing members hashes ∧
      Run (Store.Founds crypto) (fun _ => none) (config.plan members hashes) σ₀ ∧
      Run (fun σ (l : Taken) σ' => Store.Steps crypto σ l.2 σ') σ₀ done σ ∧
      Set.EqOn (trie.bySlot crypto) σ slots := by
  obtain ⟨genesis, built, first, ran⟩ := passes
  have start : config.Reaches crypto hashing [] genesis := ⟨genesis, built, rfl⟩
  obtain ⟨members, hashes, σ₀, _, accepted, founded, rfl, same⟩ := start.onStore apart fun s named => by
    rcases named with named | ⟨_, among, _⟩
    · exact inSlots (.inl named)
    · cases among
  obtain ⟨σ, ran, same⟩ := ran.simulate (fun trie σ => Set.EqOn (trie.bySlot crypto) σ slots)
    (fun _ l _ _ taken same stepped =>
      Store.steps_of_trie apart (inSlots (on_mem_named (first.subset taken))) same stepped) same
  exact ⟨members, hashes, σ₀, σ, accepted, founded, ran, same⟩

end GenesisConfig

/-- What is recorded of an identifier: its holder, or that it has none any more. -/
def Store.binding (σ : Store) (identifier : Hash256) : Option SocialBinding :=
  (σ (.social identifier)).bind fun b => (SocialBinding.decode b).toOption

/-- A step rebinds an identifier to whom it is bound already, binds one that is free, or
frees it for its holder. -/
theorem Store.Steps.binding {σ σ' : Store} (stepped : σ.Steps crypto i σ') (identifier : Hash256) :
    (i.on ≠ .social identifier ∧ σ'.binding identifier = σ.binding identifier) ∨
      (∃ x, i = .bindIdentifier identifier x ∧ (∀ y, σ.binding identifier = some (.bound y) → y = x) ∧
        σ'.binding identifier = some (.bound x)) ∨
      ∃ x, i = .unbindIdentifier identifier x ∧ σ.binding identifier = some (.bound x) ∧
        σ'.binding identifier = some .vacant := by
  by_cases here : i.on = .social identifier
  · right
    obtain ⟨written, computed, _, rfl⟩ := stepped
    have after : ∀ binding : SocialBinding, written = binding.encode →
        Store.binding (Function.update σ i.on (some written)) identifier = some binding := by
      rintro binding rfl
      simp [Store.binding, here, SocialBinding.decode_encode, Except.toOption]
    cases i with
    | bindIdentifier named x =>
      cases here
      obtain ⟨held, same⟩ := Execute.transition_bindIdentifier.mp computed
      refine .inl ⟨x, rfl, fun y bound => ?_, after _ same⟩
      obtain ⟨b, found, decoded⟩ := Option.bind_eq_some_iff.mp bound
      obtain ⟨_, decoded', free⟩ := held b found
      cases (toOption_eq_some.mp decoded).symm.trans decoded'
      simpa [SocialBinding.address] using free
    | unbindIdentifier named x =>
      cases here
      obtain ⟨⟨b, binding, found, decoded, owned⟩, same⟩ := Execute.transition_unbindIdentifier.mp computed
      refine .inr ⟨x, rfl, ?_, after _ same⟩
      cases binding with
      | vacant => cases owned
      | bound y =>
        cases owned
        exact Option.bind_eq_some_iff.mpr ⟨b, found, toOption_eq_some.mpr decoded⟩
    | _ => cases here
  · exact .inl ⟨here, by rw [Store.binding, stepped.frame here, Store.binding]⟩

namespace Execute

variable {crypto : Crypto} {es : List Entry} {σ σ' : Store}

theorem identifier_of_compile {tx : Transaction} (compiled : compile crypto tx ctx = .ok p) (emitted : i ∈ p)
    (here : i.on = .social identifier) :
    (∃ channel, tx.payload = .bindIdentifier channel identifier ∧ i = .bindIdentifier identifier tx.sender) ∨
      (tx.payload = .unbindIdentifier identifier ∧ i = .unbindIdentifier identifier tx.sender) := by
  obtain ⟨_, _, payload, _, charge, shaped, _, _, rfl⟩ := compile_eq_ok.mp compiled
  simp only [program_eq, List.mem_append] at emitted
  rcases emitted with opened | paid | closed
  · rcases on_opening opened with ⟨_, _, on⟩ | on | on | on <;> cases on.symm.trans here
  · cases emits_of_compilePayload shaped paid with
    | bind asked =>
      cases here
      exact .inl ⟨_, asked, rfl⟩
    | unbind asked =>
      cases here
      exact .inr ⟨asked, rfl⟩
    | @update _ update => cases update <;> cases here
    | _ => cases here
  · obtain ⟨_, on⟩ := on_closing closed
    cases on.symm.trans here

theorem asked_of_taken (taken : l ∈ stepsOf crypto es) (here : l.2.on = .social identifier) :
    (∃ channel, l.1.2.payload = .bindIdentifier channel identifier ∧
        l.2 = .bindIdentifier identifier l.1.2.sender) ∨
      (l.1.2.payload = .unbindIdentifier identifier ∧ l.2 = .unbindIdentifier identifier l.1.2.sender) := by
  obtain ⟨_, program, compiled, emitted⟩ := mem_stepsOf taken
  exact identifier_of_compile compiled emitted here

/-- A step that frees an identifier, of a transaction whose sender asked for that. -/
def Frees (identifier : Hash256) (x : L2Address) (l : Taken) : Prop :=
  l.2 = .unbindIdentifier identifier x ∧ l.1.2.sender = x ∧ l.1.2.payload = .unbindIdentifier identifier

/-- A step that binds an identifier, of a transaction whose sender asked for that. -/
def Binds (identifier : Hash256) (x : L2Address) (l : Taken) : Prop :=
  l.2 = .bindIdentifier identifier x ∧ l.1.2.sender = x ∧ ∃ channel, l.1.2.payload = .bindIdentifier channel identifier

theorem frees_of_taken (taken : l ∈ stepsOf crypto es) (freed : l.2 = .unbindIdentifier identifier x) :
    Frees identifier x l := by
  have here : l.2.on = .social identifier := by
    rw [freed]
    rfl
  rcases asked_of_taken taken here with ⟨_, _, bound⟩ | ⟨asked, same⟩
  · cases freed.symm.trans bound
  · cases freed.symm.trans same
    exact ⟨freed, rfl, asked⟩

theorem binds_of_taken (taken : l ∈ stepsOf crypto es) (bound : l.2 = .bindIdentifier identifier x) :
    Binds identifier x l := by
  have here : l.2.on = .social identifier := by
    rw [bound]
    rfl
  rcases asked_of_taken taken here with ⟨channel, asked, same⟩ | ⟨_, freed⟩
  · cases bound.symm.trans same
    exact ⟨bound, rfl, channel, asked⟩
  · cases bound.symm.trans freed

theorem frees_of_step (taken : l ∈ stepsOf crypto es) (stepped : σ.Steps crypto l.2 σ')
    (before : σ.binding identifier ≠ some .vacant) (after : σ'.binding identifier = some .vacant) :
    ∃ x, σ.binding identifier = some (.bound x) ∧ Frees identifier x l := by
  rcases stepped.binding identifier with ⟨_, same⟩ | ⟨x, _, _, bound⟩ | ⟨x, freed, held, _⟩
  · exact absurd (same ▸ after) before
  · cases after.symm.trans bound
  · exact ⟨x, held, frees_of_taken taken freed⟩

theorem passed_on (taken : ∀ l ∈ steps, l ∈ stepsOf crypto es)
    (ran : Run (fun σ (l : Taken) σ' => Store.Steps crypto σ l.2 σ') σ steps σ')
    (heldFirst : σ.binding identifier = some (.bound x)) (heldLast : σ'.binding identifier = some (.bound y))
    (other : x ≠ y) :
    ∃ before l between l' after, steps = before ++ l :: (between ++ l' :: after) ∧
      Frees identifier x l ∧ Binds identifier y l' := by
  obtain ⟨before, l, rest, mid, mid', rfl, stepped, ran, held, lost⟩ :=
    ran.crosses (fun σ => σ.binding identifier = some (.bound x)) heldFirst fun kept => by
      cases kept.symm.trans heldLast
      exact other rfl
  -- the step that ends the first holding frees the identifier
  obtain ⟨freed, vacant⟩ : l.2 = .unbindIdentifier identifier x ∧ mid'.binding identifier = some .vacant := by
    rcases stepped.binding identifier with ⟨_, same⟩ | ⟨z, _, only, bound⟩ | ⟨z, freed, holds, vacant⟩
    · exact absurd (same.trans held) lost
    · exact absurd (only x held ▸ bound) lost
    · cases held.symm.trans holds
      exact ⟨freed, vacant⟩
  obtain ⟨between, l', after, mid, _, rfl, stepped, _, notYet, holds⟩ :=
    ran.crosses (fun σ => σ.binding identifier ≠ some (.bound y)) (by simp [vacant]) (by simp [heldLast])
  have bound : l'.2 = .bindIdentifier identifier y := by
    have holds := not_not.mp holds
    rcases stepped.binding identifier with ⟨_, same⟩ | ⟨z, bound, _, now⟩ | ⟨z, _, _, vacant⟩
    · exact absurd (same ▸ holds) notYet
    · cases holds.symm.trans now
      exact bound
    · cases holds.symm.trans vacant
  exact ⟨before, l, between, l', after, rfl, frees_of_taken (taken l (by simp)) freed,
    binds_of_taken (taken l' (by simp)) bound⟩

theorem binding_congr {trie : MerkleTrie} (same : Set.EqOn (trie.bySlot crypto) σ slots)
    (inSlots : Slot.social identifier ∈ slots) : (trie.bySlot crypto).binding identifier = σ.binding identifier := by
  rw [Store.binding, same inSlots, Store.binding]

/-- An identifier changes hands by consent. If it is held by one address after a step and
by another after a later one, in between a transaction of the first freed it and then
one of the second bound it; and only a transaction of its holder frees it. -/
theorem identifiers_change_hands_by_consent {config : GenesisConfig} (identifier : Hash256)
    (free : CollisionFree crypto.sha256
      (Slot.image '' (config.named crypto hashing batches ∪ {.social identifier}))) :
    (∀ first second t₁ t₂ x y, config.Passes crypto hashing batches first t₁ → Run (Takes crypto) t₁ second t₂ →
      first ++ second <+: stepsOf crypto (entries batches) →
      (t₁.bySlot crypto).binding identifier = some (.bound x) →
      (t₂.bySlot crypto).binding identifier = some (.bound y) → x ≠ y →
      ∃ before l between l' after, second = before ++ l :: (between ++ l' :: after) ∧
        Frees identifier x l ∧ Binds identifier y l') ∧
    ∀ first l t t', config.Passes crypto hashing batches first t → Takes crypto t l t' →
      first ++ [l] <+: stepsOf crypto (entries batches) →
      (t.bySlot crypto).binding identifier ≠ some .vacant → (t'.bySlot crypto).binding identifier = some .vacant →
      ∃ x, (t.bySlot crypto).binding identifier = some (.bound x) ∧ Frees identifier x l := by
  have apart := Slot.apart_of_free free fun s named => by
    rcases named with named | rfl
    · exact GenesisConfig.fits_of_mem_named named
    · trivial
  have here : Slot.social identifier ∈ config.named crypto hashing batches ∪ {.social identifier} := .inr rfl
  constructor
  · intro first second t₁ t₂ x y passes ran listed heldFirst heldLast other
    have taken : ∀ l ∈ second, l ∈ stepsOf crypto (entries batches) := fun l among =>
      listed.subset (List.mem_append_right _ among)
    obtain ⟨_, _, _, σ₁, _, _, _, same⟩ := passes.onStore apart Set.subset_union_left
    obtain ⟨σ₂, ran, same'⟩ := ran.simulate (fun trie σ => Set.EqOn (trie.bySlot crypto) σ _)
      (fun _ l _ _ among same stepped =>
        Store.steps_of_trie apart (.inl (GenesisConfig.on_mem_named (taken l among))) same stepped) same
    rw [binding_congr same here] at heldFirst
    rw [binding_congr same' here] at heldLast
    exact passed_on taken ran heldFirst heldLast other
  · intro first l t t' passes stepped listed before after
    have taken : l ∈ stepsOf crypto (entries batches) := listed.subset (by simp)
    obtain ⟨_, _, _, σ, _, _, _, same⟩ := passes.onStore apart Set.subset_union_left
    obtain ⟨σ', stepped, same'⟩ :=
      Store.steps_of_trie apart (.inl (GenesisConfig.on_mem_named taken)) same stepped
    rw [binding_congr same here] at before ⊢
    rw [binding_congr same' here] at after
    exact frees_of_step taken stepped before after

end Execute

namespace Devnet

def bindSignature : FixedBytes 64 := .ofHalves
  0x60c52108ae2a8c900b9c71936ae8f497b9cac9f653c68c73a688bf58434206ed
  0x343ff75bd8d8ebbe54397576aac7556aea487d7469cb2da08bf15dec07c3940c

def bindDigest : Bytes :=
  be 32 0x083a37297e92a06ca9d5015e2ccd76e5a86513d4d6e2b03fe18435a3c5d58f08

def unbindSignature : FixedBytes 64 := .ofHalves
  0x09fba2fcd6972aeb8d972be4e19ffe4c9fb17da2f85203327de38f461caf6abb
  0xf045dd6bc48ee9f359cd15abe0d6bc71d22c574a230fbfc45a14bb0388a43e01

def unbindDigest : Bytes :=
  be 32 0x54baea404dc14c7536c4f574c8289f32be724629f37d0b7ccb55ad7eb37fb47a

def rebindSignature : FixedBytes 64 := .ofHalves
  0x4e1b1314382a9a3a86cedec0126c15d099a56fe2c25c080caa6cee5742de40ab
  0xda11ab74965774b93ea4678787f8347940c714aa20159a2feed87c951ad62c0a

def rebindDigest : Bytes :=
  be 32 0x5c913b9c53cc41a61e7812759ef12ebde406b5ecbcdabaa4f84f9142b6178d9a

/-- A digest of someone's handle. -/
def handle : Hash256 := FixedBytes.fill 32 0x1d

/-- SHA-256 as it is, and the three signatures made here. -/
def handling : Crypto := .accepting [(alice.bytes, bindSignature.bytes, bindDigest),
  (alice.bytes, unbindSignature.bytes, unbindDigest), (bob.bytes, rebindSignature.bytes, rebindDigest)]

def shared : GenesisConfig := { small with allocations := [⟨alice, 1, 1000000⟩, ⟨bob, 1, 1000000⟩] }

def binding : Transaction := transaction 0 60000 (.bindIdentifier .email handle) bindSignature

def unbinding : Transaction := transaction 1 60000 (.unbindIdentifier handle) unbindSignature

def rebinding : Transaction :=
  { transaction 0 60000 (.bindIdentifier .email handle) rebindSignature with
    sender := bob, authenticator := .ed25519 bob rebindSignature }

def handover : List (Execute.BatchContext × List Transaction) := [(context, [binding] ++ [unbinding, rebinding])]

def sharedSlots : List Slot :=
  [.account alice, .account bob, .account sequencer, .account Execute.FEE_VAULT, .asset 1, .feeMarket, .feeSplit,
    .council, .social handle]

theorem shared_named (named : s ∈ shared.named handling hashing handover ∪ {.social handle}) : s ∈ sharedSlots := by
  rcases named with (founded | among) | rfl
  · obtain rfl | rfl | rfl | ⟨record, listed, rfl⟩ | ⟨a, listed, rfl⟩ | ⟨hashes, hashed, h, listed, rfl⟩ := founded
    · decide
    · decide
    · decide
    · rw [List.mem_singleton.mp listed]
      decide
    · simp only [shared, List.mem_cons, List.not_mem_nil, or_false] at listed
      rcases listed with rfl | rfl <;> decide
    · cases hashed
      cases listed
  · have all : ∀ s ∈ Execute.slotList handling (Execute.entries handover), s ∈ sharedSlots := by decide +kernel
    exact all s (Execute.mem_slotsOf.mp among)
  · decide

theorem shared_free : CollisionFree handling.sha256 {b | b ∈ sharedSlots.map Slot.image} := by decide +kernel

/-- After some transactions an identifier is one address's, and after some more another's. -/
abbrev Hands (crypto : Crypto) (config : GenesisConfig) (ctx : Execute.BatchContext) (txs txs' : List Transaction)
    (identifier : Hash256) (x y : L2Address) : Prop :=
  ∃ genesis, config.buildState crypto hashing = .ok genesis ∧
    ∃ first, Execute.executeBatch crypto genesis ctx txs = .ok first ∧
      (first.1.bySlot crypto).binding identifier = some (.bound x) ∧
        ∃ second, Execute.executeBatch crypto first.1 ctx txs' = .ok second ∧
          (second.1.bySlot crypto).binding identifier = some (.bound y)

theorem runs_of_hands {crypto : Crypto} {config : GenesisConfig}
    (held : Hands crypto config ctx txs txs' identifier x y) :
    ∃ first second t₁ t₂, config.Passes crypto hashing [(ctx, txs ++ txs')] first t₁ ∧
      Run (Execute.Takes crypto) t₁ second t₂ ∧
      first ++ second <+: Execute.stepsOf crypto (Execute.entries [(ctx, txs ++ txs')]) ∧
      (t₁.bySlot crypto).binding identifier = some (.bound x) ∧
      (t₂.bySlot crypto).binding identifier = some (.bound y) := by
  obtain ⟨genesis, built, ⟨t₁, _⟩, bound, byFirst, ⟨t₂, _⟩, rebound, bySecond⟩ := held
  have first := Execute.takes_of_run ((Execute.executeBatch_iff _ _).mp ⟨_, bound⟩)
  have second := Execute.takes_of_run ((Execute.executeBatch_iff _ _).mp ⟨_, rebound⟩)
  have steps : Execute.stepsOf crypto (Execute.entries [(ctx, txs ++ txs')]) =
      Execute.stepsOf crypto (txs.map (ctx, ·)) ++ Execute.stepsOf crypto (txs'.map (ctx, ·)) := by
    rw [← Execute.stepsOf_append, ← List.map_append]
    simp [Execute.entries]
  exact ⟨_, _, t₁, t₂, ⟨genesis, built, steps ▸ List.prefix_append _ _, first⟩, second, steps ▸ List.prefix_rfl,
    byFirst, bySecond⟩

/-- The handle goes from Alice to Bob: she frees it, and he binds it. -/
theorem handle_changes_hands : ∃ l l', l ∈ Execute.stepsOf handling (Execute.entries handover) ∧
    l' ∈ Execute.stepsOf handling (Execute.entries handover) ∧
      Execute.Frees handle alice l ∧ Execute.Binds handle bob l' := by
  have held : Hands handling shared context [binding] [unbinding, rebinding] handle alice bob := by decide +kernel
  obtain ⟨first, second, t₁, t₂, passes, ran, listed, byAlice, byBob⟩ := runs_of_hands held
  obtain ⟨before, l, between, l', after, rfl, frees, binds⟩ :=
    (Execute.identifiers_change_hands_by_consent handle (shared_free.mono (by
      rintro _ ⟨s, named, rfl⟩
      exact List.mem_map_of_mem (shared_named named)))).1 _ _ t₁ t₂ alice bob passes ran listed byAlice byBob
      (by decide)
  exact ⟨l, l', listed.subset (by simp), listed.subset (by simp), frees, binds⟩

end Devnet

end Sena
