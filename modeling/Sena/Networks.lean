import Sena.Quorum
import Sena.Spending

/-! Two networks and one signature.

Nothing a transaction signs names the network it is for. What keeps it to one is
what it says of the state: the nonce of its sender and the rate and the
intrinsic gas its fee asset is quoted at. Where two networks agree on these a
transaction of one is a transaction of the other. -/
namespace Sena

open Execute (Entry entries slotsOf)

section

variable {crypto : Crypto} {σ σ' : Store} {trie : MerkleTrie}

/-- The rate and the intrinsic gas an asset is accepted at, if it is. -/
def Store.quote (σ : Store) (asset : U32) : Option (U128 × U64) := do
  let record ← (WhitelistedAsset.decode (← σ (.asset asset))).toOption
  if record.enabled then some (record.rate, record.intrinsicGas) else none

theorem Store.quote_eq_some : σ.quote asset = some (rate, gas) ↔
    ∃ b record, σ (.asset asset) = some b ∧ WhitelistedAsset.decode b = .ok record ∧ record.enabled = true ∧
      record.rate = rate ∧ record.intrinsicGas = gas := by
  simp only [quote, Option.bind_eq_bind, Option.bind_eq_some_iff, Move.toOption_eq_some, Option.ite_none_right_eq_some,
    Option.some.injEq, Prod.mk.injEq]
  constructor
  · rintro ⟨b, held, record, decoded, enabled, rate, gas⟩
    exact ⟨b, record, held, decoded, enabled, rate, gas⟩
  · rintro ⟨b, record, held, decoded, enabled, rate, gas⟩
    exact ⟨b, held, record, decoded, enabled, rate, gas⟩

/-- A step on another slot leaves the quote. -/
theorem Store.Steps.quote (stepped : σ.Steps crypto i σ') (elsewhere : i.on ≠ .asset asset) :
    σ'.quote asset = σ.quote asset := by
  obtain ⟨written, _, _, rfl⟩ := stepped
  rw [Store.quote, Store.quote, Function.update_of_ne elsewhere.symm]

/-- A transaction executes at the quote it names. -/
theorem Execute.quote_of_executes {tx : Transaction} (executed : σ.Executes crypto (ctx, tx) σ') :
    σ.quote tx.feeAsset = some (tx.feeRate, tx.feeIntrinsicGas) := by
  obtain ⟨p, compiled, ran⟩ := executed
  obtain ⟨_, _, payload, _, charge, _, _, _, rfl⟩ := compile_eq_ok.mp compiled
  rw [program_eq, Run.append_iff] at ran
  obtain ⟨mid, opened, _⟩ := ran
  have verified : ∀ {τ τ' : Store}, τ.Steps crypto (.verifyGasAsset tx.feeAsset tx.feeRate tx.feeIntrinsicGas) τ' →
      τ.quote tx.feeAsset = some (tx.feeRate, tx.feeIntrinsicGas) := by
    rintro τ τ' ⟨written, computed, _⟩
    obtain ⟨record, held, decoded, enabled, rate, gas⟩ := transition_verifyGasAsset.mp computed
    exact Store.quote_eq_some.mpr ⟨written, record, held, decoded, enabled, rate, gas⟩
  unfold opening at opened
  cases signed : tx.authenticator with
  | ed25519 _ _ =>
    rw [signed] at opened
    obtain ⟨_, consumed, _, looked, _⟩ := opened
    rw [← verified looked, consumed.quote (by simp [Instruction.on])]
  | keyless sig =>
    rw [signed] at opened
    obtain ⟨_, accepted, _, consumed, _, looked, _⟩ := opened
    rw [← verified looked, consumed.quote (by simp [Instruction.on]), accepted.quote (by simp [Instruction.on])]

theorem Transaction.opening_of_encode {t t' : Transaction} (same : t.encode = t'.encode) :
    t.sender = t'.sender ∧ t.nonce = t'.nonce ∧ t.feeAsset = t'.feeAsset ∧ t.feeRate = t'.feeRate ∧
      t.feeIntrinsicGas = t'.feeIntrinsicGas := by
  simp only [encode, List.append_assoc] at same
  rw [FixedBytes.append_inj, be_append_inj rfl, be_append_inj rfl, be_append_inj rfl, be_append_inj rfl] at same
  obtain ⟨sender, nonce, asset, rate, gas, _⟩ := same
  exact ⟨sender, nonce, asset, rate, gas⟩

namespace GenesisConfig

/-- A transaction of some batches from a genesis executes in this state. -/
def ExecutesIn (crypto : Crypto) (hashing : JwkHashing) (config : GenesisConfig)
    (batches : List (Execute.BatchContext × List Transaction)) (tx : Transaction) (trie : MerkleTrie) : Prop :=
  ∃ genesis earlier ctx later, config.buildState crypto hashing = .ok genesis ∧
    entries batches = earlier ++ (ctx, tx) :: later ∧ Run (Execute.Executes crypto) genesis earlier trie

theorem Reaches.executesIn {config : GenesisConfig} (reached : config.Reaches crypto hashing batches final)
    (free : CollisionFree crypto.sha256 (Slot.image '' config.named crypto hashing batches))
    (among : tx ∈ (entries batches).map (·.2)) : ∃ trie, config.ExecutesIn crypto hashing batches tx trie ∧
      (trie.bySlot crypto).nonce tx.sender = tx.nonce.val ∧
      (trie.bySlot crypto).quote tx.feeAsset = some (tx.feeRate, tx.feeIntrinsicGas) := by
  obtain ⟨genesis, built, ran⟩ := reached
  obtain ⟨⟨ctx, tx⟩, listed, rfl⟩ := List.mem_map.mp among
  obtain ⟨earlier, later, split⟩ := List.append_of_mem listed
  rw [Execute.executeAll_iff, split, Run.append_iff] at ran
  obtain ⟨trie, before, next, executed, _⟩ := ran
  have apart := Slot.apart_of_free free fun _ => fits_of_mem_named
  have inSlots : slotsOf crypto [(ctx, tx)] ⊆ config.named crypto hashing batches :=
    fun s named => .inr (Execute.slotsOf_singleton_subset listed named)
  obtain ⟨σ', onStore, _⟩ := Store.executes_of_trie apart [(ctx, tx)] inSlots (fun _ _ => rfl)
    (Run.singleton_iff.mpr executed)
  rw [Run.singleton_iff] at onStore
  exact ⟨trie, ⟨genesis, earlier, ctx, later, built, split, before⟩,
    ((Execute.nonce_of_executes onStore tx.sender).2 rfl).symm, Execute.quote_of_executes onStore⟩

end GenesisConfig

/-- An account acts in two states with one nonce and pays in an asset both quote alike. -/
def Confusable (σ : Store) (tx : Transaction) (σ' : Store) (tx' : Transaction) : Prop :=
  tx.sender = tx'.sender ∧ σ.nonce tx.sender = σ'.nonce tx.sender ∧
    ∃ quote, σ.quote tx.feeAsset = some quote ∧ σ'.quote tx.feeAsset = some quote

/-- Whatever the chain ids of two networks, a transaction of one is no transaction
of the other as long as no account acts on both at one nonce in an asset both
quote alike. -/
theorem signatures_stay_on_their_network {config config' : GenesisConfig}
    (reached : config.Reaches crypto hashing batches final)
    (reached' : config'.Reaches crypto hashing' batches' final')
    (free : CollisionFree crypto.sha256 (Slot.image '' config.named crypto hashing batches))
    (free' : CollisionFree crypto.sha256 (Slot.image '' config'.named crypto hashing' batches'))
    (told : ∀ tx trie tx' trie', config.ExecutesIn crypto hashing batches tx trie →
      config'.ExecutesIn crypto hashing' batches' tx' trie' →
        ¬Confusable (trie.bySlot crypto) tx (trie'.bySlot crypto) tx') :
    ∀ tx ∈ (entries batches).map (·.2), ∀ tx' ∈ (entries batches').map (·.2), tx.encode ≠ tx'.encode := by
  intro tx among tx' among' same
  obtain ⟨sender, nonce, asset, rate, gas⟩ := Transaction.opening_of_encode same
  obtain ⟨trie, executes, expected, quoted⟩ := reached.executesIn free among
  obtain ⟨trie', executes', expected', quoted'⟩ := reached'.executesIn free' among'
  refine told tx trie tx' trie' executes executes' ⟨sender, ?_, _, quoted, ?_⟩
  · rw [expected, sender, expected', nonce]
  · rw [asset, quoted', rate, gas]

theorem GenesisConfig.buildState_chainId (config : GenesisConfig) (id : Utf8) :
    { config with chainId := id }.buildState crypto hashing = config.buildState crypto hashing := rfl

end

namespace Devnet

def copyId : Utf8 := ⟨Domain.ascii "sena-devnet-2", by decide +kernel⟩

/-- The small devnet under another chain id. -/
def copy : GenesisConfig := { small with chainId := copyId }

/-- The copy with its asset at twice the rate. -/
def dear : GenesisConfig :=
  { copy with gasAssets := [⟨1, ⟨[0x55, 0x53, 0x44, 0x43], usdc_valid⟩, 2000000, 10000, true⟩] }

def dearSignature : FixedBytes 64 := .ofHalves
  0xa70f7c107faa2301b904d20981bf0586b81583bc81e9d003e0605a2a3f088253
  0xae2a4b663ac4cd016107a2115dc23fbc0f06df04fc633671fd1abb495464db0a

def dearDigest : Bytes :=
  be 32 0x9d34dedeac301131991802b7e446bc23ce41611d0a9abf44aab016d86b32038b

/-- SHA-256 as it is, and a signature for each network. -/
def twoRates : Crypto :=
  .accepting [(alice.bytes, transferSignature.bytes, transferDigest), (alice.bytes, dearSignature.bytes, dearDigest)]

/-- The payment again, signed at the other rate. -/
def dearPayment : Transaction := { payment with feeRate := 2000000, authenticator := .ed25519 alice dearSignature }

/-- The payment executes on both networks: nothing in it names one. -/
theorem payment_executes_on_both_networks : small.chainId ≠ copy.chainId ∧
    (∃ trie, small.Reaches crypto hashing [(context, [payment])] trie) ∧
    ∃ trie, copy.Reaches crypto hashing [(context, [payment])] trie := by
  obtain ⟨genesis, built, run, ran⟩ : ∃ genesis, small.buildState crypto hashing = .ok genesis ∧
      ∃ run, Execute.executeBatch crypto genesis context [payment] = .ok run := by
    decide +kernel
  have executed := Execute.executeAll_singleton ran
  exact ⟨by decide +kernel, ⟨run.1, genesis, built, executed⟩,
    run.1, genesis, (GenesisConfig.buildState_chainId small copyId).trans built, executed⟩

theorem executesIn_singleton {crypto : Crypto} {config : GenesisConfig}
    (executes : config.ExecutesIn crypto hashing [(context, [tx])] tx' trie) :
    tx' = tx ∧ config.buildState crypto hashing = .ok trie := by
  obtain ⟨genesis, earlier, ctx, later, built, split, ran⟩ := executes
  have single : entries [(context, [tx])] = [(context, tx)] := rfl
  rw [single] at split
  cases earlier with
  | nil =>
    cases split
    cases ran
    exact ⟨rfl, built⟩
  | cons e earlier => simp at split

theorem free_of_named {crypto : Crypto} {config : GenesisConfig} (real : crypto.sha256 = Devnet.crypto.sha256)
    (founds : ∀ s ∈ config.slots hashing, s ∈ slots)
    (names : ∀ s ∈ Execute.slotList crypto (entries batches), s ∈ slots) :
    CollisionFree crypto.sha256 (Slot.image '' config.named crypto hashing batches) := by
  rw [real]
  exact free_of_slots fun s named => named.elim (founds s) fun named => names s (Execute.mem_slotsOf.mp named)

/-- At its own rate each network has a payment of its own. -/
theorem dear_payment_is_another : (∃ trie, small.Reaches twoRates hashing [(context, [payment])] trie) ∧
    (∃ trie, dear.Reaches twoRates hashing [(context, [dearPayment])] trie) ∧ payment.encode ≠ dearPayment.encode := by
  obtain ⟨⟨genesis, built, quoted, run, ran⟩, ⟨genesis', built', quoted', run', ran'⟩, names, names'⟩ :
      (∃ genesis, small.buildState twoRates hashing = .ok genesis ∧
        (genesis.bySlot twoRates).quote 1 = some (1000000, 10000) ∧
        ∃ run, Execute.executeBatch twoRates genesis context [payment] = .ok run) ∧
      (∃ genesis, dear.buildState twoRates hashing = .ok genesis ∧
        (genesis.bySlot twoRates).quote 1 = some (2000000, 10000) ∧
        ∃ run, Execute.executeBatch twoRates genesis context [dearPayment] = .ok run) ∧
      (∀ s ∈ Execute.slotList twoRates (entries [(context, [payment])]), s ∈ slots) ∧
      ∀ s ∈ Execute.slotList twoRates (entries [(context, [dearPayment])]), s ∈ slots := by
    decide +kernel
  have reached : small.Reaches _ _ [(context, [payment])] _ := ⟨genesis, built, Execute.executeAll_singleton ran⟩
  have reached' : dear.Reaches _ _ [(context, [dearPayment])] _ := ⟨genesis', built', Execute.executeAll_singleton ran'⟩
  refine ⟨⟨_, reached⟩, ⟨_, reached'⟩, signatures_stay_on_their_network reached reached'
    (free_of_named rfl ?_ names) (free_of_named rfl ?_ names') ?_ payment (by simp [entries]) dearPayment
    (by simp [entries])⟩
  · exact fun _ => slots_of_plain (by decide) (by decide) rfl
  · exact fun _ => slots_of_plain (by decide) (by decide) rfl
  · rintro tx state tx' state' executes executes' ⟨-, -, quote, first, second⟩
    obtain ⟨rfl, found⟩ := executesIn_singleton executes
    obtain ⟨rfl, found'⟩ := executesIn_singleton executes'
    cases found.symm.trans built
    cases found'.symm.trans built'
    have same := (first.symm.trans quoted).symm.trans (second.symm.trans quoted')
    exact absurd same (by decide)

end Devnet
end Sena
