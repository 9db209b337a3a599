import Sena.LedgerRuns

/-! Who can spend an account, and how often.

An account loses only what its own transactions pay and transfer, the vault only
what is distributed over the split in state; and the transactions of an account
execute in the order of their nonces, each once. -/
namespace Sena

open Move

namespace Execute

variable {crypto : Crypto} {trie trie' : MerkleTrie}

/-- What a transaction can cost its sender in asset `a`: the part of the hold that
is not refunded, and what it transfers. -/
def spent (crypto : Crypto) (ctx : BatchContext) (a : U32) (tx : Transaction) : Nat :=
  (match chargeAndPayload crypto tx ctx with
    | .ok (charge, _) => if tx.feeAsset = a then charge.hold.val - charge.refund.val else 0
    | .error _ => 0) +
  match tx.payload with
  | .transfer _ asset amount => if asset = a then amount.val else 0
  | _ => 0

/-- What a transaction takes out of the vault in asset `a`. -/
def distributed (a : U32) (tx : Transaction) : Nat :=
  match tx.payload with
  | .distributeFees asset amount _ => if asset = a then amount.val else 0
  | _ => 0

variable {σ σ' : Store}

theorem balance_eq_supply (σ : Store) (x : L2Address) (a : U32) : σ.balance x a = σ.supply {x} a := by
  simp [Store.supply]

variable {tx : Transaction} {es : List Entry}

section
variable (executed : σ.Executes crypto (ctx, tx) σ')
include executed

theorem balance_le_of_executes (ordinary : x ≠ FEE_VAULT) (a : U32) :
    σ.balance x a ≤ σ'.balance x a + if tx.sender = x then spent crypto ctx a tx else 0 := by
  obtain ⟨p, compiled, ran⟩ := executed
  obtain ⟨charge, payload, charged, parts, sums⟩ := sums_compile compiled
  obtain ⟨taken, given⟩ := sums {x} a
  have moved := Store.run_supply ran {x} a
  rw [taken, given, ← balance_eq_supply, ← balance_eq_supply] at moved
  have takes : tx.payload.taken tx.sender {x} a = if tx.sender = x then (match tx.payload with
      | .transfer _ asset amount => if asset = a then amount.val else 0
      | _ => 0) else 0 := by
    cases tx.payload <;> simp [Payload.taken, ordinary.symm, ite_and]
  rw [takes] at moved
  simp only [Finset.mem_singleton] at moved
  have kept : charge.hold.val - charge.refund.val + charge.refund.val = charge.hold.val :=
    Nat.sub_add_cancel (by omega)
  by_cases own : tx.sender = x
  · by_cases paid : tx.feeAsset = a <;>
      simp only [own, paid, true_and, and_true, if_true, if_false, spent, charged] at moved ⊢ <;> omega
  · simp only [own, false_and, if_false] at moved ⊢
    omega

theorem vault_le_of_executes (other : tx.sender ≠ FEE_VAULT) (a : U32) :
    σ.balance FEE_VAULT a ≤ σ'.balance FEE_VAULT a + distributed a tx := by
  obtain ⟨p, compiled, ran⟩ := executed
  obtain ⟨charge, payload, charged, parts, sums⟩ := sums_compile compiled
  obtain ⟨taken, given⟩ := sums {FEE_VAULT} a
  have moved := Store.run_supply ran {FEE_VAULT} a
  rw [taken, given, ← balance_eq_supply, ← balance_eq_supply] at moved
  have takes : tx.payload.taken tx.sender {FEE_VAULT} a = distributed a tx := by
    unfold distributed
    cases tx.payload <;> simp [Payload.taken, other]
  rw [takes] at moved
  simp only [Finset.mem_singleton, other, false_and, if_false] at moved
  omega

/-- A distribution executes only over the split in state. -/
theorem split_of_executes
    (distributes : tx.payload = .distributeFees asset amount split) : σ .feeSplit = some split.encode := by
  obtain ⟨p, compiled, ran⟩ := executed
  obtain ⟨_, _, payload, _, charge, shaped, _, _, rfl⟩ := compile_eq_ok.mp compiled
  rw [distributes, compilePayload] at shaped
  split at shaped
  · cases shaped
  obtain ⟨shares, _, shaped⟩ := bind_eq_ok.mp shaped
  cases shaped
  rw [program_eq, Run.append_iff] at ran
  obtain ⟨mid, opened, _, ⟨written, verified, _⟩, _⟩ := ran
  have kept : mid .feeSplit = σ .feeSplit := Store.run_frame opened fun i emitted here => by
    rcases on_opening emitted with ⟨_, _, on⟩ | on | on | on <;> rw [on] at here <;> cases here
  rw [← kept]
  change transition crypto (.verifyFeeSplit split) (mid .feeSplit) = .ok written at verified
  simp only [transition, bind_eq_ok] at verified
  obtain ⟨b, found, verified⟩ := verified
  cases held : mid .feeSplit with
  | none =>
    rw [held] at found
    cases found
  | some contents =>
    rw [held] at found
    obtain rfl : contents = b := Except.ok.inj found
    by_cases same : contents = split.encode
    · rw [same]
    · simp [same] at verified

end

theorem balance_congr (same : σ (.account x) = σ' (.account x)) (a : U32) : σ.balance x a = σ'.balance x a := by
  rw [Store.balance, Store.balance, Store.account, Store.account, same]

/-- No one else can spend an account. What an account other than the vault loses
over a batch its own transactions have paid and transferred, and each of them was
authenticated; what the vault loses was distributed over the split state held at
that point. -/
theorem accounts_lose_only_to_their_own {txs : List Transaction} {trace : ExecutionTrace}
    (executed : executeBatch crypto trie ctx txs = .ok (trie', trace)) (x : L2Address) (a : U32)
    (free : CollisionFree crypto.sha256
      (Slot.image '' (slotsOf crypto (txs.map (ctx, ·)) ∪ {.account x, .account FEE_VAULT}))) :
    let before := trie.bySlot crypto
    let after := trie'.bySlot crypto
    (x ≠ FEE_VAULT →
      ((∀ tx ∈ txs, tx.sender ≠ x) → before.balance x a ≤ after.balance x a) ∧
      before.balance x a ≤ after.balance x a +
        (txs.map fun tx => if tx.sender = x then spent crypto ctx a tx else 0).sum ∧
      ∀ tx ∈ txs, tx.sender = x → tx.authenticate crypto ctx.keyless ctx.timestamp = .ok ()) ∧
    ((∀ tx ∈ txs, tx.sender ≠ FEE_VAULT) →
      before.balance FEE_VAULT a ≤ after.balance FEE_VAULT a + (txs.map (distributed a)).sum) ∧
    ∀ earlier tx later asset amount split, txs = earlier ++ tx :: later →
      tx.payload = .distributeFees asset amount split →
        ∃ mid trace, executeBatch crypto trie ctx earlier = .ok (mid, trace) ∧
          mid.get (Keys.feeSplit crypto) = some split.encode := by
  intro before after
  have ran := (executeBatch_iff ctx txs).mp ⟨trace, executed⟩
  have apart := Slot.apart_of_free free fun s named => by
    rcases named with named | rfl | rfl
    · exact fits_of_mem_slotsOf named
    · trivial
    · trivial
  obtain ⟨σ', ran', same⟩ := Store.executes_of_trie apart _ Set.subset_union_left (Set.eqOn_refl before _) ran
  have ends : ∀ y, y = x ∨ y = FEE_VAULT → σ'.balance y a = after.balance y a := by
    rintro y (rfl | rfl)
    · exact balance_congr (same (.inr (.inl rfl))).symm a
    · exact balance_congr (same (.inr (.inr rfl))).symm a
  refine ⟨fun ordinary => ?_, fun none => ?_, ?_⟩
  · have loses : before.balance x a ≤ after.balance x a +
        (txs.map fun tx => if tx.sender = x then spent crypto ctx a tx else 0).sum := by
      have bound := ran'.loses_at_most (·.balance x a)
        (fun e => if e.2.sender = x then spent crypto ctx a e.2 else 0) fun σ e σ' among executed => by
          obtain ⟨tx, _, rfl⟩ := List.mem_map.mp among
          exact balance_le_of_executes executed ordinary a
      rwa [List.map_map, ends x (.inl rfl)] at bound
    refine ⟨fun others => ?_, loses, fun tx among _ => ?_⟩
    · have nothing : (txs.map fun tx => if tx.sender = x then spent crypto ctx a tx else 0) =
          txs.map fun _ => 0 := List.map_congr_left fun tx among => if_neg (others tx among)
      rw [nothing] at loses
      simpa using loses
    · obtain ⟨earlier, later, rfl⟩ := List.append_of_mem among
      rw [List.map_append, List.map_cons, Run.append_iff] at ran
      obtain ⟨_, _, _, ⟨p, compiled, _⟩, _⟩ := ran
      exact (compile_eq_ok.mp compiled).2.1
  · have bound := ran'.loses_at_most (·.balance FEE_VAULT a) (fun e => distributed a e.2) fun σ e σ' among executed => by
        obtain ⟨tx, listed, rfl⟩ := List.mem_map.mp among
        exact vault_le_of_executes executed (none tx listed) a
    rwa [List.map_map, ends FEE_VAULT (.inr rfl)] at bound
  · rintro earlier tx later asset amount split rfl distributes
    rw [List.map_append, List.map_cons, Run.append_iff] at ran
    obtain ⟨mid, started, next, paid, _⟩ := ran
    obtain ⟨trace, started'⟩ := (executeBatch_iff ctx earlier).mpr started
    refine ⟨mid, trace, started', ?_⟩
    have inSlots : ∀ s, (∃ p, compile crypto tx ctx = .ok p ∧ ∃ i ∈ p, i.on = s) →
        s ∈ slotsOf crypto ((earlier ++ tx :: later).map (ctx, ·)) := by
      rintro s named
      exact ⟨(ctx, tx), by simp, named⟩
    obtain ⟨σ₁, executed₁, _⟩ := Store.executes_of_trie apart [(ctx, tx)] (fun s named => by
      obtain ⟨e, here, named⟩ := named
      obtain rfl := List.mem_singleton.mp here
      exact .inl (inSlots s named)) (Set.eqOn_refl (mid.bySlot crypto) _) (Run.singleton_iff.mpr paid)
    exact split_of_executes (Run.singleton_iff.mp executed₁) distributes

end Execute

namespace Devnet

/-- The devnet's batch takes nothing from an account that sent none of it. -/
theorem batch_takes_nothing_from_bob : ∃ trie trace,
    Execute.executeBatch crypto genesis context batch = .ok (trie, trace) ∧
      (genesis.bySlot crypto).balance bob 1 ≤ (trie.bySlot crypto).balance bob 1 := by
  obtain ⟨trie, trace, executed, _⟩ := executes
  refine ⟨trie, trace, executed, ((Execute.accounts_lose_only_to_their_own executed bob 1 (free_of_slots ?_)).1
    (by decide)).1 (by decide)⟩
  rintro s (among | rfl | rfl)
  · exact named among
  · simp [slots]
  · simp [slots]

end Devnet

namespace Execute

variable {crypto : Crypto} {σ σ' : Store} {tx : Transaction} {es : List Entry}

theorem consumed_compilePayload {payload : Payload} (compiled : compilePayload crypto payload sender = .ok is)
    (x : L2Address) : (is.map (·.consumed x)).sum = 0 := by
  rw [List.sum_eq_zero_iff, List.forall_mem_map]
  intro i emitted
  cases emits_of_compilePayload compiled emitted with
  | @update _ update => cases update <;> rfl
  | _ => rfl

theorem consumed_compile (compiled : compile crypto tx ctx = .ok p) (x : L2Address) :
    (p.map (·.consumed x)).sum = if tx.sender = x then 1 else 0 := by
  obtain ⟨_, _, payload, _, charge, shaped, _, _, rfl⟩ := compile_eq_ok.mp compiled
  have credits : ∀ (y : L2Address) (asset : U32) (amount : U128),
      ((creditSome y asset amount).map (·.consumed x)).sum = 0 := by
    intro y asset amount
    unfold creditSome
    split <;> simp [Instruction.consumed]
  have opened : ((opening tx ctx charge).map (·.consumed x)).sum = if tx.sender = x then 1 else 0 := by
    unfold opening
    cases tx.authenticator <;> simp [Instruction.consumed]
  simp [program_eq, opened, consumed_compilePayload shaped, closing, credits]

theorem nonce_of_executes (executed : σ.Executes crypto (ctx, tx) σ') (x : L2Address) :
    σ'.nonce x = σ.nonce x + (if tx.sender = x then 1 else 0) ∧ (tx.sender = x → tx.nonce.val = σ.nonce x) := by
  obtain ⟨p, compiled, ran⟩ := executed
  constructor
  · rw [← consumed_compile compiled x]
    exact ran.gains (·.nonce x) (·.consumed x) fun _ _ _ _ stepped => stepped.nonce x
  · rintro rfl
    obtain ⟨_, _, payload, _, charge, _, _, _, rfl⟩ := compile_eq_ok.mp compiled
    rw [program_eq, Run.append_iff] at ran
    obtain ⟨mid, opened, _⟩ := ran
    unfold opening at opened
    cases signed : tx.authenticator with
    | ed25519 _ _ =>
      rw [signed] at opened
      obtain ⟨_, consumed, _⟩ := opened
      exact consumed.expected.symm
    | keyless sig =>
      rw [signed] at opened
      obtain ⟨_, verified, _, consumed, _⟩ := opened
      rw [← consumed.expected, verified.nonce]
      rfl

/-- The transactions with sender `x`. -/
def sentBy (x : L2Address) (es : List Entry) : List Transaction :=
  (es.filter (·.2.sender = x)).map (·.2)

theorem nonces_of_run (ran : Run (Store.Executes crypto) σ es σ') (x : L2Address) :
    (sentBy x es).map (·.nonce.val) = List.range' (σ.nonce x) (sentBy x es).length ∧
      σ'.nonce x = σ.nonce x + (sentBy x es).length := by
  induction es generalizing σ with
  | nil =>
    cases ran
    exact ⟨rfl, rfl⟩
  | cons e rest ih =>
    obtain ⟨mid, executed, ran⟩ := ran
    obtain ⟨moved, expected⟩ := nonce_of_executes executed x
    obtain ⟨order, last⟩ := ih ran
    by_cases own : e.2.sender = x
    · have listed : sentBy x (e :: rest) = e.2 :: sentBy x rest := by simp [sentBy, own]
      rw [if_pos own] at moved
      rw [listed, List.map_cons, order, List.length_cons, List.range'_succ, expected own, moved, last]
      exact ⟨rfl, by omega⟩
    · have skipped : sentBy x (e :: rest) = sentBy x rest := by simp [sentBy, own]
      rw [if_neg own, Nat.add_zero] at moved
      rw [skipped, order, moved, last, moved]
      exact ⟨rfl, rfl⟩

theorem nodup_of_nonces (ordered : ∀ x, ((sentBy x es).map (·.nonce.val)).Nodup) : (es.map (·.2)).Nodup := by
  rw [List.nodup_iff_sublist]
  intro tx twice
  have listed : sentBy tx.sender es = (es.map (·.2)).filter (·.sender = tx.sender) := by
    simp [sentBy, List.filter_map, Function.comp_def]
  have repeated : [tx, tx].Sublist (sentBy tx.sender es) := by
    rw [listed]
    simpa using twice.filter (·.sender = tx.sender)
  have nonces := repeated.map (·.nonce.val)
  exact List.nodup_iff_sublist.mp (ordered tx.sender) tx.nonce.val (by simpa using nonces)

/-- No account of the genesis has used a nonce. -/
theorem nonce_of_plan {config : GenesisConfig}
    (founded : Run (Store.Founds crypto) (fun _ => none) (config.plan members hashes) σ) (x : L2Address) :
    σ.nonce x = 0 := by
  refine founded.invariant (fun σ => σ.nonce x = 0) ?_ rfl
  intro σ f σ' planned fresh wrote
  cases f with
  | council record =>
    cases wrote
    rw [Store.nonce, Store.account, Function.update_of_ne (by simp)]
    exact fresh
  | apply i =>
    have unused : i.consumed x = 0 := by
      simp only [GenesisConfig.plan, GenesisConfig.lastWrites, List.mem_append, List.mem_map,
        List.mem_singleton, reduceCtorEq, and_false, exists_false, or_false, Founding.apply.injEq] at planned
      obtain ⟨_, _, rfl⟩ | ((rfl | ⟨_, _, rfl⟩) | ⟨_, _, rfl⟩) | ⟨_, _, rfl⟩ := planned <;> rfl
    rw [Store.Steps.nonce wrote x, fresh, unused]

/-- Transactions execute once and in order. After any batches from a genesis the
transactions of every account have executed with the nonces 0, 1, 2 and so on,
the account's stored nonce is how many they are, and no transaction executed
twice. -/
theorem transactions_execute_in_order {config : GenesisConfig}
    (reached : config.Reaches crypto hashing batches trie) (x : L2Address)
    (free : CollisionFree crypto.sha256
      (Slot.image '' (config.named crypto hashing batches ∪ {.account x}))) :
    (sentBy x (entries batches)).map (·.nonce.val) = List.range (sentBy x (entries batches)).length ∧
      (trie.bySlot crypto).nonce x = (sentBy x (entries batches)).length ∧
      ((entries batches).map (·.2)).Nodup := by
  have apart := Slot.apart_of_free free fun s named => by
    rcases named with named | rfl
    · exact GenesisConfig.fits_of_mem_named named
    · trivial
  obtain ⟨members, hashes, σ₀, σ, _, founded, ran, same⟩ := reached.onStore apart Set.subset_union_left
  have fresh := nonce_of_plan founded
  obtain ⟨order, last⟩ := nonces_of_run ran x
  refine ⟨?_, ?_, nodup_of_nonces fun y => ?_⟩
  · rw [order, fresh, List.range_eq_range']
  · rw [Store.nonce, Store.account, same (.inr rfl)]
    exact last.trans (by rw [fresh, Nat.zero_add])
  · rw [(nonces_of_run ran y).1]
    exact List.nodup_range'

end Execute

namespace Devnet

/-- The devnet's three transactions used the first three nonces. -/
theorem batch_uses_three_nonces : ∃ trie, config.Reaches crypto hashing [(context, batch)] trie ∧
    (trie.bySlot crypto).nonce alice = 3 := by
  obtain ⟨trie, trace, _, reached⟩ := executes
  refine ⟨trie, reached, (Execute.transactions_execute_in_order reached alice (free_of_slots ?_)).2.1⟩
  rintro s (among | rfl)
  · exact named_config among
  · simp [slots]

end Devnet
end Sena
