import Mathlib.Algebra.Order.BigOperators.Group.Finset
import Mathlib.Algebra.Order.BigOperators.Group.List
import Sena.Ledger
import Sena.Sha256

/-! Value and nonces over whole batches.

A transaction's program takes a hold and its payload's amount, and gives the
payload's amounts and the parts of the hold. Over a run nothing is made and only
a distribution's remainder is burned; an account loses only to its own
transactions, and those execute in the order of their nonces. -/
namespace Sena

open Move
open Instruction (debited)

namespace Execute

variable {crypto : Crypto} {xs : Finset L2Address} {a : U32}

/-- What a program takes in asset `a` from the accounts in `xs`. -/
def debits (xs : Finset L2Address) (a : U32) (program : List Instruction) : Nat :=
  (program.map (·.debited xs a)).sum

/-- What a program gives in asset `a` to the accounts in `xs`. -/
def credits (xs : Finset L2Address) (a : U32) (program : List Instruction) : Nat :=
  (program.map (·.credited xs a)).sum

@[simp] theorem debits_nil : debits xs a [] = 0 := rfl

@[simp] theorem debits_cons : debits xs a (i :: p) = i.debited xs a + debits xs a p := rfl

@[simp] theorem debits_append (p q : List Instruction) : debits xs a (p ++ q) = debits xs a p + debits xs a q := by
  simp [debits]

@[simp] theorem credits_nil : credits xs a [] = 0 := rfl

@[simp] theorem credits_cons : credits xs a (i :: p) = i.credited xs a + credits xs a p := rfl

@[simp] theorem credits_append (p q : List Instruction) :
    credits xs a (p ++ q) = credits xs a p + credits xs a q := by
  simp [credits]

@[simp] theorem debits_creditSome (x : L2Address) (asset : U32) (amount : U128) :
    debits xs a (creditSome x asset amount) = 0 := by
  unfold creditSome
  split <;> simp [debited]

@[simp] theorem credits_creditSome (x : L2Address) (asset : U32) (amount : U128) :
    credits xs a (creditSome x asset amount) = if x ∈ xs ∧ asset = a then amount.val else 0 := by
  unfold creditSome
  split
  · simp [Instruction.credited]
  · rename_i zero
    simp [Nat.eq_zero_of_not_pos zero]

/-- What comes before a payload: the checks and the hold. -/
def opening (tx : Transaction) (ctx : BatchContext) (charge : FeeCharge) : List Instruction :=
  (match tx.authenticator with
    | .ed25519 _ _ => []
    | .keyless sig => [.verifyJwk sig.issHash sig.jwkHash]) ++
  [.consumeNonce tx.sender tx.nonce,
    .verifyGasAsset tx.feeAsset tx.feeRate tx.feeIntrinsicGas,
    .chargeBaseFee ctx.timestamp ctx.baseFee charge.gasUsed,
    .debit tx.sender tx.feeAsset charge.hold]

/-- What comes after a payload: the parts of the hold. -/
def closing (tx : Transaction) (ctx : BatchContext) (charge : FeeCharge) : List Instruction :=
  creditSome tx.sender tx.feeAsset charge.refund ++ creditSome ctx.feeRecipient tx.feeAsset charge.tip ++
    creditSome FEE_VAULT tx.feeAsset charge.base

theorem program_eq (tx : Transaction) (ctx : BatchContext) (charge : FeeCharge) (payload : List Instruction) :
    program tx ctx charge payload = opening tx ctx charge ++ (payload ++ closing tx ctx charge) := by
  unfold program opening closing
  cases tx.authenticator <;> simp

theorem on_opening (emitted : i ∈ opening tx ctx charge) :
    (∃ iss key, i.on = .jwk iss key) ∨ i.on = .account tx.sender ∨ i.on = .asset tx.feeAsset ∨ i.on = .feeMarket := by
  unfold opening at emitted
  cases signed : tx.authenticator with
  | ed25519 _ _ =>
    rw [signed] at emitted
    simp only [List.nil_append, List.mem_cons, List.not_mem_nil, or_false] at emitted
    rcases emitted with rfl | rfl | rfl | rfl <;> simp [Instruction.on]
  | keyless sig =>
    rw [signed] at emitted
    simp only [List.singleton_append, List.mem_cons, List.not_mem_nil, or_false] at emitted
    rcases emitted with rfl | rfl | rfl | rfl | rfl <;> simp [Instruction.on]

theorem on_creditSome (emitted : i ∈ creditSome x asset amount) : i.on = .account x := by
  unfold creditSome at emitted
  split at emitted
  · rw [List.mem_singleton.mp emitted]
    rfl
  · cases emitted

theorem on_closing (emitted : i ∈ closing tx ctx charge) : ∃ x, i.on = .account x := by
  simp only [closing, List.mem_append] at emitted
  rcases emitted with (credited | credited) | credited <;> exact ⟨_, on_creditSome credited⟩

section
variable (tx : Transaction) (ctx : BatchContext) (charge : FeeCharge) (payload : List Instruction)
include tx ctx charge payload

theorem debits_program : debits xs a (program tx ctx charge payload) =
      (if tx.sender ∈ xs ∧ tx.feeAsset = a then charge.hold.val else 0) + debits xs a payload := by
  unfold program
  cases tx.authenticator <;> simp [debited]

theorem credits_program : credits xs a (program tx ctx charge payload) = credits xs a payload +
      (if tx.sender ∈ xs ∧ tx.feeAsset = a then charge.refund.val else 0) +
      (if ctx.feeRecipient ∈ xs ∧ tx.feeAsset = a then charge.tip.val else 0) +
      (if FEE_VAULT ∈ xs ∧ tx.feeAsset = a then charge.base.val else 0) := by
  unfold program
  cases tx.authenticator <;> simp [Instruction.credited, Nat.add_assoc]

end

end Execute

namespace FeeSplit

/-- A beneficiary's share of an amount, rounded down. -/
def share (amount : U128) (e : L2Address × U32) : Nat := amount.val * e.2.val / Gas.SHARE_SCALE.val

/-- What no beneficiary is credited with. -/
def burned (split : FeeSplit) (amount : U128) : Nat := amount.val - (split.beneficiaries.map (share amount)).sum

theorem sharesOf_eq_ok {split : FeeSplit} (shared : split.sharesOf amount = .ok shares) :
    shares.map (fun s => (s.1, s.2.val)) = split.beneficiaries.map fun e => (e.1, share amount e) := by
  obtain ⟨entries, burn⟩ := split
  unfold sharesOf at shared
  simp only at shared ⊢
  induction entries generalizing shares with
  | nil =>
    cases shared
    rfl
  | cons e rest ih =>
    rw [List.mapM_cons] at shared
    simp only [bind_eq_ok, pure_iff] at shared
    obtain ⟨_, ⟨product, multiplied, rfl⟩, others, shared, rfl⟩ := shared
    rw [List.map_cons, List.map_cons, ih shared, share, ← Gas.checked_eq_ok.mp multiplied]

theorem sum_share_bounds (amount : U128) (entries : List (L2Address × U32)) :
    (entries.map (share amount)).sum * Gas.SHARE_SCALE.val ≤ amount.val * (entries.map (·.2.val)).sum ∧
      amount.val * (entries.map (·.2.val)).sum ≤
        (entries.map (share amount)).sum * Gas.SHARE_SCALE.val + entries.length * Gas.SHARE_SCALE.val := by
  induction entries with
  | nil => simp
  | cons e rest ih =>
    have divided := Nat.div_add_mod (amount.val * e.2.val) Gas.SHARE_SCALE.val
    have small : amount.val * e.2.val % Gas.SHARE_SCALE.val < Gas.SHARE_SCALE.val := Nat.mod_lt _ (by decide)
    simp only [List.map_cons, List.sum_cons, List.length_cons, Nat.mul_add, share,
      Nat.mul_comm _ Gas.SHARE_SCALE.val] at ih ⊢
    omega

theorem burned_bounds {split : FeeSplit} (checked : split.check.isOk = true) (amount : U128) :
    (split.beneficiaries.map (share amount)).sum + split.burned amount = amount.val ∧
      amount.val * split.burn.val ≤ split.burned amount * Gas.SHARE_SCALE.val ∧
      split.burned amount * Gas.SHARE_SCALE.val ≤
        amount.val * split.burn.val + split.beneficiaries.length * Gas.SHARE_SCALE.val := by
  obtain ⟨lower, upper⟩ := sum_share_bounds amount split.beneficiaries
  have total := (check_isOk_iff.mp checked).2.2.2
  have parts : amount.val * split.burn.val + amount.val * (split.beneficiaries.map (·.2.val)).sum =
      amount.val * Gas.SHARE_SCALE.val := by
    rw [← Nat.mul_add, total]
  have within : (split.beneficiaries.map (share amount)).sum ≤ amount.val :=
    Nat.le_of_mul_le_mul_right (lower.trans (by omega)) (show 0 < Gas.SHARE_SCALE.val by decide)
  have rest : (split.beneficiaries.map (share amount)).sum + split.burned amount = amount.val := by
    unfold burned
    omega
  have scaled := congrArg (· * Gas.SHARE_SCALE.val) rest
  simp only [Nat.add_mul] at scaled
  exact ⟨rest, by omega, by omega⟩

end FeeSplit

namespace Payload

/-- What the payload takes in asset `a` from the accounts in `xs`, for `sender`. -/
def taken (sender : L2Address) (xs : Finset L2Address) (a : U32) : Payload → Nat
  | transfer _ asset amount => if sender ∈ xs ∧ asset = a then amount.val else 0
  | distributeFees asset amount _ => if Execute.FEE_VAULT ∈ xs ∧ asset = a then amount.val else 0
  | _ => 0

/-- What the payload gives in asset `a` to the accounts in `xs`. -/
def given (xs : Finset L2Address) (a : U32) : Payload → Nat
  | transfer recipient asset amount => if recipient ∈ xs ∧ asset = a then amount.val else 0
  | distributeFees asset amount split =>
    (split.beneficiaries.map fun e => if e.1 ∈ xs ∧ asset = a then FeeSplit.share amount e else 0).sum
  | _ => 0

end Payload

namespace Execute

variable {crypto : Crypto} {xs : Finset L2Address} {a : U32}

theorem sums_shares (xs : Finset L2Address) (a : U32) (shares : List (L2Address × U128)) (asset : U32) :
    let credited := (shares.filter (0 < ·.2.val)).map fun share => Instruction.credit share.1 asset share.2
    debits xs a credited = 0 ∧ credits xs a credited =
      ((shares.map fun s => (s.1, s.2.val)).map fun s => if s.1 ∈ xs ∧ asset = a then s.2 else 0).sum := by
  intro credited
  induction shares with
  | nil => exact ⟨rfl, rfl⟩
  | cons share rest ih =>
    by_cases positive : 0 < share.2.val
    · simp only [credited, List.filter_cons, positive, decide_true, if_true, List.map_cons, debits_cons,
        credits_cons, List.sum_cons, ih]
      exact ⟨rfl, rfl⟩
    · have zero : share.2.val = 0 := Nat.eq_zero_of_not_pos positive
      simp only [credited, List.filter_cons, positive, decide_false, Bool.false_eq_true, if_false, List.map_cons,
        List.sum_cons]
      rw [ih.1, ih.2]
      simp [zero]

theorem sums_compilePayload (xs : Finset L2Address) (a : U32) {payload : Payload} (compiled : compilePayload crypto payload sender = .ok is) :
    debits xs a is = payload.taken sender xs a ∧ credits xs a is = payload.given xs a := by
  cases payload with
  | transfer recipient asset amount =>
    simp only [compilePayload] at compiled
    split at compiled
    · cases compiled
    · cases compiled
      exact ⟨rfl, by simp [Instruction.credited, Payload.given]⟩
  | bindIdentifier channel identifier =>
    cases compiled
    exact ⟨rfl, rfl⟩
  | unbindIdentifier identifier =>
    cases compiled
    exact ⟨rfl, rfl⟩
  | governance epoch update signatures =>
    obtain ⟨_, _, compiled⟩ := bind_eq_ok.mp compiled
    cases compiled
    cases update <;> exact ⟨rfl, rfl⟩
  | distributeFees asset amount split =>
    simp only [compilePayload] at compiled
    split at compiled
    · cases compiled
    · obtain ⟨shares, shared, compiled⟩ := bind_eq_ok.mp compiled
      cases compiled
      obtain ⟨taken, given⟩ := sums_shares xs a shares asset
      rw [debits_cons, debits_cons, taken, credits_cons, credits_cons, given,
        FeeSplit.sharesOf_eq_ok (mapError_eq_ok.mp shared), List.map_map]
      exact ⟨by simp [debited, Payload.taken], by simp [Instruction.credited, Payload.given, Function.comp_def]⟩

theorem sums_compile {tx : Transaction} (compiled : compile crypto tx ctx = .ok p) :
    ∃ charge payload, chargeAndPayload crypto tx ctx = .ok (charge, payload) ∧
      charge.refund.val + charge.tip.val + charge.base.val = charge.hold.val ∧
      ∀ xs a, debits xs a p =
          (if tx.sender ∈ xs ∧ tx.feeAsset = a then charge.hold.val else 0) + tx.payload.taken tx.sender xs a ∧
        credits xs a p = tx.payload.given xs a +
          (if tx.sender ∈ xs ∧ tx.feeAsset = a then charge.refund.val else 0) +
          (if ctx.feeRecipient ∈ xs ∧ tx.feeAsset = a then charge.tip.val else 0) +
          (if FEE_VAULT ∈ xs ∧ tx.feeAsset = a then charge.base.val else 0) := by
  obtain ⟨_, _, payload, used, charge, shaped, gas, settled, rfl⟩ := compile_eq_ok.mp compiled
  refine ⟨charge, payload, ?_, (Gas.settle_spec settled).2, fun xs a => ?_⟩
  · simp [chargeAndPayload, shaped, gas, settled, Except.mapError]
  · obtain ⟨taken, given⟩ := sums_compilePayload xs a shaped
    rw [debits_program, credits_program, taken, given]
    exact ⟨rfl, rfl⟩

end Execute

/-- What a transaction burns of asset `a`: a distribution's remainder. -/
def Transaction.burned (tx : Transaction) (a : U32) : Nat :=
  match tx.payload with
  | .distributeFees asset amount split => if asset = a then split.burned amount else 0
  | _ => 0

namespace Execute

variable {crypto : Crypto} {xs ys : Finset L2Address} {a : U32}

theorem sums_of_covers (within : xs ⊆ ys) (covers : ∀ i ∈ p, ∀ x, i.on = .account x → x ∈ xs) :
    debits xs a p = debits ys a p ∧ credits xs a p = credits ys a p := by
  induction p with
  | nil => exact ⟨rfl, rfl⟩
  | cons i rest ih =>
    rw [List.forall_mem_cons] at covers
    obtain ⟨taken, given⟩ := ih covers.2
    simp only [debits_cons, credits_cons, taken, given]
    cases i with
    | debit x asset amount =>
      have inXs := covers.1 x rfl
      simp [debited, Instruction.credited, inXs, within inXs]
    | credit x asset amount =>
      have inXs := covers.1 x rfl
      simp [debited, Instruction.credited, inXs, within inXs]
    | _ => exact ⟨rfl, rfl⟩

theorem checked_of_compile {tx : Transaction} (compiled : compile crypto tx ctx = .ok p)
    (distributes : tx.payload = .distributeFees asset amount split) : split.check.isOk = true := by
  obtain ⟨_, _, payload, _, _, shaped, _⟩ := compile_eq_ok.mp compiled
  rw [distributes, compilePayload] at shaped
  split at shaped
  · cases shaped
  · rename_i good
    rw [not_or, Bool.not_eq_false] at good
    exact good.2

/-- A program gives what it takes, except for what its transaction burns. -/
theorem credits_add_burned {tx : Transaction} (compiled : compile crypto tx ctx = .ok p)
    (covers : ∀ i ∈ p, ∀ x, i.on = .account x → x ∈ xs) :
    credits xs a p + tx.burned a = debits xs a p := by
  -- all accounts the transaction could name, so that every test of membership succeeds
  let named : Finset L2Address := {tx.sender, ctx.feeRecipient, FEE_VAULT} ∪ match tx.payload with
    | .transfer recipient _ _ => {recipient}
    | .distributeFees _ _ split => (split.beneficiaries.map (·.1)).toFinset
    | _ => ∅
  obtain ⟨charge, _, _, parts, sums⟩ := sums_compile compiled
  obtain ⟨taken, given⟩ := sums_of_covers (a := a) (show xs ⊆ xs ∪ named from Finset.subset_union_left) covers
  obtain ⟨takes, gives⟩ := sums (xs ∪ named) a
  have fees : (if tx.feeAsset = a then charge.refund.val else 0) + (if tx.feeAsset = a then charge.tip.val else 0) +
      (if tx.feeAsset = a then charge.base.val else 0) = if tx.feeAsset = a then charge.hold.val else 0 := by
    split <;> omega
  have moved : tx.payload.given (xs ∪ named) a + tx.burned a = tx.payload.taken tx.sender (xs ∪ named) a := by
    cases kind : tx.payload with
    | transfer recipient asset amount => simp [Payload.given, Payload.taken, Transaction.burned, named, kind]
    | distributeFees asset amount split =>
      have shares : (split.beneficiaries.map fun e =>
          if e.1 ∈ xs ∪ named ∧ asset = a then FeeSplit.share amount e else 0) =
            split.beneficiaries.map fun e => if asset = a then FeeSplit.share amount e else 0 := by
        refine List.map_congr_left fun e among => ?_
        have inNamed : e.1 ∈ xs ∪ named := by
          simp only [named, kind, Finset.mem_union, List.mem_toFinset]
          exact .inr (.inr (List.mem_map_of_mem among))
        simp [inNamed]
      have vault : FEE_VAULT ∈ xs ∪ named := by simp [named]
      have total := (FeeSplit.burned_bounds (checked_of_compile compiled kind) amount).1
      simp only [Payload.given, Payload.taken, Transaction.burned, kind, shares, vault, true_and]
      split
      · exact total
      · simp
    | _ => simp [Payload.given, Payload.taken, Transaction.burned, kind]
  simp only [Finset.mem_union, named, Finset.mem_insert, Finset.mem_singleton, true_or, or_true, true_and] at takes gives
  rw [taken, given, takes, gives]
  simp only [named] at moved
  omega

end Execute

namespace Store

variable {crypto : Crypto} {σ σ' : Store}

theorem run_supply (ran : Run (Steps crypto) σ p σ') (xs : Finset L2Address) (a : U32) :
    σ'.supply xs a + Execute.debits xs a p = σ.supply xs a + Execute.credits xs a p :=
  ran.balance (·.supply xs a) _ _ fun _ _ _ _ stepped => stepped.supply xs a

theorem run_frame (ran : Run (Steps crypto) σ p σ') (elsewhere : ∀ i ∈ p, i.on ≠ s) : σ' s = σ s := by
  refine ran.invariant (fun τ => τ s = σ s) ?_ rfl
  rintro τ i τ' among kept ⟨written, _, _, rfl⟩
  rw [Function.update_of_ne (elsewhere i among).symm, kept]

theorem supply_congr (xs : Finset L2Address) (same : ∀ x ∈ xs, σ (.account x) = σ' (.account x)) (a : U32) :
    σ.supply xs a = σ'.supply xs a :=
  Finset.sum_congr rfl fun x among => by rw [balance, balance, account, account, same x among]

/-- A transaction takes from the accounts it names what it burns, and nothing else. -/
theorem Executes.supply (executed : σ.Executes crypto e σ') (xs : Finset L2Address) (a : U32)
    (covers : ∀ x, .account x ∈ Execute.slotsOf crypto [e] → x ∈ xs) :
    σ'.supply xs a + e.2.burned a = σ.supply xs a := by
  obtain ⟨p, compiled, ran⟩ := executed
  have moved := run_supply ran xs a
  have kept : Execute.credits xs a p + e.2.burned a = Execute.debits xs a p :=
    Execute.credits_add_burned compiled fun i emitted x here =>
      covers x ⟨e, List.mem_singleton_self e, p, compiled, i, emitted, here⟩
  omega

end Store

namespace GenesisConfig

variable {crypto : Crypto} {σ₀ σ : Store} {config : GenesisConfig}

/-- What the genesis allocates of asset `a`. -/
def allocated (config : GenesisConfig) (a : U32) : Nat :=
  (config.allocations.map fun e => if e.asset = a then e.amount.val else 0).sum

theorem mem_of_allocated (some' : 0 < config.allocated a) : a ∈ config.allocations.map (·.asset) := by
  by_contra missing
  have nothing : config.allocated a = 0 := by
    refine List.sum_eq_zero fun n listed => ?_
    obtain ⟨e, member, rfl⟩ := List.mem_map.mp listed
    exact if_neg fun same => missing (List.mem_map.mpr ⟨e, member, same⟩)
  omega

/-- What a write of the genesis gives in asset `a` to the accounts in `xs`. -/
def granted (xs : Finset L2Address) (a : U32) : Founding → Nat
  | .apply i => i.credited xs a
  | .council _ => 0

theorem supply_of_plan (founded : Run (Store.Founds crypto) (fun _ => none) (config.plan members hashes) σ)
    (xs : Finset L2Address) (a : U32) : σ.supply xs a =
      (config.allocations.map fun e => if e.address ∈ xs ∧ e.asset = a then e.amount.val else 0).sum := by
  have total := founded.gains (·.supply xs a) (granted xs a) fun σ f σ' planned wrote => by
    cases f with
    | council record =>
      cases wrote
      exact Store.supply_congr xs (fun x _ => Function.update_of_ne (by simp) _ _) a
    | apply i =>
      have taken : i.debited xs a = 0 := by
        simp only [plan, lastWrites, List.mem_append, List.mem_map, List.mem_singleton, reduceCtorEq, and_false,
          exists_false, or_false, Founding.apply.injEq] at planned
        obtain ⟨_, _, rfl⟩ | ((rfl | ⟨_, _, rfl⟩) | ⟨_, _, rfl⟩) | ⟨_, _, rfl⟩ := planned <;> rfl
      have moved := Store.Steps.supply wrote xs a
      simp only [granted]
      omega
  have empty : Store.supply (fun _ => none) xs a = 0 := Finset.sum_eq_zero fun _ _ => rfl
  have others : ∀ {α : Type} (f : α → Founding) (items : List α), (∀ e, granted xs a (f e) = 0) →
      ((items.map f).map (granted xs a)).sum = 0 := by
    intro α f items zero
    refine List.sum_eq_zero fun n listed => ?_
    simp only [List.mem_map, exists_exists_and_eq_and] at listed
    obtain ⟨e, _, rfl⟩ := listed
    exact zero e
  rw [total, empty, Nat.zero_add, plan, lastWrites]
  simp only [List.map_append, List.sum_append]
  rw [others _ _ fun _ => rfl, others _ _ fun _ => rfl, others _ _ fun _ => rfl, others _ _ fun _ => rfl]
  simp only [List.map_cons, List.map_nil, granted, Instruction.credited, List.sum_cons, List.sum_nil, Nat.zero_add,
    List.map_map]
  rfl

section
variable (founded : Run (Store.Founds crypto) (fun _ => none) (config.plan members hashes) σ₀)
  (ran : Run (Store.Executes crypto) σ₀ es σ)
include founded ran

theorem supply_of_run (ys : Finset L2Address) (a : U32) : σ.supply ys a ≤ config.allocated a := by
  -- over all accounts the run names nothing comes in
  let xs := ys ∪ ((Execute.slotList crypto es).filterMap fun s => match s with
    | .account x => some x
    | _ => none).toFinset
  have covers : ∀ x, .account x ∈ Execute.slotsOf crypto es → x ∈ xs := by
    intro x named
    refine Finset.mem_union_right _ (List.mem_toFinset.mpr ?_)
    exact List.mem_filterMap.mpr ⟨_, Execute.mem_slotsOf.mp named, rfl⟩
  have kept := ran.spends (·.supply xs a) (·.2.burned a) fun σ e σ' among executed =>
    executed.supply xs a fun x named => covers x (Execute.slotsOf_singleton_subset among named)
  have start : σ₀.supply xs a ≤ config.allocated a := by
    rw [supply_of_plan founded]
    refine List.sum_le_sum fun e _ => ?_
    split <;> split <;> simp_all
  have part : σ.supply ys a ≤ σ.supply xs a := Finset.sum_le_sum_of_subset Finset.subset_union_left
  omega

theorem length_of_run (x : L2Address) : (σ.account x).balances.entries.length ≤ config.allocations.length := by
  have positive : (σ.account x).Positive := by
    unfold Store.account
    cases decoded : Execute.decodeAccount (σ (.account x)) with
    | error _ => exact Account.canonical_new.positive
    | ok acc => exact Execute.decodeAccount_positive decoded
  refine Nat.le_trans ?_ (List.length_map (·.asset)).le
  refine Account.length_le_of_assets positive _ fun asset held => mem_of_allocated (Nat.lt_of_lt_of_le held ?_)
  simpa [Store.supply, Store.balance] using supply_of_run founded ran {x} asset

end

/-- In every state, all accounts together hold what the genesis allocated, less what the
distributions since have burned. -/
theorem supply_is_allocation_less_burns (reaches : config.Reaches crypto hashing batches trie) (xs : Finset L2Address)
    (a : U32) (covers : ∀ x, .account x ∈ config.named crypto hashing batches → x ∈ xs) (free : CollisionFree crypto.sha256
      (Slot.image '' (config.named crypto hashing batches ∪ Slot.account '' xs))) :
    (trie.bySlot crypto).supply xs a + ((Execute.entries batches).map (·.2.burned a)).sum = config.allocated a := by
  have apart := Slot.apart_of_free free fun s named => by
    rcases named with named | ⟨x, _, rfl⟩
    · exact fits_of_mem_named named
    · trivial
  obtain ⟨_, _, σ₀, σ, _, founded, ran, same⟩ := reaches.onStore apart Set.subset_union_left
  have kept := ran.spends (·.supply xs a) (·.2.burned a) fun σ e σ' among executed =>
    executed.supply xs a fun x named => covers x (.inr (Execute.slotsOf_singleton_subset among named))
  rw [Store.supply_congr xs (fun x among => same (.inr ⟨x, among, rfl⟩)), kept, supply_of_plan founded, allocated]
  congr 1
  refine List.map_congr_left fun e listed => ?_
  have covered := covers e.address (.inl (.inr (.inr (.inr (.inr (.inl ⟨e, listed, rfl⟩))))))
  simp [covered]

end GenesisConfig

namespace Execute

variable {crypto : Crypto} {trie trie' : MerkleTrie}

/-- Nothing is made and nothing is lost. Over any accounts that include those a
batch names, what they hold together falls by what its distributions leave
uncredited, which is the burned share and the rounding of the others. -/
theorem supply_is_conserved {txs : List Transaction} {trace : ExecutionTrace}
    (executed : executeBatch crypto trie ctx txs = .ok (trie', trace)) (xs : Finset L2Address) (a : U32)
    (covers : ∀ x, .account x ∈ slotsOf crypto (txs.map (ctx, ·)) → x ∈ xs)
    (free : CollisionFree crypto.sha256 (Slot.image '' (slotsOf crypto (txs.map (ctx, ·)) ∪ Slot.account '' xs))) :
    (trie'.bySlot crypto).supply xs a + (txs.map (·.burned a)).sum = (trie.bySlot crypto).supply xs a ∧
      ∀ tx ∈ txs, ∀ asset amount split, tx.payload = .distributeFees asset amount split →
        (split.beneficiaries.map (FeeSplit.share amount)).sum + split.burned amount = amount.val ∧
        amount.val * split.burn.val ≤ split.burned amount * Gas.SHARE_SCALE.val ∧
        split.burned amount * Gas.SHARE_SCALE.val ≤
          amount.val * split.burn.val + split.beneficiaries.length * Gas.SHARE_SCALE.val := by
  have ran := (executeBatch_iff ctx txs).mp ⟨trace, executed⟩
  have apart := Slot.apart_of_free free fun s named => by
    rcases named with named | ⟨x, _, rfl⟩
    · exact fits_of_mem_slotsOf named
    · trivial
  obtain ⟨σ', ran', same⟩ :=
    Store.executes_of_trie apart _ Set.subset_union_left (Set.eqOn_refl (trie.bySlot crypto) _) ran
  constructor
  · have total := ran'.spends (·.supply xs a) (·.2.burned a) fun σ e σ' among executed =>
      executed.supply xs a fun x named => covers x (slotsOf_singleton_subset among named)
    rw [List.map_map] at total
    rw [Store.supply_congr xs (fun x among => same (.inr ⟨x, among, rfl⟩)) a]
    exact total
  · intro tx among asset amount split distributes
    have compiles : ∃ p, compile crypto tx ctx = .ok p := by
      obtain ⟨before, after, rfl⟩ := List.append_of_mem among
      rw [List.map_append, List.map_cons, Run.append_iff] at ran
      obtain ⟨_, _, _, ⟨p, compiled, _⟩, _⟩ := ran
      exact ⟨p, compiled⟩
    obtain ⟨p, compiled⟩ := compiles
    exact FeeSplit.burned_bounds (checked_of_compile compiled distributes) amount

end Execute

/-! ### A development network

One fee asset, a council of one, and a batch in which the one funded account pays
another, distributes the vault's fees and carries the council's order to disable
the asset. -/

namespace Devnet

def alice : FixedBytes 32 :=
  .ofNat 32 0x171cab50deb65aea19f204ae1f26922c4a74d07b0d743aa264fdbad9ee2ca056

def bob : FixedBytes 32 :=
  .ofNat 32 0xd9ea4c57e7a093e68d1158774e261377c81443efc4b52837a2f11fa87d5de730

def carol : FixedBytes 32 :=
  .ofNat 32 0xaf93a908c8d2fa7b8f67650bf37b33686f98c795b6c3bfaf19b38bcd51b9e836

def transferSignature : FixedBytes 64 := .ofHalves
  0x11bb65db2a73f9c54ca7c511d848032583dcd34411628d62a810047431934c9c
  0x54dd2d13b83dd1a1cf067ec75e98870a6c558f60c472799fdee2c77afb4d8704

def distributionSignature : FixedBytes 64 := .ofHalves
  0x8f85a291a54268be2d491b73a96ddfe03da3dc33177f1b95e6669903be7edd02
  0x1d9cf59bd44fe376fbcbe4dbfbbfef939c432b50d4bfee8e4dd216f1221bb008

def disablingSignature : FixedBytes 64 := .ofHalves
  0xe69667a3ad1c0cb91dfea1e0489749a03dc80e5e0bf2af2874d27e74b9dbc649
  0x18cd9a6e49895e8fa136e897de7c6f26f4242d60394dd70c06f52356e4cbcd02

def councilSignature : FixedBytes 64 := .ofHalves
  0x9a50eef24f4df009037228d37c6abb90b3588229c6d92a9fd3b09d6a09ed3b8e
  0x5900d131239619654337ef3d971f08ce0111a7bb896c8fafe8d1dde61c97c209

def transferDigest : Bytes :=
  be 32 0xc07f5472cce63be2ad3a4cfdbc24e52e572b603a53f5bf202a31b7a49a8a9d07

def distributionDigest : Bytes :=
  be 32 0xa0b0b31847a136a0b60d77b89a73f17b8dba0e6ad9af48efcc9f608be2f1e911

def disablingDigest : Bytes :=
  be 32 0xebd51b33b78fc981d5bd60dfc5ee23ad6001f405463abb312f6c22f80ca90e61

def councilDigest : Bytes :=
  be 32 0x74be7ebebaae18b4d62c84e8740de4078f3dd2a9fe4644b7972f1b4d0ed1fc6c

/-- The tips' recipient. -/
def sequencer : L2Address := FixedBytes.fill 32 0x5e

instance lawfulTriple : LawfulBEq (Bytes × Bytes × Bytes) := inferInstance

/-- SHA-256 as it is, and the four signatures made here. -/
def crypto : Crypto := .accepting [(alice.bytes, transferSignature.bytes, transferDigest),
  (alice.bytes, distributionSignature.bytes, distributionDigest),
  (alice.bytes, disablingSignature.bytes, disablingDigest), (carol.bytes, councilSignature.bytes, councilDigest)]

/-- No JWK is configured, so nothing is hashed. -/
def hashing : JwkHashing := ⟨fun _ => 0, fun _ => none⟩

def split : FeeSplit := ⟨[(bob, 600000), (sequencer, 300000)], 100000⟩

theorem usdc_valid : utf8Valid [0x55, 0x53, 0x44, 0x43] = true := by decide

def config : GenesisConfig where
  chainId := ⟨Domain.ascii "sena-devnet-1", by decide +kernel⟩
  gasAssets := [⟨1, ⟨[0x55, 0x53, 0x44, 0x43], usdc_valid⟩, 1000000, 10000, true⟩]
  allocations := [⟨alice, 1, 1000000⟩, ⟨Execute.FEE_VAULT, 1, 1001⟩]
  council := some ⟨[Domain.ascii "af93a908c8d2fa7b8f67650bf37b33686f98c795b6c3bfaf19b38bcd51b9e836"], 1, 1⟩
  keyless := none
  feeMarket := none
  feeSplit := some split

/-- A transaction of the funded account, paying its fee in the asset. -/
def transaction (nonce gasLimit : U64) (payload : Payload) (signature : FixedBytes 64) : Transaction where
  sender := alice
  nonce := nonce
  feeAsset := 1
  feeRate := 1000000
  feeIntrinsicGas := 10000
  gasLimit := gasLimit
  maxFeePerGas := 50000000000
  maxPriorityFeePerGas := 1000000000
  payload := payload
  authenticator := .ed25519 alice signature

def payment : Transaction := transaction 0 41000 (.transfer bob 1 1000) transferSignature

def distribution : Transaction := transaction 1 50000 (.distributeFees 1 1001 split) distributionSignature

def disabling : Transaction :=
  transaction 2 64000 (.governance 0 (.disableGasAsset 1) [⟨0, councilSignature⟩]) disablingSignature

/-- The devnet without a council, with one funded account. -/
def small : GenesisConfig := { config with allocations := [⟨alice, 1, 1000000⟩], council := none, feeSplit := none }

def context : Execute.BatchContext := ⟨1700000000, none, 25000000000, sequencer⟩

def genesis : MerkleTrie := (config.buildState crypto hashing).toOption.getD .new

theorem built : config.buildState crypto hashing = .ok genesis := by
  obtain ⟨trie, found⟩ : ∃ trie, config.buildState crypto hashing = .ok trie := by decide +kernel
  rw [genesis, found]
  rfl

def batch : List Transaction := [payment, distribution, disabling]

/-- The slots the batch names. -/
def slots : List Slot :=
  [.account alice, .account bob, .account sequencer, .account Execute.FEE_VAULT, .asset 1, .feeMarket, .feeSplit,
    .council]

theorem named (among : s ∈ Execute.slotsOf crypto (batch.map (context, ·))) : s ∈ slots := by
  have all : ∀ s ∈ Execute.slotList crypto (batch.map (context, ·)), s ∈ slots := by
    decide +kernel
  exact all s (Execute.mem_slotsOf.mp among)

theorem slots_of_plain {config : GenesisConfig} (assets : ∀ record ∈ config.gasAssets, record.asset = 1)
    (accounts : ∀ a ∈ config.allocations, .account a.address ∈ slots) (plain : config.keyless = none)
    (among : s ∈ config.slots hashing) : s ∈ slots := by
  obtain rfl | rfl | rfl | ⟨record, listed, rfl⟩ | ⟨a, listed, rfl⟩ | ⟨hashes, hashed, h, listed, rfl⟩ := among
  · decide
  · decide
  · decide
  · rw [assets record listed]
    decide
  · exact accounts a listed
  · rw [GenesisConfig.jwkHashes, plain] at hashed
    cases hashed
    cases listed

theorem founded (among : s ∈ config.slots hashing) : s ∈ slots :=
  slots_of_plain (by decide) (by decide) rfl among

theorem free : CollisionFree crypto.sha256 {b | b ∈ slots.map Slot.image} := by
  decide +kernel

/-- No two of the batch's slots share a name's digest. -/
theorem free_of_slots {names : Set Slot} (inside : ∀ s ∈ names, s ∈ slots) :
    CollisionFree crypto.sha256 (Slot.image '' names) := by
  refine free.mono ?_
  rintro _ ⟨s, among, rfl⟩
  exact List.mem_map_of_mem (inside s among)

theorem named_config (among : s ∈ config.named crypto hashing [(context, batch)]) : s ∈ slots :=
  among.elim founded fun among => named (by simpa [Execute.entries] using among)

theorem executes : ∃ trie trace, Execute.executeBatch crypto genesis context batch = .ok (trie, trace) ∧
    config.Reaches crypto hashing [(context, batch)] trie := by
  obtain ⟨run, executed⟩ : ∃ run, Execute.executeBatch crypto genesis context batch = .ok run := by decide +kernel
  exact ⟨run.1, run.2, executed, genesis, built, Execute.executeAll_singleton executed⟩

/-- The devnet's batch burns a tenth of the 1001 it distributes, and the unit its
two shares round away. -/
theorem batch_burns_101 : ∃ trie trace, Execute.executeBatch crypto genesis context batch = .ok (trie, trace) ∧
    (trie.bySlot crypto).supply {alice, bob, sequencer, Execute.FEE_VAULT} 1 + 101 =
      (genesis.bySlot crypto).supply {alice, bob, sequencer, Execute.FEE_VAULT} 1 := by
  obtain ⟨trie, trace, executed, _⟩ := executes
  refine ⟨trie, trace, executed, (Execute.supply_is_conserved executed _ 1 (fun x among => ?_)
    (free_of_slots ?_)).1⟩
  · simpa [slots] using named among
  · rintro s (among | ⟨x, listed, rfl⟩)
    · exact named among
    · simpa [slots] using listed

/-- Of the devnet's 1001001 units, 101 are gone after its batch. -/
theorem holds_1000900 : ∃ trie, config.Reaches crypto hashing [(context, batch)] trie ∧
    (trie.bySlot crypto).supply {alice, bob, sequencer, Execute.FEE_VAULT} 1 + 101 = 1001001 := by
  obtain ⟨trie, trace, _, reached⟩ := executes
  refine ⟨trie, reached, GenesisConfig.supply_is_allocation_less_burns reached _ 1 (fun x among => ?_)
    (free_of_slots ?_)⟩
  · simpa [slots] using named_config among
  · rintro s (among | ⟨x, listed, rfl⟩)
    · exact named_config among
    · simpa [slots] using listed

end Devnet
end Sena
