import Mathlib.Algebra.BigOperators.Group.Finset.Piecewise
import Sena.Execution

/-! What execution does to accounts.

Only three instructions touch an account: its owner's nonce is consumed, an
amount is debited, an amount is credited. A step is accounted for exactly, one
account and one asset at a time, and so is a run. -/
namespace Sena

open Move

namespace Account

variable {a a' : Account}

theorem length_le_of_assets (positive : a.Positive) (assets : List U32)
    (within : ∀ asset, 0 < (a.balance asset).val → asset ∈ assets) :
    a.balances.entries.length ≤ assets.length := by
  have distinct : (a.balances.entries.map (·.1)).Nodup := by
    rw [List.Nodup, List.pairwise_map]
    exact a.balances.sorted.imp fun below same => Nat.ne_of_lt below (congrArg Fin.val same)
  have listed : a.balances.entries.map (·.1) ⊆ assets := by
    intro asset held
    obtain ⟨e, member, rfl⟩ := List.mem_map.mp held
    refine within e.1 ?_
    rw [balance, BTreeMap.get, SortedMap.get_of_mem _ a.balances.sorted member]
    exact positive e member
  simpa using (List.subperm_of_subset distinct listed).length_le

/-- The account with its next nonce used, if that is the one expected. -/
def useNonce (a : Account) (expected : U64) : Except StepError Account :=
  if a.nonce ≠ expected then .error (.nonceMismatch a.nonce expected)
  else if fits : a.nonce.val + 1 < 2 ^ 64 then .ok { a with nonce := ⟨a.nonce.val + 1, fits⟩ }
  else .error (.balance .overflow)

theorem useNonce_spec (used : a.useNonce expected = .ok a') :
    a.nonce = expected ∧ a'.nonce.val = a.nonce.val + 1 ∧ a'.balances = a.balances := by
  unfold useNonce at used
  split at used
  · cases used
  · rename_i same
    split at used
    · cases used
      exact ⟨not_not.mp same, rfl, rfl⟩
    · cases used

end Account

namespace Instruction

/-- What an instruction makes of the account it names. -/
def revise : Instruction → Account → Except StepError Account
  | consumeNonce _ expected, a => a.useNonce expected
  | debit _ asset amount, a => (a.debit asset amount).mapError .balance
  | credit _ asset amount, a => (a.credit asset amount).mapError .balance
  | _, a => .ok a

/-- What the instruction takes in asset `a` from the accounts in `xs`. -/
def debited (xs : Finset L2Address) (a : U32) : Instruction → Nat
  | debit account asset amount => if account ∈ xs ∧ asset = a then amount.val else 0
  | _ => 0

/-- What the instruction gives in asset `a` to the accounts in `xs`. -/
def credited (xs : Finset L2Address) (a : U32) : Instruction → Nat
  | credit account asset amount => if account ∈ xs ∧ asset = a then amount.val else 0
  | _ => 0

/-- How many nonces of `x` the instruction consumes. -/
def consumed (x : L2Address) : Instruction → Nat
  | consumeNonce account _ => if account = x then 1 else 0
  | _ => 0

theorem revise_spec {i : Instruction} (here : i.on = .account x) (revised : i.revise acc = .ok acc') :
    acc'.nonce.val = acc.nonce.val + i.consumed x ∧
      (∀ a, (acc'.balance a).val + i.debited {x} a = (acc.balance a).val + i.credited {x} a) ∧
      (acc.Positive → acc'.Positive) := by
  cases i with
  | consumeNonce account expected =>
    cases here
    obtain ⟨_, nonce, balances⟩ := Account.useNonce_spec revised
    refine ⟨by simpa [consumed] using nonce, fun a => ?_, fun positive => ?_⟩
    · simp [debited, credited, Account.balance, balances]
    · rwa [Account.Positive, balances]
  | debit account asset amount =>
    cases here
    obtain ⟨nonce, balances, positive⟩ := Account.debit_spec (Move.mapError_eq_ok.mp revised)
    exact ⟨by rw [nonce]; rfl, fun a => by simpa [debited, credited] using balances a, positive⟩
  | credit account asset amount =>
    cases here
    obtain ⟨nonce, balances, positive⟩ := Account.credit_spec (Move.mapError_eq_ok.mp revised)
    exact ⟨by rw [nonce]; rfl, fun a => by simpa [debited, credited] using balances a, positive⟩
  | _ => cases here

theorem transition_account {i : Instruction} (here : i.on = .account x) :
    Execute.transition crypto i current = .ok written ↔ ∃ acc acc', Execute.decodeAccount current = .ok acc ∧
      i.revise acc = .ok acc' ∧ written = acc'.encode := by
  cases i with
  | consumeNonce account expected =>
    simp only [Execute.transition, bind_eq_ok, revise, Account.useNonce]
    refine exists_congr fun acc => ?_
    by_cases same : acc.nonce = expected
    · subst same
      by_cases fits : acc.nonce.val + 1 < 2 ^ 64
      · simp only [dif_pos fits, ne_eq, not_true_eq_false, if_false, pure_eq_ok, Except.ok.injEq]
        constructor
        · rintro ⟨decoded, rfl⟩
          exact ⟨_, decoded, rfl, rfl⟩
        · rintro ⟨_, decoded, rfl, rfl⟩
          exact ⟨decoded, rfl⟩
      · simp only [dif_neg fits, ne_eq, not_true_eq_false, if_false, throw_eq_error, reduceCtorEq, and_false,
          false_and, exists_false]
    · simp [same]
  | debit account asset amount =>
    simp only [Execute.transition, bind_eq_ok, revise, pure_iff, eq_comm (a := written),
      exists_and_left]
  | credit account asset amount =>
    simp only [Execute.transition, bind_eq_ok, revise, pure_iff, eq_comm (a := written),
      exists_and_left]
  | _ => cases here

end Instruction

namespace Execute

theorem decodeAccount_positive (decoded : decodeAccount current = .ok acc) : acc.Positive := by
  cases current with
  | none =>
    cases decoded
    exact Account.canonical_new.positive
  | some b => exact (Account.decode_eq_ok.mp (mapError_eq_ok.mp decoded)).1.positive

theorem decodeAccount_encode {acc : Account} (positive : acc.Positive)
    (short : acc.encode.length < 12 + 20 * 2 ^ 32) : decodeAccount (some acc.encode) = .ok acc := by
  rw [Account.encode_length] at short
  exact mapError_eq_ok.mpr (Account.decode_eq_ok.mpr ⟨⟨positive, by omega⟩, rfl⟩)

end Execute

namespace Store

variable {crypto : Crypto} {σ σ' : Store}

/-- The account an address has; an empty one where nothing decodes. -/
def account (σ : Store) (x : L2Address) : Account :=
  (Execute.decodeAccount (σ (.account x))).toOption.getD Account.new

/-- What `x` holds in asset `a`. -/
def balance (σ : Store) (x : L2Address) (a : U32) : Nat := ((σ.account x).balance a).val

/-- The next nonce of `x`. -/
def nonce (σ : Store) (x : L2Address) : Nat := (σ.account x).nonce.val

theorem account_eq (decoded : Execute.decodeAccount (σ (.account x)) = .ok acc) : σ.account x = acc := by
  rw [account, decoded]
  rfl

/-- A step revises the account it names, and no other. -/
theorem Steps.account (stepped : σ.Steps crypto i σ') (x : L2Address) :
    i.on ≠ .account x ∧ σ'.account x = σ.account x ∨
      i.on = .account x ∧ i.revise (σ.account x) = .ok (σ'.account x) := by
  obtain ⟨written, computed, encodable, rfl⟩ := stepped
  by_cases here : i.on = .account x
  · obtain ⟨acc, acc', decoded, revised, rfl⟩ := (Instruction.transition_account here).mp computed
    rw [here] at decoded
    have positive := (Instruction.revise_spec here revised).2.2 (Execute.decodeAccount_positive decoded)
    have short : acc'.encode.length < 12 + 20 * 2 ^ 32 := by
      cases i <;> first | exact encodable | cases here
    have later : account (Function.update σ i.on (some acc'.encode)) x = acc' :=
      account_eq (by rw [here, Function.update_self]; exact Execute.decodeAccount_encode positive short)
    rw [account_eq decoded, later]
    exact .inr ⟨here, revised⟩
  · refine .inl ⟨here, ?_⟩
    rw [account, account, Function.update_of_ne (Ne.symm here)]

theorem not_on_account {i : Instruction} (elsewhere : i.on ≠ .account x) :
    i.consumed x = 0 ∧ ∀ a, i.debited {x} a = 0 ∧ i.credited {x} a = 0 := by
  cases i <;> simp_all [Instruction.on, Instruction.consumed, Instruction.debited, Instruction.credited]

/-- A step takes from and gives to an account what it says. -/
theorem Steps.balance (stepped : σ.Steps crypto i σ') (x : L2Address) (a : U32) :
    σ'.balance x a + i.debited {x} a = σ.balance x a + i.credited {x} a := by
  rcases stepped.account x with ⟨elsewhere, same⟩ | ⟨here, revised⟩
  · rw [Store.balance, Store.balance, same, ((not_on_account elsewhere).2 a).1, ((not_on_account elsewhere).2 a).2]
  · exact (Instruction.revise_spec here revised).2.1 a

/-- What the accounts in `xs` hold together in asset `a`. -/
def supply (σ : Store) (xs : Finset L2Address) (a : U32) : Nat := ∑ x ∈ xs, σ.balance x a

theorem sum_debited (xs : Finset L2Address) (a : U32) (i : Instruction) :
    ∑ x ∈ xs, i.debited {x} a = i.debited xs a := by
  cases i with
  | debit account asset amount =>
    by_cases same : asset = a <;> simp [Instruction.debited, same]
  | _ => simp [Instruction.debited]

theorem sum_credited (xs : Finset L2Address) (a : U32) (i : Instruction) :
    ∑ x ∈ xs, i.credited {x} a = i.credited xs a := by
  cases i with
  | credit account asset amount =>
    by_cases same : asset = a <;> simp [Instruction.credited, same]
  | _ => simp [Instruction.credited]

theorem Steps.supply (stepped : σ.Steps crypto i σ') (xs : Finset L2Address) (a : U32) :
    σ'.supply xs a + i.debited xs a = σ.supply xs a + i.credited xs a := by
  rw [Store.supply, Store.supply, ← sum_debited, ← sum_credited, ← Finset.sum_add_distrib, ← Finset.sum_add_distrib]
  exact Finset.sum_congr rfl fun x _ => stepped.balance x a

theorem Steps.nonce (stepped : σ.Steps crypto i σ') (x : L2Address) : σ'.nonce x = σ.nonce x + i.consumed x := by
  rcases stepped.account x with ⟨elsewhere, same⟩ | ⟨here, revised⟩
  · rw [Store.nonce, Store.nonce, same, (not_on_account elsewhere).1]
    rfl
  · exact (Instruction.revise_spec here revised).1

theorem Steps.expected (stepped : σ.Steps crypto (.consumeNonce x n) σ') : σ.nonce x = n.val := by
  rcases stepped.account x with ⟨elsewhere, _⟩ | ⟨_, revised⟩
  · exact absurd rfl elsewhere
  · exact congrArg Fin.val (Account.useNonce_spec revised).1

end Store
end Sena
