import Sena.Account
import Sena.Osp
import Sena.Readers

/-! The account slot as L2 writes it and as the L1 contracts read it. -/
namespace Sena

open Move

namespace Account

theorem osp_balanceOf (a : Account) (asset : U32) :
    Osp.balanceOf ⟨a.nonce, a.balances.entries⟩ asset = a.balance asset := by
  have lookup : ∀ list : List (U32 × U128), SortedMap.get Fin.val asset list =
      (list.find? (·.1 = asset)).map (·.2) := by
    intro list
    induction list with
    | nil => rfl
    | cons entry rest ih =>
      by_cases here : entry.1 = asset
      · simp [SortedMap.get, here]
      · have apart : entry.1.val ≠ asset.val := fun same => here (Fin.ext same)
        simpa [SortedMap.get, here, apart] using ih
  rw [Osp.balanceOf, balance, BTreeMap.get, lookup]
  cases a.balances.entries.find? (·.1 = asset) <;> rfl

/-- No balance is zero, and the balances can be counted. -/
structure Canonical (a : Account) : Prop where
  positive : ∀ e ∈ a.balances.entries, 0 < e.2.val
  counted : a.balances.entries.length < 2 ^ 32

theorem canonical_new : new.Canonical := ⟨by simp [new, BTreeMap.empty], by decide⟩

theorem readBalances_eq_ok {start all : Balances} (last : previous = start.entries.getLast?.map (·.1)) :
    readBalances n previous start input = .ok (all, rest) ↔ ∃ list, list.length = n ∧
      (∀ e ∈ list, 0 < e.2.val) ∧ all.entries = start.entries ++ list ∧
        input = (list.flatMap fun b => be 4 b.1.val ++ be 16 b.2.val) ++ rest := by
  induction n generalizing previous start input with
  | zero =>
    rw [readBalances, Reader.pure_eq_ok]
    constructor
    · rintro ⟨rfl, rfl⟩
      exact ⟨[], rfl, by simp, by simp, rfl⟩
    · rintro ⟨list, none, _, same, rfl⟩
      obtain rfl := List.length_eq_zero_iff.mp none
      exact ⟨BTreeMap.ext (by simpa using same), rfl⟩
  | succ n ih =>
    -- the check against the previous asset orders the new one after all before it
    have ascends : ∀ asset : U32, previous.any (asset.val ≤ ·.val) = false ↔
        ∀ e ∈ start.entries, e.1.val < asset.val := by
      intro asset
      rw [SortedMap.forall_lt_iff_last _ start.sorted, last]
      cases start.entries.getLast? <;> simp
    simp only [readBalances, Reader.bind_eq_ok, Reader.u32_eq_ok, Reader.u128_eq_ok, Reader.ite_eq_ok,
      Reader.throw_eq_ok, and_false, false_or, not_or]
    have step : ∀ (asset : U32) (amount : U128), (∀ e ∈ start.entries, e.1.val < asset.val) →
        (start.insert asset amount).entries = start.entries ++ [(asset, amount)] :=
      fun asset amount above => SortedMap.insert_last _ above
    constructor
    · rintro ⟨asset, _, rfl, amount, _, rfl, ⟨ascending, nonzero⟩, read⟩
      have above := (ascends asset).mp (Bool.eq_false_iff.mpr ascending)
      obtain ⟨list, sized, positive, same, rfl⟩ := (ih (by simp [step _ _ above])).mp read
      refine ⟨(asset, amount) :: list, by simp [sized], ?_, by rw [same, step _ _ above]; simp, by simp⟩
      rw [List.forall_mem_cons]
      exact ⟨Nat.pos_of_ne_zero nonzero, positive⟩
    · rintro ⟨list, sized, positive, same, rfl⟩
      obtain _ | ⟨⟨asset, amount⟩, list⟩ := list
      · cases sized
      · rw [List.forall_mem_cons] at positive
        have above : ∀ e ∈ start.entries, e.1.val < asset.val := fun e member =>
          (List.pairwise_append.mp (same ▸ all.sorted)).2.2 e member (asset, amount) (by simp)
        exact ⟨asset, _, by simp, amount, _, rfl,
          ⟨Bool.eq_false_iff.mp ((ascends asset).mpr above), Nat.ne_of_gt positive.1⟩,
          (ih (by simp [step _ _ above])).mpr ⟨list, Nat.succ.inj sized, positive.2,
            by rw [same, step _ _ above]; simp, rfl⟩⟩

theorem encode_length (a : Account) : a.encode.length = 12 + 20 * a.balances.entries.length := by
  have rows : ∀ entries : List (U32 × U128),
      (entries.flatMap fun b => be 4 b.1.val ++ be 16 b.2.val).length = 20 * entries.length := by
    intro entries
    induction entries with
    | nil => rfl
    | cons e rest ih =>
      rw [List.flatMap_cons, List.length_append, ih]
      simp only [List.length_append, be_length, List.length_cons]
      omega
  simp only [encode, List.length_append, be_length, rows]

/-- The node reads exactly the encodings of canonical accounts. -/
theorem decode_eq_ok {a : Account} : decode input = .ok a ↔ a.Canonical ∧ input = a.encode := by
  have inner : decode input = .ok a ↔ ∃ rest, decodeInner input = .ok (a, rest) := by
    rw [← Reader.run'_eq_ok, decode, Reader.readAll]
    cases decodeInner.run' input <;> simp
  have counts : ∀ n input all rest, readBalances n none .empty input = .ok (all, rest) ↔ ∃ list,
      list.length = n ∧ (∀ e ∈ list, 0 < e.2.val) ∧ all.entries = [] ++ list ∧
        input = (list.flatMap fun b => be 4 b.1.val ++ be 16 b.2.val) ++ rest :=
    fun _ _ _ _ => readBalances_eq_ok rfl
  simp only [inner, decodeInner, Reader.bind_eq_ok, Reader.pure_eq_ok, Reader.u64_eq_ok, Reader.u32_eq_ok,
    counts, Reader.finish_eq_ok]
  constructor
  · rintro ⟨_, nonce, _, rfl, count, _, rfl, balances, _, ⟨list, sized, positive, same, rfl⟩, _, _, ⟨rfl, rfl⟩,
      rfl, rfl⟩
    obtain rfl : balances.entries = list := same
    exact ⟨⟨positive, by rw [sized]; exact count.isLt⟩, by simp [encode, sized]⟩
  · rintro ⟨⟨positive, counted⟩, rfl⟩
    exact ⟨[], a.nonce, _, by rw [encode, List.append_assoc], ⟨_, counted⟩, _, rfl, a.balances, [],
      ⟨_, rfl, positive, rfl, (List.append_nil _).symm⟩, (), [], ⟨rfl, rfl⟩, rfl, rfl⟩

theorem takeBalances_eq_ok {list : List (U32 × U128)} :
    Osp.takeBalances n previous input = .ok (list, rest) ↔ list.length = n ∧ SortedMap.Sorted Fin.val list ∧
      (∀ p ∈ previous, ∀ e ∈ list, p.val < e.1.val) ∧ (∀ e ∈ list, 0 < e.2.val) ∧
        input = (list.flatMap fun b => be 4 b.1.val ++ be 16 b.2.val) ++ rest := by
  induction n generalizing previous input list rest with
  | zero =>
    rw [Osp.takeBalances, Reader.pure_eq_ok]
    constructor
    · rintro ⟨rfl, rfl⟩
      exact ⟨rfl, .nil, by simp, by simp, rfl⟩
    · rintro ⟨none, -, -, -, rfl⟩
      obtain rfl := List.length_eq_zero_iff.mp none
      exact ⟨rfl, rfl⟩
  | succ n ih =>
    have ascends : ∀ asset : U32, ¬previous.any (asset.val ≤ ·.val) = true ↔ ∀ p ∈ previous, p.val < asset.val := by
      intro asset
      cases previous <;> simp
    simp only [Osp.takeBalances, Reader.bind_eq_ok, Codec.takeU32_eq_ok, Codec.takeU128_eq_ok, Reader.ite_eq_ok,
      Reader.throw_eq_ok, Reader.pure_eq_ok, false_and, exists_false, and_false, false_or, ascends, ih]
    constructor
    · rintro ⟨asset, _, rfl, amount, _, rfl, nonzero, above, tail, _, ⟨sized, sorted, after, positive, rfl⟩, rfl, rfl⟩
      refine ⟨by simp [sized], List.pairwise_cons.mpr ⟨after asset rfl, sorted⟩, fun p last => ?_, ?_, by simp⟩
      · rw [List.forall_mem_cons]
        exact ⟨above p last, fun e member => Nat.lt_trans (above p last) (after asset rfl e member)⟩
      · rw [List.forall_mem_cons]
        exact ⟨Nat.pos_of_ne_zero nonzero, positive⟩
    · rintro ⟨sized, sorted, above, positive, rfl⟩
      obtain _ | ⟨⟨asset, amount⟩, tail⟩ := list
      · cases sized
      · obtain ⟨after, sorted⟩ := List.pairwise_cons.mp sorted
        rw [List.forall_mem_cons] at positive
        refine ⟨asset, _, by simp, amount, _, rfl, Nat.ne_of_gt positive.1,
          fun p last => above p last _ List.mem_cons_self, tail, rest,
          ⟨Nat.succ.inj sized, sorted, ?_, positive.2, rfl⟩, rfl, rfl⟩
        rintro _ ⟨⟩
        exact after

theorem osp_decodeAccount_eq_ok : Osp.decodeAccount input = .ok m ↔
    ∃ a : Account, a.Canonical ∧ m = ⟨a.nonce, a.balances.entries⟩ ∧ input = a.encode := by
  simp only [Osp.decodeAccount, Reader.run'_eq_ok, Osp.takeAccount, Reader.bind_eq_ok, Reader.pure_eq_ok,
    Codec.takeU64_eq_ok, Codec.takeU32_eq_ok, takeBalances_eq_ok, Codec.finish_eq_ok]
  constructor
  · rintro ⟨_, nonce, _, rfl, count, _, rfl, list, _, ⟨sized, sorted, -, positive, rfl⟩, _, _, ⟨rfl, rfl⟩, rfl, rfl⟩
    exact ⟨⟨nonce, list, sorted⟩, ⟨positive, by rw [sized]; exact count.isLt⟩, rfl, by simp only [encode, sized, List.append_nil, List.append_assoc]⟩
  · rintro ⟨a, ⟨positive, counted⟩, rfl, rfl⟩
    exact ⟨[], a.nonce, _, by rw [encode, List.append_assoc], ⟨_, counted⟩, _, rfl, a.balances.entries, [],
      ⟨rfl, a.balances.sorted, by simp, positive, (List.append_nil _).symm⟩, (), [], ⟨rfl, rfl⟩, rfl, rfl⟩

theorem osp_decodeAccount (decoded : decode input = .ok a) :
    Osp.decodeAccount input = .ok ⟨a.nonce, a.balances.entries⟩ := by
  obtain ⟨canonical, rfl⟩ := decode_eq_ok.mp decoded
  exact osp_decodeAccount_eq_ok.mpr ⟨a, canonical, rfl, rfl⟩

variable {a a' : Account}

theorem balance_insert (a : Account) (asset other : U32) (amount : U128) :
    balance { a with balances := a.balances.insert asset amount } other =
      if asset = other then amount else a.balance other := by
  simp only [balance, BTreeMap.get, BTreeMap.insert, SortedMap.get_insert, Fin.val_inj]
  split <;> rfl

theorem balance_remove (a : Account) (asset other : U32) :
    balance { a with balances := a.balances.remove asset } other =
      if asset = other then 0 else a.balance other := by
  simp only [balance, BTreeMap.get, BTreeMap.remove, SortedMap.get_remove _ a.balances.sorted, Fin.val_inj]
  split <;> rfl

/-- No balance is stored as zero. -/
def Positive (a : Account) : Prop := ∀ e ∈ a.balances.entries, 0 < e.2.val

theorem credit_spec (credited : a.credit asset amount = .ok a') :
    a'.nonce = a.nonce ∧ (∀ other, (a'.balance other).val =
      (a.balance other).val + if asset = other then amount.val else 0) ∧ (a.Positive → a'.Positive) := by
  unfold credit at credited
  split at credited
  · rename_i zero
    cases credited
    exact ⟨rfl, fun other => by simp [zero], id⟩
  · split at credited
    · rename_i nonzero fits
      cases credited
      refine ⟨rfl, fun other => ?_, fun positive e among => ?_⟩
      · rw [balance_insert]
        by_cases here : asset = other
        · simp [here]
        · simp [here]
      · rcases SortedMap.mem_insert _ among with rfl | held
        · exact Nat.lt_of_lt_of_le (Nat.pos_of_ne_zero nonzero) (Nat.le_add_left _ _)
        · exact positive e held
    · cases credited

theorem debit_spec (debited : a.debit asset amount = .ok a') :
    a'.nonce = a.nonce ∧ (∀ other, (a'.balance other).val + (if asset = other then amount.val else 0) =
      (a.balance other).val) ∧ (a.Positive → a'.Positive) := by
  unfold debit at debited
  split at debited
  · rename_i zero
    cases debited
    exact ⟨rfl, fun other => by simp [zero], id⟩
  · split at debited
    · cases debited
    · rename_i nonzero enough
      have enough := Nat.not_lt.mp enough
      split at debited
      · rename_i spent
        cases debited
        refine ⟨rfl, fun other => ?_, fun positive e among => positive e (SortedMap.mem_of_mem_remove _ among)⟩
        rw [balance_remove]
        by_cases here : asset = other
        · subst here
          simp only [if_true, Fin.val_zero]
          omega
        · simp [here]
      · rename_i left
        cases debited
        have rest : (a.balance asset - amount).val = (a.balance asset).val - amount.val := Fin.sub_val_of_le enough
        refine ⟨rfl, fun other => ?_, fun positive e among => ?_⟩
        · rw [balance_insert]
          by_cases here : asset = other
          · subst here
            rw [if_pos rfl, if_pos rfl, rest]
            omega
          · simp [here]
        · rcases SortedMap.mem_insert _ among with rfl | held
          · rw [rest]
            exact Nat.pos_of_ne_zero left
          · exact positive e held

theorem credit_length_le (credited : a.credit asset amount = .ok a') :
    a'.balances.entries.length ≤ a.balances.entries.length + 1 := by
  unfold credit at credited
  split at credited
  · cases credited
    exact Nat.le_succ _
  · split at credited
    · cases credited
      exact SortedMap.insert_length_le _ _
    · cases credited

theorem debit_length_le (debited : a.debit asset amount = .ok a') :
    a'.balances.entries.length ≤ a.balances.entries.length + 1 := by
  unfold debit at debited
  split at debited
  · cases debited
    exact Nat.le_succ _
  · split at debited
    · cases debited
    · split at debited
      · cases debited
        exact Nat.le_succ_of_le (SortedMap.remove_length_le _ _)
      · cases debited
        exact SortedMap.insert_length_le _ _

theorem Canonical.encodeAccount (canonical : a.Canonical) :
    Osp.encodeAccount ⟨a.nonce, a.balances.entries⟩ = .ok a.encode := by
  have kept : a.balances.entries.filter (0 < ·.2.val) = a.balances.entries :=
    List.filter_eq_self.mpr fun e member => by simpa using canonical.positive e member
  simp only [Osp.encodeAccount, kept, checked_of_lt canonical.counted, ok_bind, pure_eq_ok, encode]

theorem setBalance_entries (balances : Balances) (asset : U32) (amount : U128) :
    Osp.setBalance asset amount balances.entries =
      if amount.val = 0 then (balances.remove asset).entries else (balances.insert asset amount).entries := by
  obtain ⟨entries, sorted⟩ := balances
  simp only [BTreeMap.remove, BTreeMap.insert]
  induction entries with
  | nil =>
    by_cases zero : amount.val = 0
    · simp [Osp.setBalance, SortedMap.remove, zero]
    · simp [Osp.setBalance, SortedMap.insert, zero, Nat.pos_of_ne_zero zero]
  | cons entry rest ih =>
    obtain ⟨other, held⟩ := entry
    obtain ⟨after, sortedRest⟩ := List.pairwise_cons.mp sorted
    simp only [Osp.setBalance, SortedMap.remove, SortedMap.insert, ih sortedRest]
    by_cases zero : amount.val = 0
    · simp only [zero, if_true, gt_iff_lt, Nat.lt_irrefl, if_false]
      by_cases here : other = asset
      · simp [here]
      · have missed : other.val ≠ asset.val := fun same => here (Fin.ext same)
        rw [if_neg here, if_neg missed]
        split
        · rename_i above
          rw [SortedMap.remove_eq_self _ fun e member => ?_]
          have later : other.val < e.1.val := after e member
          omega
        · rfl
    · simp only [zero, if_false, gt_iff_lt, Nat.pos_of_ne_zero zero, if_true]
      by_cases here : other = asset
      · simp [here]
      · have missed : asset.val ≠ other.val := fun same => here (Fin.ext same.symm)
        rw [if_neg here, if_neg missed]

end Account
end Sena
