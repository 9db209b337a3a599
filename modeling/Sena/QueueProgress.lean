import Sena.SequencerRuns

/-! Whether the queue moves.

A batch is a prefix of the queue, so a transaction at its head that fits into no
window holds up everything behind it. Admission asks whether a transaction fits into
the window of its own time, and not whether it fits into its fee asset's share. -/
namespace Sena

open Move
open Execute

namespace Mempool

variable {crypto : Crypto} {pool pool' : Mempool} {state : MerkleTrie} {ctx : BatchContext}

theorem need_lt (crypto : Crypto) (tx : Transaction) : need crypto tx < 2 ^ 64 := by
  unfold need
  cases gasRequired crypto tx with
  | error e => simp [Except.toOption]
  | ok gas => exact gas.isLt

theorem le_countWithin (maxBytes : Nat) (txs : List Transaction) (count size : Nat) :
    count ≤ countWithin maxBytes txs count size := by
  induction txs generalizing count size with
  | nil => exact Nat.le_refl _
  | cons tx txs ih =>
    rw [countWithin]
    split
    · exact Nat.le_refl _
    · exact Nat.le_trans (Nat.le_succ _) (ih _ _)

/-- The first transaction is counted if it fits. -/
theorem countFitting_pos (counted : countFitting crypto budget cap (tx :: txs) 0 [] = some n) :
    0 < n ↔ need crypto tx ≤ budget ∧ ∀ share, cap tx.feeAsset = some share → need crypto tx ≤ share := by
  have small := need_lt crypto tx
  rw [countFitting] at counted
  simp only [SortedMap.get, Option.getD_none, Nat.zero_add, small, true_and, and_true] at counted
  split at counted
  · rename_i fits
    obtain ⟨share, capped, counted⟩ := Option.bind_eq_some_iff.mp counted
    simp only [fits, true_and, capped, Option.some.injEq, forall_eq']
    split at counted
    · rename_i within
      obtain ⟨more, _, same⟩ := Option.bind_eq_some_iff.mp counted
      obtain rfl : more + 1 = n := Option.some.inj same
      simp [within]
    · rename_i beyond
      obtain rfl : 0 = n := Option.some.inj counted
      simp [beyond]
  · rename_i beyond
    obtain rfl : 0 = n := Option.some.inj counted
    simp [beyond]

theorem taken_ne_nil_iff {taken : List Transaction}
    (took : takeBatchFitting crypto pool limit maxBytes budget cap = some (pool', taken))
    (queued : pool.queued = head :: rest) (positive : 1 ≤ limit) :
    taken ≠ [] ↔ need crypto head ≤ budget ∧ ∀ share, cap head.feeAsset = some share → need crypto head ≤ share := by
  obtain ⟨fitting, counted, same⟩ := Option.bind_eq_some_iff.mp took
  simp only [takeBatchWithin, pure, Option.some.injEq, Prod.mk.injEq] at same
  obtain ⟨-, rfl⟩ := same
  rw [queued] at counted ⊢
  obtain ⟨limit, rfl⟩ : ∃ n, limit = n + 1 := ⟨limit - 1, by omega⟩
  rw [List.take_succ_cons] at counted
  rw [← countFitting_pos counted]
  cases fitting with
  | zero => simp [countWithin]
  | succ fitting =>
    have some' := le_countWithin maxBytes (rest.take fitting) 1 (min (0 + head.encode.length) (2 ^ 64 - 1))
    simp only [List.take_succ_cons, countWithin, Nat.lt_irrefl, false_and, if_false, Nat.zero_add, Nat.succ_pos,
      iff_true, ne_eq, List.take_eq_nil_iff, reduceCtorEq, or_false, gt_iff_lt] at some' ⊢
    omega

theorem gasRequired_of_compile (compiled : compile crypto tx ctx = .ok p) : ∃ gas, gasRequired crypto tx = .ok gas := by
  obtain ⟨_, _, payload, used, _, shaped, gas, _, _⟩ := compile_eq_ok.mp compiled
  exact ⟨used, gasRequired_eq_ok.mpr ⟨payload, shaped, gas⟩⟩

theorem gasRequired_of_tryAdmit (admitted : tryAdmit crypto state top ctx tx = .ok next) :
    ∃ gas, gasRequired crypto tx = .ok gas := by
  obtain ⟨_, _, _, p, compiled, _⟩ := executes_of_tryAdmit admitted
  exact gasRequired_of_compile compiled

end Mempool

namespace Sequencer

variable {crypto : Crypto} {s s' : Sequencer} {clock : U64}

theorem Produced.mempool (produced : Produced crypto s clock pool taken s' result) : s'.mempool = pool := by
  cases produced with
  | idle | stuck | refused | appends => rfl

/-- Every queued transaction has a price in gas. -/
theorem gasRequired_of_queued (ran : Run (Calls crypto) s calls s')
    (start : ∀ tx ∈ s.mempool.queued, ∃ gas, gasRequired crypto tx = .ok gas) :
    ∀ tx ∈ s'.mempool.queued, ∃ gas, gasRequired crypto tx = .ok gas := by
  refine ran.invariant (fun s => ∀ tx ∈ s.mempool.queued, ∃ gas, gasRequired crypto tx = .ok gas) ?_ start
  rintro s ⟨clock, call⟩ s' - priced called tx among
  cases call with
  | submit new =>
    obtain ⟨⟨_, answer⟩, submitted, rfl⟩ := Option.map_eq_some_iff.mp called
    obtain ⟨⟨pool, _⟩, offered, same⟩ := Option.bind_eq_some_iff.mp submitted
    cases same
    rcases Mempool.queued_of_submit offered tx among with old | ⟨rfl, top, next, admitted⟩
    · exact priced tx old
    · exact Mempool.gasRequired_of_tryAdmit admitted
  | produce limit =>
    obtain ⟨⟨_, result⟩, produced, rfl⟩ := Option.map_eq_some_iff.mp called
    obtain ⟨pool, taken, took, produced⟩ := produce_spec produced
    refine priced tx ?_
    rw [(take_spec took).1, ← produced.mempool]
    exact List.mem_append_right _ among

/-- Into a new window nothing is carried over, unless the base fee cannot be computed. -/
def carriedGas (market : FeeMarket) (timestamp : U64) : Nat :=
  if (market.atTimestamp timestamp).isOk then 0 else market.windowGas.val

theorem window_spec (later : (s.feeMarket crypto).windowTs.val < timestamp.val) :
    (s.window crypto timestamp).windowLimit = (s.feeMarket crypto).windowLimit ∧
      (s.window crypto timestamp).windowGas.val = carriedGas (s.feeMarket crypto) timestamp := by
  have past : ¬timestamp.val < (s.feeMarket crypto).windowTs.val := by omega
  have new : timestamp ≠ (s.feeMarket crypto).windowTs := fun same => by simp [same] at later
  rw [window, carriedGas, FeeMarket.atTimestamp, if_neg past, if_neg new]
  cases Gas.nextBaseFee (s.feeMarket crypto).baseFee (s.feeMarket crypto).windowGas (s.feeMarket crypto).target
    (s.feeMarket crypto).floor <;> exact ⟨rfl, rfl⟩

theorem feeAssetLimits_of_calls (ran : Run (Calls crypto) s calls s') : s'.feeAssetLimits = s.feeAssetLimits := by
  refine ran.invariant (·.feeAssetLimits = s.feeAssetLimits) ?_ rfl
  rintro s₁ ⟨clock, call⟩ s₂ - same called
  rw [← same]
  cases call with
  | submit tx =>
    obtain ⟨⟨_, answer⟩, submitted, rfl⟩ := Option.map_eq_some_iff.mp called
    obtain ⟨_, _, same⟩ := Option.bind_eq_some_iff.mp submitted
    cases same
    rfl
  | produce limit =>
    obtain ⟨⟨_, result⟩, produced, rfl⟩ := Option.map_eq_some_iff.mp called
    obtain ⟨_, _, _, produced⟩ := produce_spec produced
    cases produced with
    | idle | stuck | refused | appends => rfl

theorem fits_assetCap {gas : U64} {market : FeeMarket} (within : gas.val ≤ market.windowLimit) (asset : U32) :
    (∀ share, s.assetCap market asset = some share → gas.val ≤ share) ↔
      ∀ permille, SortedMap.get Fin.val asset s.feeAssetLimits = some permille →
        gas.val ≤ market.windowLimit / 1000 * permille.val := by
  unfold assetCap
  cases SortedMap.get Fin.val asset s.feeAssetLimits with
  | none => simpa using within
  | some permille =>
    simp only [Option.some.injEq, forall_eq', Option.ite_none_right_eq_some, and_imp]
    refine ⟨fun each => ?_, fun fits share _ same => same ▸ fits⟩
    -- a share that overflows has room for any gas
    by_cases small : market.windowLimit / 1000 * permille.val < 2 ^ 64
    · exact each _ small rfl
    · have := gas.isLt
      omega

/-- In a new window the queue moves exactly if the transaction at its head needs no more
gas than the window has, and no more than its fee asset's share of it. -/
theorem queue_moves_iff_head_fits {state : MerkleTrie} {challengeWindow : U64} {minimumBond bond : U128} {identity : U32}
    {keyless : Option KeylessConfig} {recipient : L2Address} {limits : List (U32 × U32)} {first : Transaction}
    (ran : Run (Calls crypto) (start crypto state challengeWindow minimumBond identity bond keyless recipient limits) calls s)
    (_limited : ∀ e ∈ limits, 1 ≤ e.2.val) (queued : s.mempool.queued = first :: rest) (positive : 1 ≤ limit)
    (later : (s.feeMarket crypto).windowTs.val < (s.nextTimestamp clock).val)
    (returned : s.produce crypto clock limit = some (s', result)) :
    s'.mempool.queued.length < s.mempool.queued.length ↔ ∃ gas, gasRequired crypto first = .ok gas ∧
      gas.val ≤ (s.feeMarket crypto).windowLimit - carriedGas (s.feeMarket crypto) (s.nextTimestamp clock) ∧
      ∀ permille, SortedMap.get Fin.val first.feeAsset limits = some permille →
        gas.val ≤ (s.feeMarket crypto).windowLimit / 1000 * permille.val := by
  obtain ⟨gas, required⟩ := gasRequired_of_queued ran (fun tx among => nomatch among) first (by simp [queued])
  have need : Mempool.need crypto first = gas.val := need_eq required
  have limits' : s.feeAssetLimits = limits := feeAssetLimits_of_calls ran
  obtain ⟨pool, taken, took, produced⟩ := produce_spec returned
  obtain ⟨sameLimit, carried⟩ := window_spec later
  have moved : s'.mempool.queued.length < s.mempool.queued.length ↔ taken ≠ [] := by
    rw [produced.mempool, (take_spec took).1, List.length_append, ← List.length_pos_iff]
    omega
  rw [moved, Mempool.taken_ne_nil_iff took queued positive, need, carried, ← sameLimit]
  simp only [required, Except.ok.injEq, exists_eq_left']
  refine and_congr_right fun room => ?_
  rw [fits_assetCap (by omega), limits']

end Sequencer

namespace Devnet

/-- The devnet's node takes its payment off the queue: it needs 41000 of ten million gas. -/
theorem loaded_moves : ∃ s' result, loaded.mempool.queued = [payment] ∧
    loaded.produce crypto 1700000000 10 = some (s', result) ∧ s'.mempool.queued.length < loaded.mempool.queued.length := by
  obtain ⟨queued, later, room⟩ : loaded.mempool.queued = [payment] ∧
      (loaded.feeMarket crypto).windowTs.val < (loaded.nextTimestamp 1700000000).val ∧
      (gasRequired crypto payment).toOption.any (fun gas => gas.val ≤ (loaded.feeMarket crypto).windowLimit -
        Sequencer.carriedGas (loaded.feeMarket crypto) (loaded.nextTimestamp 1700000000)) = true := by
    decide +kernel
  obtain ⟨gas, required, room⟩ := (Option.any_eq_true _ _).mp room
  obtain ⟨s', block, id, produced, _⟩ := produce_loaded
  have ran : Run (Sequencer.Calls crypto) (Sequencer.start crypto genesis 86400 1 0 1 none sequencer [])
      [(1700000000, .submit payment)] loaded := Run.singleton_iff.mpr call_loaded
  refine ⟨s', _, queued, produced, (Sequencer.queue_moves_iff_head_fits ran (by simp) queued (by decide) later
    produced).mpr ⟨gas, toOption_eq_some.mp required, of_decide_eq_true room, by rintro _ ⟨⟩⟩⟩

/-- A node on which the asset may use a thousandth of a window. -/
def rationed : Sequencer := Sequencer.start crypto genesis 86400 1 0 1 none sequencer [(1, 1)]

/-- It admits the payment, and no window takes it. -/
theorem rationed_queue_is_stuck : ∃ s s', Run (Sequencer.Calls crypto) rationed [(1700000000, .submit payment)] s ∧
    s.mempool.queued = [payment] ∧ (s.feeMarket crypto).windowTs.val < (s.nextTimestamp 1700000001).val ∧
    s.produce crypto 1700000001 10 = some (s', .ok none) ∧ s'.mempool.queued = [payment] := by
  obtain ⟨s, called, queued, later, ⟨s', result⟩, produced, rfl, stuck⟩ :
      ∃ s ∈ rationed.call crypto (1700000000, .submit payment), s.mempool.queued = [payment] ∧
        (s.feeMarket crypto).windowTs.val < (s.nextTimestamp 1700000001).val ∧
        ∃ r ∈ s.produce crypto 1700000001 10, r.2 = .ok none ∧ r.1.mempool.queued = [payment] := by
    decide +kernel
  exact ⟨s, s', Run.singleton_iff.mpr called, queued, later, produced, stuck⟩

end Devnet
end Sena
