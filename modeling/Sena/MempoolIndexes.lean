import Sena.QueueProgress

/-! The indexes beside the queue.

The pool keeps the hashes of what is queued, the nonces each sender has queued and the
roots its tip passed through, and every call updates them piece by piece. After any
calls, refused ones included, they say exactly what the queue says, and a batch is
always the longest prefix within its limits. -/
namespace Sena

theorem SortedMap.get_filter {K V : Type} {rank : K → Nat} {map : List (K × V)} (sorted : Sorted rank map)
    (keep : V → Bool) (key : K) : get rank key (map.filter (keep ·.2)) = (get rank key map).filter keep := by
  induction map with
  | nil => rfl
  | cons entry rest ih =>
    obtain ⟨after, sortedRest⟩ := List.pairwise_cons.mp sorted
    rw [List.filter_cons, get]
    by_cases here : rank entry.1 = rank key
    · -- no later entry is under the same key
      have absent : get rank key (rest.filter (keep ·.2)) = none :=
        get_eq_none rank fun e among => by have := after e (List.mem_of_mem_filter among); omega
      cases kept : keep entry.2 <;> simp [here, kept, get, absent, Option.filter]
    · cases kept : keep entry.2 <;> simp [here, get, ih sortedRest]

namespace Mempool

variable {crypto : Crypto} {pool pool' : Mempool} {state : MerkleTrie} {ctx : Execute.BatchContext}
  {txs taken : List Transaction} {sender : L2Address}

/-- The nonces a sender has among some transactions. -/
def noncesOf (sender : L2Address) (txs : List Transaction) : List U64 :=
  (txs.filter (·.sender = sender)).map (·.nonce)

theorem noncesOf_append (front back : List Transaction) :
    noncesOf sender (front ++ back) = noncesOf sender front ++ noncesOf sender back := by
  simp [noncesOf]

/-- No two of the transactions have one hash, or a sender and a nonce in common. -/
structure Distinct (crypto : Crypto) (txs : List Transaction) : Prop where
  hashes : (txs.map (·.hash crypto)).Nodup
  nonces : ∀ sender, (noncesOf sender txs).Nodup

theorem Distinct.sublist (distinct : Distinct crypto txs) (fewer : taken.Sublist txs) : Distinct crypto taken :=
  ⟨distinct.hashes.sublist (fewer.map _), fun sender => (distinct.nonces sender).sublist ((fewer.filter _).map _)⟩

/-- The indexes are those of these transactions. -/
structure Indexes (crypto : Crypto) (pool : Mempool) (txs : List Transaction) : Prop where
  hashes : pool.hashes.Perm (txs.map (·.hash crypto))
  sorted : SortedMap.Sorted Hash256.rank pool.claimed
  claimed : ∀ sender, (SortedMap.get Hash256.rank sender pool.claimed).getD [] = noncesOf sender txs

/-- The indexes are those of the queue, and the tip has a root before each queued
transaction and one after the last. -/
structure Indexed (crypto : Crypto) (pool : Mempool) : Prop where
  indexes : Indexes crypto pool pool.queued
  distinct : Distinct crypto pool.queued
  filled : ∀ entry ∈ pool.claimed, entry.2 ≠ []
  rooted : ∀ tip, pool.tip = some tip → tip.roots.length = pool.queued.length + 1

theorem get_claim (claimed : List (L2Address × List U64)) (tx : Transaction) :
    (SortedMap.get Hash256.rank sender (claim claimed tx)).getD [] =
      (SortedMap.get Hash256.rank sender claimed).getD [] ++ noncesOf sender [tx] := by
  simp only [claim, SortedMap.get_insert, Hash256.rank_inj]
  by_cases same : tx.sender = sender
  · simp [same, noncesOf]
  · simp [same, noncesOf]

theorem filled_claim {claimed : List (L2Address × List U64)} (filled : ∀ entry ∈ claimed, entry.2 ≠ [])
    (tx : Transaction) : ∀ entry ∈ claim claimed tx, entry.2 ≠ [] := by
  intro entry among
  rcases SortedMap.mem_insert _ among with rfl | old
  · simp
  · exact filled entry old

theorem claimed_foldl (txs : List Transaction) (claimed : List (L2Address × List U64))
    (sorted : SortedMap.Sorted Hash256.rank claimed) (filled : ∀ entry ∈ claimed, entry.2 ≠ []) :
    SortedMap.Sorted Hash256.rank (txs.foldl claim claimed) ∧ (∀ entry ∈ txs.foldl claim claimed, entry.2 ≠ []) ∧
      ∀ sender, (SortedMap.get Hash256.rank sender (txs.foldl claim claimed)).getD [] =
        (SortedMap.get Hash256.rank sender claimed).getD [] ++ noncesOf sender txs := by
  induction txs generalizing claimed with
  | nil => exact ⟨sorted, filled, fun sender => by simp [noncesOf]⟩
  | cons tx txs ih =>
    obtain ⟨sorted', filled', same⟩ :=
      ih (claim claimed tx) (SortedMap.sorted_insert _ sorted) (filled_claim filled tx)
    refine ⟨sorted', filled', fun sender => ?_⟩
    rw [List.foldl_cons, same, get_claim, List.append_assoc, ← noncesOf_append]
    rfl

theorem hashes_foldl (txs : List Transaction) (hashes : List Hash256)
    (distinct : (hashes ++ txs.map (·.hash crypto)).Nodup) :
    (txs.foldl (fun hashes tx => hashes.insert (tx.hash crypto)) hashes).Perm (hashes ++ txs.map (·.hash crypto)) := by
  induction txs generalizing hashes with
  | nil => simp
  | cons tx txs ih =>
    rw [List.map_cons] at distinct ⊢
    have fresh : tx.hash crypto ∉ hashes := fun among =>
      (List.nodup_append.mp distinct).2.2 _ among _ List.mem_cons_self rfl
    have moved : ((tx.hash crypto :: hashes) ++ txs.map (·.hash crypto)).Perm
        (hashes ++ tx.hash crypto :: txs.map (·.hash crypto)) := List.perm_middle.symm
    rw [List.foldl_cons, List.insert_of_not_mem fresh]
    exact (ih _ (moved.nodup_iff.mpr distinct)).trans moved

theorem indexed_reindex (distinct : Distinct crypto pool.queued)
    (rooted : ∀ tip, pool.tip = some tip → tip.roots.length = pool.queued.length + 1) :
    Indexed crypto (reindex crypto pool) := by
  obtain ⟨sorted, filled, claimed⟩ := claimed_foldl pool.queued [] .nil nofun
  exact ⟨⟨hashes_foldl pool.queued [] distinct.hashes, sorted, claimed⟩, distinct, filled, rooted⟩

theorem rebuild_roots {tip tip' : Tip} (rebuilt : rebuild crypto state ctx txs tip = some (taken, tip')) :
    tip'.roots.length = tip.roots.length + taken.length := by
  induction txs generalizing tip taken with
  | nil =>
    cases rebuilt
    rfl
  | cons tx txs ih =>
    rw [rebuild] at rebuilt
    split at rebuilt
    · simp only [Option.bind_eq_bind, Option.bind_eq_some_iff, Option.pure_def, Option.some.injEq,
        Prod.mk.injEq, Prod.exists] at rebuilt
      obtain ⟨rest, _, rebuilt, rfl, rfl⟩ := rebuilt
      have roots := ih rebuilt
      simp only [List.length_append, List.length_singleton] at roots
      rw [roots, List.length_cons]
      omega
    · cases rebuilt
    · exact ih rebuilt

/-- A tip over any state leaves the pool indexed, with part of its queue. -/
theorem Indexed.tipOver {tip : Tip} (indexed : Indexed crypto pool)
    (topped : tipOver crypto pool state ctx = some (pool', tip)) :
    Indexed crypto pool' ∧ pool'.queued.Sublist pool.queued ∧ pool'.tip = some tip := by
  unfold Mempool.tipOver at topped
  split at topped
  · rename_i found
    cases topped
    exact ⟨indexed, List.Sublist.refl _, (Option.filter_eq_some_iff.mp found).1⟩
  · simp only [Option.bind_eq_bind, Option.bind_eq_some_iff, Option.pure_def, Option.some.injEq, Prod.mk.injEq,
      Prod.exists] at topped
    obtain ⟨kept, tip, rebuilt, rfl, rfl⟩ := topped
    have fewer := rebuild_sublist rebuilt
    refine ⟨indexed_reindex (indexed.distinct.sublist fewer) ?_, fewer, rfl⟩
    rintro _ ⟨rfl⟩
    rw [rebuild_roots rebuilt]
    exact Nat.add_comm _ _

/-- A submission leaves the pool indexed. What it leaves queued is part of what was
queued, with the transaction behind it if it was accepted. -/
theorem Indexed.submit (indexed : Indexed crypto pool)
    (submitted : pool.submit crypto state ctx tx = some (pool', answer)) :
    Indexed crypto pool' ∧ pool'.queued.Sublist (pool.queued ++ answer.toOption.toList.map fun _ => tx) := by
  unfold Mempool.submit at submitted
  split at submitted
  · cases submitted
    exact ⟨indexed, List.sublist_append_left _ _⟩
  split at submitted
  · cases submitted
    exact ⟨indexed, List.sublist_append_left _ _⟩
  rename_i unknown
  split at submitted
  · cases submitted
    exact ⟨indexed, List.sublist_append_left _ _⟩
  rename_i unclaimed
  obtain ⟨⟨mid, tip⟩, topped, submitted⟩ := Option.bind_eq_some_iff.mp submitted
  obtain ⟨kept, fewer, top⟩ := indexed.tipOver topped
  dsimp only at submitted
  split at submitted
  · cases submitted
  · cases submitted
    exact ⟨kept, fewer.trans (List.sublist_append_left _ _)⟩
  cases submitted
  -- what was not indexed before is not queued now
  have fresh : tx.hash crypto ∉ mid.queued.map (·.hash crypto) := fun among =>
    unknown (indexed.indexes.hashes.mem_iff.mpr ((fewer.map _).subset among))
  have unused : tx.nonce ∉ noncesOf tx.sender mid.queued := fun among => by
    rw [indexed.indexes.claimed, List.contains_iff_mem] at unclaimed
    exact unclaimed (((fewer.filter _).map _).subset among)
  refine ⟨⟨⟨?_, SortedMap.sorted_insert _ kept.indexes.sorted, fun sender => ?_⟩, ⟨?_, fun sender => ?_⟩,
    filled_claim kept.filled tx, ?_⟩, fewer.append (List.Sublist.refl _)⟩
  · rw [List.insert_of_not_mem (fun among => fresh (kept.indexes.hashes.mem_iff.mp among)), List.map_append]
    exact (kept.indexes.hashes.cons _).trans (List.perm_append_singleton _ _).symm
  · rw [get_claim, kept.indexes.claimed, noncesOf_append]
  · rw [List.map_append]
    exact List.nodup_append.mpr ⟨kept.distinct.hashes, List.nodup_singleton _, fun a among b last same => by
      obtain rfl : b = tx.hash crypto := List.mem_singleton.mp last
      exact fresh (same ▸ among)⟩
  · rw [noncesOf_append]
    by_cases own : tx.sender = sender
    · subst own
      refine List.nodup_append.mpr ⟨kept.distinct.nonces _, by simp [noncesOf], fun a among b last same => ?_⟩
      obtain rfl : b = tx.nonce := by simpa [noncesOf] using last
      exact unused (same ▸ among)
    · simpa [noncesOf, own] using kept.distinct.nonces sender
  · rintro _ ⟨rfl⟩
    have roots := kept.rooted tip top
    simp only [List.length_append, List.length_singleton]
    omega

/-- A transaction taken off the front leaves the indexes of the others. -/
theorem Indexes.unindex (indexes : Indexes crypto pool (tx :: txs)) (distinct : Distinct crypto (tx :: txs)) :
    Indexes crypto (unindex crypto pool tx) txs := by
  have own : noncesOf tx.sender (tx :: txs) = tx.nonce :: noncesOf tx.sender txs := by simp [noncesOf]
  obtain ⟨nonces, found⟩ : ∃ nonces, SortedMap.get Hash256.rank tx.sender pool.claimed = some nonces := by
    have claimed := indexes.claimed tx.sender
    rw [own] at claimed
    cases found : SortedMap.get Hash256.rank tx.sender pool.claimed with
    | none => simp [found] at claimed
    | some nonces => exact ⟨nonces, rfl⟩
  have held : nonces = tx.nonce :: noncesOf tx.sender txs := by
    rw [← own, ← indexes.claimed, found]
    rfl
  have once := distinct.nonces tx.sender
  rw [own, List.nodup_cons] at once
  simp only [Mempool.unindex, found]
  refine ⟨?_, SortedMap.sorted_insert _ indexes.sorted, fun sender => ?_⟩
  · have erased := indexes.hashes.erase (tx.hash crypto)
    rwa [List.map_cons, List.erase_cons_head] at erased
  · simp only [SortedMap.get_insert, Hash256.rank_inj]
    by_cases same : tx.sender = sender
    · subst same
      have kept : (noncesOf tx.sender txs).filter (· ≠ tx.nonce) = noncesOf tx.sender txs :=
        List.filter_eq_self.mpr fun nonce among => decide_eq_true fun here => once.1 (here ▸ among)
      simpa [held] using kept
    · have others := indexes.claimed sender
      simpa [same, noncesOf] using others

theorem Indexes.foldl_unindex (indexes : Indexes crypto pool (taken ++ txs))
    (distinct : Distinct crypto (taken ++ txs)) : Indexes crypto (taken.foldl (Mempool.unindex crypto) pool) txs := by
  induction taken generalizing pool with
  | nil => exact indexes
  | cons tx taken ih => exact ih (indexes.unindex distinct) (distinct.sublist (List.sublist_cons_self _ _))

/-- Taking a batch leaves the pool indexed. -/
theorem Indexed.takeBatchWithin (indexed : Indexed crypto pool) (limit maxBytes : Nat) :
    Indexed crypto (takeBatchWithin crypto pool limit maxBytes).1 := by
  simp only [Mempool.takeBatchWithin]
  generalize counted : countWithin maxBytes (pool.queued.take limit) 0 0 = count
  have within : count ≤ pool.queued.length := by
    have few := countWithin_le maxBytes (pool.queued.take limit) 0 0
    rw [counted, List.length_take] at few
    omega
  have whole := List.take_append_drop count pool.queued
  let rest : Mempool := { pool with
    queued := pool.queued.drop count
    tip := pool.tip.map fun tip => { tip with roots := tip.roots.drop count } }
  have start : Indexes crypto rest (pool.queued.take count ++ pool.queued.drop count) := by
    rw [whole]
    exact ⟨indexed.indexes.hashes, indexed.indexes.sorted, indexed.indexes.claimed⟩
  have left := start.foldl_unindex (whole.symm ▸ indexed.distinct)
  obtain ⟨queued, tip⟩ : (List.foldl (Mempool.unindex crypto) rest (pool.queued.take count)).queued = rest.queued ∧ _ :=
    unindex_foldl (pool.queued.take count) rest
  refine ⟨⟨?_, left.sorted.filter _, fun sender => ?_⟩, ?_, fun entry among => ?_, fun t topped => ?_⟩
  · rw [queued]
    exact left.hashes
  · rw [queued]
    refine Eq.trans ?_ (left.claimed sender)
    rw [SortedMap.get_filter left.sorted (fun nonces => decide (nonces ≠ []))]
    cases SortedMap.get Hash256.rank sender (List.foldl (Mempool.unindex crypto) rest _).claimed with
    | none => rfl
    | some nonces => cases nonces <;> rfl
  · rw [queued]
    exact indexed.distinct.sublist (List.drop_sublist _ _)
  · simpa using (List.mem_filter.mp among).2
  · rw [queued]
    change (List.foldl (Mempool.unindex crypto) rest _).tip = some t at topped
    rw [tip] at topped
    obtain ⟨old, had, rfl⟩ := Option.map_eq_some_iff.mp topped
    have roots := indexed.rooted old had
    simp only [rest, List.length_drop]
    omega

/-- What is taken is a prefix, and no longer prefix is within the limits. -/
def Longest (within : List Transaction → Prop) (queue taken : List Transaction) : Prop :=
  taken <+: queue ∧ ∀ other, other <+: queue → (within other ↔ other.length ≤ taken.length)

/-- The encodings are of at most `maxBytes` together, or there is only one. -/
def FitsBytes (maxBytes : Nat) (txs : List Transaction) : Prop :=
  txs.length ≤ 1 ∨ min (txs.map (·.encode.length)).sum (2 ^ 64 - 1) ≤ maxBytes

/-- The transactions need at most the budget, and those that pay in an asset at most the
asset's cap. -/
def FitsGas (crypto : Crypto) (budget : Nat) (cap : U32 → Nat) (txs : List Transaction) : Prop :=
  (txs.map (need crypto)).sum ≤ budget ∧
    ∀ asset, ((txs.filter (·.feeAsset = asset)).map (need crypto)).sum ≤ cap asset

theorem countWithin_iff (among : m ≤ txs.length) : count + m ≤ countWithin maxBytes txs count size ↔
    m = 0 ∨ count + m ≤ 1 ∨ min (size + ((txs.take m).map (·.encode.length)).sum) (2 ^ 64 - 1) ≤ maxBytes := by
  induction txs generalizing count size m with
  | nil =>
    obtain rfl := Nat.le_zero.mp among
    simp [countWithin]
  | cons tx txs ih =>
    cases m with
    | zero => simp [le_countWithin]
    | succ m =>
      rw [countWithin, List.take_succ_cons, List.map_cons, List.sum_cons]
      split
      · omega
      · rw [show count + (m + 1) = count + 1 + m by omega, ih (Nat.le_of_succ_le_succ among)]
        cases m with
        | zero => simp; omega
        | succ m => omega

theorem countFitting_iff {budget : U64} {cap : U32 → U64} (affordable : gas ≤ budget.val)
    (capped : ∀ asset, (SortedMap.get Fin.val asset perAsset).getD 0 ≤ (cap asset).val) :
    ∃ n, countFitting crypto budget.val (fun asset => some (cap asset).val) txs gas perAsset = some n ∧
      ∀ m ≤ txs.length, m ≤ n ↔ gas + ((txs.take m).map (need crypto)).sum ≤ budget.val ∧
        ∀ asset, (SortedMap.get Fin.val asset perAsset).getD 0 +
          (((txs.take m).filter (·.feeAsset = asset)).map (need crypto)).sum ≤ (cap asset).val := by
  induction txs generalizing gas perAsset with
  | nil =>
    refine ⟨0, rfl, fun m none' => ?_⟩
    obtain rfl := Nat.le_zero.mp none'
    simpa using ⟨affordable, capped⟩
  | cons tx txs ih =>
    have below := budget.isLt
    have lower := (cap tx.feeAsset).isLt
    rw [countFitting]
    by_cases fits : gas + need crypto tx ≤ budget.val ∧
        (SortedMap.get Fin.val tx.feeAsset perAsset).getD 0 + need crypto tx ≤ (cap tx.feeAsset).val
    · have stillCapped (asset : U32) : (SortedMap.get Fin.val asset (SortedMap.insert Fin.val tx.feeAsset
          ((SortedMap.get Fin.val tx.feeAsset perAsset).getD 0 + need crypto tx) perAsset)).getD 0 ≤
            (cap asset).val := by
        rw [SortedMap.get_insert]
        split
        · rename_i same
          rw [← Fin.ext same]
          exact fits.2
        · exact capped asset
      obtain ⟨n, counted, longest⟩ := ih fits.1 stillCapped
      refine ⟨n + 1, ?_, fun m among => ?_⟩
      · rw [if_pos ⟨by omega, fits.1, by omega⟩]
        simp only [Option.bind_eq_bind, Option.bind_some, if_pos fits.2, counted]
        rfl
      cases m with
      | zero => simpa using ⟨affordable, capped⟩
      | succ m =>
        rw [Nat.succ_le_succ_iff, longest m (Nat.le_of_succ_le_succ among), List.take_succ_cons, List.map_cons,
          List.sum_cons, Nat.add_assoc]
        refine and_congr_right fun _ => forall_congr' fun asset => ?_
        rw [SortedMap.get_insert]
        by_cases same : tx.feeAsset = asset
        · subst same
          simp [Nat.add_assoc]
        · simp [same, Fin.val_inj]
    · refine ⟨0, ?_, fun m among => ?_⟩
      · split
        · rename_i room
          have beyond : ¬(SortedMap.get Fin.val tx.feeAsset perAsset).getD 0 + need crypto tx ≤ (cap tx.feeAsset).val :=
            fun capped => fits ⟨room.2.1, capped⟩
          simp only [Option.bind_eq_bind, Option.bind_some, if_neg beyond]
        · rfl
      cases m with
      | zero => simpa using ⟨affordable, capped⟩
      | succ m =>
        refine iff_of_false (Nat.not_succ_le_zero m) ?_
        rintro ⟨total, shares⟩
        apply fits
        have own := shares tx.feeAsset
        simp only [List.take_succ_cons, decide_true, List.filter_cons_of_pos, List.map_cons, List.sum_cons] at total own
        exact ⟨by omega, by omega⟩

/-- A batch within a size is the longest prefix of it. -/
theorem takeBatchWithin_longest (crypto : Crypto) (pool : Mempool) (limit maxBytes : Nat) :
    Longest (fun txs => txs.length ≤ limit ∧ FitsBytes maxBytes txs) pool.queued
      (takeBatchWithin crypto pool limit maxBytes).2 := by
  have few := countWithin_le maxBytes (pool.queued.take limit) 0 0
  rw [List.length_take, Nat.zero_add] at few
  refine ⟨List.take_prefix _ _, fun other prefixed => ?_⟩
  obtain ⟨m, among, rfl⟩ : ∃ m, m ≤ pool.queued.length ∧ other = pool.queued.take m :=
    ⟨other.length, prefixed.length_le, List.prefix_iff_eq_take.mp prefixed⟩
  simp only [takeBatchWithin, FitsBytes, List.length_take, Nat.min_eq_left among]
  by_cases short : m ≤ limit
  · have counted : 0 + m ≤ countWithin maxBytes (pool.queued.take limit) 0 0 ↔ _ :=
      countWithin_iff (by rw [List.length_take]; omega)
    rw [List.take_take, Nat.min_eq_left short, Nat.zero_add, Nat.zero_add] at counted
    have whole : countWithin maxBytes (pool.queued.take limit) 0 0 ≤ pool.queued.length := by omega
    rw [Nat.min_eq_left whole, counted]
    simp only [short, true_and]
    omega
  · simp only [short, false_and, false_iff]
    omega

/-- So is any batch, if it is within the limits of gas. -/
theorem takeBatchFitting_longest (crypto : Crypto) (pool : Mempool) (limit maxBytes : Nat) (budget : U64)
    (cap : U32 → U64) : ∃ pool' taken,
      takeBatchFitting crypto pool limit maxBytes budget.val (fun asset => some (cap asset).val) = some (pool', taken) ∧
      Longest (fun txs => (txs.length ≤ limit ∧ FitsGas crypto budget.val (fun asset => (cap asset).val) txs) ∧
        FitsBytes maxBytes txs) pool.queued taken := by
  obtain ⟨n, counted, longest⟩ : ∃ n, countFitting crypto budget.val (fun asset => some (cap asset).val)
      (pool.queued.take limit) 0 [] = some n ∧ _ := countFitting_iff (Nat.zero_le _) fun _ => Nat.zero_le _
  obtain ⟨prefixed, exact'⟩ := takeBatchWithin_longest crypto pool n maxBytes
  refine ⟨_, _, by rw [takeBatchFitting, counted]; rfl, prefixed, fun other inFront => ?_⟩
  rw [← exact' other inFront]
  refine and_congr_left fun _ => ?_
  have own := List.prefix_iff_eq_take.mp inFront
  by_cases short : other.length ≤ limit
  · have among := inFront.length_le
    rw [longest other.length (by rw [List.length_take]; omega), List.take_take, Nat.min_eq_left short, ← own]
    simp only [short, true_and, FitsGas, SortedMap.get, Option.getD_none, Nat.zero_add]
  · have few := (countFitting_spec counted (Nat.zero_le _)).1
    rw [List.length_take] at few
    simp only [short, false_and, false_iff]
    omega

/-- A batch is taken; what it may be, and what it is. -/
inductive Takes (crypto : Crypto) (pool : Mempool) : (List Transaction → Prop) → List Transaction → Mempool → Prop
  | batch (limit : Nat) : Takes crypto pool (·.length ≤ limit) (takeBatch crypto pool limit).2
      (takeBatch crypto pool limit).1
  | sized (limit maxBytes : Nat) : Takes crypto pool (fun txs => txs.length ≤ limit ∧ FitsBytes maxBytes txs)
      (takeBatchWithin crypto pool limit maxBytes).2 (takeBatchWithin crypto pool limit maxBytes).1
  | fitting (limit maxBytes : Nat) (budget : U64) (cap : U32 → U64) {rest : Mempool} {batch : List Transaction}
      (took : takeBatchFitting crypto pool limit maxBytes budget.val (fun asset => some (cap asset).val) =
        some (rest, batch)) :
      Takes crypto pool (fun txs => (txs.length ≤ limit ∧
        FitsGas crypto budget.val (fun asset => (cap asset).val) txs) ∧ FitsBytes maxBytes txs) batch rest

/-- A call, and the transaction it accepted, if any. -/
inductive Does (crypto : Crypto) (pool : Mempool) : List Transaction → Mempool → Prop
  | submit (state : MerkleTrie) (ctx : Execute.BatchContext) (tx : Transaction) {rest : Mempool}
      (submitted : pool.submit crypto state ctx tx = some (rest, answer)) :
      Does crypto pool (answer.toOption.toList.map fun _ => tx) rest
  | take {rest : Mempool} {batch : List Transaction} (takes : Takes crypto pool within batch rest) :
      Does crypto pool [] rest
  | clear : Does crypto pool [] pool.clear

section
variable (takes : Takes crypto pool within taken pool')
include takes

theorem Takes.eq_takeBatchWithin : ∃ limit maxBytes, takeBatchWithin crypto pool limit maxBytes = (pool', taken) := by
  cases takes with
  | batch limit => exact ⟨limit, _, rfl⟩
  | sized limit maxBytes => exact ⟨limit, maxBytes, rfl⟩
  | fitting limit maxBytes budget cap took =>
    obtain ⟨fitting, _, same⟩ := Option.bind_eq_some_iff.mp took
    exact ⟨fitting, maxBytes, Option.some.inj same⟩

theorem Takes.queued : pool.queued = taken ++ pool'.queued := by
  obtain ⟨limit, maxBytes, took⟩ := takes.eq_takeBatchWithin
  cases took
  simp only [unindex_foldl]
  exact (List.take_append_drop _ _).symm

theorem Takes.longest : Longest within pool.queued taken := by
  cases takes with
  | batch limit =>
    obtain ⟨inFront, longest⟩ := takeBatchWithin_longest crypto pool limit (2 ^ 64 - 1)
    refine ⟨inFront, fun other prefixed => ?_⟩
    rw [takeBatch, ← longest other prefixed]
    simp [FitsBytes]
  | sized limit maxBytes => exact takeBatchWithin_longest crypto pool limit maxBytes
  | fitting limit maxBytes budget cap took =>
    obtain ⟨_, _, took', longest⟩ := takeBatchFitting_longest crypto pool limit maxBytes budget cap
    cases took.symm.trans took'
    exact longest

end

theorem indexed_new (crypto : Crypto) (capacity : Nat) : Indexed crypto (new capacity) :=
  ⟨⟨.nil, .nil, fun _ => rfl⟩, ⟨List.nodup_nil, fun _ => List.nodup_nil⟩, nofun, nofun⟩

theorem Indexed.does (indexed : Indexed crypto pool) (does : Does crypto pool accepted pool') :
    Indexed crypto pool' ∧ pool'.queued.Sublist (pool.queued ++ accepted) := by
  cases does with
  | submit state ctx tx submitted => exact indexed.submit submitted
  | clear => exact ⟨indexed_new crypto pool.capacity, List.nil_sublist _⟩
  | take takes =>
    obtain ⟨limit, maxBytes, took⟩ := takes.eq_takeBatchWithin
    have left := indexed.takeBatchWithin limit maxBytes
    rw [took] at left
    refine ⟨left, ?_⟩
    rw [List.append_nil, takes.queued]
    exact List.sublist_append_right _ _

theorem Indexed.run (indexed : Indexed crypto pool) (ran : Run (Does crypto) pool accepted pool') :
    Indexed crypto pool' ∧ pool'.queued.Sublist (pool.queued ++ accepted.flatten) := by
  induction accepted generalizing pool with
  | nil =>
    obtain rfl := Run.nil_iff.mp ran
    exact ⟨indexed, List.sublist_append_left _ _⟩
  | cons first rest ih =>
    obtain ⟨mid, does, ran⟩ := Run.cons_iff.mp ran
    obtain ⟨between, fewer⟩ := indexed.does does
    obtain ⟨last, fewer'⟩ := ih between ran
    refine ⟨last, fewer'.trans ?_⟩
    rw [List.flatten_cons, ← List.append_assoc]
    exact fewer.append (List.Sublist.refl _)

/-- After any calls the indexes are those of the queue and the queue is in the order of
admission, and every batch is the longest prefix of the queue within its limits. -/
theorem mempool_stays_consistent {size : Nat} (ran : Run (Does crypto) (new size) accepted pool) :
    Indexed crypto pool ∧ pool.queued.Sublist accepted.flatten ∧
      ∀ within taken pool', Takes crypto pool within taken pool' →
        pool.queued = taken ++ pool'.queued ∧ Longest within pool.queued taken := by
  obtain ⟨indexed, ordered⟩ := (indexed_new crypto size).run ran
  exact ⟨indexed, ordered, fun within taken pool' takes => ⟨takes.queued, takes.longest⟩⟩

end Mempool

/-- The devnet's pool accepts three transactions, and gives out the first two. -/
theorem Devnet.two_of_three_are_taken : ∃ pool pool',
    Run (Mempool.Does crypto) (.new 10) [[payment], [distribution], [disabling]] pool ∧
    pool.queued = [payment, distribution, disabling] ∧ Mempool.Indexed crypto pool ∧
    Mempool.Takes crypto pool (·.length ≤ 2) [payment, distribution] pool' ∧
    pool'.queued = [disabling] ∧ Mempool.Indexed crypto pool' := by
  obtain ⟨⟨_, _⟩, first, ⟨_, rfl⟩, ⟨_, _⟩, second, ⟨_, rfl⟩, ⟨pool, _⟩, third, ⟨_, rfl⟩, queued, taken⟩ :
      ∃ first ∈ (Mempool.new 10).submit crypto genesis context payment, (∃ hash, first.2 = .ok hash) ∧
      ∃ second ∈ first.1.submit crypto genesis context distribution, (∃ hash, second.2 = .ok hash) ∧
      ∃ third ∈ second.1.submit crypto genesis context disabling, (∃ hash, third.2 = .ok hash) ∧
        third.1.queued = [payment, distribution, disabling] ∧
        (Mempool.takeBatch crypto third.1 2).2 = [payment, distribution] := by
    decide +kernel
  have ran : Run (Mempool.Does crypto) (.new 10) [[payment], [distribution], [disabling]] pool :=
    ⟨_, .submit _ _ _ first, _, .submit _ _ _ second, _, .submit _ _ _ third, rfl⟩
  have takes : Mempool.Takes crypto pool (·.length ≤ 2) [payment, distribution] (Mempool.takeBatch crypto pool 2).1 := by
    rw [← show (Mempool.takeBatch crypto pool 2).2 = _ from taken]
    exact .batch 2
  obtain ⟨indexed, -, split⟩ := Mempool.mempool_stays_consistent ran
  have left := (split _ _ _ takes).1
  rw [queued] at left
  exact ⟨pool, _, ran, queued, indexed, takes, by simpa using left.symm,
    (Mempool.mempool_stays_consistent (Run.append_iff.mpr ⟨pool, ran, Run.singleton_iff.mpr (.take takes)⟩)).1⟩

end Sena
