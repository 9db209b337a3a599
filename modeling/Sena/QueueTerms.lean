import Sena.FeeWindows
import Sena.Quorum
import Sena.SequencerRuns

/-! Whether a prefix of the queue executes.

Every transaction is admitted against the fee market of the canonical state. A batch
executes it against the market the transactions ahead of it leave, and one of those may
have set other terms: a floor above the batch's base fee, or a target with less room in
the window. -/
namespace Sena

open Move
open Execute

namespace Execute

variable {crypto : Crypto} {t t' u u' : MerkleTrie} {i : Instruction} {p : List Instruction} {m : FeeMarket}

/-- The instructions of a program that work on the fee market. -/
def onMarket (p : List Instruction) : List Instruction := p.filter (·.on = .feeMarket)

theorem onMarket_append (p q : List Instruction) : onMarket (p ++ q) = onMarket p ++ onMarket q :=
  List.filter_append ..

theorem steps_on_market (here : i.on = .feeMarket) (decoded : decodeFeeMarket (u.get (Keys.feeMarket crypto)) = .ok m) :
    Steps crypto u i u' ↔ ∃ m', m.Steps i m' ∧ u' = u.insert crypto (Keys.feeMarket crypto) m'.encode := by
  rw [steps_iff, here]
  constructor
  · rintro ⟨written, computed, _, rfl⟩
    obtain ⟨m', stepped, rfl⟩ := (FeeMarket.transition_eq_ok here decoded).mp computed
    exact ⟨m', stepped, rfl⟩
  · rintro ⟨m', stepped, rfl⟩
    refine ⟨m'.encode, (FeeMarket.transition_eq_ok here decoded).mpr ⟨m', stepped, rfl⟩, ?_, rfl⟩
    cases i <;> trivial

theorem run_onMarket (apart : MarketApart crypto p) (decoded : decodeFeeMarket (u.get (Keys.feeMarket crypto)) = .ok m)
    (ran : Run (Steps crypto) u p u') : ∃ m', Run FeeMarket.Steps m (onMarket p) m' := by
  induction p generalizing u m with
  | nil => exact ⟨m, rfl⟩
  | cons i p ih =>
    obtain ⟨mid, stepped, ran⟩ := ran
    by_cases here : i.on = .feeMarket
    · obtain ⟨m₁, first, rfl⟩ := (steps_on_market here decoded).mp stepped
      obtain ⟨m', rest⟩ := ih apart.of_cons
        (by rw [MerkleTrie.get_insert, if_pos rfl]; exact decodeFeeMarket_encode m₁) ran
      rw [onMarket, List.filter_cons_of_pos (by simpa using here)]
      exact ⟨m', m₁, first, rest⟩
    · obtain ⟨_, _, _, rfl⟩ := steps_iff.mp stepped
      rw [onMarket, List.filter_cons_of_neg (by simpa using here)]
      refine ih apart.of_cons ?_ ran
      rw [MerkleTrie.get_insert, if_neg (apart i List.mem_cons_self here)]
      exact decoded

/-- A program runs where both of its parts do. -/
theorem run_of_parts (apart : MarketApart crypto p) (agrees : u.AgreesOff (Keys.feeMarket crypto) t)
    (decoded : decodeFeeMarket (u.get (Keys.feeMarket crypto)) = .ok m) (off : Run (Steps crypto) t (offMarket p) t')
    (on : Run FeeMarket.Steps m (onMarket p) m') : ∃ u', Run (Steps crypto) u p u' := by
  induction p generalizing t u m with
  | nil => exact ⟨u, rfl⟩
  | cons i p ih =>
    by_cases here : i.on = .feeMarket
    · rw [offMarket, List.filter_cons_of_neg (by simpa using here)] at off
      rw [onMarket, List.filter_cons_of_pos (by simpa using here)] at on
      obtain ⟨m₁, first, rest⟩ := on
      have stepped := (steps_on_market here decoded).mpr ⟨m₁, first, rfl⟩
      obtain ⟨u', ran⟩ := ih apart.of_cons (agrees_of_market agrees here stepped)
        (by rw [MerkleTrie.get_insert, if_pos rfl]; exact decodeFeeMarket_encode m₁) off rest
      exact ⟨u', _, stepped, ran⟩
    · rw [offMarket, List.filter_cons_of_pos (by simpa using here)] at off
      rw [onMarket, List.filter_cons_of_neg (by simpa using here)] at on
      obtain ⟨next, first, rest⟩ := off
      have away := apart i List.mem_cons_self here
      obtain ⟨mid, stepped, agrees'⟩ := steps_off agrees.symm away first
      have kept : decodeFeeMarket (mid.get (Keys.feeMarket crypto)) = .ok m := by
        obtain ⟨_, _, _, rfl⟩ := steps_iff.mp stepped
        rw [MerkleTrie.get_insert, if_neg away]
        exact decoded
      obtain ⟨u', ran⟩ := ih apart.of_cons agrees'.symm kept rest on
      exact ⟨u', mid, stepped, ran⟩

/-- The terms that an order in the transaction sets. -/
def terms (tx : Transaction) : Option (U128 × U64) := tx.payload.order.bind fun order => order.update.retarget none

theorem onMarket_eq_nil (off : ∀ i ∈ p, i.on ≠ .feeMarket) : onMarket p = [] :=
  List.filter_eq_nil_iff.mpr fun i among => by simpa using off i among

theorem onMarket_compilePayload {tx : Transaction} (compiled : compilePayload crypto tx.payload sender = .ok is) :
    onMarket is = (terms tx).toList.map (fun t => .setFeeMarket t.1 t.2) ∧
      ∀ t ∈ terms tx, t.1.val ≠ 0 ∧ t.2.val ≠ 0 := by
  unfold terms
  cases paid : tx.payload with
  | governance epoch update signatures =>
    rw [paid] at compiled
    simp only [compilePayload, bind_eq_ok, mapError_eq_ok, pure_iff] at compiled
    obtain ⟨_, permitted, rfl⟩ := compiled
    cases update with
    | setFeeMarket floor target =>
      obtain ⟨hasFloor, hasTarget⟩ := GovernanceUpdate.permits_setFeeMarket.mp permitted
      refine ⟨rfl, ?_⟩
      rintro _ ⟨⟩
      exact ⟨hasFloor, hasTarget⟩
    | _ => exact ⟨rfl, by rintro _ ⟨⟩⟩
  | _ =>
    refine ⟨onMarket_eq_nil (market_compilePayload compiled ?_), by rintro _ ⟨⟩⟩
    simp [KeepsTerms, paid, Payload.order]

theorem onMarket_of_compile (compiled : compile crypto tx ctx = .ok p) :
    (∃ gas : U64, gas.val = Mempool.need crypto tx ∧ onMarket p =
      .chargeBaseFee ctx.timestamp ctx.baseFee gas :: (terms tx).toList.map fun t => .setFeeMarket t.1 t.2) ∧
      ∀ t ∈ terms tx, t.1.val ≠ 0 ∧ t.2.val ≠ 0 := by
  obtain ⟨_, _, payload, used, charge, shaped, gas, settled, rfl⟩ := compile_eq_ok.mp compiled
  obtain ⟨set, positive⟩ := onMarket_compilePayload shaped
  have opened : onMarket (opening tx ctx charge) = [.chargeBaseFee ctx.timestamp ctx.baseFee charge.gasUsed] := by
    unfold opening
    cases tx.authenticator <;> rfl
  have closed : onMarket (closing tx ctx charge) = [] := onMarket_eq_nil fun i emitted => by
    obtain ⟨x, on⟩ := on_closing emitted
    simp [on]
  refine ⟨⟨charge.gasUsed, ?_, ?_⟩, positive⟩
  · rw [need_eq (gasRequired_eq_ok.mpr ⟨payload, shaped, gas⟩), (Gas.settle_spec settled).1]
  · rw [program_eq, onMarket_append, onMarket_append, opened, set, closed, List.append_nil]
    rfl

/-- The program of a transaction, if it has one. -/
def programOf (crypto : Crypto) (ctx : BatchContext) (tx : Transaction) : List Instruction :=
  (compile crypto tx ctx).toOption.getD []

theorem programOf_eq (compiled : compile crypto tx ctx = .ok p) : programOf crypto ctx tx = p := by
  rw [programOf, compiled]
  rfl

theorem compile_of_mem (emitted : i ∈ programOf crypto ctx tx) : ∃ p, compile crypto tx ctx = .ok p ∧ i ∈ p := by
  cases compiled : compile crypto tx ctx with
  | error e => simp [programOf, compiled, Except.toOption] at emitted
  | ok p => exact ⟨p, rfl, programOf_eq compiled ▸ emitted⟩

theorem run_executes_iff {txs : List Transaction} (compiles : ∀ tx ∈ txs, ∃ p, compile crypto tx ctx = .ok p) :
    Run (Executes crypto) t (txs.map (ctx, ·)) t' ↔ Run (Steps crypto) t (txs.flatMap (programOf crypto ctx)) t' := by
  rw [Run.map_iff, Run.flatMap_iff]
  refine ⟨fun ran => ran.mono ?_, fun ran => ran.mono ?_⟩
  · rintro t tx t' - ⟨p, compiled, ran⟩
    rwa [programOf_eq compiled]
  · intro t tx t' among ran
    obtain ⟨p, compiled⟩ := compiles tx among
    exact ⟨p, compiled, programOf_eq compiled ▸ ran⟩

end Execute

/-- Every transaction of a batch finds the market as it was admitted against it: the window
has the gas it needs, and whoever set other terms ahead of it left the base fee where it
was. -/
def Affords (crypto : Crypto) (fee : U128) (limit used : Nat) : List Transaction → Prop
  | [] => True
  | tx :: txs => used + Mempool.need crypto tx ≤ limit ∧
    match terms tx with
    | none => Affords crypto fee limit (used + Mempool.need crypto tx) txs
    | some (floor, target) => txs = [] ∨ floor.val ≤ fee.val ∧
      Affords crypto fee (min (target.val * Gas.ELASTICITY.val) (2 ^ 64 - 1)) (used + Mempool.need crypto tx) txs

namespace FeeMarket

variable {m m' rolled : FeeMarket} {timestamp gas : U64} {fee : U128}

/-- The market with more of its window used. -/
def filled (m : FeeMarket) (gas : U64) : FeeMarket :=
  { m with windowGas := Fin.ofNat _ (m.windowGas.val + gas.val) }

theorem windowGas_filled (room : m.windowGas.val + gas.val ≤ m.windowLimit) :
    (m.filled gas).windowGas.val = m.windowGas.val + gas.val := by
  have limit : m.windowLimit ≤ 2 ^ 64 - 1 := Nat.min_le_right _ _
  exact Nat.mod_eq_of_lt (by omega)

theorem steps_charge_iff (rolls : m.atTimestamp timestamp = .ok rolled) :
    m.Steps (.chargeBaseFee timestamp fee gas) m' ↔ rolled.baseFee = fee ∧
      rolled.windowGas.val + gas.val ≤ rolled.windowLimit ∧ m' = rolled.filled gas := by
  constructor
  · rintro ⟨_, rolls', asked, total, sum, within, rfl⟩
    cases rolls.symm.trans rolls'
    have room : rolled.windowGas.val + gas.val ≤ rolled.windowLimit := sum ▸ within
    obtain rfl : total = (rolled.filled gas).windowGas := Fin.ext (sum.trans (windowGas_filled room).symm)
    exact ⟨asked, room, rfl⟩
  · rintro ⟨asked, room, rfl⟩
    exact ⟨rolled, rolls, asked, (rolled.filled gas).windowGas, windowGas_filled room,
      (windowGas_filled room).trans_le room, rfl⟩

theorem atTimestamp_of_windowTs (here : m.windowTs = timestamp) : m.atTimestamp timestamp = .ok m :=
  here ▸ m.atTimestamp_self

end FeeMarket

theorem not_run_market {ctx : BatchContext} (compiled : compile crypto tx ctx = .ok p)
    (rolls : m.atTimestamp ctx.timestamp = .ok rolled) (other : rolled.baseFee ≠ ctx.baseFee) :
    ¬∃ m', Run FeeMarket.Steps m (onMarket ((tx :: txs).flatMap (programOf crypto ctx))) m' := by
  obtain ⟨⟨gas, _, shape⟩, _⟩ := onMarket_of_compile compiled
  rw [List.flatMap_cons, onMarket_append, programOf_eq compiled, shape]
  rintro ⟨m', mid, charged, _⟩
  exact other ((FeeMarket.steps_charge_iff rolls).mp charged).1

/-- The market takes what a batch does there exactly if the batch can afford it. -/
theorem run_market_iff {ctx : BatchContext} {txs : List Transaction} {m rolled : FeeMarket}
    (compiles : ∀ tx ∈ txs, ∃ p, compile crypto tx ctx = .ok p) (rolls : m.atTimestamp ctx.timestamp = .ok rolled)
    (asked : rolled.baseFee = ctx.baseFee) :
    (∃ m', Run FeeMarket.Steps m (onMarket (txs.flatMap (programOf crypto ctx))) m') ↔
      Affords crypto ctx.baseFee rolled.windowLimit rolled.windowGas.val txs := by
  induction txs generalizing m rolled with
  | nil => exact iff_of_true ⟨m, rfl⟩ trivial
  | cons tx txs ih =>
    rw [List.forall_mem_cons] at compiles
    obtain ⟨⟨p, compiled⟩, compiles⟩ := compiles
    obtain ⟨⟨gas, need, shape⟩, positive⟩ := onMarket_of_compile compiled
    rw [List.flatMap_cons, onMarket_append, programOf_eq compiled, shape, Affords, ← need]
    simp only [List.cons_append, Run.cons_iff, FeeMarket.steps_charge_iff rolls, asked, true_and, and_assoc,
      exists_and_left, exists_eq_left]
    refine and_congr_right fun room => ?_
    have here : rolled.windowTs = ctx.timestamp := FeeMarket.windowTs_of_atTimestamp rolls
    rw [← FeeMarket.windowGas_filled room]
    cases set : terms tx with
    | none => exact ih compiles (FeeMarket.atTimestamp_of_windowTs (m := rolled.filled gas) here) asked
    | some new =>
      obtain ⟨floor, target⟩ := new
      obtain ⟨hasFloor, hasTarget⟩ := positive _ set
      let next : FeeMarket :=
        { rolled.filled gas with baseFee := max (rolled.filled gas).baseFee floor, floor := floor, target := target }
      have rolls' : next.atTimestamp ctx.timestamp = .ok next := FeeMarket.atTimestamp_of_windowTs here
      have resets : (∃ m', Run FeeMarket.Steps (rolled.filled gas)
          (.setFeeMarket floor target :: onMarket (txs.flatMap (programOf crypto ctx))) m') ↔
          ∃ m', Run FeeMarket.Steps next (onMarket (txs.flatMap (programOf crypto ctx))) m' := by
        simp only [Run.cons_iff, FeeMarket.Steps, hasFloor, hasTarget, ne_eq, not_false_eq_true, true_and,
          exists_eq_left, next]
      refine resets.trans ?_
      by_cases low : floor.val ≤ ctx.baseFee.val
      · have kept : next.baseFee = ctx.baseFee := (max_eq_left (asked ▸ low)).trans asked
        rw [ih compiles rolls' kept]
        cases txs with
        | nil => exact iff_of_true trivial (.inl rfl)
        | cons tx txs => simp [low, FeeMarket.windowLimit, next]
      · have raised : ctx.baseFee < next.baseFee := lt_max_of_lt_right (Fin.lt_def.mpr (Nat.not_le.mp low))
        cases txs with
        | nil => exact iff_of_true ⟨next, rfl⟩ (.inl rfl)
        | cons after txs =>
          -- the transaction behind it declares the base fee of before
          obtain ⟨p, compiled⟩ := compiles after List.mem_cons_self
          exact iff_of_false (not_run_market compiled rolls' raised.ne') (by simp [low])

/-- Behind every order that sets terms, up to the next, the transactions of a batch find
the base fee where it was and the gas they need in the window. -/
def OrdersSpare (crypto : Crypto) (fee : U128) (used : Nat) (batch : List Transaction) : Prop :=
  ∀ before order between tx after floor target, batch = before ++ order :: (between ++ tx :: after) →
    terms order = some (floor, target) → (∀ other ∈ between, terms other = none) →
    floor.val ≤ fee.val ∧ used + ((before ++ order :: (between ++ [tx])).map (Mempool.need crypto)).sum ≤
      min (target.val * Gas.ELASTICITY.val) (2 ^ 64 - 1)

/-- Up to the first order that sets terms, the transactions of a batch find the gas they
need. -/
def FirstFit (crypto : Crypto) (limit used : Nat) (batch : List Transaction) : Prop :=
  ∀ between tx after, batch = between ++ tx :: after → (∀ other ∈ between, terms other = none) →
    used + ((between ++ [tx]).map (Mempool.need crypto)).sum ≤ limit

theorem ordersSpare_cons : OrdersSpare crypto fee used (tx :: txs) ↔
    (∀ floor target, terms tx = some (floor, target) → txs = [] ∨ floor.val ≤ fee.val ∧
      FirstFit crypto (min (target.val * Gas.ELASTICITY.val) (2 ^ 64 - 1)) (used + Mempool.need crypto tx) txs) ∧
    OrdersSpare crypto fee (used + Mempool.need crypto tx) txs := by
  constructor
  · intro spare
    refine ⟨fun floor target set => ?_, ?_⟩
    · cases txs with
      | nil => exact .inl rfl
      | cons next txs =>
        refine .inr ⟨(spare [] tx [] next txs floor target rfl set nofun).1, ?_⟩
        intro between last after same quiet
        have := (spare [] tx between last after floor target (by rw [same]; rfl) set quiet).2
        simpa [Nat.add_assoc] using this
    · intro before order between last after floor target same set quiet
      have := spare (tx :: before) order between last after floor target (by rw [same]; rfl) set quiet
      simpa [Nat.add_assoc] using this
  · rintro ⟨here, later⟩ before order between last after floor target same set quiet
    cases before with
    | nil =>
      obtain ⟨rfl, rfl⟩ := List.cons.inj same
      rcases here floor target set with none | ⟨low, fit⟩
      · simp at none
      · have := fit between last after rfl quiet
        exact ⟨low, by simpa [Nat.add_assoc] using this⟩
    | cons first before =>
      obtain ⟨rfl, rfl⟩ := List.cons.inj same
      have := later before order between last after floor target rfl set quiet
      simpa [Nat.add_assoc] using this

theorem firstFit_cons : FirstFit crypto limit used (tx :: txs) ↔ used + Mempool.need crypto tx ≤ limit ∧
    (terms tx = none → FirstFit crypto limit (used + Mempool.need crypto tx) txs) := by
  constructor
  · intro fit
    refine ⟨by simpa using fit [] tx txs rfl nofun, fun quiet between last after same others => ?_⟩
    have := fit (tx :: between) last after (by rw [same]; rfl) (List.forall_mem_cons.mpr ⟨quiet, others⟩)
    simpa [Nat.add_assoc] using this
  · rintro ⟨fits, later⟩ between last after same quiet
    cases between with
    | nil =>
      obtain ⟨rfl, rfl⟩ := List.cons.inj same
      simpa using fits
    | cons first between =>
      obtain ⟨rfl, rfl⟩ := List.cons.inj same
      rw [List.forall_mem_cons] at quiet
      have := later quiet.1 between last after rfl quiet.2
      simpa [Nat.add_assoc] using this

theorem affords_iff : Affords crypto fee limit used txs ↔
    FirstFit crypto limit used txs ∧ OrdersSpare crypto fee used txs := by
  induction txs generalizing limit used with
  | nil => exact iff_of_true trivial ⟨by simp [FirstFit], by simp [OrdersSpare]⟩
  | cons tx txs ih =>
    rw [Affords, firstFit_cons, ordersSpare_cons, and_assoc]
    refine and_congr_right fun _ => ?_
    cases set : terms tx with
    | none => simp [ih]
    | some new =>
      obtain ⟨floor, target⟩ := new
      have nothing : txs = [] → OrdersSpare crypto fee (used + Mempool.need crypto tx) txs := by
        rintro rfl
        simp [OrdersSpare]
      simp only [ih]
      constructor
      · rintro (empty | ⟨low, fit, spare⟩)
        · exact ⟨nofun, fun _ _ _ => .inl empty, nothing empty⟩
        · refine ⟨nofun, ?_, spare⟩
          rintro _ _ ⟨⟩
          exact .inr ⟨low, fit⟩
      · rintro ⟨-, here, spare⟩
        rcases here floor target rfl with empty | ⟨low, fit⟩
        · exact .inl empty
        · exact .inr ⟨low, fit, spare⟩

theorem firstFit_of_le (fits : (txs.map (Mempool.need crypto)).sum ≤ limit - used) :
    FirstFit crypto limit used txs := by
  rintro between tx after rfl -
  have positive := need_pos crypto tx
  simp only [List.map_append, List.map_cons, List.map_nil, List.sum_append, List.sum_cons, List.sum_nil] at fits ⊢
  omega

namespace Mempool

variable {crypto : Crypto} {pool pool' : Mempool} {state : MerkleTrie} {ctx : BatchContext} {txs : List Transaction}

/-- A transaction offered to the pool. -/
def Submits (crypto : Crypto) (state : MerkleTrie) (ctx : BatchContext) (pool : Mempool) (tx : Transaction)
    (pool' : Mempool) : Prop :=
  ∃ answer, pool.submit crypto state ctx tx = some (pool', answer)

/-- The slots that the programs of some transactions name. -/
def slotsOffered (crypto : Crypto) (ctx : BatchContext) (txs : List Transaction) : Set Slot :=
  {s | ∃ tx ∈ txs, ∃ i ∈ programOf crypto ctx tx, i.on = s}

/-- The transaction executes off the market, in the context it was admitted in. -/
def AdmitsIn (crypto : Crypto) (ctx : BatchContext) (t : MerkleTrie) (tx : Transaction) (t' : MerkleTrie) : Prop :=
  ∃ p, compile crypto tx ctx = .ok p ∧ Run (Steps crypto) t (offMarket p) t'

theorem admission_in : Admission crypto ctx state (fun tx => MarketApart crypto (programOf crypto ctx tx))
    (AdmitsIn crypto ctx) := by
  intro tx apart top t next agrees admitted
  obtain ⟨base, off, _, p, compiled, ran⟩ := executes_of_tryAdmit admitted
  rw [programOf_eq compiled] at apart
  obtain ⟨t', ran', agrees'⟩ := run_offMarket apart (off.trans agrees) ran
  exact ⟨t', ⟨p, compiled, ran'⟩, agrees'⟩

theorem leads_of_submits (apart : ∀ tx ∈ txs, MarketApart crypto (programOf crypto ctx tx))
    (ran : Run (Submits crypto state ctx) (new size) txs pool) :
    pool.Leads crypto (AdmitsIn crypto ctx) state ∧
      ∀ tx ∈ pool.queued, MarketApart crypto (programOf crypto ctx tx) := by
  refine ran.invariant (fun pool => pool.Leads crypto (AdmitsIn crypto ctx) state ∧
    ∀ tx ∈ pool.queued, MarketApart crypto (programOf crypto ctx tx)) ?_ ⟨⟨state, rfl, nofun⟩, nofun⟩
  rintro pool tx pool' among ⟨leads, all⟩ ⟨answer, submitted⟩
  refine ⟨leads.submit admission_in all (apart tx among) submitted, fun other queued => ?_⟩
  rcases queued_of_submit submitted other queued with old | ⟨rfl, -⟩
  · exact all other old
  · exact apart other among

theorem run_offMarket_of_admitsIn (ran : Run (AdmitsIn crypto ctx) t txs t') :
    (∀ tx ∈ txs, ∃ p, compile crypto tx ctx = .ok p) ∧
      Run (Steps crypto) t (offMarket (txs.flatMap (programOf crypto ctx))) t' := by
  induction txs generalizing t with
  | nil => exact ⟨nofun, ran⟩
  | cons tx txs ih =>
    obtain ⟨mid, ⟨p, compiled, first⟩, rest⟩ := ran
    obtain ⟨compiles, rest⟩ := ih rest
    refine ⟨List.forall_mem_cons.mpr ⟨⟨p, compiled⟩, compiles⟩, ?_⟩
    rw [List.flatMap_cons, offMarket, List.filter_append, programOf_eq compiled]
    exact Run.append_iff.mpr ⟨mid, first, rest⟩

/-- Of the queue that some submissions leave, a prefix that fits into the window executes
exactly if it can afford the terms that its own orders set. -/
theorem fitting_prefix_executes_iff (decoded : decodeFeeMarket (state.get (Keys.feeMarket crypto)) = .ok m)
    (rolls : m.atTimestamp ctx.timestamp = .ok rolled) (asked : rolled.baseFee = ctx.baseFee)
    (free : CollisionFree crypto.sha256 (Slot.image '' (slotsOffered crypto ctx txs ∪ {.feeMarket})))
    (ran : Run (Submits crypto state ctx) (new size) txs pool) (batch : List Transaction)
    (front : batch <+: pool.queued)
    (fits : (batch.map (need crypto)).sum ≤ rolled.windowLimit - rolled.windowGas.val) :
    (∃ result, executeBatch crypto state ctx batch = .ok result) ↔
      OrdersSpare crypto ctx.baseFee rolled.windowGas.val batch := by
  have apart := Slot.apart_of_free free fun slot named => by
    rcases named with ⟨tx, _, i, emitted, rfl⟩ | rfl
    · obtain ⟨p, compiled, emitted⟩ := compile_of_mem emitted
      exact Instruction.on_fits (fits_of_compile compiled i emitted)
    · trivial
  have each : ∀ tx ∈ txs, MarketApart crypto (programOf crypto ctx tx) := fun tx among i emitted off here =>
    off (apart (.inl ⟨tx, among, i, emitted, rfl⟩) (.inr rfl) here)
  obtain ⟨⟨t, led, _⟩, away⟩ := leads_of_submits each ran
  obtain ⟨rest, split⟩ := front
  rw [← split] at led away
  obtain ⟨mid, led, _⟩ := Run.append_iff.mp led
  obtain ⟨compiles, off⟩ := run_offMarket_of_admitsIn led
  have away : MarketApart crypto (batch.flatMap (programOf crypto ctx)) := fun i emitted => by
    obtain ⟨tx, among, emitted⟩ := List.mem_flatMap.mp emitted
    exact away tx (List.mem_append_left _ among) i emitted
  have executes : (∃ result, executeBatch crypto state ctx batch = .ok result) ↔
      ∃ next, Run (Steps crypto) state (batch.flatMap (programOf crypto ctx)) next := by
    simp only [Prod.exists, executeBatch_iff, run_executes_iff compiles]
  have spares : Affords crypto ctx.baseFee rolled.windowLimit rolled.windowGas.val batch ↔
      OrdersSpare crypto ctx.baseFee rolled.windowGas.val batch :=
    affords_iff.trans (and_iff_right (firstFit_of_le fits))
  rw [executes, ← spares, ← run_market_iff compiles rolls asked]
  constructor
  · rintro ⟨next, ran⟩
    exact run_onMarket away decoded ran
  · rintro ⟨m', ran⟩
    exact run_of_parts away (.refl state) decoded off ran

end Mempool

namespace Devnet

theorem first_market {other : Crypto} (terms : Option FeeMarketConfig)
    (built : { config with feeMarket := terms }.buildState other hashing = .ok state)
    (same : other.sha256 = crypto.sha256) :
    decodeFeeMarket (state.get (Keys.feeMarket other)) = .ok { config with feeMarket := terms }.firstMarket := by
  have stored := ({ config with feeMarket := terms }.market_of_buildState built (by
    rw [same]
    exact free_of_slots fun _ => founded)).1
  rw [show Keys.feeMarket other = Slot.feeMarket.key other from rfl, stored]
  exact decodeFeeMarket_encode _

theorem first_window : config.firstMarket.atTimestamp context.timestamp =
    .ok ⟨25000000000, 25000000000, 5000000, 1700000000, 0⟩ := by decide +kernel

def noticeSignature : FixedBytes 64 := .ofHalves
  0xf4fa1ae86feafedc01aa920e28d322aa8f050a7d18a13066692e857b7ee4906c
  0xfca7a365cf5acfb76ba2f4f247afeb0aa9180edcbf2f37e2ab790afd2a1db90f

def noticeDigest : Bytes :=
  be 32 0xcd18d3fbad0ab36fa5b5929a5e56882fe096c05c546394e1e3207e6d84ff8ceb

/-- Carol signed the terms, and Alice the transaction that carries them and the next. -/
def amending : Crypto :=
  .accepting [(carol.bytes, termsByCarol.bytes, termsDigest.bytes), (alice.bytes, noticeSignature.bytes, noticeDigest),
    (alice.bytes, distributionSignature.bytes, distributionDigest)]

/-- The council raises the floor above the base fee. -/
def notice : Transaction :=
  transaction 0 100000 (.governance 0 (.setFeeMarket 30000000000 5000000) [⟨0, termsByCarol⟩]) noticeSignature

/-- The devnet with that floor from the start. -/
def atFloor : GenesisConfig := { config with feeMarket := some ⟨30000000000, 5000000⟩ }

def dearContext : BatchContext := { context with baseFee := 30000000000 }

/-- There the pool takes the order and the transaction behind it, and they execute. -/
theorem offered_order_executes : ∃ state pool, atFloor.buildState amending hashing = .ok state ∧
    Run (Mempool.Submits amending state dearContext) (.new 10) [notice, distribution] pool ∧
    pool.queued = [notice, distribution] ∧
    ∃ result, executeBatch amending state dearContext [notice, distribution] = .ok result := by
  obtain ⟨state, built, ⟨first, _⟩, offered, ⟨pool, _⟩, offered', queued⟩ :
      ∃ state, atFloor.buildState amending hashing = .ok state ∧
        ∃ first ∈ (Mempool.new 10).submit amending state dearContext notice,
        ∃ second ∈ first.1.submit amending state dearContext distribution,
          second.1.queued = [notice, distribution] := by
    decide +kernel
  have ran : Run (Mempool.Submits amending state dearContext) (.new 10) [notice, distribution] pool :=
    ⟨first, ⟨_, offered⟩, pool, ⟨_, offered'⟩, rfl⟩
  have window : atFloor.firstMarket.atTimestamp dearContext.timestamp =
      .ok ⟨30000000000, 30000000000, 5000000, 1700000000, 0⟩ := by decide +kernel
  have named : ∀ tx ∈ [notice, distribution], ∀ i ∈ programOf amending dearContext tx, i.on ∈ slots := by
    decide +kernel
  have needs : Mempool.need amending notice = 64000 ∧ Mempool.need amending distribution = 48000 := by decide +kernel
  have affords : Affords amending dearContext.baseFee 10000000 0 [notice, distribution] := by
    have set : terms notice = some (30000000000, 5000000) := rfl
    have unset : terms distribution = none := rfl
    simp only [Affords, set, unset, needs]
    decide
  refine ⟨state, pool, built, ran, queued, (Mempool.fitting_prefix_executes_iff (first_market _ built rfl) window rfl
    (free_of_slots ?_) ran _ (queued ▸ List.prefix_rfl) (by decide +kernel)).mpr (affords_iff.mp affords).2⟩
  rintro _ (⟨tx, listed, i, emitted, rfl⟩ | rfl)
  · exact named tx listed i emitted
  · decide

/-- The batch stops at the base fee that the transaction behind the order declares. -/
def StopsAtBaseFee : Except BatchError α → Bool
  | .ok _ => false
  | .error e => e = .step 1 11 (.baseFeeMismatch 25000000000 30000000000)

/-- The pool takes an order that raises the floor and a transaction behind it. Both fit into
the window, and they do not execute together. -/
theorem raised_floor_stops_the_queue : ∃ state m rolled pool, config.buildState amending hashing = .ok state ∧
    decodeFeeMarket (state.get (Keys.feeMarket amending)) = .ok m ∧ m.atTimestamp context.timestamp = .ok rolled ∧
    rolled.baseFee = context.baseFee ∧
    Run (Mempool.Submits amending state context) (.new 10) [notice, distribution] pool ∧
    pool.queued = [notice, distribution] ∧
    (pool.queued.map (Mempool.need amending)).sum ≤ rolled.windowLimit - rolled.windowGas.val ∧
    executeBatch amending state context pool.queued =
      .error (.step 1 11 (.baseFeeMismatch 25000000000 30000000000)) := by
  obtain ⟨state, built, ⟨first, _⟩, offered, ⟨second, _⟩, offered', queued, stops⟩ :
      ∃ state, config.buildState amending hashing = .ok state ∧
        ∃ first ∈ (Mempool.new 10).submit amending state context notice,
        ∃ second ∈ first.1.submit amending state context distribution, second.1.queued = [notice, distribution] ∧
          StopsAtBaseFee (executeBatch amending state context second.1.queued) = true := by
    decide +kernel
  have fits : ([notice, distribution].map (Mempool.need amending)).sum ≤ 10000000 := by
    decide +kernel
  refine ⟨state, _, _, second, built, first_market none built rfl, first_window, rfl,
    ⟨first, ⟨_, offered⟩, second, ⟨_, offered'⟩, rfl⟩, queued, ?_, ?_⟩
  · rw [queued]
    exact fits
  · cases outcome : executeBatch amending state context second.queued with
    | ok result => simp [outcome, StopsAtBaseFee] at stops
    | error e =>
      rw [outcome] at stops
      exact congrArg _ (of_decide_eq_true stops)

end Devnet
end Sena
