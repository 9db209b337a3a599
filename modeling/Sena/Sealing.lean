import Sena.GovernanceRuns
import Sena.Sequencer

/-! What the sequencer admits, it can seal.

Admission and sealing execute a transaction at different times and against
different states of the fee market, and nothing else of what they execute is
different. So the queue is followed off the market: over everything but its slot
the state after the queue is the same whichever way it is reached. At the market
only the base fee and the room in the window matter, and the batch is cut to the
room. -/
namespace Sena

open Move
open Keys (feeMarket)

/-- The two hold the same outside of one key. -/
def MerkleTrie.AgreesOff (key : Hash256) (t u : MerkleTrie) : Prop := ∀ other, other ≠ key → t.get other = u.get other

namespace MerkleTrie.AgreesOff

variable {key : Hash256} {t u v : MerkleTrie}

theorem refl (t : MerkleTrie) : t.AgreesOff key t := fun _ _ => rfl

theorem symm (agrees : t.AgreesOff key u) : u.AgreesOff key t := fun other off => (agrees other off).symm

theorem trans (first : t.AgreesOff key u) (second : u.AgreesOff key v) : t.AgreesOff key v :=
  fun other off => (first other off).trans (second other off)

theorem insert_left (agrees : t.AgreesOff key u) (b : Bytes) : (t.insert crypto key b).AgreesOff key u := by
  intro other off
  rw [MerkleTrie.get_insert, if_neg off.symm, agrees other off]

theorem insert_both (agrees : t.AgreesOff key u) (other : Hash256) (b : Bytes) :
    (t.insert crypto other b).AgreesOff key (u.insert crypto other b) := by
  intro k off
  rw [MerkleTrie.get_insert, MerkleTrie.get_insert, agrees k off]

end MerkleTrie.AgreesOff

namespace Execute

variable {crypto : Crypto} {t t' u : MerkleTrie} {i : Instruction} {p : List Instruction}

/-- The instructions of a program that do not work on the fee market. -/
def offMarket (p : List Instruction) : List Instruction := p.filter (·.on ≠ .feeMarket)

/-- No other slot the instructions name has the fee market's key. -/
def MarketApart (crypto : Crypto) (p : List Instruction) : Prop :=
  ∀ i ∈ p, i.on ≠ .feeMarket → i.on.key crypto ≠ Keys.feeMarket crypto

theorem MarketApart.of_cons (apart : MarketApart crypto (i :: p)) : MarketApart crypto p :=
  fun j among => apart j (List.mem_cons_of_mem i among)

theorem steps_off (agrees : t.AgreesOff key u) (off : i.on.key crypto ≠ key) (stepped : Steps crypto t i t') :
    ∃ u', Steps crypto u i u' ∧ t'.AgreesOff key u' := by
  obtain ⟨written, computed, encodable, rfl⟩ := steps_iff.mp stepped
  rw [MerkleTrie.bySlot, agrees _ off] at computed
  exact ⟨_, steps_iff.mpr ⟨written, computed, encodable, rfl⟩, agrees.insert_both _ _⟩

theorem agrees_of_market (agrees : t.AgreesOff (feeMarket crypto) u) (here : i.on = .feeMarket)
    (stepped : Steps crypto t i t') : t'.AgreesOff (feeMarket crypto) u := by
  obtain ⟨written, _, _, rfl⟩ := steps_iff.mp stepped
  rw [here]
  exact agrees.insert_left _

theorem run_offMarket (apart : MarketApart crypto p) (agrees : t.AgreesOff (feeMarket crypto) u)
    (ran : Run (Steps crypto) t p t') :
    ∃ u', Run (Steps crypto) u (offMarket p) u' ∧ t'.AgreesOff (feeMarket crypto) u' := by
  induction p generalizing t u with
  | nil => exact ⟨u, rfl, ran ▸ agrees⟩
  | cons i p ih =>
    obtain ⟨mid, stepped, ran⟩ := ran
    by_cases here : i.on = .feeMarket
    · rw [offMarket, List.filter_cons_of_neg (by simpa using here)]
      exact ih apart.of_cons (agrees_of_market agrees here stepped) ran
    · obtain ⟨next, stepped', agrees'⟩ := steps_off agrees (apart i List.mem_cons_self here) stepped
      obtain ⟨u', ran', agrees''⟩ := ih apart.of_cons agrees' ran
      rw [offMarket, List.filter_cons_of_pos (by simpa using here)]
      exact ⟨u', ⟨next, stepped', ran'⟩, agrees''⟩

/-- The gas an instruction charges to the window. -/
def charged : Instruction → Nat
  | .chargeBaseFee _ _ gas => gas.val
  | _ => 0

/-- At `timestamp` the market asks for `baseFee`, and its window has room for `gas`. -/
def Roomy (crypto : Crypto) (t : MerkleTrie) (timestamp : U64) (baseFee : U128) (gas : Nat) : Prop :=
  ∃ m rolled, decodeFeeMarket (t.get (Keys.feeMarket crypto)) = .ok m ∧ m.atTimestamp timestamp = .ok rolled ∧
    rolled.baseFee = baseFee ∧ rolled.windowGas.val + gas ≤ rolled.windowLimit

theorem Roomy.mono (roomy : Roomy crypto t timestamp baseFee more) (le : gas ≤ more) :
    Roomy crypto t timestamp baseFee gas := by
  obtain ⟨m, rolled, decoded, rolls, same, room⟩ := roomy
  exact ⟨m, rolled, decoded, rolls, same, by omega⟩

theorem Roomy.charges {gas : U64} (roomy : Roomy crypto t timestamp baseFee (gas.val + more)) :
    ∃ t', Steps crypto t (.chargeBaseFee timestamp baseFee gas) t' ∧ Roomy crypto t' timestamp baseFee more := by
  obtain ⟨m, rolled, decoded, rolls, rfl, room⟩ := roomy
  have limit : rolled.windowLimit ≤ 2 ^ 64 - 1 := Nat.min_le_right _ _
  let total : U64 := ⟨rolled.windowGas.val + gas.val, by omega⟩
  have computed : transition crypto (.chargeBaseFee timestamp rolled.baseFee gas)
      (t.bySlot crypto .feeMarket) = .ok { rolled with windowGas := total : FeeMarket }.encode :=
    transition_chargeBaseFee.mpr ⟨m, rolled, decoded, rolls, rfl, total, rfl, by simp only [total]; omega, rfl⟩
  refine ⟨_, steps_iff.mpr ⟨_, computed, trivial, rfl⟩, { rolled with windowGas := total },
    { rolled with windowGas := total }, ?_, ?_, rfl, ?_⟩
  · rw [MerkleTrie.get_insert, if_pos (by rfl), decodeFeeMarket_encode]
  · -- the market already is in the window
    have here := FeeMarket.windowTs_of_atTimestamp rolls
    rw [FeeMarket.atTimestamp, if_neg (by simp [here]), if_pos here.symm]
  · simp only [total, FeeMarket.windowLimit] at room ⊢
    omega

theorem run_of_offMarket (apart : MarketApart crypto p) (agrees : u.AgreesOff (feeMarket crypto) t)
    (ran : Run (Steps crypto) t (offMarket p) t')
    (charges : ∀ i ∈ p, i.on = .feeMarket → ∃ gas, i = .chargeBaseFee timestamp baseFee gas)
    (roomy : Roomy crypto u timestamp baseFee ((p.map charged).sum + more)) :
    ∃ u', Run (Steps crypto) u p u' ∧ u'.AgreesOff (feeMarket crypto) t' ∧
      Roomy crypto u' timestamp baseFee more := by
  induction p generalizing t u with
  | nil => exact ⟨u, rfl, ran ▸ agrees, by simpa using roomy⟩
  | cons i p ih =>
    rw [List.forall_mem_cons] at charges
    rw [List.map_cons, List.sum_cons, Nat.add_assoc] at roomy
    by_cases here : i.on = .feeMarket
    · obtain ⟨gas, rfl⟩ := charges.1 here
      obtain ⟨mid, stepped, roomy⟩ := roomy.charges
      rw [offMarket, List.filter_cons_of_neg (by simpa using here)] at ran
      obtain ⟨u', ran', agrees', room⟩ :=
        ih apart.of_cons (agrees_of_market agrees here stepped) ran charges.2 roomy
      exact ⟨u', ⟨mid, stepped, ran'⟩, agrees', room⟩
    · rw [offMarket, List.filter_cons_of_pos (by simpa using here)] at ran
      obtain ⟨next, stepped, ran⟩ := ran
      have off := apart i List.mem_cons_self here
      obtain ⟨mid, stepped', agrees'⟩ := steps_off agrees.symm off stepped
      have kept : Roomy crypto mid timestamp baseFee ((p.map charged).sum + more) := by
        obtain ⟨_, _, _, rfl⟩ := steps_iff.mp stepped'
        unfold Roomy
        rw [MerkleTrie.get_insert, if_neg off]
        exact roomy.mono (Nat.le_add_left _ _)
      obtain ⟨u', ran', agrees'', room⟩ := ih apart.of_cons agrees'.symm ran charges.2 kept
      exact ⟨u', ⟨mid, stepped', ran'⟩, agrees'', room⟩

theorem charged_of_off (off : i.on ≠ .feeMarket) : charged i = 0 := by
  cases i with
  | chargeBaseFee timestamp baseFee gas => exact absurd rfl off
  | _ => rfl

theorem charged_compilePayload {payload : Payload} (compiled : compilePayload crypto payload sender = .ok is) :
    (is.map charged).sum = 0 := by
  rw [List.sum_eq_zero_iff, List.forall_mem_map]
  intro i emitted
  cases emits_of_compilePayload compiled emitted with
  | @update _ update => cases update <;> rfl
  | _ => rfl

theorem gasRequired_eq_ok : gasRequired crypto tx = .ok gas ↔
    ∃ payload, compilePayload crypto tx.payload tx.sender = .ok payload ∧ gasUsed tx payload = .ok gas := by
  simp only [gasRequired, bind_eq_ok, mapError_eq_ok]

theorem need_eq (required : gasRequired crypto tx = .ok gas) : Mempool.need crypto tx = gas.val := by
  rw [Mempool.need, required]
  rfl

/-- A program charges the gas it was cut for. -/
theorem charged_of_compile (compiled : compile crypto tx ctx = .ok p) : (p.map charged).sum = Mempool.need crypto tx := by
  obtain ⟨_, _, payload, used, charge, shaped, gas, settled, rfl⟩ := compile_eq_ok.mp compiled
  have opened : ((opening tx ctx charge).map charged).sum = charge.gasUsed.val := by
    unfold opening
    cases tx.authenticator <;> simp [charged]
  have closed : ((closing tx ctx charge).map charged).sum = 0 := by
    rw [List.sum_eq_zero_iff, List.forall_mem_map]
    intro i emitted
    obtain ⟨x, on⟩ := on_closing emitted
    exact charged_of_off (by simp [on])
  rw [program_eq, List.map_append, List.sum_append, List.map_append, List.sum_append, opened,
    charged_compilePayload shaped, closed, need_eq (gasRequired_eq_ok.mpr ⟨payload, shaped, gas⟩),
    (Gas.settle_spec settled).1]
  rfl

/-- A keyless transaction has not expired. -/
def Live (timestamp : U64) (tx : Transaction) : Prop :=
  ∀ sig, tx.authenticator = .keyless sig → timestamp.val < sig.expDateSecs.val

theorem authenticate_at (authentic : tx.authenticate crypto keyless timestamp = .ok ()) (live : Live now tx) :
    tx.authenticate crypto keyless now = .ok () := by
  cases signed : tx.authenticator with
  | ed25519 publicKey signature =>
    simpa only [Transaction.authenticate, signed] using authentic
  | keyless sig =>
    have unexpired : ¬now.val ≥ sig.expDateSecs.val := Nat.not_le.mpr (live sig signed)
    simp only [Transaction.authenticate, signed] at authentic ⊢
    cases keyless with
    | none => cases authentic
    | some config =>
      simp only [KeylessSignature.verify, if_neg unexpired] at authentic ⊢
      by_cases expired : timestamp.val ≥ sig.expDateSecs.val
      · exfalso
        by_cases own : sig.address crypto ≠ tx.sender
        · simp [own] at authentic
        · by_cases long : sig.expHorizonSecs.val > config.maxExpHorizonSecs.val
          · simp [own, long] at authentic
          · simp [own, long, expired] at authentic
      · rwa [if_neg expired] at authentic

theorem compile_at (compiled : compile crypto tx ⟨timestamp, keyless, baseFee, recipient⟩ = .ok p) (live : Live now tx) :
    ∃ p', compile crypto tx ⟨now, keyless, baseFee, recipient⟩ = .ok p' ∧ offMarket p' = offMarket p := by
  obtain ⟨limits, authentic, payload, used, charge, shaped, gas, settled, rfl⟩ := compile_eq_ok.mp compiled
  refine ⟨_, compile_eq_ok.mpr ⟨limits, authenticate_at authentic live, payload, used, charge, shaped, gas, settled, rfl⟩,
    ?_⟩
  have opened : offMarket (opening tx ⟨now, keyless, baseFee, recipient⟩ charge) =
      offMarket (opening tx ⟨timestamp, keyless, baseFee, recipient⟩ charge) := by
    unfold opening
    cases tx.authenticator <;> rfl
  simp only [offMarket, program_eq, List.filter_append] at opened ⊢
  rw [opened]
  rfl

section
variable (crypto : Crypto) (keyless : Option KeylessConfig) (recipient : L2Address)

/-- The transaction does what it does at the market by charges alone. -/
structure Charges (tx : Transaction) : Prop where
  apart : ∀ timestamp baseFee p, compile crypto tx ⟨timestamp, keyless, baseFee, recipient⟩ = .ok p →
    MarketApart crypto p
  terms : KeepsTerms tx

/-- The transaction executed off the market, at some time with the given base fee. -/
def Admits (baseFee : U128) (t : MerkleTrie) (tx : Transaction) (t' : MerkleTrie) : Prop :=
  ∃ timestamp p, compile crypto tx ⟨timestamp, keyless, baseFee, recipient⟩ = .ok p ∧
    Run (Steps crypto) t (offMarket p) t'

end

variable {keyless : Option KeylessConfig} {recipient : L2Address} {txs : List Transaction}

section
variable (charges : Charges crypto keyless recipient tx)
include charges

theorem admits_agree (agrees : t.AgreesOff (feeMarket crypto) u)
    (admitted : Admits crypto keyless recipient baseFee t tx t') :
    ∃ u', Admits crypto keyless recipient baseFee u tx u' ∧ t'.AgreesOff (feeMarket crypto) u' := by
  obtain ⟨timestamp, p, compiled, ran⟩ := admitted
  obtain ⟨u', ran', agrees'⟩ := ran.simulate (MerkleTrie.AgreesOff (feeMarket crypto))
    (fun t i t' u emitted agrees stepped => by
      obtain ⟨emitted, off⟩ := List.mem_filter.mp emitted
      exact steps_off agrees (charges.apart _ _ _ compiled i emitted (of_decide_eq_true off)) stepped) agrees
  exact ⟨u', ⟨timestamp, p, compiled, ran'⟩, agrees'⟩

theorem admits_of_executes (agrees : t.AgreesOff (feeMarket crypto) u)
    (executed : Executes crypto t (⟨timestamp, keyless, baseFee, recipient⟩, tx) t') :
    ∃ u', Admits crypto keyless recipient baseFee u tx u' ∧ t'.AgreesOff (feeMarket crypto) u' := by
  obtain ⟨p, compiled, ran⟩ := executed
  obtain ⟨u', ran', agrees'⟩ := run_offMarket (charges.apart _ _ _ compiled) agrees ran
  exact ⟨u', ⟨timestamp, p, compiled, ran'⟩, agrees'⟩

theorem executes_of_admits (live : Live now tx)
    (agrees : u.AgreesOff (feeMarket crypto) t) (admitted : Admits crypto keyless recipient baseFee t tx t')
    (roomy : Roomy crypto u now baseFee (Mempool.need crypto tx + more)) :
    ∃ u', Executes crypto u (⟨now, keyless, baseFee, recipient⟩, tx) u' ∧
      u'.AgreesOff (feeMarket crypto) t' ∧ Roomy crypto u' now baseFee more := by
  obtain ⟨timestamp, p, compiled, ran⟩ := admitted
  obtain ⟨p', compiled', same⟩ := compile_at compiled live
  rw [← same] at ran
  rw [← charged_of_compile compiled'] at roomy
  have charge : ∀ i ∈ p', i.on = .feeMarket → ∃ gas, i = .chargeBaseFee now baseFee gas := by
    intro i emitted here
    rcases market_of_compile compiled' emitted here with charge | ⟨o, floor, target, ordered, update, _⟩
    · exact charge
    · exact absurd update (charges.terms o floor target ordered)
  obtain ⟨u', ran', agrees', room⟩ := run_of_offMarket (charges.apart _ _ _ compiled') agrees ran charge roomy
  exact ⟨u', ⟨p', compiled', ran'⟩, agrees', room⟩

end

theorem run_executes_of_admits (charges : ∀ tx ∈ txs, Charges crypto keyless recipient tx)
    (live : ∀ tx ∈ txs, Live now tx) (agrees : u.AgreesOff (feeMarket crypto) t)
    (admitted : Run (Admits crypto keyless recipient baseFee) t txs t')
    (roomy : Roomy crypto u now baseFee ((txs.map (Mempool.need crypto)).sum + more)) :
    ∃ u', Run (Executes crypto) u (txs.map (⟨now, keyless, baseFee, recipient⟩, ·)) u' ∧
      u'.AgreesOff (feeMarket crypto) t' ∧ Roomy crypto u' now baseFee more := by
  induction txs generalizing t u with
  | nil => exact ⟨u, rfl, admitted ▸ agrees, by simpa using roomy⟩
  | cons tx txs ih =>
    obtain ⟨mid, admitted, rest⟩ := admitted
    rw [List.forall_mem_cons] at charges live
    rw [List.map_cons, List.sum_cons, Nat.add_assoc] at roomy
    obtain ⟨u₁, executed, agrees, roomy⟩ := executes_of_admits charges.1 live.1 agrees admitted roomy
    obtain ⟨u', ran, agrees, roomy⟩ := ih charges.2 live.2 agrees rest roomy
    exact ⟨u', ⟨u₁, executed, ran⟩, agrees, roomy⟩

/-- A run that works on the market found one there. -/
theorem market_of_run (apart : MarketApart crypto p) (works : ∃ i ∈ p, i.on = .feeMarket)
    (ran : Run (Steps crypto) t p t') : ∃ m, decodeFeeMarket (t.get (feeMarket crypto)) = .ok m := by
  induction p generalizing t with
  | nil => simp at works
  | cons i p ih =>
    obtain ⟨mid, stepped, ran⟩ := ran
    obtain ⟨written, computed, _, rfl⟩ := steps_iff.mp stepped
    by_cases here : i.on = .feeMarket
    · rw [MerkleTrie.bySlot, here] at computed
      cases i with
      | chargeBaseFee timestamp baseFee gas =>
        obtain ⟨m, _, decoded, _⟩ := transition_chargeBaseFee.mp computed
        exact ⟨m, decoded⟩
      | setFeeMarket floor target =>
        obtain ⟨_, _, m, decoded, _⟩ := transition_setFeeMarket.mp computed
        exact ⟨m, decoded⟩
      | _ => cases here
    · obtain ⟨j, among, there⟩ := works
      have among := (List.mem_cons.mp among).resolve_left fun same => here (same ▸ there)
      obtain ⟨m, decoded⟩ := ih apart.of_cons ⟨j, among, there⟩ ran
      rw [MerkleTrie.get_insert, if_neg (apart i List.mem_cons_self here)] at decoded
      exact ⟨m, decoded⟩

theorem market_of_executes (charges : Charges crypto keyless recipient tx)
    (executed : Executes crypto t (⟨timestamp, keyless, baseFee, recipient⟩, tx) t') :
    ∃ m, decodeFeeMarket (t.get (feeMarket crypto)) = .ok m := by
  obtain ⟨p, compiled, ran⟩ := executed
  refine market_of_run (charges.apart _ _ _ compiled) ?_ ran
  obtain ⟨_, _, payload, _, charge, _, _, _, rfl⟩ := compile_eq_ok.mp compiled
  refine ⟨.chargeBaseFee timestamp baseFee charge.gasUsed, ?_, rfl⟩
  simp [program]

/-- Whatever it does, a transaction needs gas. -/
theorem need_pos (crypto : Crypto) (tx : Transaction) : 0 < Mempool.need crypto tx := by
  unfold Mempool.need
  cases required : gasRequired crypto tx with
  | error e => simp [Except.toOption]
  | ok used =>
    obtain ⟨payload, _, gas⟩ := bind_eq_ok.mp required
    have gas := mapError_eq_ok.mp gas
    simp only [gasUsed, bind_eq_ok, Gas.checked_eq_ok] at gas
    obtain ⟨intrinsic, started, start, moved, summed⟩ := gas
    have grows := (Run.foldlM_eq_ok.mp summed).gains (·.val) instructionGas fun _ _ _ _ added =>
      Gas.checked_eq_ok.mp added
    have floor : 0 < Gas.INTRINSIC_GAS.val := by decide
    simp only [Except.toOption, Option.map_some, Option.getD_some]
    omega

end Execute
end Sena
