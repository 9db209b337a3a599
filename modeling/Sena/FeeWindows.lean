import Sena.GovernanceRuns
import Sena.SlotInvariant

/-! The fee market over its windows.

Every batch with one timestamp charges into one window, and a later timestamp opens
the next at a base fee one step on. A charge keeps the window within twice the
target, and then the step is at most an eighth. Governance can lower the target
under a window that is already fuller. -/
namespace Sena

open Move

namespace Gas

variable {base floor next : U128} {gas target : U64}

theorem nextBaseFee_le (positive : 1 ≤ target.val) (within : gas.val ≤ 2 * target.val)
    (above : floor.val ≤ base.val) (stepped : nextBaseFee base gas target floor = .ok next) :
    next.val ≤ base.val + max (base.val / 8) 1 := by
  have larger : ∀ unfloored : U128, unfloored.val ≤ base.val + max (base.val / 8) 1 →
      (max unfloored floor).val ≤ base.val + max (base.val / 8) 1 := by
    intro unfloored bound
    rcases max_choice unfloored floor with same | same
    · rwa [same]
    · rw [same]
      omega
  have nonzero : target.val ≠ 0 := by omega
  unfold nextBaseFee at stepped
  split at stepped
  · obtain ⟨product, multiplied, stepped⟩ := bind_eq_ok.mp stepped
    obtain ⟨unfloored, added, floored⟩ := bind_eq_ok.mp stepped
    cases floored
    rw [checked_eq_ok] at multiplied
    rw [checked_eq_ok, multiplied, max_eq_left positive] at added
    refine larger unfloored ?_
    have excess : base.val * (gas.val - target.val) / target.val ≤ base.val :=
      Nat.div_le_of_le_mul (by rw [Nat.mul_comm]; exact Nat.mul_le_mul_right _ (by omega))
    have eighth : base.val * (gas.val - target.val) / target.val / 8 ≤ base.val / 8 := Nat.div_le_div_right excess
    change unfloored.val = base.val + max (base.val * (gas.val - target.val) / target.val / 8) 1 at added
    omega
  · obtain ⟨product, _, stepped⟩ := bind_eq_ok.mp stepped
    obtain ⟨unfloored, lowered, floored⟩ := bind_eq_ok.mp stepped
    cases floored
    refine larger unfloored ?_
    rw [checked_eq_ok.mp lowered]
    exact Nat.le_trans (Nat.sub_le _ _) (Nat.le_add_right _ _)

/-- No window lowers it by more than an eighth. -/
theorem le_nextBaseFee (stepped : nextBaseFee base gas target floor = .ok next) :
    base.val - base.val / 8 ≤ next.val := by
  have smaller : ∀ unfloored : U128, base.val - base.val / 8 ≤ unfloored.val →
      base.val - base.val / 8 ≤ (max unfloored floor).val := fun unfloored bound =>
    Nat.le_trans bound (Fin.le_def.mp (le_max_left unfloored floor))
  unfold nextBaseFee at stepped
  split at stepped
  · obtain ⟨product, _, stepped⟩ := bind_eq_ok.mp stepped
    obtain ⟨unfloored, added, floored⟩ := bind_eq_ok.mp stepped
    cases floored
    rw [checked_eq_ok] at added
    exact smaller unfloored (by omega)
  · obtain ⟨product, multiplied, stepped⟩ := bind_eq_ok.mp stepped
    obtain ⟨unfloored, lowered, floored⟩ := bind_eq_ok.mp stepped
    cases floored
    rw [checked_eq_ok] at multiplied lowered
    rw [multiplied] at lowered
    refine smaller unfloored ?_
    have missing : base.val * (target.val - gas.val) / target.val ≤ base.val :=
      Nat.div_le_of_le_mul (by rw [Nat.mul_comm]; exact Nat.mul_le_mul_right _ (by omega))
    have eighth : base.val * (target.val - gas.val) / target.val / 8 ≤ base.val / 8 := Nat.div_le_div_right missing
    change unfloored.val = base.val - base.val * (target.val - gas.val) / target.val / 8 at lowered
    omega

end Gas

namespace FeeMarket

variable {m m' : FeeMarket}

/-- One instruction on the market's record. -/
def Steps (m : FeeMarket) : Instruction → FeeMarket → Prop
  | .chargeBaseFee timestamp baseFee gas, m' => ∃ rolled, m.atTimestamp timestamp = .ok rolled ∧
      rolled.baseFee = baseFee ∧ ∃ total : U64, total.val = rolled.windowGas.val + gas.val ∧
        total.val ≤ rolled.windowLimit ∧ m' = { rolled with windowGas := total }
  | .setFeeMarket floor target, m' => floor.val ≠ 0 ∧ target.val ≠ 0 ∧
      m' = { m with baseFee := max m.baseFee floor, floor, target }
  | _, _ => False

theorem transition_eq_ok (here : i.on = .feeMarket) (decoded : Execute.decodeFeeMarket current = .ok m) :
    Execute.transition crypto i current = .ok written ↔ ∃ m', m.Steps i m' ∧ written = m'.encode := by
  cases i with
  | chargeBaseFee timestamp baseFee gas =>
    rw [Execute.transition_chargeBaseFee]
    constructor
    · rintro ⟨market, rolled, read, advanced, same, total, sum, within, rfl⟩
      cases decoded.symm.trans read
      exact ⟨_, ⟨rolled, advanced, same, total, sum, within, rfl⟩, rfl⟩
    · rintro ⟨_, ⟨rolled, advanced, same, total, sum, within, rfl⟩, rfl⟩
      exact ⟨m, rolled, decoded, advanced, same, total, sum, within, rfl⟩
  | setFeeMarket floor target =>
    rw [Execute.transition_setFeeMarket]
    constructor
    · rintro ⟨hasFloor, hasTarget, market, read, rfl⟩
      cases decoded.symm.trans read
      exact ⟨_, ⟨hasFloor, hasTarget, rfl⟩, rfl⟩
    · rintro ⟨_, ⟨hasFloor, hasTarget, rfl⟩, rfl⟩
      exact ⟨hasFloor, hasTarget, m, decoded, rfl⟩
  | _ => cases here

theorem Steps.sound (stepped : m.Steps i m') (sound : m.Sound) : m'.Sound := by
  cases i with
  | chargeBaseFee timestamp baseFee gas =>
    obtain ⟨rolled, advanced, _, total, _, _, rfl⟩ := stepped
    obtain ⟨above, floor, target⟩ := sound.of_atTimestamp advanced
    exact ⟨above, floor, target⟩
  | setFeeMarket floor target =>
    obtain ⟨hasFloor, hasTarget, rfl⟩ := stepped
    exact ⟨Fin.le_def.mp (le_max_right m.baseFee floor), Nat.pos_of_ne_zero hasFloor, Nat.pos_of_ne_zero hasTarget⟩
  | _ => cases stepped

/-- The window has used no more than it may. -/
def Within (m : FeeMarket) : Prop := m.windowGas.val ≤ 2 * m.target.val

theorem windowLimit_le (m : FeeMarket) : m.windowLimit ≤ 2 * m.target.val := by
  have bound : m.windowLimit ≤ m.target.val * 2 := Nat.min_le_left _ _
  omega

theorem atTimestamp_of_lt {timestamp : U64} (later : m.windowTs.val < timestamp.val)
    (rolled : m.atTimestamp timestamp = .ok m') :
    ∃ fee, Gas.nextBaseFee m.baseFee m.windowGas m.target m.floor = .ok fee ∧
      m' = { m with baseFee := fee, windowTs := timestamp, windowGas := 0 } := by
  unfold atTimestamp at rolled
  rw [if_neg (Nat.not_lt.mpr later.le), if_neg fun same => Nat.lt_irrefl _ (same ▸ later)] at rolled
  obtain ⟨fee, stepped, same⟩ := bind_eq_ok.mp rolled
  exact ⟨fee, stepped, (Except.ok.inj same).symm⟩

theorem atTimestamp_le {timestamp : U64} (rolled : m.atTimestamp timestamp = .ok m') :
    m.windowTs.val ≤ timestamp.val := by
  unfold atTimestamp at rolled
  split at rolled
  · cases rolled
  · rename_i notEarlier
    exact Nat.not_lt.mp notEarlier

theorem atTimestamp_self (m : FeeMarket) : m.atTimestamp m.windowTs = .ok m := by
  rw [atTimestamp, if_neg (Nat.lt_irrefl _), if_pos rfl]

theorem moves_by_an_eighth {timestamp : U64} (sound : m.Sound) (later : m.windowTs.val < timestamp.val)
    (rolled : m.atTimestamp timestamp = .ok m') :
    (m.Within → m'.baseFee.val ≤ m.baseFee.val + max (m.baseFee.val / 8) 1) ∧
      m.baseFee.val - m.baseFee.val / 8 ≤ m'.baseFee.val ∧ m.floor.val ≤ m'.baseFee.val := by
  obtain ⟨fee, stepped, rfl⟩ := atTimestamp_of_lt later rolled
  exact ⟨fun within => Gas.nextBaseFee_le sound.target within sound.above stepped,
    Gas.le_nextBaseFee stepped, Gas.floor_le_nextBaseFee stepped⟩

theorem Steps.within (stepped : m.Steps i m')
    (roomy : ∀ floor target, i = .setFeeMarket floor target → m.windowGas.val ≤ 2 * target.val) : m'.Within := by
  cases i with
  | chargeBaseFee timestamp baseFee gas =>
    obtain ⟨rolled, advanced, _, total, _, fits, rfl⟩ := stepped
    exact Nat.le_trans fits rolled.windowLimit_le
  | setFeeMarket floor target =>
    obtain ⟨_, _, rfl⟩ := stepped
    exact roomy floor target rfl
  | _ => cases stepped

end FeeMarket

/-- The market a genesis opens with. -/
def GenesisConfig.firstMarket (config : GenesisConfig) : FeeMarket :=
  { FeeMarket.genesis Gas.DEFAULT_BASE_FEE_FLOOR Gas.DEFAULT_GAS_TARGET with
    baseFee := max Gas.DEFAULT_BASE_FEE_FLOOR config.market.baseFeeFloor
    floor := config.market.baseFeeFloor
    target := config.market.gasTarget }

theorem Store.Founds.frame (wrote : Store.Founds crypto σ f σ') (elsewhere : f.on ≠ s) : σ' s = σ s := by
  cases f with
  | apply i => exact Store.Steps.frame wrote elsewhere
  | council record =>
    cases wrote
    exact Function.update_of_ne (Ne.symm elsewhere) _ _

theorem Store.founds_frame (founded : Run (Store.Founds crypto) σ fs σ') (elsewhere : ∀ f ∈ fs, f.on ≠ s) :
    σ' s = σ s :=
  founded.invariant (· s = σ s) (fun _ f _ among same wrote => (wrote.frame (elsewhere f among)).trans same) rfl

/-- The market at the end of the genesis is the one configured. -/
theorem GenesisConfig.market_of_plan {config : GenesisConfig}
    (founded : Run (Store.Founds crypto) (fun _ => none) (config.plan members hashes) σ) :
    σ .feeMarket = some config.firstMarket.encode ∧ config.firstMarket.Sound := by
  rw [plan, lastWrites, Run.append_iff, List.append_assoc, List.append_assoc] at founded
  obtain ⟨before, first, founded⟩ := founded
  obtain ⟨opened, market, rest⟩ := Run.append_iff.mp founded
  have untouched : before .feeMarket = none := Store.founds_frame first fun f planned => by
    simp only [List.mem_append, List.mem_map] at planned
    obtain ⟨_, _, rfl⟩ | ⟨_, _, rfl⟩ := planned <;> simp [Founding.on, Instruction.on]
  have kept : σ .feeMarket = opened .feeMarket := Store.founds_frame rest fun f planned => by
    simp only [List.mem_append, List.mem_map] at planned
    obtain ⟨_, _, rfl⟩ | ⟨_, _, rfl⟩ | ⟨_, _, rfl⟩ := planned <;> simp [Founding.on, Instruction.on]
  obtain ⟨written, computed, _, rfl⟩ := Run.singleton_iff.mp market
  obtain ⟨hasFloor, hasTarget, m, decoded, rfl⟩ := Execute.transition_setFeeMarket.mp computed
  rw [show Instruction.on (.setFeeMarket _ _) = .feeMarket from rfl, untouched] at decoded
  cases decoded
  rw [kept]
  refine ⟨Function.update_self _ _ _, ?_, Nat.pos_of_ne_zero hasFloor, Nat.pos_of_ne_zero hasTarget⟩
  exact Fin.le_def.mp (le_max_right _ _)

namespace FeeMarket

/-- One instruction on the contents of the market's slot. -/
def Rewrites (crypto : Crypto) (held : Option Bytes) (i : Instruction) (held' : Option Bytes) : Prop :=
  i.on = .feeMarket ∧ ∃ written, Execute.transition crypto i held = .ok written ∧ held' = some written

/-- A new target leaves room for what the window has used. -/
def LeavesRoom (held : Option Bytes) (i : Instruction) : Prop :=
  ∀ floor target m, i = .setFeeMarket floor target → Execute.decodeFeeMarket held = .ok m →
    m.windowGas.val ≤ 2 * target.val

theorem eighth_of_run {m₀ : FeeMarket} (sound : m₀.Sound) (within : m₀.Within)
    (ran : Run (fun held i held' => Rewrites crypto held i held' ∧ LeavesRoom held i) (some m₀.encode) is held) :
    ∃ m : FeeMarket, held = some m.encode ∧ m.Sound ∧ m.Within := by
  refine ran.invariant (fun held => ∃ m : FeeMarket, held = some m.encode ∧ m.Sound ∧ m.Within)
    (fun held i held' _ kept stepped => ?_) ⟨m₀, rfl, sound, within⟩
  obtain ⟨m, rfl, sound, within⟩ := kept
  obtain ⟨⟨here, written, computed, rfl⟩, roomy⟩ := stepped
  have decoded := Execute.decodeFeeMarket_encode m
  obtain ⟨m', stepped, rfl⟩ := (transition_eq_ok here decoded).mp computed
  exact ⟨m', rfl, stepped.sound sound, stepped.within fun floor target set => roomy floor target m set decoded⟩

end FeeMarket

/-- A genesis's own market is in its slot. -/
theorem GenesisConfig.market_of_buildState {config : GenesisConfig}
    (built : config.buildState crypto hashing = .ok genesis)
    (free : CollisionFree crypto.sha256 (Slot.image '' config.slots hashing)) :
    genesis.get (Slot.feeMarket.key crypto) = some config.firstMarket.encode ∧ config.firstMarket.Sound := by
  have reaches : config.Reaches crypto hashing [] genesis := ⟨genesis, built, rfl⟩
  have nothing : config.named crypto hashing [] ⊆ config.slots hashing := by
    rintro s (named | ⟨_, among, _⟩)
    · exact named
    · cases among
  have apart := Slot.apart_of_free free fun _ named => fits_of_mem_slots named
  obtain ⟨_, _, σ₀, σ, _, founded, ran, same⟩ := reaches.onStore apart nothing
  obtain rfl : σ₀ = σ := ran
  obtain ⟨stored, sound⟩ := market_of_plan founded
  exact ⟨(same (.inr (.inl rfl))).trans stored, sound⟩

/-- Along any charges and changes of terms from a genesis, as long as no new target is
less than half of what the window has used, a window moves the base fee by at most
an eighth, and never below the floor. -/
theorem base_fee_moves_by_an_eighth {config : GenesisConfig} (built : config.buildState crypto hashing = .ok genesis)
    (free : CollisionFree crypto.sha256 (Slot.image '' config.slots hashing)) (is : List Instruction)
    (ran : Run (fun held i held' => FeeMarket.Rewrites crypto held i held' ∧ FeeMarket.LeavesRoom held i)
      (genesis.get (Slot.feeMarket.key crypto)) is (some b))
    (m m' : FeeMarket) (decoded : FeeMarket.decode b = .ok m) (timestamp : U64)
    (later : m.windowTs.val < timestamp.val) (rolled : m.atTimestamp timestamp = .ok m') :
    m'.baseFee.val ≤ m.baseFee.val + max (m.baseFee.val / 8) 1 ∧
      m.baseFee.val - m.baseFee.val / 8 ≤ m'.baseFee.val ∧ m.floor.val ≤ m'.baseFee.val := by
  obtain ⟨stored, sound⟩ := config.market_of_buildState built free
  rw [stored] at ran
  obtain ⟨_, same, sound, within⟩ := FeeMarket.eighth_of_run sound (Nat.zero_le _) ran
  cases same
  cases (FeeMarket.decode_encode _).symm.trans decoded
  obtain ⟨upper, lower, floor⟩ := FeeMarket.moves_by_an_eighth sound later rolled
  exact ⟨upper within, lower, floor⟩

namespace Devnet

/-- The devnet's market after a window used all it may. -/
def fullWindow : FeeMarket := ⟨25000000000, 25000000000, 5000000, 1700000000, 10000000⟩

theorem first_charge : FeeMarket.Rewrites crypto (genesis.get (Slot.feeMarket.key crypto))
    (.chargeBaseFee 1700000000 25000000000 10000000) (some fullWindow.encode) := by
  have start := (config.market_of_buildState built (free_of_slots fun _ => founded)).1
  rw [start]
  refine ⟨rfl, _, (FeeMarket.transition_eq_ok rfl (Execute.decodeFeeMarket_encode _)).mpr ⟨fullWindow, ?_, rfl⟩, rfl⟩
  exact ⟨⟨25000000000, 25000000000, 5000000, 1700000000, 0⟩, by decide +kernel, rfl, 10000000, rfl,
    by decide +kernel, rfl⟩

/-- A full window raises the base fee by an eighth. -/
theorem full_window_raises_by_an_eighth : ∃ m', fullWindow.atTimestamp 1700000001 = .ok m' ∧
    m'.baseFee = 28125000000 ∧ m'.baseFee.val ≤ 25000000000 + max (25000000000 / 8) 1 := by
  have rolled : fullWindow.atTimestamp 1700000001 =
      .ok ⟨28125000000, 25000000000, 5000000, 1700000001, 0⟩ := by decide +kernel
  refine ⟨_, rolled, rfl, (base_fee_moves_by_an_eighth built (free_of_slots fun _ => founded)
    [.chargeBaseFee 1700000000 25000000000 10000000] (Run.singleton_iff.mpr ⟨first_charge, ?_⟩) fullWindow _
    (FeeMarket.decode_encode _) 1700000001 (by decide) rolled).1⟩
  rintro floor target m ⟨⟩

/-- A target of one unit set under a full window: the next base fee is more than a
million times the last. -/
theorem lowered_target_multiplies_base_fee : ∃ m m' : FeeMarket,
    Run (FeeMarket.Rewrites crypto) (genesis.get (Slot.feeMarket.key crypto))
      [.chargeBaseFee 1700000000 25000000000 10000000, .setFeeMarket 25000000000 1] (some m.encode) ∧
    m.windowTs = 1700000000 ∧ m.atTimestamp 1700000001 = .ok m' ∧
    m.baseFee.val * 1000000 < m'.baseFee.val ∧ ¬ m'.baseFee.val ≤ m.baseFee.val + max (m.baseFee.val / 8) 1 := by
  refine ⟨⟨25000000000, 25000000000, 1, 1700000000, 10000000⟩,
    ⟨31250021875000000, 25000000000, 1, 1700000001, 0⟩, ⟨_, first_charge, ?_⟩, rfl, by decide +kernel, by decide,
    by decide⟩
  refine Run.singleton_iff.mpr ⟨rfl, _, (FeeMarket.transition_eq_ok rfl
    (Execute.decodeFeeMarket_encode _)).mpr ⟨_, ⟨by decide, by decide, rfl⟩, rfl⟩, rfl⟩

end Devnet

namespace FeeMarket

/-- What a transaction charges into a window. -/
structure Charge where
  timestamp : U64
  baseFee : U128
  gas : U64

def Charge.instruction (c : Charge) : Instruction := .chargeBaseFee c.timestamp c.baseFee c.gas

/-- All the gas charged under one timestamp. -/
def gasAt (cs : List Charge) (timestamp : U64) : Nat :=
  ((cs.filter (·.timestamp = timestamp)).map (·.gas.val)).sum

@[simp] theorem gasAt_append (cs ds : List Charge) (timestamp : U64) :
    gasAt (cs ++ ds) timestamp = gasAt cs timestamp + gasAt ds timestamp := by
  simp [gasAt]

@[simp] theorem gasAt_singleton (c : Charge) (timestamp : U64) :
    gasAt [c] timestamp = if c.timestamp = timestamp then c.gas.val else 0 := by
  by_cases same : c.timestamp = timestamp <;> simp [gasAt, same]

theorem gasAt_eq_zero (none : ∀ c ∈ cs, c.timestamp ≠ timestamp) : gasAt cs timestamp = 0 := by
  rw [gasAt, List.filter_eq_nil_iff.mpr (by simpa using none)]
  rfl

/-- What a market shows of the charges that led to it. -/
structure Windowed (goal : U64) (cs : List Charge) (m : FeeMarket) : Prop where
  aim : m.target = goal
  ordered : cs.Pairwise (·.timestamp.val ≤ ·.timestamp.val)
  reached : ∀ c ∈ cs, c.timestamp.val ≤ m.windowTs.val
  latest : ∀ c ∈ cs.getLast?, c.timestamp = m.windowTs
  agreed : ∀ c ∈ cs, ∀ d ∈ cs, c.timestamp = d.timestamp → c.baseFee = d.baseFee
  current : ∀ c ∈ cs, c.timestamp = m.windowTs → c.baseFee = m.baseFee
  used : m.windowGas.val = gasAt cs m.windowTs
  bounded : ∀ timestamp, gasAt cs timestamp ≤ 2 * goal.val

theorem Windowed.rolled (windowed : Windowed goal cs m) {timestamp : U64}
    (advanced : m.atTimestamp timestamp = .ok m') :
    m'.windowTs = timestamp ∧ m'.target = goal ∧ m'.windowGas.val = gasAt cs timestamp ∧
      (∀ c ∈ cs, c.timestamp.val ≤ timestamp.val) ∧ ∀ c ∈ cs, c.timestamp = timestamp → c.baseFee = m'.baseFee := by
  have notEarlier := atTimestamp_le advanced
  have before : ∀ c ∈ cs, c.timestamp.val ≤ timestamp.val := fun c among =>
    Nat.le_trans (windowed.reached c among) notEarlier
  refine ⟨windowTs_of_atTimestamp advanced, (terms_of_atTimestamp advanced).2.trans windowed.aim, ?_, before, ?_⟩
  all_goals rcases Nat.lt_or_eq_of_le notEarlier with later | same
  · obtain ⟨fee, _, rfl⟩ := atTimestamp_of_lt later advanced
    refine (gasAt_eq_zero fun c among here => ?_).symm
    have old := windowed.reached c among
    rw [here] at old
    omega
  · obtain rfl : m.windowTs = timestamp := Fin.ext same
    cases (atTimestamp_self m).symm.trans advanced
    exact windowed.used
  · intro c among here
    have old := windowed.reached c among
    rw [here] at old
    omega
  · obtain rfl : m.windowTs = timestamp := Fin.ext same
    cases (atTimestamp_self m).symm.trans advanced
    exact windowed.current

theorem Windowed.charge (windowed : Windowed goal cs m) (stepped : m.Steps c.instruction m') :
    Windowed goal (cs ++ [c]) m' := by
  obtain ⟨rolled, advanced, fee, total, sum, fits, rfl⟩ := stepped
  obtain ⟨opened, aim, used, before, agreed⟩ := windowed.rolled advanced
  have limit := rolled.windowLimit_le
  rw [aim] at limit
  have known : ∀ d ∈ cs ++ [c], d.timestamp = c.timestamp → d.baseFee = rolled.baseFee := by
    intro d among here
    rcases List.mem_append.mp among with old | new
    · exact agreed d old here
    · rw [List.mem_singleton.mp new, fee]
  constructor
  · exact aim
  · rw [List.pairwise_append]
    refine ⟨windowed.ordered, List.pairwise_singleton _ _, fun d old e new => ?_⟩
    rw [List.mem_singleton.mp new]
    exact before d old
  · intro d among
    change d.timestamp.val ≤ rolled.windowTs.val
    rw [opened]
    rcases List.mem_append.mp among with old | new
    · exact before d old
    · rw [List.mem_singleton.mp new]
  · intro d last
    rw [List.getLast?_concat] at last
    cases last
    exact opened.symm
  · intro d first e second same
    rcases List.mem_append.mp first with old | new
    · rcases List.mem_append.mp second with old' | new'
      · exact windowed.agreed d old e old' same
      · obtain rfl := List.mem_singleton.mp new'
        exact (known d first same).trans (known e second rfl).symm
    · obtain rfl := List.mem_singleton.mp new
      exact (known d first rfl).trans (known e second same.symm).symm
  · intro d among here
    exact known d among (here.trans opened)
  · change total.val = gasAt (cs ++ [c]) rolled.windowTs
    rw [opened, gasAt_append, gasAt_singleton, if_pos rfl, ← used, sum]
  · intro timestamp
    rw [gasAt_append, gasAt_singleton]
    split
    · rename_i here
      rw [← here, ← used, ← sum]
      exact Nat.le_trans fits limit
    · exact windowed.bounded timestamp

theorem Windowed.charges (windowed : Windowed goal cs m)
    (ran : Run (fun (m : FeeMarket) (c : Charge) m' => m.Steps c.instruction m') m ds m') :
    Windowed goal (cs ++ ds) m' := by
  induction ds generalizing cs m with
  | nil =>
    cases ran
    rwa [List.append_nil]
  | cons d ds ih =>
    obtain ⟨mid, stepped, ran⟩ := ran
    have further := ih (windowed.charge stepped) ran
    rwa [List.append_assoc, List.singleton_append] at further

end FeeMarket

theorem GenesisConfig.windowed_firstMarket (config : GenesisConfig) :
    config.firstMarket.Windowed config.market.gasTarget [] where
  aim := rfl
  ordered := List.Pairwise.nil
  reached := by simp
  latest := by simp
  agreed := by simp
  current := by simp
  used := rfl
  bounded := by simp [FeeMarket.gasAt]

namespace Execute

variable {crypto : Crypto} {σ σ' : Store} {m : FeeMarket}

/-- The gas a transaction uses. -/
def gasOf (crypto : Crypto) (e : Entry) : U64 :=
  match chargeAndPayload crypto e.2 e.1 with
  | .ok (charge, _) => charge.gasUsed
  | .error _ => 0

def chargeOf (crypto : Crypto) (e : Entry) : FeeMarket.Charge := ⟨e.1.timestamp, e.1.baseFee, gasOf crypto e⟩

theorem market_compilePayload {tx : Transaction} (compiled : compilePayload crypto tx.payload sender = .ok is)
    (keeps : KeepsTerms tx) : ∀ i ∈ is, i.on ≠ .feeMarket := by
  intro i emitted here
  cases emits_of_compilePayload compiled emitted with
  | @update _ update _ asked =>
    cases update with
    | setFeeMarket floor target => exact keeps _ floor target (congrArg Payload.order asked) rfl
    | _ => cases here
  | _ => cases here

theorem charge_of_executes {e : Entry} (keeps : KeepsTerms e.2) (stored : σ .feeMarket = some m.encode)
    (executed : σ.Executes crypto e σ') :
    ∃ m', m.Steps (chargeOf crypto e).instruction m' ∧ σ' .feeMarket = some m'.encode := by
  obtain ⟨ctx, tx⟩ := e
  obtain ⟨p, compiled, ran⟩ := executed
  obtain ⟨_, _, payload, used, charge, shaped, gas, settled, rfl⟩ := compile_eq_ok.mp compiled
  have gasUsed : gasOf crypto (ctx, tx) = charge.gasUsed := by
    simp [gasOf, chargeAndPayload, shaped, gas, settled, Except.mapError]
  rw [program_eq, opening, List.append_assoc] at ran
  obtain ⟨first, authenticated, ran⟩ := Run.append_iff.mp ran
  obtain ⟨second, nonce, third, asset, fourth, charged, ran⟩ := ran
  have before : third .feeMarket = some m.encode := by
    rw [asset.frame (by simp [Instruction.on]), nonce.frame (by simp [Instruction.on]), ← stored]
    refine Store.run_frame authenticated fun i emitted => ?_
    cases signed : tx.authenticator with
    | ed25519 _ _ => simp [signed] at emitted
    | keyless sig =>
      rw [signed] at emitted
      obtain rfl := List.mem_singleton.mp emitted
      simp [Instruction.on]
  have after : σ' .feeMarket = fourth .feeMarket := by
    refine Store.run_frame ran fun i emitted here => ?_
    rcases List.mem_cons.mp emitted with rfl | emitted
    · cases here
    have emitted : i ∈ payload ++ closing tx ctx charge := emitted
    rcases List.mem_append.mp emitted with paid | closed
    · exact market_compilePayload shaped keeps i paid here
    · obtain ⟨_, on⟩ := on_closing closed
      cases on.symm.trans here
  obtain ⟨written, computed, _, rfl⟩ := charged
  rw [show Instruction.on (.chargeBaseFee _ _ _) = .feeMarket from rfl, before] at computed
  obtain ⟨m', stepped, rfl⟩ := (FeeMarket.transition_eq_ok rfl (decodeFeeMarket_encode m)).mp computed
  refine ⟨m', ?_, after.trans (Function.update_self _ _ _)⟩
  rw [FeeMarket.Charge.instruction, chargeOf, gasUsed]
  exact stepped

theorem charges_of_run {es : List Entry} (keeps : ∀ e ∈ es, KeepsTerms e.2) (stored : σ .feeMarket = some m.encode)
    (ran : Run (Store.Executes crypto) σ es σ') :
    ∃ m', Run (fun (m : FeeMarket) (c : FeeMarket.Charge) m' => m.Steps c.instruction m') m
      (es.map (chargeOf crypto)) m' ∧ σ' .feeMarket = some m'.encode := by
  have charges : ∀ (σ : Store) e σ' (m : FeeMarket), e ∈ es → σ .feeMarket = some m.encode → σ.Executes crypto e σ' →
      ∃ m', m.Steps (chargeOf crypto e).instruction m' ∧ σ' .feeMarket = some m'.encode :=
    fun _ e _ _ among stored executed => charge_of_executes (keeps e among) stored executed
  obtain ⟨m', charged, stored'⟩ := ran.simulate (fun σ m => σ .feeMarket = some (FeeMarket.encode m)) charges stored
  exact ⟨m', Run.map_iff.mpr charged, stored'⟩

theorem windowed_of_reaches {config : GenesisConfig} (reaches : config.Reaches crypto hashing batches trie)
    (keeps : ∀ e ∈ entries batches, KeepsTerms e.2)
    (free : CollisionFree crypto.sha256 (Slot.image '' config.named crypto hashing batches)) :
    ∃ m : FeeMarket, trie.get (Slot.feeMarket.key crypto) = some m.encode ∧
      m.Windowed config.market.gasTarget ((entries batches).map (chargeOf crypto)) := by
  have apart := Slot.apart_of_free free fun _ named => GenesisConfig.fits_of_mem_named named
  obtain ⟨_, _, σ₀, σ, _, founded, ran, same⟩ := reaches.onStore apart (subset_refl _)
  obtain ⟨m, charged, stored⟩ := charges_of_run keeps (GenesisConfig.market_of_plan founded).1 ran
  exact ⟨m, (same (.inl (.inr (.inl rfl)))).trans stored, config.windowed_firstMarket.charges charged⟩

/-- All the gas of the transactions executed under one timestamp. -/
def gasUnder (crypto : Crypto) (batches : List (BatchContext × List Transaction)) (timestamp : U64) : Nat :=
  (((entries batches).filter (·.1.timestamp = timestamp)).map fun e => (gasOf crypto e).val).sum

theorem gasUnder_eq (batches : List (BatchContext × List Transaction)) (timestamp : U64) :
    gasUnder crypto batches timestamp = FeeMarket.gasAt ((entries batches).map (chargeOf crypto)) timestamp := by
  rw [gasUnder, FeeMarket.gasAt, List.filter_map, List.map_map]
  rfl

theorem mem_entries {batches : List (BatchContext × List Transaction)} (among : b ∈ batches) (nonempty : b.2 ≠ []) :
    ∃ e ∈ entries batches, e.1 = b.1 := by
  obtain ⟨tx, listed⟩ := List.exists_mem_of_ne_nil _ nonempty
  exact ⟨(b.1, tx), List.mem_flatMap.mpr ⟨b, among, List.mem_map_of_mem listed⟩, rfl⟩

theorem pairwise_of_entries {R : BatchContext → BatchContext → Prop} :
    {batches : List (BatchContext × List Transaction)} → (entries batches).Pairwise (fun e f => R e.1 f.1) →
      (batches.filter (·.2 ≠ [])).Pairwise fun a b => R a.1 b.1
  | [], _ => List.Pairwise.nil
  | b :: batches, ordered => by
    have split : entries (b :: batches) = b.2.map (b.1, ·) ++ entries batches := rfl
    rw [split, List.pairwise_append] at ordered
    obtain ⟨_, rest, across⟩ := ordered
    rw [List.filter_cons]
    split_ifs with nonempty
    · refine List.pairwise_cons.mpr ⟨fun c kept => ?_, pairwise_of_entries rest⟩
      obtain ⟨among, filled⟩ := List.mem_filter.mp kept
      obtain ⟨tx, listed⟩ := List.exists_mem_of_ne_nil _ (of_decide_eq_true nonempty)
      obtain ⟨e, charged, same⟩ := mem_entries among (of_decide_eq_true filled)
      rw [← same]
      exact across _ (List.mem_map_of_mem listed) e charged
    · exact pairwise_of_entries rest

theorem reaches_of_append {config : GenesisConfig} (reaches : config.Reaches crypto hashing (first ++ rest) trie) :
    ∃ mid, config.Reaches crypto hashing first mid := by
  obtain ⟨genesis, built, ran⟩ := reaches
  rw [executeAll_iff, entries, List.flatMap_append, Run.append_iff] at ran
  obtain ⟨mid, ran, _⟩ := ran
  exact ⟨mid, genesis, built, (executeAll_iff first).mpr ran⟩

/-- Windows over batches. While nobody sets the market's terms, the batches with a
transaction come in the order of their timestamps, those with one timestamp declare
one base fee, their transactions use no more than twice the target between them, and
after the last of them that is what the market's window has used. -/
theorem gas_per_window_is_bounded {config : GenesisConfig} (reaches : config.Reaches crypto hashing batches trie)
    (keeps : ∀ b ∈ batches, ∀ tx ∈ b.2, KeepsTerms tx)
    (free : CollisionFree crypto.sha256 (Slot.image '' config.named crypto hashing batches)) :
    (batches.filter (·.2 ≠ [])).Pairwise (·.1.timestamp.val ≤ ·.1.timestamp.val) ∧
      (∀ b ∈ batches, ∀ c ∈ batches, b.2 ≠ [] → c.2 ≠ [] → b.1.timestamp = c.1.timestamp →
        b.1.baseFee = c.1.baseFee) ∧
      (∀ timestamp, gasUnder crypto batches timestamp ≤ 2 * config.market.gasTarget.val) ∧
      ∀ before last after, batches = before ++ last :: after → last.2 ≠ [] →
        (∀ b ∈ after, b.2 ≠ [] → b.1.timestamp ≠ last.1.timestamp) →
        ∃ mid m, config.Reaches crypto hashing (before ++ [last]) mid ∧
          mid.get (Slot.feeMarket.key crypto) = some (FeeMarket.encode m) ∧ m.windowTs = last.1.timestamp ∧
          m.windowGas.val = gasUnder crypto batches last.1.timestamp := by
  have keeps : ∀ e ∈ entries batches, KeepsTerms e.2 := by
    intro e among
    obtain ⟨b, listed, inBatch⟩ := List.mem_flatMap.mp among
    obtain ⟨tx, here, rfl⟩ := List.mem_map.mp inBatch
    exact keeps b listed tx here
  obtain ⟨m, _, windowed⟩ := windowed_of_reaches reaches keeps free
  refine ⟨?_, ?_, fun timestamp => ?_, ?_⟩
  · have ordered := windowed.ordered
    rw [List.pairwise_map] at ordered
    exact pairwise_of_entries (R := fun a b => a.timestamp.val ≤ b.timestamp.val) ordered
  · intro b among c among' nonempty nonempty' same
    obtain ⟨e, charged, atB⟩ := mem_entries among nonempty
    obtain ⟨f, charged', atC⟩ := mem_entries among' nonempty'
    have agreed := windowed.agreed _ (List.mem_map_of_mem charged) _ (List.mem_map_of_mem charged')
    rw [← atB, ← atC] at same ⊢
    exact agreed same
  · rw [gasUnder_eq]
    exact windowed.bounded timestamp
  · rintro before last after rfl nonempty others
    have split : entries (before ++ last :: after) = entries (before ++ [last]) ++ entries after := by simp [entries]
    obtain ⟨mid, reached⟩ := reaches_of_append (List.append_cons before last after ▸ reaches)
    have fewer : config.named crypto hashing (before ++ [last]) ⊆
        config.named crypto hashing (before ++ last :: after) := by
      rintro s (named | ⟨e, among, rest⟩)
      · exact .inl named
      · exact .inr ⟨e, split ▸ List.mem_append_left _ among, rest⟩
    obtain ⟨m, stored, windowed⟩ := windowed_of_reaches reached
      (fun e among => keeps e (split ▸ List.mem_append_left _ among)) (free.mono (Set.image_mono fewer))
    have latest : m.windowTs = last.1.timestamp := by
      obtain ⟨tx, listed⟩ := Option.isSome_iff_exists.mp (List.getLast?_isSome.mpr nonempty)
      refine (windowed.latest (chargeOf crypto (last.1, tx)) ?_).symm
      simp [entries, List.getLast?_append, listed]
    have later : FeeMarket.gasAt ((entries after).map (chargeOf crypto)) last.1.timestamp = 0 := by
      refine FeeMarket.gasAt_eq_zero fun c charged => ?_
      obtain ⟨e, among, rfl⟩ := List.mem_map.mp charged
      obtain ⟨b, listed, inBatch⟩ := List.mem_flatMap.mp among
      obtain ⟨tx, here, rfl⟩ := List.mem_map.mp inBatch
      exact others b listed (List.ne_nil_of_mem here)
    refine ⟨mid, m, reached, stored, latest, ?_⟩
    rw [gasUnder_eq, split, List.map_append, FeeMarket.gasAt_append, later, windowed.used, latest, Nat.add_zero]

end Execute

namespace Devnet

/-- The devnet's three transactions use 153000 gas, and that is what its window shows. -/
theorem window_shows_its_batch : ∃ trie m, config.Reaches crypto hashing [(context, batch)] trie ∧
    trie.get (Slot.feeMarket.key crypto) = some (FeeMarket.encode m) ∧ m.windowTs = 1700000000 ∧
    m.windowGas.val = 153000 := by
  obtain ⟨trie, trace, _, reached⟩ := executes
  have total : Execute.gasUnder crypto [(context, batch)] 1700000000 = 153000 := by
    decide +kernel
  obtain ⟨_, _, _, shown⟩ := Execute.gas_per_window_is_bounded reached (fun b listed tx among => by
    rw [List.mem_singleton.mp listed] at among
    simp only [batch, List.mem_cons, List.not_mem_nil, or_false] at among
    rcases among with rfl | rfl | rfl
    · rintro _ _ _ ⟨⟩
    · rintro _ _ _ ⟨⟩
    · rintro _ _ _ ⟨⟩ ⟨⟩) (free_of_slots fun _ => named_config)
  obtain ⟨mid, m, reaches, stored, opened, used⟩ := shown [] _ [] rfl (by simp [batch]) (by simp)
  exact ⟨mid, m, reaches, stored, opened, used.trans total⟩

end Devnet
end Sena
