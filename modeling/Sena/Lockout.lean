import Sena.GovernanceRuns
import Sena.SlotInvariant
import Sena.Spending

/-! Whether the council can always act.

An order of the council is a transaction and pays a fee like any other, under the
parameters the council has set. As long as one fee asset is left alone and the
fee market's terms stay moderate there is always an order that executes. But
nothing in the code keeps them so: the guardians can disable the last asset that
pays fees, and then no transaction executes any more, the one that would enable it
again included. -/
namespace Sena

open Move

namespace Gas

theorem nextBaseFee_accepts {base floor : U128} {gas target : U64} (modest : base.val ≤ 2 ^ 64)
    (used : gas.val ≤ 2 ^ 41) (wide : 2 ^ 17 ≤ target.val) (low : floor.val ≤ 2 ^ 64) :
    ∃ next, nextBaseFee base gas target floor = .ok next ∧ next.val ≤ 2 ^ 86 := by
  have floored : ∀ next : U128, next.val ≤ 2 ^ 86 → (max next floor).val ≤ 2 ^ 86 := by
    intro next small
    rcases max_choice next floor with same | same <;> rw [same] <;> omega
  have eighth : BASE_FEE_CHANGE_DENOMINATOR.val = 8 := rfl
  unfold nextBaseFee
  split
  · rw [if_neg (by omega)]
    have product : base.val * (gas.val - target.val) ≤ 2 ^ 64 * 2 ^ 41 := Nat.mul_le_mul modest (by omega)
    have delta : base.val * (gas.val - target.val) / max target.val 1 ≤ 2 ^ 64 * 2 ^ 41 / 2 ^ 17 :=
      Nat.div_le_div product (by omega) (by decide)
    dsimp only
    rw [checked_of_lt (by omega), ok_bind, eighth]
    dsimp only
    rw [checked_of_lt (by omega), ok_bind]
    exact ⟨_, rfl, floored _ (by simp only; omega)⟩
  · rename_i calm
    have product : base.val * (target.val - gas.val) ≤ 2 ^ 64 * (2 ^ 64 - 1) :=
      Nat.mul_le_mul modest (by omega)
    rw [checked_of_lt (by omega), ok_bind]
    dsimp only
    have less := Nat.sub_le base.val
      (base.val * (target.val - gas.val) / target.val / BASE_FEE_CHANGE_DENOMINATOR.val)
    rw [checked_of_lt (by omega), ok_bind]
    exact ⟨_, rfl, floored _ (by simp only; omega)⟩

theorem settle_accepts {used : U64} {base rate : U128} (some' : 1 ≤ used.val) (few : used.val ≤ 2 ^ 18)
    (modest : base.val ≤ 2 ^ 86) (priced : rate.val ≠ 0) (cheap : rate.val ≤ 2 ^ 40) :
    ∃ maxFee charge, settle used used maxFee PRICE_SCALE base rate = .ok charge ∧ charge.hold.val ≤ 2 ^ 100 ∧
      charge.refund.val = 0 := by
  have product : base.val * rate.val ≤ 2 ^ 86 * 2 ^ 40 := Nat.mul_le_mul modest cheap
  have scale : PRICE_SCALE.val = 1000000000000 := rfl
  obtain ⟨perGas, perGas_eq⟩ : ∃ perGas : U128, perGas.val = base.val * rate.val / 1000000 :=
    ⟨⟨_, by omega⟩, rfl⟩
  have converted : nativeToAsset base rate = .ok perGas := by
    rw [nativeToAsset, if_neg priced, checked_of_lt (by omega)]
    exact congrArg _ (Fin.ext perGas_eq.symm)
  have sum : (perGas + PRICE_SCALE).val = perGas.val + PRICE_SCALE.val := Fin.val_add_eq_of_add_lt (by omega)
  have tip : min PRICE_SCALE (perGas + PRICE_SCALE - perGas) = PRICE_SCALE := by
    have rest : (perGas + PRICE_SCALE - perGas).val = PRICE_SCALE.val := by
      rw [Fin.sub_val_of_le (Fin.le_def.mpr (by omega)), sum, Nat.add_sub_cancel_left]
    rw [Fin.ext rest, min_self]
  -- whatever part of the price is taken, the product stays in range
  have totals : ∀ price : U128, price.val ≤ perGas.val + PRICE_SCALE.val →
      ∃ r : U128, total used price = .ok r ∧ r.val = used.val * price.val / PRICE_SCALE.val := by
    intro price below
    have bound : used.val * price.val ≤ 2 ^ 18 * 2 ^ 107 := Nat.mul_le_mul few (by omega)
    exact ⟨⟨used.val * price.val / PRICE_SCALE.val, by rw [scale]; omega⟩, total_eq_ok.mpr ⟨by omega, rfl⟩, rfl⟩
  obtain ⟨hold, held, hold_eq⟩ := totals (perGas + PRICE_SCALE) (by omega)
  obtain ⟨tip', tipped, _⟩ := totals PRICE_SCALE (by omega)
  obtain ⟨paid, based, _⟩ := totals perGas (by omega)
  have refunded : total (used - used) (perGas + PRICE_SCALE) = .ok 0 :=
    total_eq_ok.mpr (by rw [Fin.sub_val_of_le (Fin.le_refl used), Nat.sub_self]; simp)
  have whole : used.val * (perGas + PRICE_SCALE).val = used.val * perGas.val + used.val * 1000000000000 := by
    rw [sum, scale, Nat.mul_add]
  have bound : used.val * perGas.val ≤ 2 ^ 18 * 2 ^ 107 := Nat.mul_le_mul few (by omega)
  rw [whole, scale] at hold_eq
  refine ⟨perGas + PRICE_SCALE, ⟨used, hold, 0, tip', paid + (hold - 0 - tip' - paid)⟩, ?_, ?_, rfl⟩
  · rw [settle, if_neg (by rw [show MAX_GAS_LIMIT.val = 30000000 from rfl]; omega), if_neg (Nat.lt_irrefl _), converted,
      ok_bind, if_neg (by omega)]
    dsimp only
    rw [tip, held, ok_bind, if_neg (by omega), refunded, ok_bind, tipped, ok_bind, based]
    rfl
  · simp only
    omega

end Gas

namespace Account

theorem debit_accepts {a : Account} (enough : amount.val ≤ (a.balance asset).val) :
    ∃ a', a.debit asset amount = .ok a' := by
  unfold debit
  split
  · exact ⟨_, rfl⟩
  · rw [if_neg (Nat.not_lt.mpr enough)]
    split <;> exact ⟨_, rfl⟩

theorem credit_accepts {a : Account} (fits : (a.balance asset).val + amount.val < 2 ^ 128) :
    ∃ a', a.credit asset amount = .ok a' := by
  rw [credit, dif_pos fits]
  split <;> exact ⟨_, rfl⟩

end Account

theorem Instruction.revise_length_le {i : Instruction} (revised : i.revise acc = .ok acc') :
    acc'.balances.entries.length ≤ acc.balances.entries.length + 1 := by
  cases i with
  | consumeNonce account expected =>
    rw [(Account.useNonce_spec revised).2.2]
    exact Nat.le_succ _
  | debit account asset amount => exact Account.debit_length_le (Move.mapError_eq_ok.mp revised)
  | credit account asset amount => exact Account.credit_length_le (Move.mapError_eq_ok.mp revised)
  | _ =>
    cases revised
    exact Nat.le_succ _

namespace Store

variable {crypto : Crypto} {σ σ' : Store} {i : Instruction}

/-- The account at `x` decodes, and has at most `n` balances. -/
def Keeps (σ : Store) (x : L2Address) (n : Nat) : Prop :=
  Execute.decodeAccount (σ (.account x)) = .ok (σ.account x) ∧ (σ.account x).balances.entries.length ≤ n

/-- A step adds one balance to an account at most. -/
theorem Steps.keeps (stepped : σ.Steps crypto i σ') (kept : σ.Keeps x n) : σ'.Keeps x (n + 1) := by
  obtain ⟨decoded, short⟩ := kept
  rcases stepped.account x with ⟨elsewhere, same⟩ | ⟨here, revised⟩
  · refine ⟨?_, by rw [same]; omega⟩
    rw [stepped.frame elsewhere, same, decoded]
  · refine ⟨?_, (Instruction.revise_length_le revised).trans (Nat.succ_le_succ short)⟩
    obtain ⟨written, computed, encodable, rfl⟩ := stepped
    obtain ⟨acc, acc', decoded', revised', rfl⟩ := (Instruction.transition_account here).mp computed
    have positive := (Instruction.revise_spec here revised').2.2 (Execute.decodeAccount_positive decoded')
    have fits : acc'.encode.length < 12 + 20 * 2 ^ 32 := by
      cases i <;> first | exact encodable | cases here
    have later := Execute.decodeAccount_encode positive fits
    rw [← Function.update_self (Slot.account x) (some acc'.encode) σ] at later
    rw [here, later, account_eq later]

section
variable (kept : σ.Keeps x n) (room : n + 1 < 2 ^ 32)
include kept room

/-- An instruction on an account that can be revised executes. -/
theorem Keeps.steps (here : i.on = .account x)
    (revised : i.revise (σ.account x) = .ok acc) : ∃ σ', σ.Steps crypto i σ' := by
  have short : acc.encode.length < 12 + 20 * 2 ^ 32 := by
    have := Instruction.revise_length_le revised
    have := kept.2
    rw [Account.encode_length]
    omega
  refine ⟨_, acc.encode, ?_, ?_, rfl⟩
  · rw [here]
    exact (Instruction.transition_account here).mpr ⟨_, _, kept.1, revised, rfl⟩
  · cases i <;> first | exact short | trivial

theorem Keeps.consumes (next : U64) (current : next.val = σ.nonce x)
    (more : σ.nonce x + 1 < 2 ^ 64) : ∃ σ', σ.Steps crypto (.consumeNonce x next) σ' := by
  have same : (σ.account x).nonce = next := Fin.ext current.symm
  have used : (σ.account x).useNonce next = .ok { σ.account x with nonce := ⟨_, more⟩ } := by
    rw [Account.useNonce, if_neg (not_not.mpr same)]
    exact dif_pos more
  exact kept.steps room rfl used

theorem Keeps.debits (enough : amount.val ≤ σ.balance x a) : ∃ σ', σ.Steps crypto (.debit x a amount) σ' := by
  obtain ⟨acc, debited⟩ := Account.debit_accepts enough
  exact kept.steps room rfl (Move.mapError_eq_ok.mpr debited)

theorem Keeps.credits (fits : σ.balance x a + amount.val < 2 ^ 128) :
    ∃ σ', σ.Steps crypto (.credit x a amount) σ' := by
  obtain ⟨acc, credited⟩ := Account.credit_accepts fits
  exact kept.steps room rfl (Move.mapError_eq_ok.mpr credited)

end

end Store

/-- The update leaves the fee asset `a` alone, and keeps the market's terms moderate. -/
def GovernanceUpdate.Spares (a : U32) : GovernanceUpdate → Prop
  | setGasAsset record => record.asset ≠ a
  | disableGasAsset asset => asset ≠ a
  | setFeeMarket floor target => floor.val ≤ 2 ^ 64 ∧ 2 ^ 17 ≤ target.val ∧ target.val ≤ 2 ^ 40
  | _ => True

/-- The base fee is moderate and time has not come to its end. -/
structure Execute.BatchContext.Modest (ctx : BatchContext) : Prop where
  baseFee : ctx.baseFee.val ≤ 2 ^ 64
  timestamp : ctx.timestamp.val < 2 ^ 64 - 1

/-- A market whose next base fee can be paid. -/
structure FeeMarket.Modest (m : FeeMarket) : Prop where
  baseFee : m.baseFee.val ≤ 2 ^ 64
  floor : m.floor.val ≤ 2 ^ 64
  target : 2 ^ 17 ≤ m.target.val
  narrow : m.target.val ≤ 2 ^ 40
  windowTs : m.windowTs.val < 2 ^ 64 - 1
  windowGas : m.windowGas.val ≤ 2 ^ 41

theorem FeeMarket.Modest.rolls {m : FeeMarket} (modest : m.Modest) :
    ∃ (next : U64) (rolled : FeeMarket), m.windowTs.val ≤ next.val ∧ m.atTimestamp next = .ok rolled ∧
      rolled.baseFee.val ≤ 2 ^ 86 ∧ rolled.windowGas = 0 ∧ 2 ^ 18 ≤ rolled.windowLimit := by
  have later : m.windowTs.val + 1 < 2 ^ 64 := by
    have := modest.windowTs
    omega
  obtain ⟨base, stepped, small⟩ :=
    Gas.nextBaseFee_accepts modest.baseFee modest.windowGas modest.target modest.floor
  refine ⟨⟨_, later⟩, { m with baseFee := base, windowTs := ⟨_, later⟩, windowGas := 0 }, Nat.le_succ _, ?_, small, rfl,
    ?_⟩
  · rw [atTimestamp, if_neg (by simp), if_neg (by simp [Fin.ext_iff]), stepped]
    rfl
  · have wide := modest.target
    have elastic : Gas.ELASTICITY.val = 2 := rfl
    simp only [windowLimit, elastic]
    omega

namespace Store

variable {crypto : Crypto} {σ σ' : Store} {i : Instruction}

/-- The market in the store is modest. -/
def FeesModest (σ : Store) : Prop := ∃ m, Execute.decodeFeeMarket (σ .feeMarket) = .ok m ∧ m.Modest

theorem feesModest_of_encode {m : FeeMarket} (stored : σ .feeMarket = some m.encode) (modest : m.Modest) :
    σ.FeesModest := by
  exact ⟨m, by rw [stored, Execute.decodeFeeMarket_encode], modest⟩

/-- Charging a modest context's base fee, and setting moderate terms, keeps a market
modest. -/
theorem Steps.feesModest (stepped : σ.Steps crypto i σ') (modest : σ.FeesModest)
    (charges : ∀ timestamp baseFee gas, i = .chargeBaseFee timestamp baseFee gas →
      baseFee.val ≤ 2 ^ 64 ∧ timestamp.val < 2 ^ 64 - 1)
    (sets : ∀ floor target, i = .setFeeMarket floor target →
      floor.val ≤ 2 ^ 64 ∧ 2 ^ 17 ≤ target.val ∧ target.val ≤ 2 ^ 40) : σ'.FeesModest := by
  by_cases here : i.on = .feeMarket
  swap
  · obtain ⟨m, decoded, good⟩ := modest
    exact ⟨m, by rw [stepped.frame here, decoded], good⟩
  obtain ⟨m, decoded, good⟩ := modest
  obtain ⟨written, computed, _, rfl⟩ := stepped
  rw [here] at computed
  cases i with
  | chargeBaseFee timestamp baseFee gas =>
    obtain ⟨low, early⟩ := charges timestamp baseFee gas rfl
    obtain ⟨market, rolled, decoded', advanced, rfl, total, _, within, rfl⟩ :=
      Execute.transition_chargeBaseFee.mp computed
    cases decoded.symm.trans decoded'
    obtain ⟨floor, target⟩ := FeeMarket.terms_of_atTimestamp advanced
    refine feesModest_of_encode (Function.update_self _ _ _) ⟨low, ?_, ?_, ?_, ?_, ?_⟩
    · exact floor ▸ good.floor
    · exact target ▸ good.target
    · exact target ▸ good.narrow
    · exact (FeeMarket.windowTs_of_atTimestamp advanced).symm ▸ early
    · have narrow : rolled.target.val ≤ 2 ^ 40 := target ▸ good.narrow
      have elastic : Gas.ELASTICITY.val = 2 := rfl
      simp only [FeeMarket.windowLimit, elastic] at within
      simp only
      omega
  | setFeeMarket floor target =>
    obtain ⟨low, wide, narrow⟩ := sets floor target rfl
    obtain ⟨_, _, market, decoded', rfl⟩ := Execute.transition_setFeeMarket.mp computed
    cases decoded.symm.trans decoded'
    refine feesModest_of_encode (Function.update_self _ _ _) ⟨?_, low, wide, narrow, good.windowTs, good.windowGas⟩
    have base := good.baseFee
    simp only
    rcases max_choice m.baseFee floor with same | same <;> rw [same] <;> omega
  | _ => cases here

end Store

namespace Execute

variable {crypto : Crypto} {σ σ' : Store} {tx : Transaction}

theorem feesModest_of_run {es : List Entry} (ran : Run (Store.Executes crypto) σ es σ') (start : σ.FeesModest)
    (modest : ∀ e ∈ es, e.1.Modest) (spared : ∀ o ∈ es.filterMap (·.2.payload.order), o.update.Spares a) :
    σ'.FeesModest := by
  refine ran.invariant Store.FeesModest (fun σ e σ' among good executed => ?_) start
  obtain ⟨p, compiled, ran⟩ := executed
  refine ran.invariant Store.FeesModest (fun σ i σ' emitted good stepped => ?_) good
  refine stepped.feesModest good (fun timestamp baseFee gas same => ?_) fun floor target same => ?_
  · subst same
    rcases market_of_compile compiled emitted rfl with ⟨_, same⟩ | ⟨_, _, _, _, _, ⟨⟩⟩
    cases same
    exact ⟨(modest e among).baseFee, (modest e among).timestamp⟩
  · subst same
    rcases market_of_compile compiled emitted rfl with ⟨_, ⟨⟩⟩ | ⟨o, floor', target', ordered, updates, same⟩
    cases same
    have spares := spared o (List.mem_filterMap.mpr ⟨e, among, ordered⟩)
    rwa [updates] at spares

theorem asset_of_run {es : List Entry} (ran : Run (Store.Executes crypto) σ es σ')
    (spared : ∀ o ∈ es.filterMap (·.2.payload.order), o.update.Spares a) : σ' (.asset a) = σ (.asset a) := by
  rw [view_of_run (· (.asset a)) (fun held u => u.rewrite (.asset a) held) ran
    fun σ i σ' stepped => stepped.governed trivial]
  generalize es.filterMap (·.2.payload.order) = os at spared ⊢
  induction os with
  | nil => rfl
  | cons o rest ih =>
    rw [List.forall_mem_cons] at spared
    have kept : o.update.rewrite (.asset a) (σ (.asset a)) = σ (.asset a) := by
      have spares := spared.1
      cases update : o.update <;> simp [update, GovernanceUpdate.Spares, GovernanceUpdate.rewrite] at spares ⊢
      · exact fun same => absurd same.symm spares
      · exact fun same => absurd same.symm spares
    rw [List.foldl_cons, kept]
    exact ih spared.2

end Execute

/-- A genesis under which an order can be paid for: one fee asset is enabled, cheap
enough and allocated in range, the market's terms are moderate, and no more members
sit in the council than signatures fit into an order. -/
structure GenesisConfig.Payable (config : GenesisConfig) (c : CouncilConfig) (record : WhitelistedAsset) : Prop where
  listed : record ∈ config.gasAssets
  only : ∀ r ∈ config.gasAssets, r.asset = record.asset → r = record
  enabled : record.enabled = true
  rate : record.rate.val ≤ 2 ^ 40
  intrinsicGas : record.intrinsicGas.val ≤ 100000
  terms : GovernanceUpdate.Spares record.asset (.setFeeMarket config.market.baseFeeFloor config.market.gasTarget)
  issued : config.allocated record.asset < 2 ^ 128
  kinds : config.allocations.length < 2 ^ 31
  members : c.members.length ≤ Wire.MAX_COUNCIL_SIGNATURES

namespace GenesisConfig

variable {crypto : Crypto} {σ : Store} {config : GenesisConfig}

theorem feesModest_of_plan (terms : GovernanceUpdate.Spares a
      (.setFeeMarket config.market.baseFeeFloor config.market.gasTarget))
    (founded : Run (Store.Founds crypto) (fun _ => none) (config.plan members hashes) σ) : σ.FeesModest := by
  refine founded.invariant Store.FeesModest (fun σ f σ' planned good wrote => ?_)
    ⟨_, rfl, by decide, by decide, by decide, by decide, by decide, by decide⟩
  cases f with
  | council record =>
    cases wrote
    obtain ⟨m, decoded, modest⟩ := good
    exact ⟨m, by rwa [Function.update_of_ne (by simp)], modest⟩
  | apply i =>
    simp only [plan, lastWrites, List.mem_append, List.mem_map, List.mem_singleton, reduceCtorEq, and_false,
      exists_false, or_false, Founding.apply.injEq] at planned
    refine Store.Steps.feesModest wrote good (fun _ _ _ same => ?_) fun floor target same => ?_
    · subst same
      simp at planned
    · subst same
      simp only [reduceCtorEq, and_false, exists_false, or_false, false_or, Instruction.setFeeMarket.injEq] at planned
      obtain ⟨rfl, rfl⟩ := planned
      exact terms

theorem asset_of_plan (listed : record ∈ config.gasAssets)
    (only : ∀ r ∈ config.gasAssets, r.asset = record.asset → r = record)
    (founded : Run (Store.Founds crypto) (fun _ => none) (config.plan members hashes) σ) :
    σ (.asset record.asset) = some record.encode := by
  obtain ⟨before, after, split⟩ := List.append_of_mem listed
  have planned : config.plan members hashes =
      (before.map fun r => .apply (.setGasAsset r)) ++ .apply (.setGasAsset record) ::
        ((after.map fun r => .apply (.setGasAsset r)) ++
          (config.council.toList.map fun c => .council ⟨members, c.threshold, 0, c.guardianThreshold⟩) ++
          config.lastWrites hashes) := by
    simp [plan, split]
  rw [planned, Run.append_iff] at founded
  obtain ⟨_, _, written, wrote, rest⟩ := founded
  have first : written (.asset record.asset) = some record.encode := by
    obtain ⟨b, computed, _, rfl⟩ := wrote
    obtain ⟨_, rfl⟩ := Execute.transition_setGasAsset.mp computed
    exact Function.update_self _ _ _
  refine rest.invariant (· (.asset record.asset) = some record.encode) (fun σ f σ' among held next => ?_) first
  cases f with
  | council council =>
    cases next
    rwa [Function.update_of_ne (by simp)]
  | apply i =>
    by_cases here : i.on = .asset record.asset
    · simp only [lastWrites, List.mem_append, List.mem_map, List.mem_singleton, reduceCtorEq, and_false,
        exists_false, or_false, Founding.apply.injEq] at among
      obtain ⟨r, later, rfl⟩ | ((rfl | ⟨_, _, rfl⟩) | ⟨_, _, rfl⟩) | ⟨_, _, rfl⟩ := among
      · obtain rfl := only r (by simp [split, later]) (Slot.asset.inj here)
        obtain ⟨b, computed, _, rfl⟩ := next
        obtain ⟨_, rfl⟩ := Execute.transition_setGasAsset.mp computed
        exact Function.update_self _ _ _
      all_goals cases here
    · rw [Store.Steps.frame next here, held]

theorem decodeMembers_length (decoded : decodeMembers index texts = .ok members) : members.length = texts.length := by
  induction texts generalizing index members with
  | nil =>
    cases decoded
    rfl
  | cons text rest ih =>
    rw [decodeMembers] at decoded
    cases key : decodeKey text with
    | none => simp [key] at decoded
    | some member =>
      simp only [key] at decoded
      obtain ⟨others, read, same⟩ := bind_eq_ok.mp decoded
      cases same
      rw [List.length_cons, List.length_cons, ih read]

theorem threshold_of_validate {config : GenesisConfig} (valid : config.validate hashing = .ok ())
    (configured : config.council = some c) : c.threshold.val ≠ 0 ∧ c.threshold.val ≤ c.members.length := by
  have council : validateCouncil c = .ok () := by
    unfold validate at valid
    rw [configured] at valid
    cases zero : config.gasAssets.find? (·.rate.val = 0) with
    | some asset =>
      simp only [zero] at valid
      cases valid
    | none =>
      simp only [zero] at valid
      obtain ⟨_, passed, _⟩ := bind_eq_ok.mp valid
      exact passed
  simp only [validateCouncil, check_eq_ok] at council
  omega

theorem rate_of_validate {config : GenesisConfig} (valid : config.validate hashing = .ok ())
    (listed : record ∈ config.gasAssets) : record.rate.val ≠ 0 := by
  unfold validate at valid
  cases zero : config.gasAssets.find? (·.rate.val = 0) with
  | some asset =>
    simp only [zero] at valid
    cases valid
  | none => simpa using List.find?_eq_none.mp zero record listed

end GenesisConfig

/-- Any digest can be signed under the key. -/
def Crypto.Signs (crypto : Crypto) (key : FixedBytes 32) : Prop :=
  ∀ digest : Hash256, ∃ signature : FixedBytes 64, crypto.ed25519Strict key.bytes signature.bytes digest.bytes = .ok ()

namespace Governance

theorem signatures_of_members {council : Council} (counted : council.members.length < 2 ^ 32)
    (sign : ∀ member ∈ council.members, crypto.Signs member) (digest : Hash256) :
    ∃ signatures : List CouncilSignature,
      signatures.map (·.index.val) = List.range council.members.length ∧
        checkSignatures crypto council digest none signatures = .ok () := by
  have each : ∀ seat : Fin council.members.length, ∃ s : CouncilSignature, s.index.val = seat.val ∧
      crypto.ed25519Strict (council.members.get seat).bytes s.signature.bytes digest.bytes = .ok () := by
    intro seat
    obtain ⟨signature, good⟩ := sign _ (List.get_mem council.members seat) digest
    exact ⟨⟨⟨seat.val, Nat.lt_trans seat.isLt counted⟩, signature⟩, rfl, good⟩
  choose signed seated good using each
  refine ⟨List.ofFn signed, List.ext_get (by simp) fun seat _ _ => by simp [seated],
    checkSignatures_eq_ok.mpr ⟨by simp, ?_, fun s among => ?_⟩⟩
  · rw [List.pairwise_ofFn]
    intro i j below
    rw [seated, seated]
    exact below
  · obtain ⟨seat, rfl⟩ := List.mem_ofFn.mp among
    exact ⟨council.members.get seat, by rw [seated]; simp, good seat⟩

end Governance

/-- What a transaction of `x` needs to have an order executed at a fee paid in
the asset of `record`, with the council in office for the `n`th time. -/
structure Store.Ready (σ : Store) (x : L2Address) (record : WhitelistedAsset) (council : Council) (n : Nat) : Prop where
  sender : σ.Keeps x (2 ^ 31)
  vault : σ.Keeps Execute.FEE_VAULT (2 ^ 31)
  nonce : σ.nonce x + 1 < 2 ^ 64
  rich : 2 ^ 100 ≤ σ.balance x record.asset
  issued : σ.supply {x, Execute.FEE_VAULT} record.asset < 2 ^ 128
  asset : σ (.asset record.asset) = some record.encode
  framable : Framable record.symbol.bytes
  enabled : record.enabled = true
  priced : record.rate.val ≠ 0
  cheap : record.rate.val ≤ 2 ^ 40
  intrinsicGas : record.intrinsicGas.val ≤ 100000
  fees : σ.FeesModest
  office : σ.InOffice council n
  epochs : n + 1 < 2 ^ 64
  seats : council.members.length ≤ Wire.MAX_COUNCIL_SIGNATURES
  threshold : council.threshold.val ≠ 0
  reachable : council.threshold.val ≤ council.members.length

namespace Execute

variable {crypto : Crypto} {σ : Store} {record update : WhitelistedAsset}

/-- A transaction that carries an order to set a fee asset. -/
def orderOf (sender : L2Address) (nonce : U64) (record : WhitelistedAsset) (gas : U64) (maxFee : U128) (epoch : U64)
    (update : WhitelistedAsset) (signatures : List CouncilSignature) (signature : FixedBytes 64) : Transaction where
  sender := sender
  nonce := nonce
  feeAsset := record.asset
  feeRate := record.rate
  feeIntrinsicGas := record.intrinsicGas
  gasLimit := gas
  maxFeePerGas := maxFee
  maxPriorityFeePerGas := Gas.PRICE_SCALE
  payload := .governance epoch (.setGasAsset update) signatures
  authenticator := .ed25519 sender signature

theorem encode_orderOf (few : signatures.length ≤ Wire.MAX_COUNCIL_SIGNATURES)
    (short : update.symbol.bytes.length ≤ 4096) :
    (orderOf sender nonce record gas maxFee epoch update signatures signature).encode.length ≤
      Wire.MAX_TRANSACTION_BYTES := by
  have seats : Wire.MAX_COUNCIL_SIGNATURES = 32 := rfl
  have most : Wire.MAX_TRANSACTION_BYTES = 8192 := rfl
  have signed : (signatures.flatMap fun s => be 4 s.index.val ++ frame s.signature.bytes).length =
      72 * signatures.length := by
    simp [List.length_flatMap, frame, Nat.mul_comm]
  simp only [frame, FixedBytes.bytes_length] at signed
  simp only [Transaction.encode, orderOf, Wire.writePayload, Wire.writeAuthenticator, GovernanceUpdate.encode,
    WhitelistedAsset.encode, frame, List.length_append, List.length_cons, List.length_nil, be_length,
    FixedBytes.bytes_length, signed]
  omega

theorem gasUsed_orderOf (cheap : record.intrinsicGas.val ≤ 100000)
    (few : signatures.length ≤ Wire.MAX_COUNCIL_SIGNATURES) :
    ∃ used : U64, 1 ≤ used.val ∧ used.val ≤ 2 ^ 18 ∧ ∀ sender nonce gas maxFee epoch update signature digest,
      gasUsed (orderOf sender nonce record gas maxFee epoch update signatures signature)
        [.verifyCouncil epoch digest signatures false, .setGasAsset update] = .ok used := by
  have seats : Wire.MAX_COUNCIL_SIGNATURES = 32 := rfl
  have intrinsic : Gas.INTRINSIC_GAS.val = 21000 := rfl
  refine ⟨⟨21000 + record.intrinsicGas.val + (10000 + 3000 * signatures.length) + 20000, by omega⟩, ?_, ?_, ?_⟩
  · simp only
    omega
  · simp only
    omega
  · intro sender nonce gas maxFee epoch update signature digest
    simp only [gasUsed, orderOf, List.foldlM_cons, List.foldlM_nil, instructionGas]
    rw [Gas.checked_of_lt (by omega), ok_bind, Gas.checked_of_lt (by simp only; omega), ok_bind,
      Gas.checked_of_lt (by simp only; omega), ok_bind, Gas.checked_of_lt (by simp only; omega), ok_bind]
    rfl

theorem compile_orderOf {council : Council} (ready : σ.Ready x record council n) (signs : crypto.Signs x)
    (members : ∀ member ∈ council.members, crypto.Signs member) (priced : update.rate.val ≠ 0)
    (short : update.symbol.bytes.length ≤ 4096) (modest : baseFee.val ≤ 2 ^ 86) (nonce epoch timestamp : U64) :
    ∃ gas maxFee signatures signature charge,
      let tx := orderOf x nonce record gas maxFee epoch update signatures signature
      let digest := (GovernanceUpdate.setGasAsset update).signingDigest crypto epoch
      let ctx : BatchContext := ⟨timestamp, none, baseFee, FEE_VAULT⟩
      signatures.map (·.index.val) = List.range council.members.length ∧
        Governance.checkSignatures crypto council digest none signatures = .ok () ∧
        compile crypto tx ctx =
          .ok (program tx ctx charge [.verifyCouncil epoch digest signatures false, .setGasAsset update]) ∧
        charge.gasUsed.val ≤ 2 ^ 18 ∧ charge.hold.val ≤ 2 ^ 100 ∧ charge.refund.val = 0 ∧
        charge.tip.val + charge.base.val = charge.hold.val := by
  have seats : Wire.MAX_COUNCIL_SIGNATURES = 32 := rfl
  have few := ready.seats
  obtain ⟨signatures, seated, checked⟩ := Governance.signatures_of_members (by omega) members
    ((GovernanceUpdate.setGasAsset update).signingDigest crypto epoch)
  have counted : signatures.length = council.members.length := by simpa using congrArg List.length seated
  rw [← counted] at few
  obtain ⟨used, some', low, used_eq⟩ := gasUsed_orderOf ready.intrinsicGas few
  obtain ⟨maxFee, charge, settled, hold, refund⟩ := Gas.settle_accepts some' low modest ready.priced ready.cheap
  obtain ⟨gas, parts⟩ := Gas.settle_spec settled
  -- the digest does not cover the authenticator
  obtain ⟨signature, signed⟩ := signs
    ((orderOf x nonce record used maxFee epoch update signatures (FixedBytes.fill 64 0)).signingDigest crypto)
  refine ⟨used, maxFee, signatures, signature, charge, seated, checked, compile_eq_ok.mpr ⟨?_, ?_, _, used, charge, ?_,
    used_eq _ _ _ _ _ _ _ _, settled, rfl⟩, gas ▸ low, hold, refund, by omega⟩
  · refine checkLimits_eq_ok.mpr ⟨encode_orderOf few short, ?_⟩
    rintro _ _ _ ⟨⟩
    exact few
  · rw [Transaction.authenticate, orderOf]
    dsimp only
    rw [if_neg (not_not.mpr rfl)]
    exact signed ▸ rfl
  · exact bind_eq_ok.mpr ⟨(), mapError_eq_ok.mpr (GovernanceUpdate.permits_setGasAsset.mpr priced), rfl⟩

end Execute

namespace Store

variable {crypto : Crypto} {σ σ' : Store} {record update : WhitelistedAsset}

theorem steps_of_transition {i : Instruction} (elsewhere : ∀ x, i.on ≠ .account x)
    (computed : Execute.transition crypto i (σ i.on) = .ok written) :
    σ.Steps crypto i (Function.update σ i.on (some written)) := by
  refine ⟨written, computed, ?_, rfl⟩
  cases i <;> first | trivial | exact absurd rfl (elsewhere _)

theorem Keeps.run (kept : σ.Keeps x n) (ran : Run (Steps crypto) σ p σ') : σ'.Keeps x (n + p.length) := by
  induction p generalizing σ n with
  | nil =>
    cases ran
    exact kept
  | cons i p ih =>
    obtain ⟨mid, stepped, ran⟩ := ran
    rw [List.length_cons, Nat.add_comm p.length, ← Nat.add_assoc]
    exact ih (stepped.keeps kept) ran

theorem Keeps.creditsSome (kept : σ.Keeps x n) (room : n + 1 < 2 ^ 32) (fits : σ.balance x a + amount.val < 2 ^ 128) :
    ∃ σ', Run (Steps crypto) σ (Execute.creditSome x a amount) σ' ∧ σ'.Keeps x (n + 1) ∧
      σ'.balance x a = σ.balance x a + amount.val := by
  unfold Execute.creditSome
  split
  · obtain ⟨σ', stepped⟩ : ∃ σ', σ.Steps crypto (.credit x a amount) σ' := kept.credits room fits
    refine ⟨σ', Run.singleton_iff.mpr stepped, stepped.keeps kept, ?_⟩
    simpa [Instruction.debited, Instruction.credited] using stepped.balance x a
  · exact ⟨σ, Run.nil_iff.mpr rfl, ⟨kept.1, kept.2.trans (Nat.le_succ n)⟩, by omega⟩

section
variable {council : Council} (ready : σ.Ready x record council n)
include ready

/-- The nonce is consumed, the fee asset verified, the base fee charged and the hold
taken. -/
theorem Ready.opens {m rolled : FeeMarket} {gas : U64} {hold : U128} (nonce : U64) (current : nonce.val = σ.nonce x)
    (decoded : Execute.decodeFeeMarket (σ .feeMarket) = .ok m) (rolls : m.atTimestamp next = .ok rolled)
    (empty : rolled.windowGas = 0) (room : gas.val ≤ rolled.windowLimit) (low : hold.val ≤ 2 ^ 100) :
    ∃ σ', Run (Steps crypto) σ [.consumeNonce x nonce, .verifyGasAsset record.asset record.rate record.intrinsicGas,
      .chargeBaseFee next rolled.baseFee gas, .debit x record.asset hold] σ' := by
  obtain ⟨σ₁, nonced⟩ : ∃ σ', σ.Steps crypto (.consumeNonce x nonce) σ' :=
    ready.sender.consumes (by decide) nonce current ready.nonce
  have asset : σ₁ (.asset record.asset) = some record.encode := (nonced.frame (by simp [Instruction.on])).trans ready.asset
  obtain ⟨σ₂, verified⟩ : ∃ σ', σ₁.Steps crypto (.verifyGasAsset record.asset record.rate record.intrinsicGas) σ' :=
    ⟨_, steps_of_transition (by simp [Instruction.on]) (Execute.transition_verifyGasAsset.mpr
      ⟨record, asset, WhitelistedAsset.decode_encode ready.framable, ready.enabled, rfl, rfl⟩)⟩
  have market : Execute.decodeFeeMarket (σ₂ .feeMarket) = .ok m := by
    rw [verified.frame (by simp [Instruction.on]), nonced.frame (by simp [Instruction.on]), decoded]
  obtain ⟨σ₃, charged⟩ : ∃ σ', σ₂.Steps crypto (.chargeBaseFee next rolled.baseFee gas) σ' :=
    ⟨_, steps_of_transition (by simp [Instruction.on]) (Execute.transition_chargeBaseFee.mpr
      ⟨m, rolled, market, rolls, rfl, gas, by simp [empty], room, rfl⟩)⟩
  have three : Run (Steps crypto) σ [_, _, _] σ₃ := ⟨_, nonced, _, verified, _, charged, rfl⟩
  have enough : hold.val ≤ σ₃.balance x record.asset := by
    have first := nonced.balance x record.asset
    have second := verified.balance x record.asset
    have third := charged.balance x record.asset
    have rich := ready.rich
    simp only [Instruction.debited, Instruction.credited] at first second third
    omega
  obtain ⟨σ₄, held⟩ : ∃ σ', σ₃.Steps crypto (.debit x record.asset hold) σ' :=
    (ready.sender.run three).debits (by simp) enough
  exact ⟨σ₄, _, nonced, _, verified, _, charged, _, held, rfl⟩

/-- The council accepts an order its members signed at its epoch, and the order
takes effect. -/
theorem Ready.orders {epoch : U64} {signatures : List CouncilSignature} (counts : epoch.val = n)
    (stored : σ' .council = some { council with epoch : Council }.encode)
    (enough : signatures.length = council.members.length)
    (checked : Governance.checkSignatures crypto council digest none signatures = .ok ())
    (priced : update.rate.val ≠ 0) :
    ∃ σ'', Run (Steps crypto) σ' [.verifyCouncil epoch digest signatures false, .setGasAsset update] σ'' := by
  have seats : Wire.MAX_COUNCIL_SIGNATURES = 32 := rfl
  have few := ready.seats
  have epochs := ready.epochs
  have decoded : Council.decode { council with epoch : Council }.encode = .ok { council with epoch } :=
    Council.decode_eq_ok.mpr ⟨by simp only; omega, rfl⟩
  have signed : Governance.verifyCouncilSignatures crypto { council with epoch : Council } digest signatures false =
      .ok () := by
    -- the signatures are checked against the members alone
    have good := Governance.checkSignatures_eq_ok.mp checked
    have same : Governance.checkSignatures crypto { council with epoch : Council } digest none signatures = .ok () :=
      Governance.checkSignatures_eq_ok.mpr good
    exact Osp.verifyCouncilSignatures_eq_ok.mpr ⟨ready.threshold, same ▸ rfl, enough ▸ ready.reachable⟩
  obtain ⟨σ₁, verified⟩ : ∃ σ₁, σ'.Steps crypto (.verifyCouncil epoch digest signatures false) σ₁ :=
    ⟨_, steps_of_transition (by simp [Instruction.on]) (Execute.transition_verifyCouncil.mpr
      ⟨_, _, stored, decoded, rfl, signed, ⟨epoch.val + 1, by omega⟩, rfl, rfl⟩)⟩
  obtain ⟨σ₂, updated⟩ : ∃ σ₂, σ₁.Steps crypto (.setGasAsset update) σ₂ :=
    ⟨_, steps_of_transition (by simp [Instruction.on]) (Execute.transition_setGasAsset.mpr ⟨priced, rfl⟩)⟩
  exact ⟨σ₂, _, verified, _, updated, rfl⟩

/-- A store that is ready executes an order signed by every member of its council. -/
theorem Ready.executes (signs : crypto.Signs x)
    (members : ∀ member ∈ council.members, crypto.Signs member) (priced : update.rate.val ≠ 0)
    (short : update.symbol.bytes.length ≤ 4096) :
    ∃ (ctx : Execute.BatchContext) (tx : Transaction) (epoch : U64) (signatures : List CouncilSignature) (σ' : Store),
      (∀ m, Execute.decodeFeeMarket (σ .feeMarket) = .ok m → m.windowTs.val ≤ ctx.timestamp.val) ∧ tx.sender = x ∧
        tx.payload = .governance epoch (.setGasAsset update) signatures ∧
        signatures.map (·.index.val) = List.range council.members.length ∧
        σ.Executes crypto (ctx, tx) σ' ∧
        Execute.slotsOf crypto [(ctx, tx)] ⊆ {.account x, .account Execute.FEE_VAULT, .asset record.asset,
          .asset update.asset, .council, .feeMarket} := by
  obtain ⟨market, decoded, modest⟩ := ready.fees
  obtain ⟨next, rolled, later, rolls, base, empty, room⟩ := modest.rolls
  obtain ⟨epoch, counts, stored⟩ := ready.office
  obtain ⟨nonce, current⟩ : ∃ nonce : U64, nonce.val = σ.nonce x := ⟨(σ.account x).nonce, rfl⟩
  obtain ⟨gas, maxFee, signatures, signature, charge, seated, checked, compiled, used, hold, refund, parts⟩ :=
    Execute.compile_orderOf ready signs members priced short base nonce epoch next
  obtain ⟨σ₁, opened⟩ : ∃ σ₁, Run (Steps crypto) σ [_, _, _, _] σ₁ :=
    ready.opens nonce current decoded rolls empty (used.trans room) hold
  have kept : σ₁ .council = _ := (run_frame opened (by simp [Instruction.on])).trans stored
  obtain ⟨σ₂, ordered⟩ := ready.orders counts kept (by simpa using congrArg List.length seated) checked priced
  have so_far := Run.append_iff.mpr ⟨_, opened, ordered⟩
  -- what the vault has and what it gets together fits
  have moved := run_supply so_far {x, Execute.FEE_VAULT} record.asset
  have vault : σ₂.balance Execute.FEE_VAULT record.asset ≤ σ₂.supply {x, Execute.FEE_VAULT} record.asset :=
    Finset.single_le_sum (f := fun y => σ₂.balance y record.asset) (fun _ _ => Nat.zero_le _) (by simp)
  have issued := ready.issued
  simp only [Execute.debits, Execute.credits, List.cons_append, List.nil_append, List.map_cons, List.map_nil,
    Instruction.debited, Instruction.credited, Finset.mem_insert, true_or, and_self, if_true, List.sum_cons, List.sum_nil,
    Nat.add_zero, Nat.zero_add] at moved
  have credits : ∀ {σ : Store} {n : Nat} (amount : U128), σ.Keeps Execute.FEE_VAULT n → n + 1 < 2 ^ 32 →
      σ.balance Execute.FEE_VAULT record.asset + amount.val < 2 ^ 128 →
      ∃ σ', Run (Steps crypto) σ (Execute.creditSome Execute.FEE_VAULT record.asset amount) σ' ∧
        σ'.Keeps Execute.FEE_VAULT (n + 1) ∧ σ'.balance Execute.FEE_VAULT record.asset =
          σ.balance Execute.FEE_VAULT record.asset + amount.val :=
    fun _ kept room fits => kept.creditsSome room fits
  obtain ⟨σ₃, tipped, kept₃, more⟩ := credits charge.tip (ready.vault.run so_far) (by simp) (by omega)
  obtain ⟨σ₄, based, _⟩ := credits charge.base kept₃ (by simp) (by omega)
  have all : Run (Steps crypto) σ _ σ₄ := Run.append_iff.mpr ⟨_, Run.append_iff.mpr ⟨_, so_far, tipped⟩, based⟩
  refine ⟨_, _, epoch, signatures, σ₄, ?_, rfl, rfl, seated, ⟨_, compiled, ?_⟩, ?_⟩
  · rintro m found
    cases decoded.symm.trans found
    exact later
  · simpa [Execute.program, Execute.orderOf, Execute.creditSome, refund] using all
  · rintro s ⟨_, here, program, compiled', i, emitted, rfl⟩
    cases List.mem_singleton.mp here
    cases compiled.symm.trans compiled'
    rw [Execute.program_eq, Execute.opening, Execute.closing] at emitted
    simp only [Execute.orderOf, List.nil_append, Execute.creditSome, refund, Nat.lt_irrefl, gt_iff_lt, if_false,
      List.mem_append, List.mem_cons, List.not_mem_nil, or_false, List.mem_ite_nil_right] at emitted
    obtain (rfl | rfl | rfl | rfl) | (rfl | rfl) | ⟨_, rfl⟩ | ⟨_, rfl⟩ := emitted <;> simp [Instruction.on]

end

end Store

namespace GenesisConfig

variable {crypto : Crypto} {config : GenesisConfig} {trie : MerkleTrie}

/-- Under the condition every reached state is ready for an order. -/
theorem ready_of_run (accepted : config.Accepted hashing members hashes) (configured : config.council = some c)
    (payable : config.Payable c record)
    (founded : Run (Store.Founds crypto) (fun _ => none) (config.plan members hashes) σ₀)
    (ran : Run (Store.Executes crypto) σ₀ es σ) (modest : ∀ e ∈ es, e.1.Modest)
    (spared : ∀ o ∈ es.filterMap (·.2.payload.order), o.update.Spares record.asset) (few : es.length < 2 ^ 64 - 1)
    (decodes : ∀ y ∈ ({x, Execute.FEE_VAULT} : Finset L2Address), ∃ acc, Execute.decodeAccount (σ (.account y)) = .ok acc)
    (rich : 2 ^ 100 ≤ σ.balance x record.asset) :
    ∃ n, σ.Ready x record ⟨members, c.threshold, 0, c.guardianThreshold⟩ n := by
  have kinds := payable.kinds
  have keeps : ∀ y ∈ ({x, Execute.FEE_VAULT} : Finset L2Address), σ.Keeps y (2 ^ 31) := by
    intro y among
    obtain ⟨acc, decoded⟩ := decodes y among
    exact ⟨by rw [Store.account_eq decoded, decoded], (length_of_run founded ran y).trans kinds.le⟩
  obtain ⟨decoded, counted⟩ := accepted.council c configured
  have seats : members.length = c.members.length := decodeMembers_length decoded
  have threshold := threshold_of_validate accepted.valid configured
  obtain ⟨_, _, office⟩ := ran.tickets (·.2.payload.order) (·.epoch.val)
    (Council.Authorises crypto ⟨members, c.threshold, 0, c.guardianThreshold⟩)
    (fun n σ => σ.InOffice ⟨members, c.threshold, 0, c.guardianThreshold⟩ n)
    (fun n σ e σ' office executed => Execute.office_of_executes counted office executed)
    (Execute.office_of_plan configured founded)
  have orders := List.length_filterMap_le (fun e : Execute.Entry => e.2.payload.order) es
  have asset := (Execute.asset_of_run ran spared).trans (asset_of_plan payable.listed payable.only founded)
  have sent : (Execute.sentBy x es).length ≤ es.length := by
    rw [Execute.sentBy, List.length_map]
    exact List.length_filter_le _ _
  exact ⟨_, {
    sender := keeps x (by simp)
    vault := keeps _ (by simp)
    nonce := by rw [(Execute.nonces_of_run ran x).2, Execute.nonce_of_plan founded]; omega
    rich := rich
    issued := Nat.lt_of_le_of_lt (supply_of_run founded ran _ _) payable.issued
    asset := asset
    framable := accepted.symbols record payable.listed
    enabled := payable.enabled
    priced := rate_of_validate accepted.valid payable.listed
    cheap := payable.rate
    intrinsicGas := payable.intrinsicGas
    fees := Execute.feesModest_of_run ran (feesModest_of_plan payable.terms founded) modest spared
    office := office
    epochs := by omega
    seats := seats.symm ▸ payable.members
    threshold := threshold.1
    reachable := seats.symm ▸ threshold.2 }⟩

end GenesisConfig

namespace Execute

variable {crypto : Crypto} {trie : MerkleTrie}

/-- As long as one fee asset is left alone and the fee market moderate, whoever has
enough of that asset and whom every member of the council signs for can have any
asset's record set, so also one that was disabled enabled again. -/
theorem governance_stays_open {config : GenesisConfig} {c : CouncilConfig} {record update : WhitelistedAsset}
    (configured : config.council = some c) (payable : config.Payable c record)
    (reaches : config.Reaches crypto hashing batches trie) (modest : ∀ e ∈ entries batches, e.1.Modest)
    (spared : ∀ o ∈ orders batches, o.update.Spares record.asset) (few : (entries batches).length < 2 ^ 64 - 1)
    (rich : 2 ^ 100 ≤ (trie.bySlot crypto).balance x record.asset) (signs : crypto.Signs x)
    (council : ∀ members, decodeMembers 0 c.members = .ok members → ∀ member ∈ members, crypto.Signs member)
    (priced : update.rate.val ≠ 0) (short : update.symbol.bytes.length ≤ 4096)
    (free : CollisionFree crypto.sha256 (Slot.image '' (config.named crypto hashing batches ∪
      {.account x, .account FEE_VAULT, .asset update.asset}))) :
    ∃ ctx tx epoch signatures trie' trace,
      (∀ m, decodeFeeMarket (trie.get (Slot.feeMarket.key crypto)) = .ok m → m.windowTs.val ≤ ctx.timestamp.val) ∧
        tx.sender = x ∧ tx.payload = .governance epoch (.setGasAsset update) signatures ∧
        signatures.map (·.index.val) = List.range c.members.length ∧
        executeBatch crypto trie ctx [tx] = .ok (trie', trace) ∧
        trie'.get (Slot.key crypto (.asset update.asset)) = some update.encode := by
  have apart := Slot.apart_of_free free fun s named => by
    rcases named with named | rfl | rfl | rfl
    · exact GenesisConfig.fits_of_mem_named named
    all_goals trivial
  have sound := reaches.sound apart fun _ named => .inl named
  obtain ⟨members, hashes, σ₀, σ, accepted, founded, ran, same⟩ := reaches.onStore apart fun _ named => .inl named
  have decoded := (accepted.council c configured).1
  have decodes : ∀ y ∈ ({x, FEE_VAULT} : Finset L2Address), ∃ acc, decodeAccount (σ (.account y)) = .ok acc := by
    intro y among
    have here : Slot.account y ∈ config.named crypto hashing batches ∪
        {.account x, .account FEE_VAULT, .asset update.asset} := by
      rcases Finset.mem_insert.mp among with rfl | among
      · exact .inr (.inl rfl)
      · exact .inr (.inr (.inl (Finset.mem_singleton.mp among ▸ rfl)))
    rw [← same here]
    cases held : trie.bySlot crypto (.account y) with
    | none => exact ⟨_, rfl⟩
    | some b =>
      obtain ⟨acc, decoded, _⟩ := sound _ here b held
      exact ⟨acc, mapError_eq_ok.mpr decoded⟩
  have kept : (trie.bySlot crypto).balance x record.asset = σ.balance x record.asset := by
    rw [Store.balance, Store.account, same (.inr (.inl rfl)), Store.balance, Store.account]
  obtain ⟨n, ready⟩ := GenesisConfig.ready_of_run accepted configured payable founded ran modest spared few decodes
    (kept ▸ rich)
  obtain ⟨ctx, tx, epoch, signatures, σ', later, sent, ordered, seated, executed, named⟩ :=
    ready.executes signs (council members decoded) priced short
  have market : Slot.feeMarket ∈ config.named crypto hashing batches := .inl (.inr (.inl rfl))
  have inSlots : slotsOf crypto [(ctx, tx)] ⊆ config.named crypto hashing batches ∪
      {.account x, .account FEE_VAULT, .asset update.asset} := by
    intro s among
    rcases named among with rfl | rfl | rfl | rfl | rfl | rfl
    · exact .inr (.inl rfl)
    · exact .inr (.inr (.inl rfl))
    · exact .inl (.inl (.inr (.inr (.inr (.inl ⟨record, payable.listed, rfl⟩)))))
    · exact .inr (.inr (.inr rfl))
    · exact .inl (.inl (.inl rfl))
    · exact .inl market
  obtain ⟨trie', executed', same'⟩ := Store.trie_of_executes apart inSlots same executed
  obtain ⟨trace, result⟩ := (executeBatch_iff ctx [tx]).mpr (Run.singleton_iff.mpr executed')
  refine ⟨ctx, tx, epoch, signatures, trie', trace, ?_, sent, ordered, ?_, result, ?_⟩
  · intro m found
    exact later m ((same (.inl market)).symm ▸ found)
  · rw [seated, GenesisConfig.decodeMembers_length decoded]
  · have written := view_of_run (· (.asset update.asset)) (fun held u => u.rewrite (.asset update.asset) held)
      (Run.singleton_iff.mpr executed) fun σ i σ' stepped => stepped.governed trivial
    simp only [List.filterMap_cons, List.filterMap_nil, ordered, Payload.order, List.foldl_cons, List.foldl_nil,
      GovernanceUpdate.rewrite, if_true] at written
    exact (same' (.inr (.inr (.inr rfl)))).trans written

end Execute

namespace Devnet

open Execute

/-- The devnet, with more in its one funded account than any fee. -/
def rich : GenesisConfig :=
  { config with allocations := [⟨alice, 1, ⟨2 ^ 101, by decide⟩⟩, ⟨Execute.FEE_VAULT, 1, 1001⟩] }

/-- Alice and Carol sign whatever is put before them. -/
def signing : Crypto :=
  { crypto with
    ed25519Strict := fun key _ _ => if key = alice.bytes ∨ key = carol.bytes then .ok () else .error .badSignature }

def usdc : WhitelistedAsset := ⟨1, ⟨[0x55, 0x53, 0x44, 0x43], usdc_valid⟩, 1000000, 10000, true⟩

/-- The same asset at another rate. -/
def dearer : WhitelistedAsset := { usdc with rate := 2000000 }

def seats : CouncilConfig := ⟨[Domain.ascii "af93a908c8d2fa7b8f67650bf37b33686f98c795b6c3bfaf19b38bcd51b9e836"], 1, 1⟩

theorem payable_rich : rich.Payable seats usdc where
  listed := List.mem_singleton_self _
  only := fun r listed _ => List.mem_singleton.mp listed
  enabled := rfl
  rate := by decide
  intrinsicGas := by decide
  terms := ⟨by decide, by decide, by decide⟩
  issued := by decide
  kinds := by decide
  members := by decide

theorem modest_context : context.Modest := ⟨by decide, by decide⟩

theorem slots_rich : rich.slots hashing = config.slots hashing := by
  ext s
  simp [GenesisConfig.slots, rich, config, GenesisConfig.jwkHashes]

/-- After a payment on the rich devnet the council can still change the rate of its
fee asset. -/
theorem council_can_act : ∃ trie, rich.Reaches signing hashing [(context, [payment])] trie ∧
    ∃ ctx tx trie' trace, tx.sender = alice ∧ executeBatch signing trie ctx [tx] = .ok (trie', trace) ∧
      trie'.get (Slot.key signing (.asset 1)) = some dearer.encode := by
  obtain ⟨genesis, built, trie, ran, enough⟩ : ∃ genesis, rich.buildState signing hashing = .ok genesis ∧
      ∃ trie, executeAll signing genesis [(context, [payment])] = .ok trie ∧
        2 ^ 100 ≤ (trie.bySlot signing).balance alice 1 := by
    decide +kernel
  have reaches : rich.Reaches signing hashing [(context, [payment])] trie := ⟨genesis, built, ran⟩
  have paid : entries [(context, [payment])] = [(context, payment)] := by simp [entries]
  have ordered : orders [(context, [payment])] = [] := by decide +kernel
  have all : ∀ s ∈ slotList signing (entries [(context, [payment])]), s ∈ slots := by decide +kernel
  have signs : ∀ key, key = alice ∨ key = carol → signing.Signs key :=
    fun key known digest => ⟨FixedBytes.fill 64 0, if_pos (known.imp (congrArg _) (congrArg _))⟩
  have council : ∀ members, decodeMembers 0 seats.members = .ok members → ∀ member ∈ members,
      signing.Signs member := by
    intro members decoded member among
    obtain rfl : [carol] = members := Except.ok.inj (Eq.trans (by decide +kernel) decoded)
    exact signs member (.inr (List.mem_singleton.mp among))
  have priced : dearer.rate.val ≠ 0 := by decide
  obtain ⟨ctx, tx, _, _, trie', trace, _, sent, _, _, executed, set⟩ := governance_stays_open (x := alice) rfl
    payable_rich reaches (by simp [paid, modest_context]) (by simp [ordered]) (by simp [paid])
    enough (signs _ (.inl rfl)) council priced (by decide) (free_of_slots (by
      rintro s ((named | among) | rfl | rfl | rfl)
      · exact founded (slots_rich ▸ named)
      · exact all s (mem_slotsOf.mp among)
      all_goals decide))
  exact ⟨trie, reaches, ctx, tx, trie', trace, sent, executed, set⟩

end Devnet

namespace Execute

/-- No fee can be paid from the contents: they are not the record of an enabled
asset, nor an account that a nonce's consumption would make into one. -/
def unpayable (b : Bytes) : Bool :=
  (WhitelistedAsset.decode b).toOption.all (·.enabled = false) &&
    (Account.decode b).toOption.all (·.balances.entries.length ≤ 1)

theorem disabled_of_unpayable (unpaid : unpayable b) (decoded : WhitelistedAsset.decode b = .ok record) :
    record.enabled = false := by
  simp only [unpayable, decoded, Except.toOption, Option.all_some, Bool.and_eq_true, decide_eq_true_eq] at unpaid
  exact unpaid.1

theorem balances_of_unpayable {held : Option Bytes} (unpaid : ∀ b, held = some b → unpayable b)
    (decoded : decodeAccount held = .ok acc) : acc.balances.entries.length ≤ 1 := by
  cases held with
  | none =>
    cases decoded
    exact Nat.zero_le 1
  | some b =>
    have small := unpaid b rfl
    simp only [unpayable, mapError_eq_ok.mp decoded, Except.toOption, Option.all_some, Bool.and_eq_true,
      decide_eq_true_eq] at small
    exact small.2

/-- Where nothing that is stored can pay a fee no transaction executes. -/
theorem nothing_executes (unpaid : ∀ key b, trie.get key = some b → unpayable b) (e : Entry) :
    ¬∃ trie', Executes crypto trie e trie' := by
  rintro ⟨trie', program, compiled, ran⟩
  obtain ⟨_, _, payload, _, charge, _, _, _, rfl⟩ := compile_eq_ok.mp compiled
  rw [program_eq, Run.append_iff] at ran
  obtain ⟨_, opened, _⟩ := ran
  unfold opening at opened
  obtain ⟨verified, first, nonced, consumed, paid, verifies, _⟩ := Run.append_iff.mp opened
  -- the check of a JWK writes what was there
  have kept : ∀ key b, verified.get key = some b → unpayable b := by
    cases signed : e.2.authenticator with
    | ed25519 _ _ =>
      rw [signed] at first
      cases first
      exact unpaid
    | keyless sig =>
      rw [signed, Run.singleton_iff] at first
      obtain ⟨written, computed, _, rfl⟩ := steps_iff.mp first
      intro key b found
      rw [MerkleTrie.get_insert] at found
      split at found
      · cases found
        exact unpaid _ _ (transition_verifyJwk.mp computed).1
      · exact unpaid key b found
  obtain ⟨written, computed, _, rfl⟩ := steps_iff.mp consumed
  obtain ⟨bytes, looked, _, _⟩ := steps_iff.mp verifies
  obtain ⟨record, found, decoded, enabled, _⟩ := transition_verifyGasAsset.mp looked
  unfold MerkleTrie.bySlot at found
  rw [MerkleTrie.get_insert] at found
  split at found
  · cases found
    -- an account of one balance at most is shorter than any asset's record
    obtain ⟨acc, acc', held, revised, rfl⟩ := (Instruction.transition_account rfl).mp computed
    have long := WhitelistedAsset.length_of_decode decoded
    have short : acc.balances.entries.length ≤ 1 := balances_of_unpayable (kept _) held
    rw [Account.encode_length, (Account.useNonce_spec revised).2.2] at long
    omega
  · cases (disabled_of_unpayable (kept _ _ found) decoded).symm.trans enabled

end Execute

namespace Devnet

open Execute

/-- The devnet's genesis has a council and an enabled asset, and Alice is rich in it.
One guardian disables the asset, as the only one it is. From then on no batch of
one transaction executes, whatever its context and whatever signatures verify. -/
theorem guardian_locks_governance_out :
    rich.council = some seats ∧ (∀ record ∈ rich.gasAssets, record.enabled = true) ∧
      ∃ trie, rich.Reaches crypto hashing [(context, batch)] trie ∧
        (∀ record ∈ rich.gasAssets, 2 ^ 100 ≤ (trie.bySlot crypto).balance alice record.asset) ∧
        ∀ (crypto : Crypto) ctx tx result, executeBatch crypto trie ctx [tx] ≠ .ok result := by
  obtain ⟨genesis, built, trie, ran, enough, unpaid⟩ : ∃ genesis, rich.buildState crypto hashing = .ok genesis ∧
      ∃ trie, executeAll crypto genesis [(context, batch)] = .ok trie ∧
        2 ^ 100 ≤ (trie.bySlot crypto).balance alice 1 ∧ ∀ e ∈ trie.values, unpayable e.2 = true := by
    decide +kernel
  refine ⟨rfl, by decide, trie, ⟨genesis, built, ran⟩, fun record listed => ?_, ?_⟩
  · rw [List.mem_singleton.mp listed]
    exact enough
  · intro crypto ctx tx result executed
    have ran := (executeBatch_iff ctx [tx]).mp ⟨result.2, executed⟩
    refine nothing_executes (fun key b found => ?_) (ctx, tx) ⟨result.1, Run.singleton_iff.mp ran⟩
    obtain ⟨e, stored, rfl⟩ := SortedMap.mem_of_get _ found
    exact unpaid e stored

end Devnet
end Sena
