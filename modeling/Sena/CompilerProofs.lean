import Sena.Compiler
import Sena.Execute
import Sena.FeeProofs

/-! Two compilers, one program.

The contract compiles a published transaction into the instructions the node
compiles it to, or refuses it when the node does, and never aborts: what could
abort is bounded by the size a transaction may have. -/
namespace Sena

open Move
open TxCodec (ofKeyless ofTransaction ofAuthenticator ofUpdate ofPayload)
open GovernanceUpdate (checkPermitted)

namespace KeylessConfig

/-- The parameter set L1 knows under a number. Numbers it does not know disable
keyless accounts as zero does. -/
def ofSetup (setup : UInt8) : Option KeylessConfig :=
  if setup = 1 then some aptosMainnet else if setup = 2 then some aptosDevnetInsecure else none

theorem ofSetup_eq_some : ofSetup setup = some config ↔ setup = l1SetupId (some config) := by
  unfold ofSetup
  by_cases mainnet : setup = 1
  · subst mainnet
    cases config <;> decide
  · rw [if_neg mainnet]
    by_cases devnet : setup = 2
    · subst devnet
      cases config <;> decide
    · rw [if_neg devnet]
      cases config <;> simp [l1SetupId, mainnet, devnet]

theorem ofSetup_eq_none : ofSetup setup = none ↔ setup = 0 ∨ setup > 2 := by
  unfold ofSetup
  by_cases mainnet : setup = 1
  · subst mainnet
    decide
  · rw [if_neg mainnet]
    by_cases devnet : setup = 2
    · subst devnet
      decide
    · rw [if_neg devnet]
      simp only [gt_iff_lt, UInt8.lt_iff_toNat_lt, ← UInt8.toNat_inj] at *
      change ¬setup.toNat = 1 at mainnet
      change ¬setup.toNat = 2 at devnet
      change True ↔ setup.toNat = 0 ∨ 2 < setup.toNat
      rw [true_iff]
      omega

end KeylessConfig

namespace Osp

/-- An instruction as the contract holds it. -/
def ofInstruction : Sena.Instruction → Instruction
  | .consumeNonce account expected => .consumeNonce account.bytes expected
  | .debit account asset amount => .debit account.bytes asset amount
  | .credit account asset amount => .credit account.bytes asset amount
  | .bindIdentifier identifier address => .bindIdentifier identifier.bytes address.bytes
  | .unbindIdentifier identifier owner => .unbindIdentifier identifier.bytes owner.bytes
  | .verifyGasAsset asset rate intrinsicGas => .verifyGasAsset asset rate intrinsicGas
  | .chargeBaseFee timestamp baseFee gas => .chargeBaseFee timestamp baseFee gas
  | .verifyFeeSplit split => .verifyFeeSplit split.encode
  | .setFeeSplit split => .setFeeSplit split.encode
  | .setFeeMarket floor target => .setFeeMarket floor target
  | .disableGasAsset asset => .disableGasAsset asset
  | .verifyCouncil epoch digest signatures guardian =>
    .verifyCouncil epoch digest.bytes (signatures.map fun s => (s.index, s.signature.bytes)) guardian
  | .setGasAsset r => .setGasAsset r.asset r.symbol.bytes r.rate r.intrinsicGas r.enabled
  | .setParameter name value => .setParameter name.bytes value
  | .verifyJwk issHash jwkHash => .verifyJwk issHash.bytes jwkHash.bytes
  | .setJwk issHash jwkHash active => .setJwk issHash.bytes jwkHash.bytes active

end Osp

/-- What an instruction carries is within the limits of the wire format. -/
def Instruction.Fits : Instruction → Prop
  | verifyFeeSplit split | setFeeSplit split => split.Fits
  | verifyCouncil _ _ signatures _ => signatures.length ≤ Wire.MAX_COUNCIL_SIGNATURES
  | setGasAsset record => Framable record.encode
  | setParameter name _ => Framable name.bytes
  | _ => True

namespace Osp

theorem encodeAssetRecord_eq (r : WhitelistedAsset) (small : Framable r.symbol.bytes) :
    encodeAssetRecord ⟨r.asset, r.symbol.bytes, r.rate, r.intrinsicGas, r.enabled⟩ = .ok r.encode := by
  rw [encodeAssetRecord, Codec.putField_of_framable small]
  rfl

theorem encodeInstruction_ofInstruction {i : Sena.Instruction} (fits : i.Fits) :
    encodeInstruction (ofInstruction i) = .ok i.encode := by
  cases i with
  | verifyCouncil epoch digest signatures guardian =>
    have few : (signatures.map fun s => (s.index, s.signature.bytes)).length < 2 ^ 32 := by
      rw [List.length_map]
      exact Nat.lt_of_le_of_lt fits (by decide)
    rw [ofInstruction, encodeInstruction, checked_of_lt few]
    simp [Instruction.encode, List.flatMap_map, boolByte, Gas.encodeBool]
  | setGasAsset record =>
    rw [ofInstruction, encodeInstruction, encodeAssetRecord_eq _ (WhitelistedAsset.framable_symbol fits), ok_bind,
      Codec.putField_of_framable fits]
    rfl
  | setParameter name value =>
    rw [ofInstruction, encodeInstruction, Codec.putField_of_framable fits]
    rfl
  | verifyFeeSplit split =>
    rw [ofInstruction, encodeInstruction, Codec.putField_of_framable fits.framable]
    rfl
  | setFeeSplit split =>
    rw [ofInstruction, encodeInstruction, Codec.putField_of_framable fits.framable]
    rfl
  | _ => rfl

end Osp

theorem Codec.digest_of_framable (small : ∀ field ∈ fields, Framable field) :
    Codec.digest crypto domain fields = .ok (crypto.commit domain fields).bytes :=
  Codec.digest_eq_ok.mpr ⟨small, rfl⟩

namespace MoveKeyless

theorem verifyEd25519Strict_eq (key : FixedBytes 32) (signature : FixedBytes 64) (message : Bytes) :
    verifyEd25519Strict crypto key.bytes signature.bytes message =
      (crypto.ed25519Strict key.bytes signature.bytes message).isOk := by
  rw [verifyEd25519Strict, if_neg (by simp)]

theorem addressOf_ofKeyless (sig : KeylessSignature) :
    addressOf crypto (ofKeyless sig) = .ok (sig.address crypto).bytes := by
  refine Codec.digest_of_framable fun field among => ?_
  simp only [List.mem_cons, List.not_mem_nil, or_false] at among
  obtain rfl | rfl := among <;> exact FixedBytes.framable_of_le (by decide)

/-- The contract's verification accepts what the node's accepts. -/
theorem verify_ofKeyless (setup : UInt8) (sig : KeylessSignature) (sender : L2Address) (digest : Hash256)
    (time : U64) : verify crypto setup (ofKeyless sig) sender.bytes digest.bytes time =
      .ok (sig.verify crypto (KeylessConfig.ofSetup setup) time sender digest).isOk := by
  unfold verify precheck
  cases known : KeylessConfig.ofSetup setup with
  | none =>
    have disabled : setup = SETUP_DISABLED ∨ setup > SETUP_APTOS_DEVNET_INSECURE :=
      KeylessConfig.ofSetup_eq_none.mp known
    rw [if_pos disabled]
    rfl
  | some config =>
    have enabled : ¬(setup = SETUP_DISABLED ∨ setup > SETUP_APTOS_DEVNET_INSECURE) := fun disabled => by
      rw [KeylessConfig.ofSetup_eq_none.mpr disabled] at known
      cases known
    have horizon : (if setup = SETUP_APTOS_MAINNET_2025_01 then MAINNET_MAX_EXP_HORIZON_SECS
        else DEVNET_MAX_EXP_HORIZON_SECS) = config.maxExpHorizonSecs := by
      rw [KeylessConfig.ofSetup_eq_some.mp known]
      cases config <;> rfl
    rw [if_neg enabled, addressOf_ofKeyless, ok_bind]
    simp only [KeylessSignature.verify, horizon]
    by_cases stranger : sig.address crypto ≠ sender
    · rw [if_pos (by simpa using stranger), if_pos stranger]
      rfl
    rw [if_neg (by simpa using stranger), if_neg stranger]
    by_cases long : (ofKeyless sig).expHorizonSecs.val > config.maxExpHorizonSecs.val
    · have tooLong : sig.expHorizonSecs.val > config.maxExpHorizonSecs.val := long
      rw [if_pos long, if_pos tooLong]
      rfl
    have inTime : ¬sig.expHorizonSecs.val > config.maxExpHorizonSecs.val := long
    rw [if_neg long, if_neg inTime]
    by_cases expired : time.val ≥ (ofKeyless sig).expDateSecs.val
    · have late : time.val ≥ sig.expDateSecs.val := expired
      rw [if_pos expired, if_pos late]
      rfl
    have early : ¬time.val ≥ sig.expDateSecs.val := expired
    have signed : verifyEd25519Strict crypto (ofKeyless sig).ephemeralPublicKey
        (ofKeyless sig).ephemeralSignature digest.bytes =
        (crypto.ed25519Strict sig.ephemeralPublicKey.bytes sig.ephemeralSignature.bytes digest.bytes).isOk :=
      verifyEd25519Strict_eq _ _ _
    have covered : (ofKeyless sig).inputs = sig.inputs := rfl
    rw [if_neg expired, if_neg early, signed, covered]
    cases crypto.ed25519Strict sig.ephemeralPublicKey.bytes sig.ephemeralSignature.bytes digest.bytes with
    | error fault => cases fault <;> rfl
    | ok _ =>
      cases crypto.publicInputsHash sig.inputs with
      | none => rfl
      | some input =>
        have sized : (ofKeyless sig).proof = sig.proof.bytes := rfl
        rw [KeylessConfig.ofSetup_eq_some.mp known, sized]
        cases verified : crypto.groth16Verify (KeylessConfig.l1SetupId (some config)) sig.proof.bytes input <;>
          simp [Except.isOk, Except.toBool, verified]

end MoveKeyless

namespace Compiler

theorem signingDigest_ofTransaction {tx : Transaction} (short : Framable (Wire.writePayload tx.payload)) :
    TxCodec.signingDigest crypto (ofTransaction tx) = .ok (tx.signingDigest crypto).bytes := by
  refine Codec.digest_of_framable ?_
  simp [ofTransaction, Codec.framable_be, FixedBytes.framable_of_le, short]

theorem authenticate_ofTransaction {tx : Transaction} (short : Framable (Wire.writePayload tx.payload))
    (timestamp : U64) (setup : UInt8) :
    authenticate crypto (ofTransaction tx) timestamp setup none =
      .ok (tx.authenticate crypto (KeylessConfig.ofSetup setup) timestamp).isOk := by
  rw [authenticate, signingDigest_ofTransaction short, ok_bind]
  unfold Transaction.authenticate
  cases signed : tx.authenticator with
  | ed25519 key signature =>
    simp only [ofTransaction, signed, ofAuthenticator]
    by_cases own : tx.sender = key
    · rw [if_neg (by simp [own]), if_neg (by simp [own]), MoveKeyless.verifyEd25519Strict_eq]
      cases crypto.ed25519Strict key.bytes signature.bytes (tx.signingDigest crypto).bytes with
      | error fault => cases fault <;> rfl
      | ok _ => rfl
    · rw [if_pos (by simpa [eq_comm] using own), if_pos own]
      rfl
  | keyless sig =>
    simp only [ofTransaction, signed, ofAuthenticator]
    rw [MoveKeyless.verify_ofKeyless]
    cases sig.verify crypto (KeylessConfig.ofSetup setup) timestamp tx.sender (tx.signingDigest crypto) <;> rfl

theorem permitted_ofUpdate {update : GovernanceUpdate} (fits : update.Fits) :
    permitted (ofUpdate update) = .ok update.checkPermitted.isOk := by
  cases update with
  | setParameter name value =>
    simp only [ofUpdate, permitted, checkPermitted, Osp.isGovernable]
    change Except.ok (decide (name.bytes = GovernanceUpdate.GOVERNABLE_PARAMETER)) = _
    by_cases governable : name.bytes = GovernanceUpdate.GOVERNABLE_PARAMETER
    · simp [governable, Except.isOk, Except.toBool]
    · simp [governable, Except.isOk, Except.toBool]
  | setGasAsset record =>
    simp only [ofUpdate, permitted, checkPermitted]
    by_cases zero : record.rate.val = 0
    · simp [zero, Except.isOk, Except.toBool]
    · simp [zero, Except.isOk, Except.toBool]
  | setFeeMarket floor target =>
    simp only [ofUpdate, permitted, checkPermitted]
    by_cases zero : floor.val = 0 ∨ target.val = 0
    · rw [if_pos zero]
      exact congrArg Except.ok (decide_eq_false fun nonzero => zero.elim nonzero.1 nonzero.2)
    · rw [if_neg zero]
      exact congrArg Except.ok (decide_eq_true (not_or.mp zero))
  | setFeeSplit split =>
    simp only [ofUpdate, permitted, checkPermitted]
    rw [MoveGas.splitIsValid_encode fits]
    cases split.check <;> rfl
  | setJwk _ _ _ => rfl
  | disableGasAsset _ => rfl

theorem governanceDigest_encode {update : GovernanceUpdate} (short : Framable update.encode) (epoch : U64) :
    TxCodec.governanceDigest crypto epoch update.encode = .ok (update.signingDigest crypto epoch).bytes := by
  refine Codec.digest_of_framable ?_
  simp [Codec.framable_be, short]

theorem updateInstruction_ofUpdate (update : GovernanceUpdate) :
    updateInstruction (ofUpdate update) = Osp.ofInstruction (Execute.updateInstruction update) := by
  cases update <;> rfl

theorem guardianSuffices_ofUpdate (update : GovernanceUpdate) :
    guardianSuffices (ofUpdate update) = update.guardianMayApply := by
  cases update <;> rfl

theorem FEE_VAULT_eq : FEE_VAULT = Execute.FEE_VAULT.bytes := rfl

theorem compilePayload_ofPayload {payload : Payload} (fits : payload.Fits) (sender : L2Address) :
    compilePayload crypto (ofPayload payload) sender.bytes =
      .ok ((Execute.compilePayload crypto payload sender).toOption.map (·.map Osp.ofInstruction)) := by
  cases payload with
  | transfer recipient asset amount =>
    simp only [ofPayload, compilePayload, Execute.compilePayload]
    by_cases own : recipient = sender
    · rw [if_pos (by rw [own]), if_pos own]
      rfl
    · rw [if_neg (by simpa using own), if_neg own]
      rfl
  | bindIdentifier channel identifier => rfl
  | unbindIdentifier identifier => rfl
  | governance epoch update signatures =>
    obtain ⟨fits, short, _⟩ := fits
    simp only [ofPayload, compilePayload, Execute.compilePayload, permitted_ofUpdate fits, ok_bind,
      governanceDigest_encode short, updateInstruction_ofUpdate, guardianSuffices_ofUpdate]
    cases update.checkPermitted <;> rfl
  | distributeFees asset amount split =>
    simp only [ofPayload, compilePayload, Execute.compilePayload]
    by_cases zero : amount.val = 0
    · rw [if_pos zero, if_pos (.inl zero)]
      rfl
    · rw [if_neg zero, MoveGas.splitIsValid_encode fits, ok_bind]
      by_cases bad : split.check.isOk = false
      · rw [if_pos bad, if_pos (.inr bad)]
        rfl
      · rw [if_neg bad, if_neg (not_or.mpr ⟨zero, bad⟩), MoveGas.sharesOf_encode fits, ok_bind]
        simp only [Execute.compileDistribution]
        cases split.sharesOf amount with
        | error _ => rfl
        | ok shares =>
          simp only [Except.toOption, Option.map_some, ok_bind, Except.mapError, pure_eq_ok, List.map_cons,
            List.map_map, FEE_VAULT_eq, List.filter_map]
          rfl

theorem instructionGas_ofInstruction {i : Sena.Instruction} (fits : i.Fits) :
    ∃ gas, Osp.instructionGas (Osp.ofInstruction i) = .ok gas ∧ gas.val = Execute.instructionGas i := by
  cases i with
  | verifyCouncil epoch digest signatures guardian =>
    have few : signatures.length ≤ 32 := fits
    have small : 10000 + 3000 * (signatures.map fun s => (s.index, s.signature.bytes)).length < 2 ^ 64 := by
      rw [List.length_map]
      omega
    exact ⟨_, checked_of_lt small, by simp [Execute.instructionGas]⟩
  | _ => exact ⟨_, rfl, rfl⟩

theorem addGas_eq (total gas : U64) : addGas total gas = (Gas.checked 64 (total.val + gas.val)).toOption := by
  unfold addGas Gas.checked
  split <;> rfl

theorem foldlM_addGas {gases : List U64} {payload : List Sena.Instruction}
    (same : List.Forall₂ (fun gas i => gas.val = Execute.instructionGas i) gases payload) (total : U64) :
    gases.foldlM addGas total =
      (payload.foldlM (fun total i => Gas.checked 64 (total.val + Execute.instructionGas i)) total).toOption := by
  induction same generalizing total with
  | nil => rfl
  | cons equal _ ih =>
    rw [List.foldlM_cons, List.foldlM_cons, addGas_eq, equal]
    cases Gas.checked 64 (total.val + Execute.instructionGas _) with
    | error _ => rfl
    | ok next => exact ih next

/-- The shape of the sum, whatever adds two costs. -/
private theorem sum_eq {tx : TxCodec.Tx} {payload : List Osp.Instruction} {gases : List U64}
    (charged : payload.mapM Osp.instructionGas = .ok gases) (add : U64 → U64 → Option U64) :
    (do
      let some total := add MoveGas.INTRINSIC_GAS tx.feeIntrinsicGas | return none
      let some total := (match tx.auth with
        | .ed25519 _ _ => some total
        | .keyless _ => add total MoveGas.KEYLESS_GAS) | return none
      let gases ← payload.mapM Osp.instructionGas
      return gases.foldlM add total : Move (Option U64)) =
        .ok ((add MoveGas.INTRINSIC_GAS tx.feeIntrinsicGas).bind fun intrinsic =>
          (match tx.auth with
            | .ed25519 _ _ => some intrinsic
            | .keyless _ => add intrinsic MoveGas.KEYLESS_GAS).bind fun start => gases.foldlM add start) := by
  rw [charged]
  cases add MoveGas.INTRINSIC_GAS tx.feeIntrinsicGas with
  | none => rfl
  | some intrinsic =>
    cases tx.auth with
    | ed25519 _ _ => rfl
    | keyless _ =>
      simp only [Option.bind_some]
      cases add intrinsic MoveGas.KEYLESS_GAS <;> rfl

theorem gasUsed_ofTransaction (tx : Transaction) {payload : List Sena.Instruction} (fits : ∀ i ∈ payload, i.Fits) :
    gasUsed (ofTransaction tx) (payload.map Osp.ofInstruction) =
      .ok (Execute.gasUsed tx payload).toOption := by
  obtain ⟨gases, charged, same⟩ : ∃ gases, (payload.map Osp.ofInstruction).mapM Osp.instructionGas = .ok gases ∧
      List.Forall₂ (fun gas i => gas.val = Execute.instructionGas i) gases payload := by
    induction payload with
    | nil => exact ⟨[], rfl, .nil⟩
    | cons i payload ih =>
      rw [List.forall_mem_cons] at fits
      obtain ⟨gases, charged, same⟩ := ih fits.2
      obtain ⟨gas, first, equal⟩ := instructionGas_ofInstruction fits.1
      refine ⟨gas :: gases, ?_, .cons equal same⟩
      rw [List.map_cons, List.mapM_cons, first, ok_bind, charged]
      rfl
  refine (sum_eq charged addGas).trans (congrArg Except.ok ?_)
  rw [Execute.gasUsed, toOption_bind, addGas_eq]
  refine Option.bind_congr fun intrinsic _ => ?_
  rw [toOption_bind, ofTransaction]
  cases tx.authenticator with
  | ed25519 _ _ =>
    rw [Nat.add_zero, Gas.checked_of_lt intrinsic.isLt]
    exact foldlM_addGas same intrinsic
  | keyless _ => exact congrArg₂ Option.bind (addGas_eq ..) (funext (foldlM_addGas same))

theorem program_ofTransaction (tx : Transaction) (ctx : Execute.BatchContext) (charge : FeeCharge)
    (payload : List Sena.Instruction) :
    program (ofTransaction tx) ctx.timestamp ctx.baseFee ctx.feeRecipient.bytes charge.gasUsed
      (MoveGas.ofCharge charge) (payload.map Osp.ofInstruction) =
        (Execute.program tx ctx charge payload).map Osp.ofInstruction := by
  have credit : ∀ (account : L2Address) (amount : U128),
      (Execute.creditSome account tx.feeAsset amount).map Osp.ofInstruction =
        if amount.val > 0 then [.credit account.bytes tx.feeAsset amount] else [] := by
    intro account amount
    unfold Execute.creditSome
    split <;> rfl
  rw [Execute.program, List.map_append, List.map_append, List.map_append, List.map_append, List.map_append,
    credit, credit, credit, ← FEE_VAULT_eq, program]
  cases signed : tx.authenticator with
  | ed25519 key signature =>
    have auth : (ofTransaction tx).auth = .ed25519 key.bytes signature.bytes := by
      simp [ofTransaction, signed, ofAuthenticator]
    rw [auth]
    rfl
  | keyless sig =>
    have auth : (ofTransaction tx).auth = .keyless (ofKeyless sig) := by
      simp [ofTransaction, signed, ofAuthenticator]
    rw [auth]
    rfl

end Compiler

theorem TxCodec.decode_eq (b : Bytes) : TxCodec.decode b = (Transaction.decode b).toOption.map ofTransaction := by
  cases decoded : Transaction.decode b with
  | ok tx =>
    obtain ⟨short, fits, same⟩ := Transaction.decode_eq_ok.mp decoded
    exact TxCodec.decode_eq_some.mpr ⟨short, tx, fits, same, rfl⟩
  | error _ =>
    cases read : TxCodec.decode b with
    | none => rfl
    | some t =>
      obtain ⟨short, tx, fits, same, _⟩ := TxCodec.decode_eq_some.mp read
      rw [Transaction.decode_eq_ok.mpr ⟨short, fits, same⟩] at decoded
      cases decoded

theorem Transaction.framable_payload {tx : Transaction}
    (short : tx.encode.length ≤ Wire.MAX_TRANSACTION_BYTES) : Framable (Wire.writePayload tx.payload) :=
  Nat.lt_of_le_of_lt (tx.payload_length_le.trans short) (by decide)

namespace Execute

variable {tx : Transaction} {payload : Payload}

theorem checkLimits_eq_ok : checkLimits tx = .ok () ↔
    tx.encode.length ≤ Wire.MAX_TRANSACTION_BYTES ∧ ∀ epoch update signatures,
      tx.payload = .governance epoch update signatures → signatures.length ≤ Wire.MAX_COUNCIL_SIGNATURES := by
  unfold checkLimits
  split
  · rename_i long
    simp [Nat.not_le.mpr long]
  · rename_i short
    cases tx.payload with
    | governance epoch update signatures => simp [Nat.not_lt.mp short]
    | _ => simp [Nat.not_lt.mp short]

/-- What a compiled transaction passed, and what its program is made of. -/
theorem compile_eq_ok : compile crypto tx ctx = .ok program' ↔
    checkLimits tx = .ok () ∧ tx.authenticate crypto ctx.keyless ctx.timestamp = .ok () ∧
      ∃ payload used charge, compilePayload crypto tx.payload tx.sender = .ok payload ∧
        gasUsed tx payload = .ok used ∧ Gas.settle tx.gasLimit used tx.maxFeePerGas tx.maxPriorityFeePerGas
          ctx.baseFee tx.feeRate = .ok charge ∧ program' = program tx ctx charge payload := by
  simp only [compile, chargeAndPayload, bind_eq_ok, mapError_eq_ok, pure_iff,
    Prod.exists, Prod.mk.injEq]
  constructor
  · rintro ⟨_, limits, _, authentic, charge, payload, ⟨_, compiled, used, gas, _, settled, rfl, rfl⟩, rfl⟩
    exact ⟨limits, authentic, _, used, _, compiled, gas, settled, rfl⟩
  · rintro ⟨limits, authentic, payload, used, charge, compiled, gas, settled, rfl⟩
    exact ⟨(), limits, (), authentic, charge, payload, ⟨payload, compiled, used, gas, charge, settled, rfl, rfl⟩,
      rfl⟩

/-- An instruction a payload can compile to, with what the payload asks for. -/
inductive Emits (crypto : Crypto) (payload : Payload) (sender : L2Address) : Instruction → Prop
  | debit : Emits crypto payload sender (.debit x asset amount)
  | credit : Emits crypto payload sender (.credit x asset amount)
  | bind (asked : payload = .bindIdentifier channel identifier) :
    Emits crypto payload sender (.bindIdentifier identifier sender)
  | unbind (asked : payload = .unbindIdentifier identifier) :
    Emits crypto payload sender (.unbindIdentifier identifier sender)
  | split : Emits crypto payload sender (.verifyFeeSplit split)
  | council (asked : payload = .governance epoch update signatures) : Emits crypto payload sender
    (.verifyCouncil epoch (update.signingDigest crypto epoch) signatures update.guardianMayApply)
  | update (asked : payload = .governance epoch update signatures) :
    Emits crypto payload sender (updateInstruction update)

theorem emits_of_compilePayload (compiled : compilePayload crypto payload sender = .ok is) (emitted : i ∈ is) :
    Emits crypto payload sender i := by
  cases payload with
  | transfer recipient asset amount =>
    simp only [compilePayload] at compiled
    split at compiled <;> cases compiled
    simp only [List.mem_cons, List.not_mem_nil, or_false] at emitted
    obtain rfl | rfl := emitted
    · exact .debit
    · exact .credit
  | bindIdentifier channel identifier =>
    cases compiled
    obtain rfl := List.mem_singleton.mp emitted
    exact .bind rfl
  | unbindIdentifier identifier =>
    cases compiled
    obtain rfl := List.mem_singleton.mp emitted
    exact .unbind rfl
  | governance epoch update signatures =>
    obtain ⟨_, _, compiled⟩ := bind_eq_ok.mp compiled
    cases compiled
    simp only [List.mem_cons, List.not_mem_nil, or_false] at emitted
    obtain rfl | rfl := emitted
    · exact .council rfl
    · exact .update rfl
  | distributeFees asset amount split =>
    simp only [compilePayload] at compiled
    split at compiled
    · cases compiled
    · obtain ⟨shares, _, compiled⟩ := bind_eq_ok.mp compiled
      cases compiled
      simp only [List.mem_cons, List.mem_map] at emitted
      obtain rfl | rfl | ⟨share, _, rfl⟩ := emitted
      · exact .split
      · exact .debit
      · exact .credit

theorem payload_fits_of_compile (compiled : compile crypto tx ctx = .ok program') : tx.payload.Fits := by
  obtain ⟨limits, _, payload, _, _, shaped, _⟩ := compile_eq_ok.mp compiled
  obtain ⟨short, few⟩ := checkLimits_eq_ok.mp limits
  refine Payload.fits_of_short (Transaction.framable_payload short) ?_ fun split carried => ?_
  · cases kind : tx.payload with
    | governance epoch update signatures => exact few _ _ _ kind
    | _ => exact Nat.zero_le _
  · refine (FeeSplit.check_isOk_iff.mp ?_).1
    cases kind : tx.payload with
    | governance epoch update signatures =>
      cases update with
      | setFeeSplit other =>
        obtain rfl : split = other := by simpa [kind, Payload.splits] using carried
        rw [kind] at shaped
        obtain ⟨_, permitted, _⟩ := bind_eq_ok.mp shaped
        have permitted := mapError_eq_ok.mp permitted
        unfold checkPermitted at permitted
        cases checked : split.check with
        | ok _ => rfl
        | error _ => simp [checked] at permitted
      | _ => simp [kind, Payload.splits] at carried
    | distributeFees asset amount other =>
      obtain rfl : split = other := by simpa [kind, Payload.splits] using carried
      rw [kind, compilePayload] at shaped
      split at shaped
      · cases shaped
      · rename_i good
        rw [not_or, Bool.not_eq_false] at good
        exact good.2
    | _ => simp [kind, Payload.splits] at carried

theorem compilePayload_fits (fits : payload.Fits)
    (compiled : compilePayload crypto payload sender = .ok instructions) : ∀ i ∈ instructions, i.Fits := by
  cases payload with
  | transfer recipient asset amount =>
    simp only [compilePayload] at compiled
    split at compiled
    · cases compiled
    · cases compiled
      simp [Instruction.Fits]
  | bindIdentifier channel identifier =>
    cases compiled
    simp [Instruction.Fits]
  | unbindIdentifier identifier =>
    cases compiled
    simp [Instruction.Fits]
  | governance epoch update signatures =>
    obtain ⟨_, _, compiled⟩ := bind_eq_ok.mp compiled
    cases compiled
    obtain ⟨fits, _, few⟩ := fits
    rw [List.forall_mem_cons, List.forall_mem_singleton]
    refine ⟨few, ?_⟩
    cases update <;> exact fits
  | distributeFees asset amount split =>
    simp only [compilePayload] at compiled
    split at compiled
    · cases compiled
    · obtain ⟨shares, _, compiled⟩ := bind_eq_ok.mp compiled
      cases compiled
      intro i among
      simp only [List.mem_cons, List.mem_map] at among
      obtain rfl | rfl | ⟨share, _, rfl⟩ := among
      · exact fits
      · trivial
      · trivial

/-- Every instruction a compiled transaction consists of is within the limits. -/
theorem fits_of_compile (compiled : compile crypto tx ctx = .ok instructions) : ∀ i ∈ instructions, i.Fits := by
  have fits := payload_fits_of_compile compiled
  obtain ⟨_, _, payload, _, charge, shaped, _, _, rfl⟩ := compile_eq_ok.mp compiled
  have credits : ∀ (account : L2Address) (asset : U32) (amount : U128),
      ∀ i ∈ creditSome account asset amount, i.Fits := by
    intro account asset amount i among
    unfold creditSome at among
    split at among
    · rw [List.mem_singleton.mp among]
      trivial
    · cases among
  intro i among
  simp only [program, List.mem_append, List.mem_cons, List.not_mem_nil, or_false] at among
  obtain ((((jwk | rfl | rfl | rfl | rfl) | paid) | refund) | tip) | base := among
  · cases signed : tx.authenticator with
    | ed25519 _ _ => simp [signed] at jwk
    | keyless sig =>
      simp only [signed, List.mem_singleton] at jwk
      rw [jwk]
      trivial
  · trivial
  · trivial
  · trivial
  · trivial
  · exact compilePayload_fits fits shaped i paid
  · exact credits _ _ _ i refund
  · exact credits _ _ _ i tip
  · exact credits _ _ _ i base

end Execute

namespace Compiler

/-- The contract's compiler on a transaction the node can decode. -/
theorem compile_of_decode (decoded : Transaction.decode b = .ok tx) (timestamp : U64)
    (baseFee : U128) (feeRecipient : L2Address) (setup : UInt8) :
    compile crypto b timestamp baseFee feeRecipient.bytes setup =
      .ok ((Execute.compile crypto tx ⟨timestamp, KeylessConfig.ofSetup setup, baseFee, feeRecipient⟩).toOption.map
        (·.map Osp.ofInstruction)) := by
  obtain ⟨short, fits, rfl⟩ := Transaction.decode_eq_ok.mp decoded
  have limits : Execute.checkLimits tx = .ok () := by
    refine Execute.checkLimits_eq_ok.mpr ⟨short, fun epoch update signatures kind => ?_⟩
    rw [kind] at fits
    exact fits.2.2
  rw [compile, compileInner, TxCodec.decode_eq, decoded, Execute.compile, limits, ok_bind]
  simp only [Except.toOption, Option.map_some,
    authenticate_ofTransaction (Transaction.framable_payload short), ok_bind]
  cases tx.authenticate crypto (KeylessConfig.ofSetup setup) timestamp with
  | error _ => rfl
  | ok _ =>
    have payload : compilePayload crypto (ofTransaction tx).payload (ofTransaction tx).sender =
        _ := compilePayload_ofPayload fits tx.sender
    rw [payload]
    simp only [Execute.chargeAndPayload]
    cases shaped : Execute.compilePayload crypto tx.payload tx.sender with
    | error _ => rfl
    | ok instructions =>
      have gas := gasUsed_ofTransaction tx (Execute.compilePayload_fits fits shaped)
      simp only [Except.isOk, Except.toBool, Bool.true_eq_false, if_false, Except.toOption, Option.map_some,
        ok_bind, gas, Except.mapError]
      cases Execute.gasUsed tx instructions with
      | error _ => rfl
      | ok used =>
        have settled : MoveGas.settle (ofTransaction tx).gasLimit used
            (ofTransaction tx).maxFeePerGas (ofTransaction tx).maxPriorityFeePerGas baseFee
            (ofTransaction tx).feeRate = .ok ((Gas.settle tx.gasLimit used tx.maxFeePerGas
              tx.maxPriorityFeePerGas baseFee tx.feeRate).toOption.map MoveGas.ofCharge) :=
          MoveGas.settle_eq _ _ _ _ _ _
        simp only [settled, ok_bind]
        cases charged : Gas.settle tx.gasLimit used tx.maxFeePerGas tx.maxPriorityFeePerGas baseFee tx.feeRate with
        | error _ => rfl
        | ok charge =>
          rw [← (Gas.settle_spec charged).1]
          exact congrArg (fun p => Except.ok (some p)) (program_ofTransaction tx
            ⟨timestamp, KeylessConfig.ofSetup setup, baseFee, feeRecipient⟩ charge instructions)

theorem compile_of_not_decode (refused : Transaction.decode b = .error e) (timestamp : U64) (baseFee : U128)
    (feeRecipient : Bytes) (setup : UInt8) :
    compile crypto b timestamp baseFee feeRecipient setup = .ok none := by
  rw [compile, compileInner, TxCodec.decode_eq, refused]
  rfl

/-- The two compilers agree. The contract's never aborts; it accepts exactly the
bytes that the node decodes and compiles in the corresponding context, and the
two programs are, instruction by instruction, the same bytes. -/
theorem compilers_agree (crypto : Crypto) (b : Bytes) (timestamp : U64) (baseFee : U128)
    (feeRecipient : L2Address) (setup : UInt8) :
    ∃ answer, compile crypto b timestamp baseFee feeRecipient.bytes setup = .ok answer ∧
      ((∃ p, answer = some p) ↔ ∃ tx q, Transaction.decode b = .ok tx ∧
        Execute.compile crypto tx ⟨timestamp, KeylessConfig.ofSetup setup, baseFee, feeRecipient⟩ = .ok q) ∧
      ∀ p tx q, answer = some p → Transaction.decode b = .ok tx →
        Execute.compile crypto tx ⟨timestamp, KeylessConfig.ofSetup setup, baseFee, feeRecipient⟩ = .ok q →
          List.Forall₂ (fun i j => Osp.encodeInstruction i = .ok (Instruction.encode j)) p q := by
  cases decoded : Transaction.decode b with
  | error _ => exact ⟨none, compile_of_not_decode decoded _ _ _ _, by simp, by simp⟩
  | ok tx =>
    refine ⟨_, compile_of_decode decoded timestamp baseFee feeRecipient setup, ?_⟩
    cases compiled : Execute.compile crypto tx ⟨timestamp, KeylessConfig.ofSetup setup, baseFee, feeRecipient⟩ with
    | error _ => exact ⟨by simp [Except.toOption, compiled], by simp [Except.toOption]⟩
    | ok q =>
      refine ⟨⟨fun _ => ⟨tx, q, rfl, compiled⟩, fun _ => ⟨_, rfl⟩⟩, ?_⟩
      rintro p _ _ accepted ⟨rfl⟩ again
      cases compiled.symm.trans again
      cases accepted
      rw [List.forall₂_map_left_iff, List.forall₂_same]
      exact fun i among => Osp.encodeInstruction_ofInstruction (Execute.fits_of_compile compiled i among)

end Compiler

namespace Payment

def payer : L2Address :=
  .ofNat 32 0x8a88e3dd7409f195fd52db2d3cba5d72ca6709bf1d94121bf3748801b40f6f5c

def payee : L2Address :=
  .ofNat 32 0x8139770ea87d175f56a35466c34c7ecccb8d8a91b4ee37a25df60f5b8fc9b394

def signature : FixedBytes 64 := .ofHalves
  0xaa10df118e4d5511da51fe68aae4e17ef83dc7aa2611a3c68bca3c60987a599a
  0x6b917d716c3ee4fb55949db6b668e66322577cae91e9a263b82250083b5cbb0b

/-- SHA-256 as it is. The payer's signature verifies; no other is looked at. -/
def crypto : Crypto where
  sha256 := Sha256.digest
  ed25519Strict := fun key signed _ =>
    if key = payer.bytes ∧ signed = signature.bytes then .ok () else .error .badSignature
  publicInputsHash := fun _ => none
  groth16Verify := fun _ _ _ => false

/-- The transfer of the conformance vectors. -/
def transaction : Transaction where
  sender := payer
  nonce := 0
  feeAsset := 1
  feeRate := 1000000
  feeIntrinsicGas := 10000
  gasLimit := 41000
  maxFeePerGas := 50000000000
  maxPriorityFeePerGas := 0
  payload := .transfer payee 1 1000
  authenticator := .ed25519 payer signature

def context : Execute.BatchContext := ⟨1700000000, some .aptosDevnetInsecure, 25000000000, FixedBytes.fill 32 0x5e⟩

def program : List Instruction :=
  [.consumeNonce payer 0, .verifyGasAsset 1 1000000 10000, .chargeBaseFee 1700000000 25000000000 41000,
    .debit payer 1 1025, .debit payer 1 1000, .credit payee 1 1000, .credit Execute.FEE_VAULT 1 1025]

theorem compiles : Execute.compile crypto transaction context = .ok program := by decide +kernel

end Payment
end Sena
