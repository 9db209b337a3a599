import Sena.Readers
import Sena.Transaction

/-! One wire format, two decoders.

Both decoders accept exactly the canonical encodings of transactions within the
limits. The node checks that by encoding again what it decoded, which is also
what refuses text that is not UTF-8; the contract checks each field as it reads
it. -/
namespace Sena

open Reader (bind_eq_ok pure_eq_ok ite_eq_ok throw_eq_ok)
open Reader (run'_eq_ok readAll array_eq_ok u32_eq_ok finish_eq_ok u128_eq_ok u64_eq_ok bool_eq_ok u8_eq_ok bytes_eq_ok hash_eq_ok)

theorem Gas.decodeRecord_eq_ok : Gas.decodeRecord reader input = .ok a ↔ ∃ rest, reader input = .ok (a, rest) := by
  rw [← run'_eq_ok, Gas.decodeRecord, readAll]
  cases reader.run' input <;> simp

namespace FeeSplit

/-- Few enough beneficiaries to be encoded. -/
def Fits (split : FeeSplit) : Prop := split.beneficiaries.length ≤ Gas.MAX_FEE_BENEFICIARIES

theorem encode_length (split : FeeSplit) : split.encode.length = 8 + 36 * split.beneficiaries.length := by
  simp [encode, List.length_flatMap]
  omega

theorem Fits.framable {split : FeeSplit} (fits : split.Fits) : Framable split.encode := by
  have bound : split.beneficiaries.length ≤ 8 := fits
  rw [Framable, encode_length]
  omega

theorem readBeneficiaries_eq_ok : readBeneficiaries n input = .ok (l, rest) ↔
    l.length = n ∧ input = (l.flatMap fun e => e.1.bytes ++ be 4 e.2.val) ++ rest := by
  refine (many_iff (fun n input l rest => readBeneficiaries n input = .ok (l, rest))
    (fun e : L2Address × U32 => e.1.bytes ++ be 4 e.2.val) (fun _ => True) id
    (fun input l rest => by rw [readBeneficiaries]; exact pure_eq_ok) (fun n input l rest => ?_)).trans
    (by simp)
  simp only [readBeneficiaries, bind_eq_ok, pure_eq_ok, array_eq_ok, u32_eq_ok]
  constructor
  · rintro ⟨address, _, rfl, share, _, rfl, l', _, others, rfl, rfl⟩
    exact ⟨(address, share), _, l', trivial, by simp, others, rfl⟩
  · rintro ⟨⟨address, share⟩, middle, l', _, rfl, others, rfl⟩
    exact ⟨address, _, by simp, share, middle, rfl, l', _, others, rfl, rfl⟩

theorem decodeInner_eq_ok : decodeInner input = .ok (split, rest) ↔
    split.Fits ∧ input = split.encode ∧ rest = [] := by
  rw [decodeInner, bind_eq_ok]
  constructor
  · rintro ⟨count, _, read, chosen⟩
    obtain rfl := u32_eq_ok.mp read
    split at chosen
    · cases chosen
    · rename_i few
      simp only [bind_eq_ok, pure_eq_ok, readBeneficiaries_eq_ok, u32_eq_ok,
        finish_eq_ok] at chosen
      obtain ⟨l, _, ⟨sized, rfl⟩, burn, _, rfl, _, _, ⟨rfl, rfl⟩, rfl, rfl⟩ := chosen
      exact ⟨by simp only [Fits]; omega, by simp [encode, sized], rfl⟩
  · rintro ⟨fits, rfl, rfl⟩
    have few : split.beneficiaries.length < 2 ^ 32 := Nat.lt_of_le_of_lt fits (by decide)
    refine ⟨⟨_, few⟩, _, u32_eq_ok.mpr (by rw [encode, List.append_assoc]), ?_⟩
    rw [if_neg (Nat.not_lt.mpr fits)]
    simp only [bind_eq_ok, pure_eq_ok, readBeneficiaries_eq_ok, u32_eq_ok, finish_eq_ok]
    exact ⟨split.beneficiaries, _, ⟨rfl, rfl⟩, split.burn, [], by simp, (), [], ⟨rfl, rfl⟩, rfl, rfl⟩

theorem decode_eq_ok : decode input = .ok split ↔ split.Fits ∧ input = split.encode := by
  rw [decode, Gas.decodeRecord_eq_ok]
  simp [decodeInner_eq_ok]

end FeeSplit

namespace TxCodec

theorem splitIsWellFormed_iff : splitIsWellFormed b = true ↔ ∃ split : FeeSplit, split.Fits ∧ b = split.encode := by
  have entry : ∀ (input : Bytes) (share : U32) (rest : Bytes),
      (do let _ ← takeBytes 32; takeU32 : Cursor U32) input = some (share, rest) ↔
        ∃ e : L2Address × U32, True ∧ input = (e.1.bytes ++ be 4 e.2.val) ++ rest ∧ share = e.2 := by
    intro input share rest
    simp only [bind_eq_some, takeBytes_eq_some, takeU32_eq_some]
    constructor
    · rintro ⟨address, _, ⟨sized, rfl⟩, rfl⟩
      exact ⟨(⟨address, sized⟩, share), trivial, by simp, rfl⟩
    · rintro ⟨e, _, rfl, rfl⟩
      exact ⟨e.1.bytes, _, ⟨e.1.length_eq, by simp⟩, rfl⟩
  simp only [splitIsWellFormed, Option.isSome_iff_exists, run'_eq_some, splitReader, bind_eq_some,
    guard_eq_some, takeU32_eq_some, takeMany_eq_some _ _ _ entry, done_eq_some]
  constructor
  · rintro ⟨_, _, count, _, rfl, few, _, _, ⟨l, sized, _, rfl, rfl⟩, burn, _, rfl, rfl, rfl⟩
    refine ⟨⟨l, burn⟩, ?_, by simp [FeeSplit.encode, sized]⟩
    rw [FeeSplit.Fits, sized]
    exact Nat.not_lt.mp few
  · rintro ⟨split, fits, rfl⟩
    have few : split.beneficiaries.length < 2 ^ 32 := Nat.lt_of_le_of_lt fits (by decide)
    exact ⟨(), [], ⟨_, few⟩, _, by rw [FeeSplit.encode, List.append_assoc], Nat.not_lt.mpr fits, _, _,
      ⟨split.beneficiaries, rfl, fun _ _ => trivial, rfl, rfl⟩, split.burn, [], by simp, rfl, rfl⟩

end TxCodec

namespace WhitelistedAsset

variable {r : WhitelistedAsset}

/-- A record's bytes with these for its symbol. -/
def layout (r : WhitelistedAsset) (symbol : Bytes) : Bytes :=
  be 4 r.asset.val ++ frame symbol ++ be 16 r.rate.val ++ be 8 r.intrinsicGas.val ++ [Gas.encodeBool r.enabled]

theorem layout_symbol (r : WhitelistedAsset) : r.layout r.symbol.bytes = r.encode := rfl

theorem layout_length (r : WhitelistedAsset) (symbol : Bytes) : (r.layout symbol).length = 33 + symbol.length := by
  simp only [layout, frame, List.length_append, be_length, List.length_cons, List.length_nil]
  omega

theorem layout_inj (same : r.layout raw = r.layout raw') : raw = raw' := by
  have sized : raw.length = raw'.length := by
    have lengths := congrArg List.length same
    rw [layout_length, layout_length] at lengths
    omega
  simp only [layout, frame, sized, List.append_assoc, List.append_cancel_left_eq] at same
  exact (List.append_inj same sized).1

theorem decode_eq_ok : decode b = .ok r ↔ ∃ raw, Framable raw ∧ r.symbol = Utf8.lossy raw ∧ b = r.layout raw := by
  simp only [decode, Gas.decodeRecord_eq_ok, decodeInner, bind_eq_ok, pure_eq_ok, u32_eq_ok,
    Reader.string_eq_ok, u128_eq_ok, u64_eq_ok, bool_eq_ok, finish_eq_ok]
  constructor
  · rintro ⟨_, asset, _, rfl, symbol, _, ⟨raw, ⟨small, rfl⟩, rfl⟩, rate, _, rfl, gas, _, rfl, enabled, _, rfl, _, _,
      ⟨rfl, rfl⟩, rfl, rfl⟩
    exact ⟨raw, small, rfl, by simp only [layout, List.append_assoc]⟩
  · rintro ⟨raw, small, same, rfl⟩
    exact ⟨[], r.asset, _, by simp only [layout, List.append_assoc], r.symbol, _, ⟨raw, ⟨small, rfl⟩, same⟩, r.rate, _,
      rfl, r.intrinsicGas, _, rfl, r.enabled, [], rfl, (), [], ⟨rfl, rfl⟩, rfl, rfl⟩

theorem framable_symbol (small : Framable r.encode) : Framable r.symbol.bytes := by
  rw [Framable, ← layout_symbol, layout_length] at small
  rw [Framable]
  omega

theorem decode_encode (small : Framable r.symbol.bytes) : decode r.encode = .ok r :=
  decode_eq_ok.mpr ⟨_, small, (Utf8.lossy_bytes _).symm, rfl⟩

theorem framable_of_decode (decoded : decode r.encode = .ok r) : Framable r.symbol.bytes := by
  obtain ⟨raw, small, -, same⟩ := decode_eq_ok.mp decoded
  rwa [layout_inj same]

theorem length_of_decode (decoded : decode b = .ok r) : 33 ≤ b.length := by
  obtain ⟨raw, -, -, rfl⟩ := decode_eq_ok.mp decoded
  rw [layout_length]
  omega

end WhitelistedAsset

theorem FeeMarket.decode_eq_ok {m : FeeMarket} : FeeMarket.decode b = .ok m ↔ b = m.encode := by
  simp only [decode, Gas.decodeRecord_eq_ok, decodeInner, bind_eq_ok, pure_eq_ok, u128_eq_ok,
    u64_eq_ok, finish_eq_ok]
  constructor
  · rintro ⟨_, baseFee, _, rfl, floor, _, rfl, target, _, rfl, windowTs, _, rfl, windowGas, _, rfl, _, _, ⟨rfl, rfl⟩,
      rfl, rfl⟩
    simp only [encode, List.append_nil, List.append_assoc]
  · rintro rfl
    exact ⟨[], m.baseFee, _, by simp only [encode, List.append_assoc], m.floor, _, rfl, m.target, _, rfl,
      m.windowTs, _, rfl, m.windowGas, [], (List.append_nil _).symm, (), [], ⟨rfl, rfl⟩, rfl, rfl⟩

theorem FeeMarket.decode_encode (m : FeeMarket) : FeeMarket.decode m.encode = .ok m :=
  decode_eq_ok.mpr rfl

theorem SocialBinding.decode_eq_ok {binding : SocialBinding} :
    SocialBinding.decode b = .ok binding ↔ b = binding.encode := by
  have inner : decode b = .ok binding ↔ ∃ rest, decodeInner b = .ok (binding, rest) := by
    rw [← run'_eq_ok, decode, readAll]
    cases decodeInner.run' b <;> simp
  simp only [inner, decodeInner, map_eq_pure_bind, bind_eq_ok, ite_eq_ok, throw_eq_ok, pure_eq_ok, u8_eq_ok,
    array_eq_ok, finish_eq_ok, false_and, exists_false, and_false, or_false]
  constructor
  · rintro ⟨_, tag, _, rfl, ⟨rfl, _, _, ⟨holder, _, rfl, rfl, rfl⟩, _, _, ⟨rfl, rfl⟩, rfl, rfl⟩ |
      ⟨-, rfl, _, _, ⟨rfl, rfl⟩, _, _, ⟨rfl, rfl⟩, rfl, rfl⟩⟩
    · simp [encode]
    · rfl
  · rintro rfl
    cases binding with
    | bound holder =>
      exact ⟨[], 0, _, rfl, .inl ⟨rfl, .bound holder, [], ⟨holder, [], by simp, rfl, rfl⟩, (), [], ⟨rfl, rfl⟩, rfl, rfl⟩⟩
    | vacant =>
      exact ⟨[], 1, _, rfl, .inr ⟨by decide, rfl, .vacant, [], ⟨rfl, rfl⟩, (), [], ⟨rfl, rfl⟩, rfl, rfl⟩⟩

theorem SocialBinding.decode_encode (binding : SocialBinding) :
    SocialBinding.decode binding.encode = .ok binding := decode_eq_ok.mpr rfl

namespace Council

theorem readMembers_eq_ok : readMembers n input = .ok (l, rest) ↔
    l.length = n ∧ input = l.flatMap (·.bytes) ++ rest := by
  refine (many_iff (fun n input l rest => readMembers n input = .ok (l, rest))
    (fun member : FixedBytes 32 => member.bytes) (fun _ => True) id
    (fun input l rest => by rw [readMembers]; exact pure_eq_ok) (fun n input l rest => ?_)).trans (by simp)
  simp only [readMembers, bind_eq_ok, pure_eq_ok, array_eq_ok]
  constructor
  · rintro ⟨member, _, rfl, l', _, others, rfl, rfl⟩
    exact ⟨member, _, l', trivial, rfl, others, rfl⟩
  · rintro ⟨member, middle, l', _, rfl, others, rfl⟩
    exact ⟨member, _, rfl, l', _, others, rfl, rfl⟩

theorem decode_eq_ok {c : Council} : decode input = .ok c ↔ c.members.length < 2 ^ 32 ∧ input = c.encode := by
  have inner : decode input = .ok c ↔ ∃ rest, decodeInner input = .ok (c, rest) := by
    rw [← run'_eq_ok, decode, readAll]
    cases decodeInner.run' input <;> simp
  simp only [inner, decodeInner, bind_eq_ok, pure_eq_ok, u32_eq_ok, u64_eq_ok, readMembers_eq_ok,
    finish_eq_ok]
  constructor
  · rintro ⟨_, count, _, rfl, members, _, ⟨sized, rfl⟩, threshold, _, rfl, epoch, _, rfl, guardian, _, rfl, _, _,
      ⟨rfl, rfl⟩, rfl, rfl⟩
    exact ⟨by rw [sized]; exact count.isLt, by simp [encode, sized]⟩
  · rintro ⟨counted, rfl⟩
    exact ⟨[], ⟨_, counted⟩, _, by simp only [encode, List.append_assoc], c.members, _, ⟨rfl, rfl⟩, c.threshold, _,
      rfl, c.epoch, _, rfl, c.guardianThreshold, [], (List.append_nil _).symm, (), [], ⟨rfl, rfl⟩, rfl, rfl⟩

end Council

namespace Wire

/-- A framed record is read exactly if it is canonical. -/
theorem readCanonical_eq_ok {decode : Bytes → Except MalformedRecord α} {encode : α → Bytes} :
    readCanonical decode encode variant input = .ok (record, rest) ↔
      decode (encode record) = .ok record ∧ Framable (encode record) ∧
        input = frame (encode record) ++ rest := by
  rw [readCanonical, bind_eq_ok]
  constructor
  · rintro ⟨b, middle, read, chosen⟩
    cases decoded : decode b with
    | error _ =>
      rw [decoded] at chosen
      cases chosen
    | ok record' =>
      simp only [decoded] at chosen
      split at chosen
      · cases chosen
      · rename_i same
        obtain ⟨rfl, rfl⟩ := pure_eq_ok.mp chosen
        rw [not_ne_iff.mp same]
        exact ⟨decoded, bytes_eq_ok.mp read⟩
  · rintro ⟨decoded, read⟩
    refine ⟨_, rest, bytes_eq_ok.mpr read, ?_⟩
    rw [decoded]
    simp only [ne_eq, not_true_eq_false, if_false]
    exact pure_eq_ok.mpr ⟨rfl, rfl⟩

theorem readSplit_eq_ok : readSplit variant input = .ok (split, rest) ↔
    split.Fits ∧ input = frame split.encode ++ rest := by
  rw [readSplit, readCanonical_eq_ok, FeeSplit.decode_eq_ok]
  constructor
  · rintro ⟨⟨fits, _⟩, _, rfl⟩
    exact ⟨fits, rfl⟩
  · rintro ⟨fits, rfl⟩
    exact ⟨⟨fits, rfl⟩, fits.framable, rfl⟩

theorem readRecord_eq_ok :
    readCanonical WhitelistedAsset.decode WhitelistedAsset.encode variant input = .ok (r, rest) ↔
      Framable r.encode ∧ input = frame r.encode ++ rest := by
  rw [readCanonical_eq_ok]
  exact ⟨And.right, fun read => ⟨WhitelistedAsset.decode_encode (WhitelistedAsset.framable_symbol read.1), read⟩⟩

end Wire

/-- The fields of an update are short enough to be encoded. -/
def GovernanceUpdate.Fits : GovernanceUpdate → Prop
  | setGasAsset record => Framable record.encode
  | setParameter name _ => Framable name.bytes
  | setFeeSplit split => split.Fits
  | setJwk _ _ _ | setFeeMarket _ _ | disableGasAsset _ => True

/-- What the node reads as an update: its encoding, except that the text of a
parameter's name may stand for ill-formed bytes. -/
def GovernanceUpdate.Reads (input rest : Bytes) : GovernanceUpdate → Prop
  | setParameter name value =>
    ∃ b, (Framable b ∧ input = 1 :: frame b ++ be 16 value.val ++ rest) ∧ name = Utf8.lossy b
  | update => update.Fits ∧ input = update.encode ++ rest

namespace Wire

theorem readUpdate_eq_ok : readUpdate input = .ok (update, rest) ↔ update.Reads input rest := by
  simp only [readUpdate, bind_eq_ok, ite_eq_ok, throw_eq_ok, pure_eq_ok, u8_eq_ok,
    readRecord_eq_ok, Reader.string_eq_ok, u128_eq_ok, array_eq_ok, bool_eq_ok,
    u64_eq_ok, readSplit_eq_ok, u32_eq_ok]
  cases update <;> simp only [reduceCtorEq, GovernanceUpdate.setGasAsset.injEq, GovernanceUpdate.setParameter.injEq,
    GovernanceUpdate.setJwk.injEq, GovernanceUpdate.setFeeMarket.injEq, GovernanceUpdate.setFeeSplit.injEq,
    GovernanceUpdate.disableGasAsset.injEq, and_false, false_and, exists_false, or_false, false_or,
    GovernanceUpdate.Reads, GovernanceUpdate.Fits, GovernanceUpdate.encode]
  case setGasAsset record =>
    constructor
    · rintro ⟨_, _, rfl, rfl, _, _, ⟨small, rfl⟩, rfl, rfl⟩
      exact ⟨small, rfl⟩
    · rintro ⟨small, rfl⟩
      exact ⟨0, _, rfl, rfl, record, rest, ⟨small, rfl⟩, rfl, rfl⟩
  case setParameter name value =>
    constructor
    · rintro ⟨_, _, rfl, _, rfl, _, _, ⟨b, ⟨small, rfl⟩, rfl⟩, _, _, rfl, ⟨rfl, rfl⟩, rfl⟩
      exact ⟨b, ⟨small, by simp⟩, rfl⟩
    · rintro ⟨b, ⟨small, rfl⟩, rfl⟩
      exact ⟨1, _, rfl, by decide, rfl, _, _, ⟨b, ⟨small, List.append_assoc _ _ _⟩, rfl⟩, value, rest, rfl,
        ⟨rfl, rfl⟩, rfl⟩
  case setJwk issHash jwkHash active =>
    constructor
    · rintro ⟨_, _, rfl, _, _, rfl, _, _, rfl, _, _, rfl, _, _, rfl, ⟨rfl, rfl, rfl⟩, rfl⟩
      exact ⟨trivial, by simp⟩
    · rintro ⟨_, rfl⟩
      exact ⟨2, _, rfl, by decide, by decide, rfl, issHash, _, by simp, jwkHash, _, rfl, active, rest, rfl,
        ⟨rfl, rfl, rfl⟩, rfl⟩
  case setFeeMarket floor target =>
    constructor
    · rintro ⟨_, _, rfl, _, _, _, rfl, _, _, rfl, _, _, rfl, ⟨rfl, rfl⟩, rfl⟩
      exact ⟨trivial, by simp⟩
    · rintro ⟨_, rfl⟩
      exact ⟨3, _, rfl, by decide, by decide, by decide, rfl, floor, _, by simp, target, rest, rfl,
        ⟨rfl, rfl⟩, rfl⟩
  case setFeeSplit split =>
    constructor
    · rintro ⟨_, _, rfl, _, _, _, _, rfl, _, _, ⟨fits, rfl⟩, rfl, rfl⟩
      exact ⟨fits, rfl⟩
    · rintro ⟨fits, rfl⟩
      exact ⟨4, _, rfl, by decide, by decide, by decide, by decide, rfl, split, rest, ⟨fits, rfl⟩, rfl, rfl⟩
  case disableGasAsset asset =>
    constructor
    · rintro ⟨_, _, rfl, _, _, _, _, _, rfl, _, _, rfl, rfl, rfl⟩
      exact ⟨trivial, rfl⟩
    · rintro ⟨_, rfl⟩
      exact ⟨5, _, rfl, by decide, by decide, by decide, by decide, by decide, rfl, asset, rest, rfl, rfl, rfl⟩

end Wire

namespace TxCodec

/-- An update as the contract holds it. -/
def ofUpdate : GovernanceUpdate → Update
  | .setGasAsset r => .setGasAsset r.asset r.symbol.bytes r.rate r.intrinsicGas r.enabled
  | .setParameter name value => .setParameter name.bytes value
  | .setJwk issHash jwkHash active => .setJwk issHash.bytes jwkHash.bytes active
  | .setFeeMarket floor target => .setFeeMarket floor target
  | .setFeeSplit split => .setFeeSplit split.encode
  | .disableGasAsset asset => .disableGasAsset asset

theorem recordReader_eq_some : recordReader.run' b = some update ↔
    ∃ r : WhitelistedAsset, Framable r.symbol.bytes ∧ b = r.encode ∧ update = ofUpdate (.setGasAsset r) := by
  simp only [run'_eq_some, recordReader, bind_eq_some, pure_eq_some, takeU32_eq_some, takeString_eq_some,
    takeU128_eq_some, takeU64_eq_some, takeBool_eq_some, done_eq_some]
  constructor
  · rintro ⟨_, asset, _, rfl, symbol, _, ⟨valid, small, rfl⟩, rate, _, rfl, gas, _, rfl, enabled, _, rfl,
      _, _, ⟨rfl, rfl⟩, rfl, rfl⟩
    exact ⟨⟨asset, ⟨symbol, valid⟩, rate, gas, enabled⟩, small, by simp [WhitelistedAsset.encode], rfl⟩
  · rintro ⟨r, small, rfl, rfl⟩
    exact ⟨[], r.asset, _, by simp only [WhitelistedAsset.encode, List.append_assoc], r.symbol.bytes, _,
      ⟨r.symbol.valid, small, rfl⟩, r.rate, _, rfl, r.intrinsicGas, _, rfl, r.enabled, [], rfl, (), [],
      ⟨rfl, rfl⟩, rfl, rfl⟩

/-- The contract reads the encodings of updates, and only those. -/
theorem decodeUpdate_eq_some : decodeUpdate b = some u ↔
    ∃ update : GovernanceUpdate, update.Fits ∧ b = update.encode ∧ u = ofUpdate update := by
  rw [decodeUpdate, run'_eq_some]
  simp only [bind_eq_some, pure_eq_some, takeU8_eq_some, updateFields,
    ite_eq_some, failure_eq_some, liftM_eq_some, recordReader_eq_some, takeField_eq_some,
    takeString_eq_some, takeU128_eq_some, takeBytes_eq_some, takeBool_eq_some, takeU64_eq_some,
    splitIsWellFormed_iff, takeU32_eq_some, done_eq_some]
  constructor
  · rintro ⟨_, kind, _, rfl, _, _, fields, _, _, ⟨rfl, rfl⟩, rfl, rfl⟩
    rcases fields with ⟨rfl, _, _, ⟨small, rfl⟩, ⟨r, _, rfl, rfl⟩, rfl⟩ | ⟨_, fields⟩
    · exact ⟨.setGasAsset r, small, by simp [GovernanceUpdate.encode], rfl⟩
    rcases fields with ⟨rfl, name, _, ⟨valid, small, rfl⟩, value, _, rfl, rfl, rfl⟩ | ⟨_, fields⟩
    · exact ⟨.setParameter ⟨name, valid⟩ value, small, by simp [GovernanceUpdate.encode], rfl⟩
    rcases fields with ⟨rfl, iss, _, ⟨issSized, rfl⟩, jwk, _, ⟨jwkSized, rfl⟩, active, _, rfl, rfl, rfl⟩ |
      ⟨_, fields⟩
    · exact ⟨.setJwk ⟨iss, issSized⟩ ⟨jwk, jwkSized⟩ active, trivial, by simp [GovernanceUpdate.encode], rfl⟩
    rcases fields with ⟨rfl, floor, _, rfl, target, _, rfl, rfl, rfl⟩ | ⟨_, fields⟩
    · exact ⟨.setFeeMarket floor target, trivial, by simp [GovernanceUpdate.encode], rfl⟩
    rcases fields with ⟨rfl, _, _, ⟨_, rfl⟩, ⟨⟨split, fits, rfl⟩, rfl, rfl⟩ | ⟨_, stop⟩⟩ | ⟨_, fields⟩
    · exact ⟨.setFeeSplit split, fits, by simp [GovernanceUpdate.encode], rfl⟩
    · exact stop.elim
    rcases fields with ⟨rfl, asset, _, rfl, rfl, rfl⟩ | ⟨_, stop⟩
    · exact ⟨.disableGasAsset asset, trivial, by simp [GovernanceUpdate.encode], rfl⟩
    · exact stop.elim
  · rintro ⟨update, fits, rfl, rfl⟩
    refine ⟨[], ?_⟩
    cases update with
    | setGasAsset record =>
      have shorter : Framable record.symbol.bytes := by
        simp only [GovernanceUpdate.Fits, Framable, WhitelistedAsset.encode, List.length_append, frame] at *
        omega
      exact ⟨0, _, rfl, _, [], .inl ⟨rfl, _, [], ⟨fits, (List.append_nil _).symm⟩,
        ⟨record, shorter, rfl, rfl⟩, rfl⟩, (), [], ⟨rfl, rfl⟩, rfl, rfl⟩
    | setParameter name value =>
      exact ⟨1, _, rfl, _, [], .inr ⟨by decide, .inl ⟨rfl, _, _, ⟨name.valid, fits, rfl⟩, value, [], by simp,
        rfl, rfl⟩⟩, (), [], ⟨rfl, rfl⟩, rfl, rfl⟩
    | setJwk issHash jwkHash active =>
      exact ⟨2, _, rfl, _, [], .inr ⟨by decide, .inr ⟨by decide, .inl ⟨rfl, _, _,
        ⟨issHash.length_eq, by simp⟩, _, _, ⟨jwkHash.length_eq, rfl⟩, active, [], rfl, rfl, rfl⟩⟩⟩,
        (), [], ⟨rfl, rfl⟩, rfl, rfl⟩
    | setFeeMarket floor target =>
      exact ⟨3, _, rfl, _, [], .inr ⟨by decide, .inr ⟨by decide, .inr ⟨by decide, .inl ⟨rfl, floor, _, rfl,
        target, [], by simp, rfl, rfl⟩⟩⟩⟩, (), [], ⟨rfl, rfl⟩, rfl, rfl⟩
    | setFeeSplit split =>
      exact ⟨4, _, rfl, _, [], .inr ⟨by decide, .inr ⟨by decide, .inr ⟨by decide, .inr ⟨by decide, .inl
        ⟨rfl, _, [], ⟨fits.framable, (List.append_nil _).symm⟩, .inl ⟨⟨split, fits, rfl⟩, rfl, rfl⟩⟩⟩⟩⟩⟩,
        (), [], ⟨rfl, rfl⟩, rfl, rfl⟩
    | disableGasAsset asset =>
      exact ⟨5, _, rfl, _, [], .inr ⟨by decide, .inr ⟨by decide, .inr ⟨by decide, .inr ⟨by decide, .inr
        ⟨by decide, .inl ⟨rfl, asset, [], by simp, rfl, rfl⟩⟩⟩⟩⟩⟩, (), [], ⟨rfl, rfl⟩, rfl, rfl⟩

end TxCodec

/-- A payload within the limits of the wire format, its parts short enough to be
encoded. -/
def Payload.Fits : Payload → Prop
  | governance _ update signatures =>
    update.Fits ∧ Framable update.encode ∧ signatures.length ≤ Wire.MAX_COUNCIL_SIGNATURES
  | distributeFees _ _ split => split.Fits
  | transfer _ _ _ | bindIdentifier _ _ | unbindIdentifier _ => True

/-- What the node reads as a payload. -/
def Payload.Reads (input rest : Bytes) : Payload → Prop
  | governance epoch update signatures =>
    ∃ inner, Framable inner ∧ update.Reads inner [] ∧ signatures.length ≤ Wire.MAX_COUNCIL_SIGNATURES ∧
      input = 3 :: be 8 epoch.val ++ frame inner ++ be 4 signatures.length ++
        (signatures.flatMap fun s => be 4 s.index.val ++ frame s.signature.bytes) ++ rest
  | payload => payload.Fits ∧ input = Wire.writePayload payload ++ rest

theorem FixedBytes.framable_of_le {h : FixedBytes n} (small : n < 2 ^ 32) : Framable h.bytes := by
  rw [Framable, h.length_eq]
  exact small

theorem Channel.fromDiscriminant_eq_some {channel : Channel} :
    Channel.fromDiscriminant d = some channel ↔ d = channel.discriminant := by
  unfold fromDiscriminant
  constructor
  · intro found
    split at found
    · cases found
      assumption
    · split at found
      · cases found
        assumption
      · split at found
        · cases found
          assumption
        · cases found
  · rintro rfl
    cases channel <;> rfl

namespace Wire

theorem lift_eq_ok : lift reader input = .ok (a, rest) ↔ reader input = .ok (a, rest) := by
  unfold lift
  cases reader input <;> simp

theorem liftM_eq_ok {x : Except WireError α} : (liftM x : WireReader α) input = .ok (b, rest) ↔
    x = .ok b ∧ rest = input := by
  change (x >>= fun a => .ok (a, input)) = _ ↔ _
  cases x with
  | error e => simp [Bind.bind, Except.bind]
  | ok a => simp [Bind.bind, Except.bind, eq_comm]

theorem readInner_eq_ok {inner : Bytes} : readInner inner input = .ok (update, rest) ↔
    update.Reads inner [] ∧ rest = input := by
  have reads : (do let update ← readUpdate; Reader.finish; return update : Reader GovernanceUpdate).readAll
      inner = .ok update ↔ update.Reads inner [] := by
    rw [readAll, run'_eq_ok]
    simp only [bind_eq_ok, pure_eq_ok, readUpdate_eq_ok, finish_eq_ok]
    constructor
    · rintro ⟨_, _, _, read, _, _, ⟨rfl, rfl⟩, rfl, rfl⟩
      exact read
    · intro read
      exact ⟨[], update, [], read, (), [], ⟨rfl, rfl⟩, rfl, rfl⟩
  rw [← reads]
  unfold readInner
  split
  · rename_i update' read
    rw [read]
    simp [eq_comm]
  · rename_i failed
    rw [failed]
    simp

theorem readSignatures_eq_ok : readSignatures n input = .ok (l, rest) ↔ l.length = n ∧
    input = (l.flatMap fun s => be 4 s.index.val ++ frame s.signature.bytes) ++ rest := by
  refine (many_iff (fun n input l rest => readSignatures n input = .ok (l, rest))
    (fun s : CouncilSignature => be 4 s.index.val ++ frame s.signature.bytes) (fun _ => True) id
    (fun input l rest => by rw [readSignatures]; exact pure_eq_ok) (fun n input l rest => ?_)).trans
    (by simp)
  simp only [readSignatures, bind_eq_ok, u32_eq_ok, bytes_eq_ok]
  constructor
  · rintro ⟨index, _, rfl, b, middle, ⟨small, rfl⟩, chosen⟩
    cases sized : FixedBytes.ofBytes? 64 b with
    | none =>
      simp only [sized] at chosen
      exact (throw_eq_ok.mp chosen).elim
    | some signature =>
      simp only [sized, bind_eq_ok, pure_eq_ok] at chosen
      obtain ⟨l', _, others, rfl, rfl⟩ := chosen
      rw [← FixedBytes.ofBytes?_eq_some.mp sized]
      exact ⟨⟨index, signature⟩, middle, l', trivial, by simp, others, rfl⟩
  · rintro ⟨⟨index, signature⟩, middle, l', _, rfl, others, rfl⟩
    refine ⟨index, _, List.append_assoc _ _ _, signature.bytes, middle, ⟨FixedBytes.framable_of_le (by decide), rfl⟩, ?_⟩
    simp only [FixedBytes.ofBytes?_bytes, bind_eq_ok, pure_eq_ok]
    exact ⟨l', _, others, rfl, rfl⟩

theorem readPayload_eq_ok : readPayload input = .ok (payload, rest) ↔ payload.Reads input rest := by
  simp only [readPayload, bind_eq_ok, ite_eq_ok, throw_eq_ok, pure_eq_ok, lift_eq_ok, false_and,
    exists_false, and_false, false_or, or_false, u8_eq_ok, array_eq_ok, u32_eq_ok,
    u128_eq_ok, hash_eq_ok, u64_eq_ok, bytes_eq_ok, readInner_eq_ok,
    readSignatures_eq_ok, readSplit_eq_ok]
  constructor
  · rintro ⟨tag, _, rfl, fields⟩
    rcases fields with ⟨rfl, recipient, _, rfl, asset, _, rfl, amount, _, rfl, rfl, rfl⟩ | ⟨_, fields⟩
    · exact ⟨trivial, by simp [writePayload]⟩
    rcases fields with ⟨rfl, d, _, rfl, chosen⟩ | ⟨_, fields⟩
    · cases found : Channel.fromDiscriminant d with
      | none =>
        simp only [found] at chosen
        exact (throw_eq_ok.mp chosen).elim
      | some channel =>
        simp only [found, bind_eq_ok, lift_eq_ok, pure_eq_ok, hash_eq_ok] at chosen
        obtain ⟨identifier, _, rfl, rfl, rfl⟩ := chosen
        rw [Channel.fromDiscriminant_eq_some.mp found]
        exact ⟨trivial, rfl⟩
    rcases fields with ⟨rfl, identifier, _, rfl, rfl, rfl⟩ | ⟨_, fields⟩
    · exact ⟨trivial, rfl⟩
    rcases fields with ⟨rfl, epoch, _, rfl, inner, _, ⟨small, rfl⟩, update, _, ⟨read, rfl⟩, count, _, rfl,
      few, signatures, _, ⟨sized, rfl⟩, rfl, rfl⟩ | ⟨_, fields⟩
    · exact ⟨inner, small, read, by omega, by simp [sized]⟩
    obtain ⟨rfl, asset, _, rfl, amount, _, rfl, split, _, ⟨fits, rfl⟩, rfl, rfl⟩ := fields
    exact ⟨fits, by simp [writePayload]⟩
  · intro reads
    cases payload with
    | transfer recipient asset amount =>
      obtain ⟨_, rfl⟩ := reads
      exact ⟨0, _, rfl, .inl ⟨rfl, recipient, _, by simp, asset, _, rfl, amount, rest, rfl, rfl, rfl⟩⟩
    | bindIdentifier channel identifier =>
      obtain ⟨_, rfl⟩ := reads
      refine ⟨1, _, rfl, .inr ⟨by decide, .inl ⟨rfl, channel.discriminant, _, rfl, ?_⟩⟩⟩
      simp only [Channel.fromDiscriminant_eq_some.mpr rfl, bind_eq_ok, lift_eq_ok, pure_eq_ok,
        hash_eq_ok]
      exact ⟨identifier, rest, rfl, rfl, rfl⟩
    | unbindIdentifier identifier =>
      obtain ⟨_, rfl⟩ := reads
      exact ⟨2, _, rfl, .inr ⟨by decide, .inr ⟨by decide, .inl ⟨rfl, identifier, rest, rfl, rfl, rfl⟩⟩⟩⟩
    | governance epoch update signatures =>
      obtain ⟨inner, small, read, few, rfl⟩ := reads
      have counted : signatures.length < 2 ^ 32 := Nat.lt_of_le_of_lt few (by decide)
      exact ⟨3, _, rfl, .inr ⟨by decide, .inr ⟨by decide, .inr ⟨by decide, .inl ⟨rfl, epoch, _, by simp,
        inner, _, ⟨small, rfl⟩, update, _, ⟨read, rfl⟩, ⟨_, counted⟩, _, rfl, Nat.not_lt.mpr few, signatures,
        rest, ⟨rfl, rfl⟩, rfl, rfl⟩⟩⟩⟩⟩
    | distributeFees asset amount split =>
      obtain ⟨fits, rfl⟩ := reads
      exact ⟨4, _, rfl, .inr ⟨by decide, .inr ⟨by decide, .inr ⟨by decide, .inr ⟨by decide, rfl, asset, _,
        by simp, amount, _, rfl, split, rest, ⟨fits, rfl⟩, rfl, rfl⟩⟩⟩⟩⟩

theorem decodePayload_eq_ok : decodePayload b = .ok payload ↔ payload.Reads b [] := by
  rw [decodePayload, run'_eq_ok]
  simp only [bind_eq_ok, pure_eq_ok, lift_eq_ok, readPayload_eq_ok, finish_eq_ok]
  constructor
  · rintro ⟨_, _, _, read, _, _, ⟨rfl, rfl⟩, rfl, rfl⟩
    exact read
  · intro read
    exact ⟨[], payload, [], read, (), [], ⟨rfl, rfl⟩, rfl, rfl⟩

theorem readKeyless_eq_ok : readKeyless input = .ok (sig, rest) ↔ input = writeKeyless sig ++ rest := by
  simp only [readKeyless, map_eq_pure_bind, bind_eq_ok, pure_eq_ok, array_eq_ok, u64_eq_ok,
    bool_eq_ok, ite_eq_ok]
  constructor
  · rintro ⟨iss, _, rfl, idc, _, rfl, key, _, rfl, signature, _, rfl, expDate, _, rfl, horizon, _, rfl,
      header, _, rfl, jwk, _, rfl, revealed, _, rfl, ⟨rfl, _, _, ⟨hash, _, rfl, rfl, rfl⟩, proof, _, rfl, rfl, rfl⟩ |
      ⟨hidden, _, _, ⟨rfl, rfl⟩, proof, _, rfl, rfl, rfl⟩⟩
    · simp [writeKeyless, Gas.encodeBool]
    · simp [writeKeyless, Gas.encodeBool, hidden]
  · rintro rfl
    obtain ⟨iss, idc, key, signature, expDate, horizon, header, jwk, extra, proof⟩ := sig
    simp only [writeKeyless, List.append_assoc]
    refine ⟨iss, _, rfl, idc, _, rfl, key, _, rfl, signature, _, rfl, expDate, _, rfl, horizon, _, rfl,
      header, _, rfl, jwk, _, rfl, ?_⟩
    cases extra with
    | none => exact ⟨false, _, rfl, .inr ⟨by decide, none, _, ⟨rfl, rfl⟩, proof, rest, rfl, rfl, rfl⟩⟩
    | some hash =>
      exact ⟨true, _, rfl, .inl ⟨rfl, some hash, _, ⟨hash, _, rfl, rfl, rfl⟩, proof, rest, rfl, rfl, rfl⟩⟩

theorem readAuthenticator_eq_ok : readAuthenticator input = .ok (auth, rest) ↔
    input = writeAuthenticator auth ++ rest := by
  simp only [readAuthenticator, bind_eq_ok, ite_eq_ok, throw_eq_ok, pure_eq_ok, u8_eq_ok,
    array_eq_ok, readKeyless_eq_ok]
  constructor
  · rintro ⟨tag, _, rfl, ⟨rfl, key, _, rfl, signature, _, rfl, rfl, rfl⟩ |
      ⟨_, ⟨rfl, sig, _, rfl, rfl, rfl⟩ | ⟨_, stop⟩⟩⟩
    · simp [writeAuthenticator]
    · rfl
    · exact stop.elim
  · rintro rfl
    cases auth with
    | ed25519 key signature =>
      exact ⟨0, _, rfl, .inl ⟨rfl, key, _, by simp, signature, rest, rfl, rfl, rfl⟩⟩
    | keyless sig => exact ⟨1, _, rfl, .inr ⟨by decide, .inl ⟨rfl, sig, rest, rfl, rfl, rfl⟩⟩⟩

end Wire

theorem GovernanceUpdate.Reads.fits {update : GovernanceUpdate} (reads : update.Reads input rest)
    (short : Framable update.encode) : update.Fits := by
  cases update with
  | setParameter name value =>
    simp only [Fits, Framable, encode, List.cons_append, List.length_cons, List.length_append, frame] at *
    omega
  | _ => exact reads.1

theorem GovernanceUpdate.Fits.reads {update : GovernanceUpdate} (fits : update.Fits) (rest : Bytes) :
    update.Reads (update.encode ++ rest) rest := by
  cases update with
  | setParameter name value => exact ⟨name.bytes, ⟨fits, rfl⟩, (Utf8.lossy_bytes _).symm⟩
  | _ => exact ⟨fits, rfl⟩

theorem Payload.Reads.fits {payload : Payload} (reads : payload.Reads input rest)
    (short : Framable (Wire.writePayload payload)) : payload.Fits := by
  cases payload with
  | governance epoch update signatures =>
    obtain ⟨inner, _, read, few, _⟩ := reads
    have shorter : Framable update.encode := by
      simp only [Framable, Wire.writePayload, List.cons_append, List.length_cons, List.length_append,
        frame] at *
      omega
    exact ⟨read.fits shorter, shorter, few⟩
  | _ => exact reads.1

theorem Payload.Fits.reads {payload : Payload} (fits : payload.Fits) :
    payload.Reads (Wire.writePayload payload) [] := by
  cases payload with
  | governance epoch update signatures =>
    obtain ⟨fits, short, few⟩ := fits
    exact ⟨update.encode, short, by simpa using fits.reads [], few, by simp [Wire.writePayload]⟩
  | _ => exact ⟨fits, (List.append_nil _).symm⟩

namespace Transaction

open Wire

theorem payload_length_le (tx : Transaction) : (writePayload tx.payload).length ≤ tx.encode.length := by
  simp only [encode, List.length_append, frame]
  omega

theorem readTransaction_eq_ok : readTransaction.run' b = .ok tx ↔ ∃ payloadBytes, Framable payloadBytes ∧
    tx.payload.Reads payloadBytes [] ∧ b = tx.sender.bytes ++ be 8 tx.nonce.val ++ be 4 tx.feeAsset.val ++
      be 16 tx.feeRate.val ++ be 8 tx.feeIntrinsicGas.val ++ be 8 tx.gasLimit.val ++
      be 16 tx.maxFeePerGas.val ++ be 16 tx.maxPriorityFeePerGas.val ++ frame payloadBytes ++
      writeAuthenticator tx.authenticator := by
  rw [run'_eq_ok]
  simp only [readTransaction, bind_eq_ok, pure_eq_ok, lift_eq_ok, liftM_eq_ok, array_eq_ok,
    u64_eq_ok, u32_eq_ok, u128_eq_ok, bytes_eq_ok, decodePayload_eq_ok,
    readAuthenticator_eq_ok, finish_eq_ok]
  constructor
  · rintro ⟨_, sender, _, rfl, nonce, _, rfl, asset, _, rfl, rate, _, rfl, intrinsic, _, rfl, limit, _, rfl,
      maxFee, _, rfl, priority, _, rfl, payloadBytes, _, ⟨small, rfl⟩, payload, _, ⟨read, rfl⟩, auth, _, rfl,
      _, _, ⟨rfl, rfl⟩, rfl, rfl⟩
    exact ⟨payloadBytes, small, read, by simp⟩
  · rintro ⟨payloadBytes, small, read, rfl⟩
    simp only [List.append_assoc]
    exact ⟨[], tx.sender, _, rfl, tx.nonce, _, rfl, tx.feeAsset, _, rfl, tx.feeRate, _, rfl,
      tx.feeIntrinsicGas, _, rfl, tx.gasLimit, _, rfl, tx.maxFeePerGas, _, rfl, tx.maxPriorityFeePerGas, _,
      rfl, payloadBytes, _, ⟨small, rfl⟩, tx.payload, _, ⟨read, rfl⟩, tx.authenticator, [], by simp, (), [],
      ⟨rfl, rfl⟩, rfl, rfl⟩

theorem decode_eq_ok : decode b = .ok tx ↔ b.length ≤ MAX_TRANSACTION_BYTES ∧ tx.payload.Fits ∧ b = tx.encode := by
  unfold decode
  constructor
  · intro decoded
    split at decoded
    · cases decoded
    rename_i short
    split at decoded
    · cases decoded
    rename_i tx' read
    split at decoded
    · cases decoded
    rename_i same
    cases decoded
    obtain rfl := not_ne_iff.mp same
    obtain ⟨_, _, reads, _⟩ := readTransaction_eq_ok.mp read
    refine ⟨Nat.not_lt.mp short, reads.fits ?_, rfl⟩
    exact Nat.lt_of_le_of_lt (tx.payload_length_le.trans (Nat.not_lt.mp short)) (by decide)
  · rintro ⟨short, fits, rfl⟩
    have small : Framable (writePayload tx.payload) :=
      Nat.lt_of_le_of_lt (tx.payload_length_le.trans short) (by decide)
    have read : readTransaction.run' tx.encode = .ok tx :=
      readTransaction_eq_ok.mpr ⟨_, small, fits.reads, rfl⟩
    rw [if_neg (Nat.not_lt.mpr short), read]
    simp

end Transaction

/-- The council's signatures a payload carries. -/
def Payload.signatures : Payload → List CouncilSignature
  | governance _ _ signatures => signatures
  | _ => []

/-- The fee splits a payload carries. -/
def Payload.splits : Payload → List FeeSplit
  | governance _ (.setFeeSplit split) _ => [split]
  | distributeFees _ _ split => [split]
  | _ => []

theorem Payload.fits_of_short {payload : Payload} (short : Framable (Wire.writePayload payload))
    (few : payload.signatures.length ≤ Wire.MAX_COUNCIL_SIGNATURES)
    (small : ∀ split ∈ payload.splits, split.beneficiaries.length ≤ Gas.MAX_FEE_BENEFICIARIES) :
    payload.Fits := by
  cases payload with
  | governance epoch update signatures =>
    have shorter : Framable update.encode := by
      simp only [Framable, Wire.writePayload, List.cons_append, List.length_cons, List.length_append,
        frame] at *
      omega
    refine ⟨?_, shorter, few⟩
    cases update with
    | setFeeSplit split => exact small split (by simp [splits])
    | setGasAsset record =>
      simp only [GovernanceUpdate.Fits, Framable, GovernanceUpdate.encode, List.length_cons, frame,
        List.length_append] at *
      omega
    | setParameter name value =>
      simp only [GovernanceUpdate.Fits, Framable, GovernanceUpdate.encode, List.cons_append, List.length_cons,
        List.length_append, frame] at *
      omega
    | _ => trivial
  | distributeFees asset amount split => exact small split (by simp [splits])
  | _ => trivial

namespace Transaction

open Wire

/-- One encoding per transaction: what is within the limits decodes as itself, and
whatever decodes is the encoding of what it decodes as. -/
theorem one_encoding_per_transaction :
    (∀ tx : Transaction, tx.encode.length ≤ MAX_TRANSACTION_BYTES →
      tx.payload.signatures.length ≤ MAX_COUNCIL_SIGNATURES →
      (∀ split ∈ tx.payload.splits, split.beneficiaries.length ≤ Gas.MAX_FEE_BENEFICIARIES) →
        decode tx.encode = .ok tx) ∧
      ∀ b tx, decode b = .ok tx → tx.encode = b := by
  constructor
  · intro tx short few small
    have framable : Framable (writePayload tx.payload) :=
      Nat.lt_of_le_of_lt (tx.payload_length_le.trans short) (by decide)
    exact decode_eq_ok.mpr ⟨short, Payload.fits_of_short framable few small, rfl⟩
  · intro b tx decoded
    exact (decode_eq_ok.mp decoded).2.2.symm

/-- A fee distribution to one beneficiary, with half of it burned. -/
def distribution : Transaction where
  sender := .fill 32 1
  nonce := 0
  feeAsset := 1
  feeRate := 1000000
  feeIntrinsicGas := 0
  gasLimit := 50000
  maxFeePerGas := 50000000000
  maxPriorityFeePerGas := 0
  payload := .distributeFees 1 10 ⟨[(.fill 32 2, 500000)], 500000⟩
  authenticator := .ed25519 (.fill 32 1) (.fill 64 3)

theorem distribution_round_trip : decode distribution.encode = .ok distribution :=
  one_encoding_per_transaction.1 distribution (by decide +kernel) (by decide) (by decide)

end Transaction

namespace TxCodec

def ofPayload : Sena.Payload → Payload
  | .transfer recipient asset amount => .transfer recipient.bytes asset amount
  | .bindIdentifier channel identifier => .bindIdentifier channel.discriminant identifier.bytes
  | .unbindIdentifier identifier => .unbindIdentifier identifier.bytes
  | .governance epoch update signatures =>
    .governance epoch update.encode (ofUpdate update) (signatures.map fun s => (s.index, s.signature.bytes))
  | .distributeFees asset amount split => .distributeFees asset amount split.encode

def ofKeyless (sig : KeylessSignature) : MoveKeyless.Signature where
  issHash := sig.issHash.bytes
  idc := sig.idc.bytes
  ephemeralPublicKey := sig.ephemeralPublicKey.bytes
  ephemeralSignature := sig.ephemeralSignature.bytes
  expDateSecs := sig.expDateSecs
  expHorizonSecs := sig.expHorizonSecs
  jwtHeaderHash := sig.jwtHeaderHash.bytes
  jwkHash := sig.jwkHash.bytes
  extraFieldHash := sig.extraFieldHash.map (·.bytes)
  proof := sig.proof.bytes

def ofAuthenticator : Authenticator → Auth
  | .ed25519 publicKey signature => .ed25519 publicKey.bytes signature.bytes
  | .keyless sig => .keyless (ofKeyless sig)

/-- A transaction as the contract holds it. -/
def ofTransaction (tx : Transaction) : Tx where
  sender := tx.sender.bytes
  nonce := tx.nonce
  feeAsset := tx.feeAsset
  feeRate := tx.feeRate
  feeIntrinsicGas := tx.feeIntrinsicGas
  gasLimit := tx.gasLimit
  maxFeePerGas := tx.maxFeePerGas
  maxPriorityFeePerGas := tx.maxPriorityFeePerGas
  payloadBytes := Wire.writePayload tx.payload
  payload := ofPayload tx.payload
  auth := ofAuthenticator tx.authenticator

theorem councilSignature_eq_some : councilSignature input = some (s, rest) ↔ ∃ sig : CouncilSignature,
    True ∧ input = (be 4 sig.index.val ++ frame sig.signature.bytes) ++ rest ∧
      s = (sig.index, sig.signature.bytes) := by
  simp only [councilSignature, bind_eq_some, ite_eq_some, failure_eq_some, pure_eq_some, takeU32_eq_some,
    takeField_eq_some, and_false, false_or, not_not]
  constructor
  · rintro ⟨index, _, rfl, b, _, ⟨_, rfl⟩, sized, rfl, rfl⟩
    exact ⟨⟨index, ⟨b, sized⟩⟩, trivial, by simp, rfl⟩
  · rintro ⟨sig, _, rfl, rfl⟩
    exact ⟨sig.index, _, List.append_assoc _ _ _, _, rest, ⟨FixedBytes.framable_of_le (by decide), rfl⟩,
      sig.signature.length_eq, rfl, rfl⟩

theorem channel_le_iff : ¬d > 2 ↔ ∃ channel : Channel, d = channel.discriminant := by
  constructor
  · intro small
    have bound : d.toNat ≤ 2 := UInt8.le_iff_toNat_le.mp (UInt8.not_lt.mp small)
    have cases : d = 0 ∨ d = 1 ∨ d = 2 := by
      simp only [← UInt8.toNat_inj]
      change d.toNat = 0 ∨ d.toNat = 1 ∨ d.toNat = 2
      omega
    obtain rfl | rfl | rfl := cases
    exacts [⟨.email, rfl⟩, ⟨.phone, rfl⟩, ⟨.handle, rfl⟩]
  · rintro ⟨channel, rfl⟩
    cases channel <;> decide

theorem decodePayload_eq_some : decodePayload b = some p ↔
    ∃ payload : Sena.Payload, payload.Fits ∧ b = Wire.writePayload payload ∧ p = ofPayload payload := by
  rw [decodePayload, run'_eq_some]
  simp only [payloadFields, bind_eq_some, pure_eq_some, ite_eq_some, failure_eq_some, liftM_eq_some,
    false_and, exists_false, and_false, false_or, or_false, takeU8_eq_some, takeBytes_eq_some,
    takeU32_eq_some, takeU128_eq_some, takeU64_eq_some, takeField_eq_some, channel_le_iff,
    decodeUpdate_eq_some, takeMany_eq_some _ _ _ fun _ _ _ => councilSignature_eq_some,
    splitIsWellFormed_iff, done_eq_some]
  constructor
  · rintro ⟨_, kind, _, rfl, _, _, fields, _, _, ⟨rfl, rfl⟩, rfl, rfl⟩
    rcases fields with ⟨rfl, recipient, _, ⟨sized, rfl⟩, asset, _, rfl, amount, _, rfl, rfl, rfl⟩ | ⟨_, fields⟩
    · exact ⟨.transfer ⟨recipient, sized⟩ asset amount, trivial, by simp [Wire.writePayload], rfl⟩
    rcases fields with ⟨rfl, _, _, rfl, ⟨channel, rfl⟩, identifier, _, ⟨sized, rfl⟩, rfl, rfl⟩ | ⟨_, fields⟩
    · exact ⟨.bindIdentifier channel ⟨identifier, sized⟩, trivial, by simp [Wire.writePayload], rfl⟩
    rcases fields with ⟨rfl, identifier, _, ⟨sized, rfl⟩, rfl, rfl⟩ | ⟨_, fields⟩
    · exact ⟨.unbindIdentifier ⟨identifier, sized⟩, trivial, by simp [Wire.writePayload], rfl⟩
    rcases fields with ⟨rfl, epoch, _, rfl, _, _, ⟨small, rfl⟩, _, _, ⟨⟨update, fits, rfl, rfl⟩, rfl⟩, count, _,
      rfl, few, _, _, ⟨signatures, sized, _, rfl, rfl⟩, rfl, rfl⟩ | ⟨_, fields⟩
    · exact ⟨.governance epoch update signatures, ⟨fits, small, sized ▸ Nat.not_lt.mp few⟩,
        by simp [Wire.writePayload, sized], rfl⟩
    obtain ⟨rfl, asset, _, rfl, amount, _, rfl, _, _, ⟨_, rfl⟩, ⟨split, fits, rfl⟩, rfl, rfl⟩ := fields
    exact ⟨.distributeFees asset amount split, fits, by simp [Wire.writePayload], rfl⟩
  · rintro ⟨payload, fits, rfl, rfl⟩
    refine ⟨[], ?_⟩
    cases payload with
    | transfer recipient asset amount =>
      exact ⟨0, _, rfl, _, [], .inl ⟨rfl, _, _, ⟨recipient.length_eq, by simp⟩, asset, _, rfl, amount, [],
        (List.append_nil _).symm, rfl, rfl⟩, (), [], ⟨rfl, rfl⟩, rfl, rfl⟩
    | bindIdentifier channel identifier =>
      exact ⟨1, _, rfl, _, [], .inr ⟨by decide, .inl ⟨rfl, _, _, rfl, ⟨channel, rfl⟩, _, [],
        ⟨identifier.length_eq, by simp⟩, rfl, rfl⟩⟩, (), [], ⟨rfl, rfl⟩, rfl, rfl⟩
    | unbindIdentifier identifier =>
      exact ⟨2, _, rfl, _, [], .inr ⟨by decide, .inr ⟨by decide, .inl ⟨rfl, _, [],
        ⟨identifier.length_eq, by simp⟩, rfl, rfl⟩⟩⟩, (), [], ⟨rfl, rfl⟩, rfl, rfl⟩
    | governance epoch update signatures =>
      obtain ⟨fits, small, few⟩ := fits
      have counted : signatures.length < 2 ^ 32 := Nat.lt_of_le_of_lt few (by decide)
      exact ⟨3, _, rfl, _, [], .inr ⟨by decide, .inr ⟨by decide, .inr ⟨by decide, .inl ⟨rfl, epoch, _, by simp,
        _, _, ⟨small, rfl⟩, _, _, ⟨⟨update, fits, rfl, rfl⟩, rfl⟩, ⟨_, counted⟩, _, rfl, Nat.not_lt.mpr few, _,
        _, ⟨signatures, rfl, fun _ _ => trivial, (List.append_nil _).symm, rfl⟩, rfl, rfl⟩⟩⟩⟩, (), [], ⟨rfl, rfl⟩, rfl, rfl⟩
    | distributeFees asset amount split =>
      exact ⟨4, _, rfl, _, [], .inr ⟨by decide, .inr ⟨by decide, .inr ⟨by decide, .inr ⟨by decide, rfl, asset,
        _, by simp, amount, _, rfl, _, [], ⟨fits.framable, (List.append_nil _).symm⟩, ⟨split, fits, rfl⟩, rfl, rfl⟩⟩⟩⟩,
        (), [], ⟨rfl, rfl⟩, rfl, rfl⟩

theorem keylessReader_eq_some : keylessReader input = some (s, rest) ↔
    ∃ sig : KeylessSignature, input = Wire.writeKeyless sig ++ rest ∧ s = ofKeyless sig := by
  simp only [keylessReader, map_eq_pure_bind, bind_eq_some, pure_eq_some, ite_eq_some, takeBytes_eq_some,
    takeU64_eq_some, takeBool_eq_some]
  constructor
  · rintro ⟨iss, _, ⟨issSized, rfl⟩, idc, _, ⟨idcSized, rfl⟩, key, _, ⟨keySized, rfl⟩, signature, _,
      ⟨signatureSized, rfl⟩, expDate, _, rfl, horizon, _, rfl, header, _, ⟨headerSized, rfl⟩, jwk, _,
      ⟨jwkSized, rfl⟩, revealed, _, rfl, chosen⟩
    rcases chosen with ⟨rfl, _, _, ⟨hash, _, ⟨hashSized, rfl⟩, rfl, rfl⟩, proof, _, ⟨proofSized, rfl⟩, rfl, rfl⟩ |
      ⟨hidden, _, _, ⟨rfl, rfl⟩, proof, _, ⟨proofSized, rfl⟩, rfl, rfl⟩
    · exact ⟨⟨⟨iss, issSized⟩, ⟨idc, idcSized⟩, ⟨key, keySized⟩, ⟨signature, signatureSized⟩, expDate, horizon,
        ⟨header, headerSized⟩, ⟨jwk, jwkSized⟩, some ⟨hash, hashSized⟩, ⟨proof, proofSized⟩⟩,
        by simp [Wire.writeKeyless, Gas.encodeBool], rfl⟩
    · exact ⟨⟨⟨iss, issSized⟩, ⟨idc, idcSized⟩, ⟨key, keySized⟩, ⟨signature, signatureSized⟩, expDate, horizon,
        ⟨header, headerSized⟩, ⟨jwk, jwkSized⟩, none, ⟨proof, proofSized⟩⟩,
        by simp [Wire.writeKeyless, Gas.encodeBool, hidden], rfl⟩
  · rintro ⟨⟨iss, idc, key, signature, expDate, horizon, header, jwk, extra, proof⟩, rfl, rfl⟩
    simp only [Wire.writeKeyless, List.append_assoc]
    refine ⟨_, _, ⟨iss.length_eq, rfl⟩, _, _, ⟨idc.length_eq, rfl⟩, _, _, ⟨key.length_eq, rfl⟩, _, _,
      ⟨signature.length_eq, rfl⟩, expDate, _, rfl, horizon, _, rfl, _, _, ⟨header.length_eq, rfl⟩, _, _,
      ⟨jwk.length_eq, rfl⟩, ?_⟩
    cases extra with
    | none => exact ⟨false, _, rfl, .inr ⟨by decide, _, _, ⟨rfl, rfl⟩, _, rest, ⟨proof.length_eq, rfl⟩, rfl, rfl⟩⟩
    | some hash =>
      exact ⟨true, _, rfl, .inl ⟨rfl, _, _, ⟨_, _, ⟨hash.length_eq, rfl⟩, rfl, rfl⟩, _, rest,
        ⟨proof.length_eq, rfl⟩, rfl, rfl⟩⟩

theorem authReader_eq_some : authReader input = some (a, rest) ↔
    ∃ auth : Authenticator, input = Wire.writeAuthenticator auth ++ rest ∧ a = ofAuthenticator auth := by
  simp only [authReader, bind_eq_some, ite_eq_some, failure_eq_some, pure_eq_some, takeU8_eq_some,
    takeBytes_eq_some, keylessReader_eq_some, and_false, or_false]
  constructor
  · rintro ⟨kind, _, rfl, ⟨rfl, key, _, ⟨keySized, rfl⟩, signature, _, ⟨signatureSized, rfl⟩, rfl, rfl⟩ |
      ⟨_, rfl, _, _, ⟨sig, rfl, rfl⟩, rfl, rfl⟩⟩
    · exact ⟨.ed25519 ⟨key, keySized⟩ ⟨signature, signatureSized⟩, by simp [Wire.writeAuthenticator], rfl⟩
    · exact ⟨.keyless sig, rfl, rfl⟩
  · rintro ⟨auth, rfl, rfl⟩
    cases auth with
    | ed25519 key signature =>
      exact ⟨0, _, rfl, .inl ⟨rfl, _, _, ⟨key.length_eq, by simp⟩, _, rest, ⟨signature.length_eq, rfl⟩, rfl, rfl⟩⟩
    | keyless sig => exact ⟨1, _, rfl, .inr ⟨by decide, rfl, _, rest, ⟨sig, rfl, rfl⟩, rfl, rfl⟩⟩

theorem decode_eq_some : decode b = some t ↔ b.length ≤ MAX_TRANSACTION_BYTES ∧
    ∃ tx : Transaction, tx.payload.Fits ∧ b = tx.encode ∧ t = ofTransaction tx := by
  rw [decode, ite_eq_iff]
  simp only [reduceCtorEq, and_false, false_or, Nat.not_lt, run'_eq_some, txReader, bind_eq_some,
    pure_eq_some, liftM_eq_some, takeBytes_eq_some, takeU64_eq_some, takeU32_eq_some, takeU128_eq_some,
    takeField_eq_some, decodePayload_eq_some, authReader_eq_some, done_eq_some]
  refine and_congr_right fun short => ?_
  constructor
  · rintro ⟨_, sender, _, ⟨sized, rfl⟩, nonce, _, rfl, asset, _, rfl, rate, _, rfl, intrinsic, _, rfl, limit, _,
      rfl, maxFee, _, rfl, priority, _, rfl, _, _, ⟨_, rfl⟩, _, _, ⟨⟨payload, fits, rfl, rfl⟩, rfl⟩, _, _,
      ⟨auth, rfl, rfl⟩, _, _, ⟨rfl, rfl⟩, rfl, rfl⟩
    exact ⟨⟨⟨sender, sized⟩, nonce, asset, rate, intrinsic, limit, maxFee, priority, payload, auth⟩, fits,
      by simp [Transaction.encode], rfl⟩
  · rintro ⟨tx, fits, rfl, rfl⟩
    have small : Framable (Wire.writePayload tx.payload) :=
      Nat.lt_of_le_of_lt (tx.payload_length_le.trans short) (by decide)
    simp only [Transaction.encode, List.append_assoc]
    exact ⟨[], _, _, ⟨tx.sender.length_eq, rfl⟩, tx.nonce, _, rfl, tx.feeAsset, _, rfl, tx.feeRate, _, rfl,
      tx.feeIntrinsicGas, _, rfl, tx.gasLimit, _, rfl, tx.maxFeePerGas, _, rfl, tx.maxPriorityFeePerGas, _,
      rfl, _, _, ⟨small, rfl⟩, _, _, ⟨⟨tx.payload, fits, rfl, rfl⟩, rfl⟩, _, [],
      ⟨tx.authenticator, by simp, rfl⟩, (), [], ⟨rfl, rfl⟩, rfl, rfl⟩

end TxCodec
end Sena
