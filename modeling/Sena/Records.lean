import Sena.Ledger

/-! The records of the state trie.

The trie commits to bytes, so a record has one spelling: a decoder accepts what
the encoder writes and nothing else. Two machines keep to it for accounts, the
node with an ordered map and the contract with a vector it orders by hand. The
symbol of a gas asset is the exception. It is read as text, and text is lossy
over bytes that are not UTF-8. -/
namespace Sena

open Move

/-- What an encoder returns that writes `n` as a `u32`; it panics over more. -/
def counting (n : Nat) (b : Bytes) : Option Bytes := if n < 2 ^ 32 then some b else none

theorem counting_eq_some : counting n b = some b' ↔ n < 2 ^ 32 ∧ b' = b := by
  unfold counting
  split <;> simp_all [eq_comm]

namespace Account

/-- What `encode` returns, if it does not panic. -/
def encoding (a : Account) : Option Bytes := counting a.balances.entries.length a.encode

theorem decode_eq_ok_iff {a : Account} : decode b = .ok a ↔ a.Positive ∧ a.encoding = some b := by
  rw [decode_eq_ok, encoding, counting_eq_some]
  exact ⟨fun ⟨⟨positive, counted⟩, same⟩ => ⟨positive, counted, same⟩,
    fun ⟨positive, counted, same⟩ => ⟨⟨positive, counted⟩, same⟩⟩

/-- What a change of balance comes to: the bytes written, or nothing if it is
refused; `none` if the encoder panics. -/
def outcome : Except BalanceError Account → Option (Option Bytes)
  | .ok a => a.encoding.map some
  | .error _ => some none

end Account

namespace Osp

variable {a : Sena.Account}

theorem decodeAccount_eq_ok : decodeAccount b = .ok m ↔ ∃ a, Account.decode b = .ok a ∧ m = ofAccount a := by
  rw [Account.osp_decodeAccount_eq_ok]
  refine exists_congr fun a => ?_
  rw [Account.decode_eq_ok]
  exact ⟨fun ⟨canonical, same, bytes⟩ => ⟨⟨canonical, bytes⟩, same⟩,
    fun ⟨⟨canonical, bytes⟩, same⟩ => ⟨canonical, same, bytes⟩⟩

theorem accountIn_eq_ok : accountIn present b = .ok m ↔
    ∃ a, Execute.decodeAccount (slotContents present b) = .ok a ∧ m = ofAccount a := by
  cases present with
  | false =>
    simp only [accountIn, slotContents_false, Execute.decodeAccount, Except.ok.injEq, exists_eq_left', Bool.false_eq_true,
      if_false]
    exact eq_comm
  | true =>
    rw [accountIn, if_pos rfl, decodeAccount_eq_ok, slotContents_true]
    simp only [Execute.decodeAccount, Move.mapError_eq_ok]

theorem encodeAccount_eq_ok (positive : a.Positive) : encodeAccount (ofAccount a) = .ok w ↔ a.encoding = some w := by
  have kept : a.balances.entries.filter (0 < ·.2.val) = a.balances.entries :=
    List.filter_eq_self.mpr fun e member => by simpa using positive e member
  simp only [encodeAccount, ofAccount, kept, bind_eq_ok, checked_eq_ok, pure_iff, Account.encoding,
    counting_eq_some]
  constructor
  · rintro ⟨count, same, rfl⟩
    exact ⟨same ▸ count.isLt, by rw [Account.encode, same]⟩
  · rintro ⟨counted, rfl⟩
    exact ⟨⟨_, counted⟩, rfl, rfl⟩

theorem eq_ok_iff_outcome {step : Move (Option Bytes)} {change : Sena.Account → Except BalanceError Sena.Account}
    (keeps : ∀ a a', change a = .ok a' → a.Positive → a'.Positive)
    (steps : ∀ a, accountIn present b = .ok (ofAccount a) → step =
      match change a with
      | .ok a' => some <$> encodeAccount (ofAccount a')
      | .error _ => .ok none)
    (aborts : ∀ e, accountIn present b = .error e → step = .error e) :
    step = .ok out ↔
      ∃ a, Execute.decodeAccount (slotContents present b) = .ok a ∧ Account.outcome (change a) = some out := by
  cases read : accountIn present b with
  | error e =>
    rw [aborts e read]
    refine iff_of_false nofun fun ⟨a, decoded, _⟩ => ?_
    rw [accountIn_eq_ok.mpr ⟨a, decoded, rfl⟩] at read
    cases read
  | ok m =>
    obtain ⟨a, decoded, rfl⟩ := accountIn_eq_ok.mp read
    rw [steps a read]
    have only : ∀ P : Sena.Account → Prop,
        (∃ a', Execute.decodeAccount (slotContents present b) = .ok a' ∧ P a') ↔ P a := by
      intro P
      rw [decoded]
      simp
    rw [only]
    cases changed : change a with
    | error e => simp [Account.outcome]
    | ok a' =>
      have positive := keeps a a' changed (Execute.decodeAccount_positive decoded)
      simp only [Account.outcome, map_eq_pure_bind, bind_eq_ok, pure_iff, Option.map_eq_some_iff,
        encodeAccount_eq_ok positive]

end Osp

theorem Osp.debit_eq_ok {account : L2Address} :
    transition crypto (.debit account.bytes asset amount) present b = .ok out ↔ ∃ a,
      Execute.decodeAccount (slotContents present b) = .ok a ∧ Account.outcome (a.debit asset amount) = some out :=
  eq_ok_iff_outcome (fun _ _ debited => (Account.debit_spec debited).2.2) (fun _ => transition_debit)
    fun e failed => by rw [transition, failed]; rfl

theorem Osp.credit_eq_ok {account : L2Address} :
    transition crypto (.credit account.bytes asset amount) present b = .ok out ↔ ∃ a,
      Execute.decodeAccount (slotContents present b) = .ok a ∧ Account.outcome (a.credit asset amount) = some out :=
  eq_ok_iff_outcome (fun _ _ credited => (Account.credit_spec credited).2.2) (fun _ => transition_credit)
    fun e failed => by rw [transition, failed]; rfl

namespace Account

/-- An account has one encoding, and both machines keep to it: they read the
same accounts, and a debit or a credit writes the same bytes, is refused in the
same cases, and stops in the same cases. -/
theorem one_encoding_on_both_machines :
    (∀ b a, decode b = .ok a ↔ a.Positive ∧ a.encoding = some b) ∧
    (∀ (a a' : Account) asset amount, a.Positive → a.credit asset amount = .ok a' ∨ a.debit asset amount = .ok a' →
      a'.Positive) ∧
    (∀ b m, Osp.decodeAccount b = .ok m ↔ ∃ a, decode b = .ok a ∧ m = Osp.ofAccount a) ∧
    ∀ (crypto : Crypto) (account : L2Address) asset amount present b out,
      (Osp.transition crypto (.debit account.bytes asset amount) present b = .ok out ↔ ∃ a,
        Execute.decodeAccount (slotContents present b) = .ok a ∧ outcome (a.debit asset amount) = some out) ∧
      (Osp.transition crypto (.credit account.bytes asset amount) present b = .ok out ↔ ∃ a,
        Execute.decodeAccount (slotContents present b) = .ok a ∧ outcome (a.credit asset amount) = some out) := by
  refine ⟨fun b a => decode_eq_ok_iff, fun a a' asset amount positive changed => ?_,
    fun b m => Osp.decodeAccount_eq_ok, fun _ _ _ _ _ _ _ => ⟨Osp.debit_eq_ok, Osp.credit_eq_ok⟩⟩
  rcases changed with credited | debited
  · exact (credit_spec credited).2.2 positive
  · exact (debit_spec debited).2.2 positive

/-- A balance debited in full leaves, and the account stays without a zero balance. -/
theorem emptied_account_is_positive :
    ∃ a', debit ⟨3, BTreeMap.empty.insert 1 7⟩ 1 7 = .ok a' ∧ a'.Positive ∧ a'.balances.entries = [] := by
  have positive : Account.Positive ⟨3, BTreeMap.empty.insert 1 7⟩ := by
    intro e member
    obtain rfl : e = (1, 7) := List.mem_singleton.mp member
    decide
  exact ⟨_, rfl, one_encoding_on_both_machines.2.1 _ _ 1 7 positive (.inr rfl), rfl⟩

end Account

/-- What `encode` returns, if it does not panic. -/
def WhitelistedAsset.encoding (r : WhitelistedAsset) : Option Bytes := counting r.symbol.bytes.length r.encode

def Council.encoding (c : Council) : Option Bytes := counting c.members.length c.encode

def FeeSplit.encoding (split : FeeSplit) : Option Bytes := counting split.beneficiaries.length split.encode

theorem Council.decode_eq_ok_iff {c : Council} : Council.decode b = .ok c ↔ c.encoding = some b := by
  rw [decode_eq_ok, encoding, counting_eq_some]

theorem FeeSplit.decode_eq_ok_iff {split : FeeSplit} :
    FeeSplit.decode b = .ok split ↔ split.Fits ∧ split.encoding = some b := by
  rw [decode_eq_ok, encoding, counting_eq_some]
  refine and_congr_right fun fits => (and_iff_right ?_).symm
  exact Nat.lt_of_le_of_lt fits (by decide)

namespace WhitelistedAsset

variable {r : WhitelistedAsset}

theorem decode_of_encoding (encoded : r.encoding = some b) : decode b = .ok r := by
  obtain ⟨small, rfl⟩ := counting_eq_some.mp encoded
  exact decode_encode small

theorem encoding_layout (small : Framable raw) (same : r.symbol = Utf8.lossy raw) :
    r.encoding = some (r.layout raw) ↔ utf8Valid raw = true := by
  rw [encoding, counting_eq_some, ← Utf8.lossy_bytes_iff, ← same, ← layout_symbol]
  constructor
  · rintro ⟨-, bytes⟩
    exact (layout_inj bytes).symm
  · intro text
    rw [text]
    exact ⟨small, rfl⟩

theorem decode_eq_ok_iff : decode b = .ok r ↔ ∃ raw, counting raw.length (r.layout raw) = some b ∧
    r.symbol = Utf8.lossy raw ∧ (r.encoding = some b ↔ utf8Valid raw = true) := by
  rw [decode_eq_ok]
  refine exists_congr fun raw => ?_
  rw [counting_eq_some]
  constructor
  · rintro ⟨small, same, rfl⟩
    exact ⟨⟨small, rfl⟩, same, encoding_layout small same⟩
  · rintro ⟨⟨small, rfl⟩, same, -⟩
    exact ⟨small, same, rfl⟩

end WhitelistedAsset

/-- The stored records have one spelling each, up to the symbol of a gas asset:
any bytes are read as its text, and they are written back if they are text. -/
theorem stored_records_have_one_spelling :
    (∀ b market, FeeMarket.decode b = .ok market ↔ market.encode = b) ∧
    (∀ b binding, SocialBinding.decode b = .ok binding ↔ binding.encode = b) ∧
    (∀ b council, Council.decode b = .ok council ↔ council.encoding = some b) ∧
    (∀ b split, FeeSplit.decode b = .ok split ↔ split.Fits ∧ split.encoding = some b) ∧
    (∀ b record, record.encoding = some b → WhitelistedAsset.decode b = .ok record) ∧
    ∀ b record, WhitelistedAsset.decode b = .ok record ↔ ∃ raw,
      counting raw.length (record.layout raw) = some b ∧ record.symbol = Utf8.lossy raw ∧
        (record.encoding = some b ↔ utf8Valid raw = true) :=
  ⟨fun _ _ => FeeMarket.decode_eq_ok.trans eq_comm, fun _ _ => SocialBinding.decode_eq_ok.trans eq_comm,
    fun _ _ => Council.decode_eq_ok_iff, fun _ _ => FeeSplit.decode_eq_ok_iff,
    fun _ _ => WhitelistedAsset.decode_of_encoding, fun _ _ => WhitelistedAsset.decode_eq_ok_iff⟩

/-- The record of an asset whose symbol is the one letter A. -/
def WhitelistedAsset.lettered : WhitelistedAsset := ⟨1, ⟨[0x41], by decide⟩, 1000000, 50000, true⟩

theorem lettered_record_is_read_back : ∃ b, WhitelistedAsset.lettered.encoding = some b ∧
    WhitelistedAsset.decode b = .ok .lettered :=
  ⟨_, rfl, stored_records_have_one_spelling.2.2.2.2.1 _ _ rfl⟩

/-- A symbol of one byte that begins no text is read as U+FFFD and written as its three bytes. -/
theorem ill_formed_symbol_is_respelled : ∃ record,
    WhitelistedAsset.decode (WhitelistedAsset.lettered.layout [0xFF]) = .ok record ∧
      record.encode ≠ WhitelistedAsset.lettered.layout [0xFF] := by
  refine ⟨{ WhitelistedAsset.lettered with symbol := Utf8.lossy [0xFF] },
    WhitelistedAsset.decode_eq_ok.mpr ⟨[0xFF], by decide, rfl, rfl⟩, ?_⟩
  decide

end Sena
