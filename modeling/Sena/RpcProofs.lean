import Sena.BridgeProofs
import Sena.PastStates
import Sena.Quorum

/-! What the proofs of a node's RPC are good for.

The path is always the right one, for the trie keeps the nodes of every root it
had. The value is the one of today, so a proof for a past state stands or falls
with whether the account has been written since. -/
namespace Sena

open L1Client (hexEncode hexDecode hexDecode_hexEncode)
open Move (bind_eq_ok ensure_eq_ok)
open TrieVerifier (ofTerminal leafTerminal emptyTerminal)

variable {crypto : Crypto} {genesis past : MerkleTrie} {s : Sequencer}

namespace Sequencer

theorem Sealed.finalizedHeight_le (sealed' : Sealed crypto genesis s) : s.finalizedHeight ≤ s.blocks.length := by
  unfold finalizedHeight
  cases found : s.blocks.reverse.find? _ with
  | none => exact Nat.zero_le _
  | some block =>
    obtain ⟨i, inside, here⟩ := List.mem_iff_getElem.mp (List.mem_reverse.mp (List.mem_of_find?_eq_some found))
    have numbered := sealed'.heights i block (List.getElem?_eq_some_iff.mpr ⟨inside, here⟩)
    simp only [Option.map_some, Option.getD_some, numbered]
    omega

end Sequencer

/-- The check a withdrawal makes of its proof against the assertion's root. -/
def Bridge.checkProof (crypto : Crypto) (root : Bytes) (claimant : Address) (claim : Claim) : Move Unit := do
  let slot ← accountSlot crypto claimant
  Move.ensure (claim.terminalIsLeaf = true → claim.terminalKey = slot) (.code .bridge E_SLOT_NOT_CLAIMANTS)
  TrieVerifier.verifyInclusion crypto claim.proof root slot (TrieVerifier.hashValue crypto claim.accountValue)

/-- Nothing is paid without it. -/
theorem Bridge.checkProof_of_withdraw {claim : Claim}
    (root : Assertions.finalizedRoot chain claim.assertionId = .ok rootBytes)
    (paid : Bridge.withdraw crypto chain b claimant claim = .ok b') :
    Bridge.checkProof crypto rootBytes claimant claim = .ok () := by
  rw [withdraw, root, Move.ok_bind] at paid
  obtain ⟨slot, derived, paid⟩ := bind_eq_ok.mp paid
  obtain ⟨_, own, paid⟩ := bind_eq_ok.mp paid
  obtain ⟨_, verified, _⟩ := bind_eq_ok.mp paid
  exact bind_eq_ok.mpr ⟨slot, derived, bind_eq_ok.mpr ⟨(), own, verified⟩⟩

namespace Rpc

open TrieVerifier (ofProof)

/-- A proof of the trie as arguments of a withdrawal. -/
def claimOf (assertionId value : Bytes) (proof : MerkleProof) : Bridge.Claim where
  assertionId := assertionId
  accountValue := value
  siblings := (ofProof proof).siblings
  terminalIsLeaf := (ofProof proof).terminal.isLeaf
  terminalKey := (ofProof proof).terminal.key
  terminalValueHash := (ofProof proof).terminal.valueHash

theorem claimOf_proof (assertionId value : Bytes) (proof : MerkleProof) :
    (claimOf assertionId value proof).proof = ofProof proof := by
  cases ends : proof.terminal with
  | empty | leaf => simp [claimOf, Bridge.Claim.proof, ofProof, ends, ofTerminal,
      leafTerminal, emptyTerminal]

/-- The bridge's check is the node's own. -/
theorem checkProof_claimOf (assertionId value : Bytes) (proof : MerkleProof) (root : Hash256) (address : L2Address) :
    Bridge.checkProof crypto root.bytes address (claimOf assertionId value proof) = .ok () ↔
      proof.verifyInclusion crypto root (Keys.account crypto address) value = .ok () := by
  have slot : Bridge.accountSlot crypto address = .ok (Keys.account crypto address).bytes :=
    Codec.digest_eq_ok.mpr ⟨by simp [TrieVerifier.framable_hash], rfl⟩
  rw [← TrieVerifier.verifyInclusion_bytes, Bridge.checkProof, slot, Move.ok_bind, claimOf_proof, bind_eq_ok]
  constructor
  · rintro ⟨_, _, verified⟩
    exact verified
  · intro verified
    refine ⟨(), ?_, verified⟩
    rw [TrieVerifier.verifyInclusion_bytes, MerkleProof.verifyInclusion_eq_ok] at verified
    rw [ensure_eq_ok]
    intro _
    simp [claimOf, ofProof, verified.2, ofTerminal, leafTerminal]

theorem mapM_hexDecode (hashes : List Hash256) :
    hashes.mapM (hexDecode ∘ fun h => hexEncode h.bytes) = some (hashes.map (·.bytes)) := by
  induction hashes with
  | nil => rfl
  | cons h hashes ih => simp [hexDecode_hexEncode, ih]

theorem withdrawalProof_spec (passed : s.Passed crypto genesis s.finalizedHeight past) (final : 0 < s.finalizedHeight)
    (address : L2Address) : ∃ response, withdrawalProof crypto s address = .ok response ∧
      response.stateRoot = past.root ∧ ∀ id, response.claim id =
        some (claimOf id ((s.state.get (Keys.account crypto address)).getD [])
          (s.state.proveAt past.root (Keys.account crypto address))) := by
  obtain ⟨block, found, root⟩ := passed.posted final
  unfold withdrawalProof
  simp only [if_neg (Nat.ne_of_gt final), found, root]
  refine ⟨_, rfl, rfl, fun id => ?_⟩
  have nothing : hexDecode [] = some [] := rfl
  cases ends : (s.state.proveAt past.root (Keys.account crypto address)).terminal with
  | empty => simp [WithdrawalProof.claim, terminalText, hexDecode_hexEncode, mapM_hexDecode, claimOf, ofProof, ends,
      nothing, ofTerminal, emptyTerminal]
  | leaf key valueHash => simp [WithdrawalProof.claim, terminalText, hexDecode_hexEncode, mapM_hexDecode, claimOf,
      ofProof, ends, ofTerminal, leafTerminal]

theorem checkProof_iff (passed : s.Passed crypto genesis height past) (is : MerkleTrie.Built crypto s.state)
    (address : L2Address) {account : Account}
    (held : Execute.decodeAccount (past.get (Keys.account crypto address)) = .ok account)
    (positive : 0 < (account.balance asset).val)
    (free : CollisionFree crypto.sha256 (MerkleTrie.images s.state.nodes ∪
      {b | past.get (Keys.account crypto address) = some b ∨ b = (s.state.get (Keys.account crypto address)).getD []}))
    (id : Bytes) :
    Bridge.checkProof crypto past.root.bytes address (claimOf id ((s.state.get (Keys.account crypto address)).getD [])
        (s.state.proveAt past.root (Keys.account crypto address))) = .ok () ↔
      s.state.get (Keys.account crypto address) = past.get (Keys.account crypto address) := by
  rw [checkProof_claimOf, (MerkleTrie.verify_proveAt_iff passed.built is passed.grown free (fun b member => .inl member)
    (fun b found => .inr (.inl found)) (.inr (.inr rfl))).1]
  cases stored : past.get (Keys.account crypto address) with
  | none =>
    rw [stored] at held
    cases held
    exact absurd positive (Nat.lt_irrefl 0)
  | some b =>
    rw [stored] at held
    cases now : s.state.get (Keys.account crypto address) with
    | some value => simp [eq_comm]
    | none =>
      -- no account encodes to nothing
      have some' : b ≠ [] := by
        rintro rfl
        cases held
      simpa using some'

/-- A withdrawal proof is payable exactly while the account is unchanged: for an
account that had a balance after the last final block, the bridge accepts the
response against that block's root if and only if the account's stored value is
still the one it had then. -/
theorem withdrawal_proof_pays_iff {config : GenesisConfig} {hashing : JwkHashing}
    (founded : config.buildState crypto hashing = .ok genesis) (reachable : s.Reachable crypto genesis)
    (final : 0 < s.finalizedHeight) (address : L2Address) (asset : U32) (id : Bytes) :
    ∃ response past, withdrawalProof crypto s address = .ok response ∧
      s.StateAt crypto genesis s.finalizedHeight past ∧
      (∃ block, s.blocks[s.finalizedHeight - 1]? = some block ∧ block.postStateRoot = past.root) ∧
      response.stateRoot = past.root ∧
      ∀ account, Execute.decodeAccount (past.get (Keys.account crypto address)) = .ok account →
        0 < (account.balance asset).val →
        CollisionFree crypto.sha256 (MerkleTrie.images s.state.nodes ∪ {b | past.get (Keys.account crypto address) = some b ∨
          b = (s.state.get (Keys.account crypto address)).getD []}) →
        ((∃ claim, response.claim id = some claim ∧
            Bridge.checkProof crypto past.root.bytes address claim = .ok ()) ↔
          s.state.get (Keys.account crypto address) = past.get (Keys.account crypto address)) := by
  have sealed' := reachable.sealed
  have built := GenesisConfig.built_of_buildState founded
  obtain ⟨past, passed⟩ := sealed'.exists_passed built sealed'.finalizedHeight_le
  obtain ⟨response, returned, root, claims⟩ := withdrawalProof_spec passed final address
  refine ⟨response, past, returned, passed.reached, passed.posted final, root, ?_⟩
  intro account held positive free
  rw [← checkProof_iff passed (sealed'.built built) address held positive free id, claims]
  simp

end Rpc

namespace Devnet

open Sequencer (Work Works)

def repaymentSignature : FixedBytes 64 := .ofHalves
  0x73b70c58750ea0c77bc9e3cad99b391ab51e239823c574fea4d52d07b184b79e
  0x343d3fddc111bec89ea5054ec61dba8be5d04982797adbd5205e495d7ec26a0d

def repaymentDigest : Bytes :=
  be 32 0x5462ad6fbc24f4b49ebabf03537c8745253428b609dfd74a1ebe8971d0a20002

/-- SHA-256 as it is, and the two signatures made here. -/
def paying : Crypto :=
  .accepting [(alice.bytes, transferSignature.bytes, transferDigest),
    (alice.bytes, repaymentSignature.bytes, repaymentDigest)]

def repayment : Transaction := transaction 1 41000 (.transfer bob 1 1000) repaymentSignature

/-- The node before the first block is final, once it is, and after one more. -/
def movingOn (crypto : Crypto) : Option (MerkleTrie × Sequencer × Sequencer × Sequencer) := do
  let genesis ← (small.buildState crypto hashing).toOption
  let started ← (startNode crypto genesis 86400 1 0 1 none .empty).bind (·.toOption)
  let first ← [Work.call 1700000000 (.submit payment), .call 1700000000 (.submit repayment),
    .call 1700000000 (.produce 1)].foldlM (Sequencer.work crypto)
    { started with feeRecipient := Execute.FEE_VAULT, feeAssetLimits := [] }
  let final ← [Work.advanceTo 86400, .finalize first.head].foldlM (Sequencer.work crypto) first
  let second ← [Work.call 1700000000 (.produce 1)].foldlM (Sequencer.work crypto) final
  return (genesis, first, final, second)

theorem runs_of_movingOn (held : movingOn crypto = some (genesis, first, final, second)) :
    small.buildState crypto hashing = .ok genesis ∧ final.Reachable crypto genesis ∧
      ∃ works, Run (Works crypto) final works second := by
  simp only [movingOn, Option.bind_eq_bind, Option.bind_eq_some_iff, Option.pure_def, Option.some.injEq,
    Prod.mk.injEq] at held
  obtain ⟨_, built, _, ⟨_, started, accepted⟩, _, sealing, _, closing, _, again, rfl, rfl, rfl, rfl⟩ := held
  have reachable := Sequencer.Reachable.started Execute.FEE_VAULT [] (started.trans
    (congrArg some (Move.toOption_eq_some.mp accepted)))
  exact ⟨Move.toOption_eq_some.mp built, (reachable.run (Run.foldlM_eq_some.mp sealing)).run
    (Run.foldlM_eq_some.mp closing), _, Run.foldlM_eq_some.mp again⟩

/-- An address nobody has used. -/
def stranger : L2Address := FixedBytes.fill 32 0x11

/-- What the scenario comes to. -/
@[mk_iff]
structure Moved (crypto : Crypto) (genesis : MerkleTrie) (final second : Sequencer) : Prop where
  heights : final.blocks.length = 1 ∧ final.finalizedHeight = 1 ∧ second.finalizedHeight = 1
  paid : ∃ account, Execute.decodeAccount (final.state.get (Keys.account crypto alice)) = .ok account ∧
    0 < (account.balance 1).val
  moved : second.state.get (Keys.account crypto alice) ≠ final.state.get (Keys.account crypto alice)
  unknown : genesis.get (Keys.account crypto stranger) = none ∧ final.state.get (Keys.account crypto stranger) = none
  refused : (Rpc.accountProof crypto final stranger (some 0)).toOption = none
  vacant : genesis.get (Keys.account crypto sequencer) = none ∧ final.state.get (Keys.account crypto sequencer) = none
  open' : (genesis.prove (Keys.account crypto sequencer)).terminal = .empty
  answered : ∃ response, Rpc.accountProof crypto final sequencer (some 0) = .ok response
  filled : final.state.get (Keys.account crypto alice) ≠ some Account.new.encode
  named : ∀ s ∈ Execute.slotList crypto (Execute.entries final.batches), s ∈ slots
  apart : MerkleTrie.digestsApart crypto.sha256 (MerkleTrie.imageList second.state.nodes ++ [Account.new.encode,
    (final.state.get (Keys.account crypto alice)).getD [], (second.state.get (Keys.account crypto alice)).getD []] ++
      slots.map Slot.image) = true

instance : Decidable (Moved crypto genesis final second) := decidable_of_iff' _ (moved_iff ..)

theorem moved_spec : ∃ genesis final second works, small.buildState paying hashing = .ok genesis ∧
    final.Reachable paying genesis ∧ Run (Works paying) final works second ∧ Moved paying genesis final second := by
  obtain ⟨⟨genesis, first, final, second⟩, held, moved⟩ :
      ∃ m ∈ movingOn paying, Moved paying m.1 m.2.2.1 m.2.2.2 := by
    decide +kernel
  obtain ⟨built, reachable, works, ran⟩ := runs_of_movingOn held
  exact ⟨genesis, final, second, works, built, reachable, ran, moved⟩

/-- The final block's state is the one both nodes prove against. -/
theorem Moved.passed {final second : Sequencer}
    (moved : Moved crypto genesis final second) (built : MerkleTrie.Built crypto genesis)
    (reachable : final.Reachable crypto genesis) (ran : Run (Works crypto) final works second) :
    final.Passed crypto genesis 1 final.state ∧ second.Passed crypto genesis 1 final.state := by
  obtain ⟨one, _, still⟩ := moved.heights
  obtain ⟨past, passed⟩ := reachable.sealed.exists_passed built (Nat.le_of_eq one.symm)
  obtain rfl := passed.current one.symm
  have sealed' := (reachable.run ran).sealed
  obtain ⟨other, later⟩ := sealed'.exists_passed built (still ▸ sealed'.finalizedHeight_le)
  obtain rfl := later.unique (passed.reached.of_run (Nat.le_of_eq one.symm) ran)
  exact ⟨passed, later⟩

/-- The strings hashed in the scenario. -/
def shown (crypto : Crypto) (final second : Sequencer) : Set Bytes :=
  {b | b ∈ MerkleTrie.imageList second.state.nodes ++ [Account.new.encode,
    (final.state.get (Keys.account crypto alice)).getD [], (second.state.get (Keys.account crypto alice)).getD []] ++
      slots.map Slot.image}

theorem mem_shown_of_node (stored : b ∈ MerkleTrie.images second.state.nodes) : b ∈ shown crypto final second :=
  List.mem_append_left _ (List.mem_append_left _ (MerkleTrie.mem_imageList stored))

theorem mem_shown_of_final (found : final.state.get (Keys.account crypto alice) = some b) :
    b ∈ shown crypto final second := by
  simp [shown, found]

open Rpc

/-- Once her payment is final, the bridge pays her by the node's proof. -/
theorem unmoved_account_is_payable : ∃ genesis s past response claim,
    small.buildState paying hashing = .ok genesis ∧ s.Reachable paying genesis ∧
      s.finalizedHeight = 1 ∧ s.StateAt paying genesis 1 past ∧
      withdrawalProof paying s alice = .ok response ∧ response.claim [] = some claim ∧
      Bridge.checkProof paying past.root.bytes alice claim = .ok () := by
  obtain ⟨genesis, s, second, works, founded, reachable, ran, moved⟩ := moved_spec
  obtain ⟨one, final, _⟩ := moved.heights
  obtain ⟨response, past, returned, reached, _, _, pays⟩ :=
    withdrawal_proof_pays_iff founded reachable (by rw [final]; decide) alice 1 []
  obtain ⟨account, decoded, positive⟩ := moved.paid
  obtain ⟨here, later⟩ := moved.passed (GenesisConfig.built_of_buildState founded) reachable ran
  rw [final] at reached
  obtain rfl := here.unique reached
  obtain ⟨claim, spelled, accepted⟩ := (pays account decoded positive
    ((MerkleTrie.collisionFree_of_digestsApart moved.apart).mono (by
      rintro b (stored | found | rfl)
      · exact mem_shown_of_node (MerkleTrie.images_mono later.grown stored)
      · exact mem_shown_of_final found
      · simp))).mpr rfl
  exact ⟨genesis, s, _, response, claim, founded, reachable, final, reached, returned, spelled, accepted⟩

/-- After her next payment it does not: the proof is still drawn against the final
block, but shows what she has now. -/
theorem moved_account_is_not_payable : ∃ genesis s past account response,
    small.buildState paying hashing = .ok genesis ∧ s.Reachable paying genesis ∧
      s.finalizedHeight = 1 ∧ s.StateAt paying genesis 1 past ∧
      Execute.decodeAccount (past.get (Keys.account paying alice)) = .ok account ∧
      0 < (account.balance 1).val ∧ withdrawalProof paying s alice = .ok response ∧
      response.stateRoot = past.root ∧ ∀ id claim, response.claim id = some claim →
        Bridge.checkProof paying past.root.bytes alice claim ≠ .ok () ∧
        ∀ chain b b', Assertions.finalizedRoot chain claim.assertionId = .ok past.root.bytes →
          Bridge.withdraw paying chain b alice claim ≠ .ok b' := by
  obtain ⟨genesis, final, s, works, founded, reachable, ran, moved⟩ := moved_spec
  obtain ⟨_, _, still⟩ := moved.heights
  have built := GenesisConfig.built_of_buildState founded
  obtain ⟨_, later⟩ := moved.passed built reachable ran
  obtain ⟨account, decoded, positive⟩ := moved.paid
  obtain ⟨response, returned, root, claims⟩ :=
    withdrawalProof_spec (still.symm ▸ later) (by rw [still]; decide) alice
  refine ⟨genesis, s, final.state, account, response, founded, reachable.run ran, still, later.reached,
    decoded, positive, returned, root, fun id claim spelled => ?_⟩
  obtain rfl := Option.some.inj ((claims id).symm.trans spelled)
  have refused : Bridge.checkProof paying final.state.root.bytes alice (claimOf id
      ((s.state.get (Keys.account paying alice)).getD [])
      (s.state.proveAt final.state.root (Keys.account paying alice))) ≠ .ok () := by
    rw [ne_eq, checkProof_iff later ((reachable.run ran).sealed.built built) alice decoded
      positive]
    · exact moved.moved
    · refine (MerkleTrie.collisionFree_of_digestsApart moved.apart).mono ?_
      rintro b (stored | found | rfl)
      · exact mem_shown_of_node stored
      · exact mem_shown_of_final found
      · simp
  exact ⟨refused, fun chain b b' finalized paid => refused (Bridge.checkProof_of_withdraw finalized paid)⟩

end Devnet

theorem claimedBalances_append {start all : Balances}
    (same : all.entries = start.entries ++ list) (positive : ∀ e ∈ list, 0 < e.2.val) :
    claimedBalances list start = .ok all := by
  induction list generalizing start with
  | nil => rw [claimedBalances, BTreeMap.ext (same.trans (List.append_nil _))]
  | cons e list ih =>
    obtain ⟨asset, amount⟩ := e
    rw [List.forall_mem_cons] at positive
    have above : ∀ e ∈ start.entries, e.1.val < asset.val := fun e member =>
      (List.pairwise_append.mp (same ▸ all.sorted)).2.2 e member (asset, amount) (by simp)
    have fresh : start.get asset = none :=
      SortedMap.get_eq_none _ fun e member => Nat.ne_of_lt (above e member)
    have last : (start.insert asset amount).entries = start.entries ++ [(asset, amount)] :=
      SortedMap.insert_last _ above
    rw [claimedBalances, if_neg (Nat.ne_of_gt positive.1), fresh, if_neg (by simp)]
    exact ih (by rw [last, same]; simp) positive.2

theorem Account.Canonical.claimedBalances_entries {account : Account} (canonical : account.Canonical) :
    claimedBalances account.balances.entries .empty = .ok account.balances :=
  claimedBalances_append rfl canonical.positive

theorem Account.eq_new_iff (account : Account) :
    account = .new ↔ account.nonce = 0 ∧ account.balances.entries = [] := by
  constructor
  · rintro rfl
    exact ⟨rfl, rfl⟩
  · rintro ⟨nonce, balances⟩
    cases account with
    | mk _ _ => exact congrArg₂ Account.mk nonce (BTreeMap.ext balances)

theorem Account.Canonical.encode_inj {a b : Account} (canonicalA : a.Canonical) (canonicalB : b.Canonical)
    (same : a.encode = b.encode) : a = b :=
  Except.ok.inj ((decode_eq_ok.mpr ⟨canonicalA, rfl⟩).symm.trans (decode_eq_ok.mpr ⟨canonicalB, same⟩))

/-- A claim of an account's contents fits what is stored unless the account is empty. -/
theorem Account.Canonical.shown_iff {account : Account} (canonical : account.Canonical) :
    (some account.encode = if account = .new then none else some account.encode) ↔
      ¬(some account.encode = some Account.new.encode ∧ some account.encode = some Account.new.encode) := by
  by_cases new : account = .new
  · simp [new]
  · simp only [if_neg new, true_iff]
    intro same
    exact new (canonical.encode_inj canonical_new (Option.some.inj same.1))

namespace Rpc

theorem fields_encode {account : Account} (canonical : account.Canonical) :
    fields account.encode = (account.nonce, account.balances.entries) := by
  rw [fields, Account.decode_eq_ok.mpr ⟨canonical, rfl⟩]

theorem verifyAccountStandalone_eq_ok {account : Account} (canonical : account.Canonical)
    (proof : MerkleProof) (root : Hash256) (address : L2Address) :
    verifyAccountStandalone crypto root address account.nonce account.balances.entries proof = some (.ok balances) ↔
      balances = account.balances ∧
        if account = .new then proof.verifyNonInclusion crypto root (Keys.account crypto address) = .ok ()
        else proof.verifyInclusion crypto root (Keys.account crypto address) account.encode = .ok () := by
  have mapped : ∀ x : Except ProofError Unit, (do
      Except.mapError LightClientError.proof x
      return account.balances : Except LightClientError Balances) = .ok balances ↔
        balances = account.balances ∧ x = .ok () := by
    intro x
    cases x with
    | error e => simp [Except.mapError]
    | ok => simp [Except.mapError, eq_comm]
  simp only [verifyAccountStandalone, canonical.claimedBalances_entries, ← account.eq_new_iff]
  by_cases new : account = .new
  · rw [if_pos new, if_pos new, Option.some.injEq]
    exact mapped _
  · rw [if_neg new, if_neg new, if_pos canonical.counted, Option.some.injEq]
    exact mapped _

/-- A reply is good for every client that trusts the root of the state it is about. -/
def Convinces (crypto : Crypto) (past : MerkleTrie) (response : AccountProof) : Prop :=
  ∀ client level, LightClient.trustLevelOf client past.root = some level →
    ∃ v, client.verifyAccountProof crypto response.payload = some (.ok v) ∧
      Execute.decodeAccount (past.get (Keys.account crypto response.address)) = .ok ⟨v.nonce, v.balances⟩

/-- What a client is owed at a height: a good reply, or an error that says truly that
the account has been overwritten. -/
def Serves (crypto : Crypto) (s : Sequencer) (address : L2Address) (targetHeight : Option Nat) (past : MerkleTrie) :
    Prop :=
  match accountProof crypto s address targetHeight with
  | .ok response => response.address = address ∧ response.stateRoot = past.root ∧ Convinces crypto past response
  | .error _ => past.get (Keys.account crypto address) ≠ s.state.get (Keys.account crypto address)

/-- The states in which a client is served: the account is not one that was stored empty
and still is; and, for a past height, if its path ended in the leaf of another then it
is stored by now, and not with that leaf's value unless that is an empty account. -/
structure Servable (crypto : Crypto) (s : Sequencer) (address : L2Address) (height : Nat) (past : MerkleTrie) :
    Prop where
  filled : ¬(past.get (Keys.account crypto address) = some Account.new.encode ∧
    s.state.get (Keys.account crypto address) = some Account.new.encode)
  apart : height < s.blocks.length → ∀ other valueHash, other ≠ Keys.account crypto address →
    (past.prove (Keys.account crypto address)).terminal = .leaf other valueHash →
      ∃ b, s.state.get (Keys.account crypto address) = some b ∧
        (b = Account.new.encode ∨ crypto.sha256 b ≠ valueHash)

/-- What the node claims of an account at a height. -/
def claimAt (crypto : Crypto) (s : Sequencer) (past : MerkleTrie) (address : L2Address) (height : Nat) :
    Except String (U64 × List (U32 × U128)) :=
  claimed crypto (height = s.blocks.length) (s.state.get (Keys.account crypto address))
    (past.prove (Keys.account crypto address)).terminal height

/-- What the node claims of an account whose stored value is still that of the leaf. -/
theorem claimAt_of_kept {account : Account} (before : height < s.blocks.length)
    (ends : (past.prove (Keys.account crypto address)).terminal = .leaf other valueHash) (canonical : account.Canonical)
    (value : s.state.get (Keys.account crypto address) = some account.encode)
    (same : crypto.sha256 account.encode = valueHash) :
    claimAt crypto s past address height = .ok (account.nonce, account.balances.entries) := by
  simp only [claimAt, claimed, Nat.ne_of_lt before, decide_false, Bool.false_eq_true, if_false, ends, value, same,
    if_true, fields_encode canonical]

theorem claimAt_of_gone (before : height < s.blocks.length)
    (ends : (past.prove (Keys.account crypto address)).terminal = .leaf other valueHash)
    (gone : ∀ b, s.state.get (Keys.account crypto address) = some b → crypto.sha256 b ≠ valueHash) :
    ∃ e, claimAt crypto s past address height = .error e := by
  simp only [claimAt, claimed, Nat.ne_of_lt before, decide_false, Bool.false_eq_true, if_false, ends]
  cases value : s.state.get (Keys.account crypto address) with
  | none => exact ⟨_, rfl⟩
  | some b =>
    simp only [gone b value, if_false]
    exact ⟨_, rfl⟩

/-- Where no path of the past ended in another's leaf, only an empty account is not served. -/
theorem servable_iff_filled (own : height < s.blocks.length → ∀ other valueHash, other ≠ Keys.account crypto address →
      (past.prove (Keys.account crypto address)).terminal ≠ .leaf other valueHash) :
    Servable crypto s address height past ↔ ¬(past.get (Keys.account crypto address) = some Account.new.encode ∧
      s.state.get (Keys.account crypto address) = some Account.new.encode) :=
  ⟨fun servable => servable.filled,
    fun filled => ⟨filled, fun earlier other valueHash apart leaf => absurd leaf (own earlier other valueHash apart)⟩⟩

theorem servable_iff_apart (before : height < s.blocks.length)
    (ends : (past.prove (Keys.account crypto address)).terminal = .leaf other valueHash)
    (apart : other ≠ Keys.account crypto address) (missing : past.get (Keys.account crypto address) = none) :
    Servable crypto s address height past ↔ ∃ b, s.state.get (Keys.account crypto address) = some b ∧
      (b = Account.new.encode ∨ crypto.sha256 b ≠ valueHash) := by
  constructor
  · intro servable
    exact servable.apart before other valueHash apart ends
  · intro now
    refine ⟨by simp [missing], fun _ o v _ leaf => ?_⟩
    cases ends.symm.trans leaf
    exact now

section Past

variable {set : Set Bytes} {address : L2Address} {height : Nat} (passed : s.Passed crypto genesis height past)
  (is : MerkleTrie.Built crypto s.state) (free : CollisionFree crypto.sha256 set)
  (stored : MerkleTrie.images s.state.nodes ⊆ set)
include passed is free stored

/-- An answer that names none. -/
theorem serves_of_error (target : Option Nat) (asked : target.getD s.blocks.length = height)
    (within : height ≤ s.blocks.length)
    (answer : claimAt crypto s past address height = .error e) :
    Serves crypto s address target past ↔
      past.get (Keys.account crypto address) ≠ s.state.get (Keys.account crypto address) := by
  have drawn := MerkleTrie.proveAt_eq_prove passed.built is passed.grown (free.mono stored) (Keys.account crypto address)
  rw [claimAt, ← drawn] at answer
  unfold Serves accountProof
  simp only [asked, passed.rootAt within, Move.ok_bind, answer, Move.error_bind]

variable (held : ∀ b, past.get (Keys.account crypto address) = some b → b ∈ set)
include held

theorem convinces_iff {account : Account} (canonical : account.Canonical) (shown : account.encode ∈ set)
    (response : AccountProof) (named : response.address = address) (root : response.stateRoot = past.root)
    (nonce : response.nonce = account.nonce) (balances : response.balances = account.balances.entries)
    (drawn : ⟨response.siblings, response.terminal⟩ = s.state.proveAt past.root (Keys.account crypto address)) :
    Convinces crypto past response ↔ past.get (Keys.account crypto address) =
      if account = .new then none else some account.encode := by
  obtain ⟨includes, excludes⟩ := MerkleTrie.verify_proveAt_iff passed.built is passed.grown free stored held shown
  have check : ∀ found, verifyAccountStandalone crypto response.payload.stateRoot response.payload.address
      response.payload.nonce response.payload.balances response.payload.proof = some (.ok found) ↔
        found = account.balances ∧ past.get (Keys.account crypto address) =
          if account = .new then none else some account.encode := by
    intro found
    have same : response.payload.proof = s.state.proveAt past.root (Keys.account crypto address) := drawn
    rw [same, show response.payload.stateRoot = past.root from root, show response.payload.address = address from named,
      show response.payload.nonce = account.nonce from nonce,
      show response.payload.balances = account.balances.entries from balances, verifyAccountStandalone_eq_ok canonical]
    by_cases new : account = .new
    · rw [if_pos new, if_pos new, excludes]
    · rw [if_neg new, if_neg new, includes]
  constructor
  · intro convinces
    obtain ⟨v, verified, _⟩ := convinces ⟨past.root, none⟩ .finalized (if_pos rfl)
    obtain ⟨_, _, _, checked⟩ := LightClient.verifyAccountProof_eq_ok verified
    exact ((check _).mp checked).2
  · intro was client level trusted
    have checked := (check account.balances).mpr ⟨rfl, was⟩
    refine ⟨⟨response.payload.address, response.payload.height, response.payload.nonce, account.balances, level,
      response.payload.stateRoot⟩, ?_, ?_⟩
    · rw [LightClient.verifyAccountProof, show response.payload.stateRoot = past.root from root, trusted]
      simp only
      rw [← show response.payload.stateRoot = past.root from root, checked]
      rfl
    · rw [named, was, show response.payload.nonce = account.nonce from nonce]
      by_cases new : account = .new
      · rw [if_pos new, new]
        rfl
      · rw [if_neg new]
        exact Move.mapError_eq_ok.mpr (Account.decode_eq_ok.mpr ⟨canonical, rfl⟩)

/-- An answer that names an account. -/
theorem serves_of_ok (target : Option Nat) (asked : target.getD s.blocks.length = height)
    (within : height ≤ s.blocks.length) {account : Account} (canonical : account.Canonical)
    (shown : account.encode ∈ set)
    (answer : claimAt crypto s past address height = .ok (account.nonce, account.balances.entries)) :
    Serves crypto s address target past ↔ past.get (Keys.account crypto address) =
      if account = .new then none else some account.encode := by
  have drawn := MerkleTrie.proveAt_eq_prove passed.built is passed.grown (free.mono stored) (Keys.account crypto address)
  rw [claimAt, ← drawn] at answer
  unfold Serves accountProof
  simp only [asked, passed.rootAt within, Move.ok_bind, answer, Move.pure_eq_ok]
  rw [convinces_iff passed is free stored held canonical shown _ rfl rfl rfl rfl rfl]
  exact ⟨fun served => served.2.2, fun was => ⟨trivial, trivial, was⟩⟩

section Stored

variable (target : Option Nat) (asked : target.getD s.blocks.length = height) (within : height ≤ s.blocks.length)
  (heldNow : ∀ b, s.state.get (Keys.account crypto address) = some b → b ∈ set)
  (soundNow : ∀ b, s.state.get (Keys.account crypto address) = some b →
    ∃ account : Account, account.Canonical ∧ b = account.encode)
include asked within heldNow soundNow

theorem serves_iff_of_current (empty : Account.new.encode ∈ set) (now : height = s.blocks.length) :
    Serves crypto s address target past ↔ Servable crypto s address height past := by
  have same := passed.current now
  rw [servable_iff_filled fun earlier => absurd now (Nat.ne_of_lt earlier)]
  cases value : s.state.get (Keys.account crypto address) with
  | none =>
    have answer : claimAt crypto s past address height = .ok (Account.new.nonce, Account.new.balances.entries) := by
      simp only [claimAt, claimed, now, decide_true, if_true, value]
      rfl
    rw [serves_of_ok passed is free stored held target asked within Account.canonical_new empty answer, same, value]
    simp
  | some b =>
    obtain ⟨account, canonical, rfl⟩ := soundNow b value
    have answer : claimAt crypto s past address height = .ok (account.nonce, account.balances.entries) := by
      simp only [claimAt, claimed, now, decide_true, if_true, value, fields_encode canonical]
    rw [serves_of_ok passed is free stored held target asked within canonical (heldNow _ value) answer, same, value,
      canonical.shown_iff]

section
variable (before : height < s.blocks.length)
  (ends : (past.prove (Keys.account crypto address)).terminal = .leaf other valueHash)
include before ends

/-- The path ended in the account's own leaf. -/
theorem serves_iff_of_own (own : other = Keys.account crypto address)
    (was : past.get (Keys.account crypto address) = some old) (hash : crypto.sha256 old = valueHash) :
    Serves crypto s address target past ↔ Servable crypto s address height past := by
  rw [servable_iff_filled fun _ o v differs leaf => by
    cases ends.symm.trans leaf
    exact differs own]
  by_cases kept : s.state.get (Keys.account crypto address) = some old
  · obtain ⟨account, canonical, rfl⟩ := soundNow old kept
    rw [serves_of_ok passed is free stored held target asked within canonical (heldNow _ kept)
      (claimAt_of_kept before ends canonical kept hash), was, kept, canonical.shown_iff]
  · have gone : ∀ b, s.state.get (Keys.account crypto address) = some b → crypto.sha256 b ≠ valueHash := by
      intro b value same
      rw [value, free.inj (heldNow b value) (held old was) (same.trans hash.symm)] at kept
      exact kept rfl
    obtain ⟨e, answer⟩ := claimAt_of_gone before ends gone
    rw [serves_of_error passed is free stored target asked within answer, was]
    exact ⟨fun _ stored => kept (stored.2.trans stored.1.symm), fun _ same => kept same.symm⟩

/-- The path ended in the leaf of another account. -/
theorem serves_iff_of_other (apart : other ≠ Keys.account crypto address)
    (missing : past.get (Keys.account crypto address) = none) :
    Serves crypto s address target past ↔ Servable crypto s address height past := by
  rw [servable_iff_apart before ends apart missing]
  by_cases same : ∃ b, s.state.get (Keys.account crypto address) = some b ∧ crypto.sha256 b = valueHash
  · obtain ⟨b, value, same⟩ := same
    obtain ⟨account, canonical, rfl⟩ := soundNow b value
    rw [serves_of_ok passed is free stored held target asked within canonical (heldNow _ value)
      (claimAt_of_kept before ends canonical value same), missing]
    constructor
    · intro shown
      by_cases new : account = .new
      · exact ⟨_, value, .inl (by rw [new])⟩
      · rw [if_neg new] at shown
        cases shown
    · rintro ⟨b, found, new | differs⟩
      · cases value.symm.trans found
        rw [if_pos (canonical.encode_inj Account.canonical_new new)]
      · cases value.symm.trans found
        exact absurd same differs
  · have gone : ∀ b, s.state.get (Keys.account crypto address) = some b → crypto.sha256 b ≠ valueHash :=
      fun b value hash => same ⟨b, value, hash⟩
    obtain ⟨e, answer⟩ := claimAt_of_gone before ends gone
    rw [serves_of_error passed is free stored target asked within answer, missing, ne_comm, Option.ne_none_iff_exists']
    exact ⟨fun ⟨b, value⟩ => ⟨b, value, .inr (gone b value)⟩, fun ⟨b, value, _⟩ => ⟨b, value⟩⟩

end

theorem serves_iff_of_past (empty : Account.new.encode ∈ set) (before : height < s.blocks.length) :
    Serves crypto s address target past ↔ Servable crypto s address height past := by
  have freePast : MerkleTrie.Free crypto past := MerkleTrie.Free.of_grown (free.mono stored) passed.grown
  have spec := passed.built.terminal_spec freePast (Keys.account crypto address)
  cases ends : (past.prove (Keys.account crypto address)).terminal with
  | empty =>
    rw [ends] at spec
    have answer : claimAt crypto s past address height = .ok (Account.new.nonce, Account.new.balances.entries) := by
      simp only [claimAt, claimed, Nat.ne_of_lt before, decide_false, Bool.false_eq_true, if_false, ends]
      rfl
    rw [serves_of_ok passed is free stored held target asked within Account.canonical_new empty answer,
      servable_iff_filled (fun _ o v _ leaf => by cases ends.symm.trans leaf), spec]
    simp
  | leaf other valueHash =>
    rw [ends] at spec
    by_cases own : other = Keys.account crypto address
    · obtain ⟨old, was, hash⟩ := Option.map_eq_some_iff.mp ((if_pos own).mp spec)
      exact serves_iff_of_own passed is free stored held target asked within heldNow soundNow before ends own was hash
    · exact serves_iff_of_other passed is free stored held target asked within heldNow soundNow before ends own
        ((if_neg own).mp spec)

end Stored
end Past

/-- The node's account proofs serve a light client in exactly these states: the reply
convinces it of the account as it was at that height, or the error says truly that the
account has been overwritten, unless the account was stored empty and still is, or the
path at a past height ended in the leaf of another account and this one is either not
stored now or stored with the value of that leaf. -/
theorem account_proof_serves_iff {config : GenesisConfig} {hashing : JwkHashing}
    (founded : config.buildState crypto hashing = .ok genesis) (reachable : s.Reachable crypto genesis)
    (address : L2Address) (target : Option Nat) (within : target.getD s.blocks.length ≤ s.blocks.length) :
    ∃ past, s.StateAt crypto genesis (target.getD s.blocks.length) past ∧
      (CollisionFree crypto.sha256 (MerkleTrie.images s.state.nodes ∪
        {b | past.get (Keys.account crypto address) = some b ∨ s.state.get (Keys.account crypto address) = some b ∨
          b = Account.new.encode} ∪
        Slot.image '' (config.named crypto hashing s.batches ∪ {.account address})) →
        (Serves crypto s address target past ↔
          Servable crypto s address (target.getD s.blocks.length) past)) := by
  have sealed' := reachable.sealed
  have built := GenesisConfig.built_of_buildState founded
  obtain ⟨past, passed⟩ := sealed'.exists_passed built within
  refine ⟨past, passed.reached, fun free => ?_⟩
  have apart := Slot.apart_of_free (free.mono fun b member => .inr member) fun slot named => by
    rcases named with named | rfl
    · exact GenesisConfig.fits_of_mem_named named
    · trivial
  have reaches : config.Reaches crypto hashing s.batches s.state := ⟨genesis, founded, Sequencer.executeAll_of_seals sealed'.ran⟩
  have sound := reaches.sound apart fun _ named => .inl named
  have soundNow : ∀ b, s.state.get (Keys.account crypto address) = some b →
      ∃ account : Account, account.Canonical ∧ b = account.encode := by
    intro b found
    obtain ⟨account, decoded, _⟩ := sound (.account address) (.inr rfl) b found
    exact ⟨account, Account.decode_eq_ok.mp decoded⟩
  rcases Nat.lt_or_ge (target.getD s.blocks.length) s.blocks.length with before | latest
  · exact serves_iff_of_past passed (sealed'.built built) free (fun b member => .inl (.inl member))
      (fun b found => .inl (.inr (.inl found))) target rfl within (fun b found => .inl (.inr (.inr (.inl found))))
      soundNow (.inl (.inr (.inr (.inr rfl)))) before
  · exact serves_iff_of_current passed (sealed'.built built) free (fun b member => .inl (.inl member))
      (fun b found => .inl (.inr (.inl found))) target rfl within (fun b found => .inl (.inr (.inr (.inl found))))
      soundNow (.inl (.inr (.inr (.inr rfl)))) (Nat.le_antisymm within latest)

end Rpc

namespace Devnet

open Rpc

section
variable {final second : Sequencer} (moved : Moved paying genesis final second) (grown : final.state.nodes <:+ second.state.nodes)
include moved grown

theorem Moved.free (listed : .account address ∈ slots)
    (before : ∀ b, past.get (Keys.account paying address) = some b → b ∈ shown paying final second)
    (now : ∀ b, final.state.get (Keys.account paying address) = some b → b ∈ shown paying final second) :
    CollisionFree paying.sha256 (MerkleTrie.images final.state.nodes ∪
      {b | past.get (Keys.account paying address) = some b ∨ final.state.get (Keys.account paying address) = some b ∨
        b = Account.new.encode} ∪
      Slot.image '' (small.named paying hashing final.batches ∪ {.account address})) := by
  refine (MerkleTrie.collisionFree_of_digestsApart moved.apart).mono ?_
  rintro b ((stored | found | found | rfl) | ⟨slot, (founds | among) | rfl, rfl⟩)
  · exact mem_shown_of_node (MerkleTrie.images_mono grown stored)
  · exact before b found
  · exact now b found
  · simp
  · exact List.mem_append_right _ (List.mem_map_of_mem (slots_of_plain (by decide) (by decide) rfl founds))
  · exact List.mem_append_right _ (List.mem_map_of_mem (moved.named slot (Execute.mem_slotsOf.mp among)))
  · exact List.mem_append_right _ (List.mem_map_of_mem listed)

end

/-- A client is served the payer's account as it is now, and is told of an account that
has never been used that it was not there at genesis. -/
theorem payer_is_served : ∃ genesis s past response, small.buildState paying hashing = .ok genesis ∧
    s.Reachable paying genesis ∧ s.StateAt paying genesis 1 past ∧ Serves paying s alice none past ∧
    s.StateAt paying genesis 0 genesis ∧ Serves paying s sequencer (some 0) genesis ∧
    accountProof paying s sequencer (some 0) = .ok response := by
  obtain ⟨genesis, s, second, works, founded, reachable, ran, moved⟩ := moved_spec
  obtain ⟨here, later⟩ := moved.passed (GenesisConfig.built_of_buildState founded) reachable ran
  obtain ⟨past, reached, serves⟩ := account_proof_serves_iff founded reachable alice none (Nat.le_refl _)
  obtain ⟨start, atStart, serves'⟩ := account_proof_serves_iff founded reachable sequencer (some 0) (Nat.zero_le _)
  rw [Option.getD_none, moved.heights.1] at reached
  obtain rfl := here.unique reached
  obtain rfl : genesis = start := Except.ok.inj atStart
  obtain ⟨response, answered⟩ := moved.answered
  refine ⟨genesis, s, s.state, response, founded, reachable, reached, (serves ?_).mpr ⟨?_, fun before => ?_⟩,
    atStart, (serves' ?_).mpr ⟨by simp [moved.vacant], fun _ _ _ _ ends => ?_⟩, answered⟩
  · exact moved.free later.grown (by decide) (fun _ => mem_shown_of_final) fun _ => mem_shown_of_final
  · exact fun stored => moved.filled stored.1
  · exact absurd before (Nat.lt_irrefl _)
  · exact moved.free later.grown (by decide) (by simp [moved.vacant]) (by simp [moved.vacant])
  · cases moved.open'.symm.trans ends

/-- A stranger who never had an account is told that it has been overwritten. -/
theorem stranger_is_refused : ∃ genesis s e, small.buildState paying hashing = .ok genesis ∧
    s.Reachable paying genesis ∧ s.StateAt paying genesis 0 genesis ∧
    genesis.get (Keys.account paying stranger) = none ∧ s.state.get (Keys.account paying stranger) = none ∧
    accountProof paying s stranger (some 0) = .error e ∧ ¬Serves paying s stranger (some 0) genesis := by
  obtain ⟨genesis, s, _, _, founded, reachable, _, moved⟩ := moved_spec
  obtain ⟨before, now⟩ := moved.unknown
  obtain ⟨e, refused⟩ : ∃ e, accountProof paying s stranger (some 0) = .error e := by
    cases answer : accountProof paying s stranger (some 0) with
    | ok response =>
      have refused := moved.refused
      rw [answer] at refused
      cases refused
    | error e => exact ⟨e, rfl⟩
  refine ⟨genesis, s, e, founded, reachable, rfl, before, now, refused, fun serves => ?_⟩
  rw [Serves, refused] at serves
  exact serves (before.trans now.symm)

end Devnet
end Sena
