import Sena.StepSoundness

/-! A client that keeps nothing but the roots it trusts.

Everything in a reply comes from a node the client does not trust, the balances in
whatever order the node sends them. The proof ties the reply to the root, so what the
client accepts is what the trie of that root stores. -/
namespace Sena

open Except (mapError)

/-- How a trusted root is anchored. -/
inductive TrustLevel where
  | finalized
  | softConfirmed
deriving DecidableEq

/-- An account as the client has verified it. -/
structure VerifiedAccount where
  address : L2Address
  height : U64
  nonce : U64
  balances : Balances
  trustLevel : TrustLevel
  stateRoot : Hash256
deriving DecidableEq

/-- A node's reply for an account. -/
structure AccountProofPayload where
  address : L2Address
  height : U64
  stateRoot : Hash256
  nonce : U64
  balances : List (U32 × U128)
  siblings : List Hash256
  terminal : Terminal

def AccountProofPayload.proof (payload : AccountProofPayload) : MerkleProof := ⟨payload.siblings, payload.terminal⟩

inductive LightClientError where
  | untrustedRoot (root : Hash256)
  | proof (e : ProofError)
  | duplicateAsset (asset : U32)
  | zeroBalance (asset : U32)
deriving DecidableEq

/-- The balances of a reply as a map, added to those read before. A zero or a repeated
asset is refused. -/
def claimedBalances : List (U32 × U128) → Balances → Except LightClientError Balances
  | [], balances => .ok balances
  | (asset, amount) :: rest, balances =>
    if amount.val = 0 then .error (.zeroBalance asset)
    else if (balances.get asset).isSome then .error (.duplicateAsset asset)
    else claimedBalances rest (balances.insert asset amount)

/-- The check of an account against any root. An empty account must be absent; any
other must be stored as it encodes. There is no result where the encoder panics, on
an account of every asset there can be. -/
def verifyAccountStandalone (crypto : Crypto) (stateRoot : Hash256) (address : L2Address) (nonce : U64)
    (balances : List (U32 × U128)) (proof : MerkleProof) : Option (Except LightClientError Balances) :=
  match claimedBalances balances .empty with
  | .error e => some (.error e)
  | .ok balances =>
    let slot := Keys.account crypto address
    if nonce = 0 ∧ balances.entries = [] then
      some do
        mapError .proof (proof.verifyNonInclusion crypto stateRoot slot)
        return balances
    else if balances.entries.length < 2 ^ 32 then
      some do
        mapError .proof (proof.verifyInclusion crypto stateRoot slot (Account.mk nonce balances).encode)
        return balances
    else none

structure LightClient where
  trustedFinalizedRoot : Hash256
  trustedSoftRoot : Option Hash256

namespace LightClient

/-- `LightClient::trust_level_of`. -/
def trustLevelOf (client : LightClient) (root : Hash256) : Option TrustLevel :=
  if root = client.trustedFinalizedRoot then some .finalized
  else if client.trustedSoftRoot = some root then some .softConfirmed
  else none

/-- `LightClient::verify_account_proof`. -/
def verifyAccountProof (crypto : Crypto) (client : LightClient) (payload : AccountProofPayload) :
    Option (Except LightClientError VerifiedAccount) :=
  match client.trustLevelOf payload.stateRoot with
  | none => some (.error (.untrustedRoot payload.stateRoot))
  | some trustLevel =>
    (verifyAccountStandalone crypto payload.stateRoot payload.address payload.nonce payload.balances
      payload.proof).map (Except.map fun balances =>
        { address := payload.address, height := payload.height, nonce := payload.nonce, balances, trustLevel,
          stateRoot := payload.stateRoot })

/-- `LightClient::verify_social_binding`. -/
def verifySocialBinding (crypto : Crypto) (client : LightClient) (identifier : Hash256)
    (expectedAddress : Option L2Address) (proof : MerkleProof) (stateRoot : Hash256) :
    Except LightClientError TrustLevel :=
  match client.trustLevelOf stateRoot with
  | none => .error (.untrustedRoot stateRoot)
  | some trustLevel => do
    let slot := Keys.socialByIdentifier crypto identifier
    match expectedAddress with
    | some address =>
      mapError .proof (proof.verifyInclusion crypto stateRoot slot (SocialBinding.bound address).encode)
    | none =>
      -- released identifiers keep a tombstone
      match proof.verifyNonInclusion crypto stateRoot slot with
      | .ok () => pure ()
      | .error _ => mapError .proof (proof.verifyInclusion crypto stateRoot slot SocialBinding.vacant.encode)
    return trustLevel

end LightClient

variable {crypto : Crypto} {trie : MerkleTrie} {proof : MerkleProof} {key : Hash256} {value : Bytes}

/-- The strings hashed for the trie and for a proof of a value, and the value the trie
has there. -/
def MerkleTrie.queryImages (crypto : Crypto) (trie : MerkleTrie) (proof : MerkleProof) (key : Hash256)
    (value : Bytes) : Set Bytes :=
  images trie.nodes ∪ proofImages crypto proof key ∪ {b | trie.get key = some b ∨ b = value}

/-- The same strings, listed. -/
def MerkleTrie.queryList (crypto : Crypto) (trie : MerkleTrie) (proof : MerkleProof) (key : Hash256)
    (value : Bytes) : List Bytes :=
  imageList trie.nodes ++ ((trieScheme crypto).climbNodes 0 key proof.siblings proof.terminal).map Node.image ++
    value :: (trie.get key).toList

theorem MerkleTrie.queryImages_subset :
    trie.queryImages crypto proof key value ⊆ {b | b ∈ trie.queryList crypto proof key value} := by
  rintro b ((stored | ⟨n, path, rfl⟩) | held)
  · exact List.mem_append_left _ (List.mem_append_left _ (mem_imageList stored))
  · exact List.mem_append_left _ (List.mem_append_right _ (List.mem_map.mpr ⟨n, path, rfl⟩))
  · refine List.mem_append_right _ ?_
    rcases held with found | rfl
    · exact List.mem_cons_of_mem _ (Option.mem_toList.mpr found)
    · exact List.mem_cons_self

section
variable (built : MerkleTrie.Built crypto trie)
  (free : CollisionFree crypto.sha256 (trie.queryImages crypto proof key value))
include built free

theorem MerkleTrie.Built.get_of_verifyInclusion
    (verified : proof.verifyInclusion crypto trie.root key value = .ok ()) : trie.get key = some value := by
  obtain ⟨tree, repr⟩ := built.represents (free.mono fun b member => .inl (.inl member))
  obtain ⟨reaches, ends⟩ := MerkleProof.verifyInclusion_eq_ok.mp verified
  rw [(repr.reaches_iff free (fun b member => .inl (.inl member)) fun b member => .inl (.inr member)).mp reaches] at ends
  exact (repr.get_eq_some_iff free (fun b found => .inr (.inl found)) (.inr (.inr rfl))).mp ends

theorem MerkleTrie.Built.get_of_verifyNonInclusion
    (verified : proof.verifyNonInclusion crypto trie.root key = .ok ()) : trie.get key = none := by
  obtain ⟨tree, repr⟩ := built.represents (free.mono fun b member => .inl (.inl member))
  obtain ⟨reaches, absent⟩ := MerkleProof.verifyNonInclusion_eq_ok.mp verified
  rw [(repr.reaches_iff free (fun b member => .inl (.inl member)) fun b member => .inl (.inr member)).mp reaches]
    at absent
  exact repr.get_eq_none_iff.mp absent

end

/-- No zero is collected. -/
theorem positive_of_claimedBalances {start balances : Balances}
    (claimed : claimedBalances list start = .ok balances) (positive : ∀ e ∈ start.entries, 0 < e.2.val) :
    ∀ e ∈ balances.entries, 0 < e.2.val := by
  induction list generalizing start with
  | nil =>
    cases claimed
    exact positive
  | cons entry rest ih =>
    obtain ⟨asset, amount⟩ := entry
    simp only [claimedBalances] at claimed
    split at claimed
    · cases claimed
    · rename_i nonzero
      split at claimed
      · cases claimed
      · refine ih claimed fun e member => ?_
        rcases SortedMap.mem_insert _ member with rfl | before
        · exact Nat.pos_of_ne_zero nonzero
        · exact positive e before

theorem stored_of_verifyAccountStandalone (built : MerkleTrie.Built crypto trie)
    (free : ∀ balances, claimedBalances list .empty = .ok balances → CollisionFree crypto.sha256
      (trie.queryImages crypto proof (Keys.account crypto address) (Account.mk nonce balances).encode))
    (verified : verifyAccountStandalone crypto trie.root address nonce list proof = some (.ok balances)) :
    Execute.decodeAccount (trie.get (Keys.account crypto address)) = .ok ⟨nonce, balances⟩ := by
  unfold verifyAccountStandalone at verified
  split at verified
  · cases verified
  · rename_i collected claimed
    simp only at verified
    split at verified
    · rename_i empty
      obtain ⟨_, absent, same⟩ := Move.bind_eq_ok.mp (Option.some.inj verified)
      obtain rfl := Except.ok.inj same
      obtain ⟨rfl, none⟩ := empty
      rw [built.get_of_verifyNonInclusion (free _ claimed) (Move.mapError_eq_ok.mp absent)]
      have new : (Account.mk 0 collected) = Account.new := by
        rw [Account.new, Account.mk.injEq]
        exact ⟨rfl, BTreeMap.ext none⟩
      rw [new]
      rfl
    · split at verified
      · rename_i counted
        obtain ⟨_, present, same⟩ := Move.bind_eq_ok.mp (Option.some.inj verified)
        cases same
        rw [built.get_of_verifyInclusion (free _ claimed) (Move.mapError_eq_ok.mp present)]
        have positive := positive_of_claimedBalances claimed (by simp [BTreeMap.empty])
        exact Move.mapError_eq_ok.mpr (Account.decode_eq_ok.mpr ⟨⟨positive, counted⟩, rfl⟩)
      · cases verified

namespace LightClient

theorem verifyAccountProof_eq_ok {client : LightClient} {payload : AccountProofPayload} {v : VerifiedAccount}
    (verified : client.verifyAccountProof crypto payload = some (.ok v)) :
    client.trustLevelOf payload.stateRoot = some v.trustLevel ∧ v.address = payload.address ∧
      v.nonce = payload.nonce ∧ verifyAccountStandalone crypto payload.stateRoot payload.address payload.nonce
        payload.balances payload.proof = some (.ok v.balances) := by
  unfold verifyAccountProof at verified
  split at verified
  · cases verified
  · rename_i level trusted
    obtain ⟨result, checked, same⟩ := Option.map_eq_some_iff.mp verified
    cases result with
    | error e => cases same
    | ok balances =>
      cases same
      exact ⟨trusted, rfl, rfl, checked⟩

/-- What the client accepts against the root of a trie is what the trie stores: an
account with its nonce and balances, empty if there is none; the address an
identifier is bound to; or that it is bound to no address. -/
theorem accepts_only_what_is_stored (built : MerkleTrie.Built crypto trie) (client : LightClient) :
    (∀ (payload : AccountProofPayload) (v : VerifiedAccount), payload.stateRoot = trie.root →
      (∀ balances, claimedBalances payload.balances .empty = .ok balances → CollisionFree crypto.sha256
        (trie.queryImages crypto payload.proof (Keys.account crypto payload.address)
          (Account.mk payload.nonce balances).encode)) →
      client.verifyAccountProof crypto payload = some (.ok v) → v.address = payload.address ∧
        Execute.decodeAccount (trie.get (Keys.account crypto payload.address)) = .ok ⟨v.nonce, v.balances⟩) ∧
    ∀ (identifier : Hash256) (proof : MerkleProof) (level : TrustLevel),
      (∀ address, CollisionFree crypto.sha256 (trie.queryImages crypto proof
          (Keys.socialByIdentifier crypto identifier) (SocialBinding.bound address).encode) →
        client.verifySocialBinding crypto identifier (some address) proof trie.root = .ok level →
          ∃ b, trie.get (Keys.socialByIdentifier crypto identifier) = some b ∧
            SocialBinding.decode b = .ok (.bound address)) ∧
      (CollisionFree crypto.sha256 (trie.queryImages crypto proof
          (Keys.socialByIdentifier crypto identifier) SocialBinding.vacant.encode) →
        client.verifySocialBinding crypto identifier none proof trie.root = .ok level →
          ∀ b, trie.get (Keys.socialByIdentifier crypto identifier) = some b →
            SocialBinding.decode b = .ok .vacant) := by
  refine ⟨fun payload v same free verified => ?_, fun identifier proof level => ⟨fun address free verified => ?_,
    fun free verified b found => ?_⟩⟩
  · obtain ⟨_, address, nonce, checked⟩ := verifyAccountProof_eq_ok verified
    rw [same] at checked
    rw [nonce]
    exact ⟨address, stored_of_verifyAccountStandalone built free checked⟩
  · unfold verifySocialBinding at verified
    split at verified
    · cases verified
    · obtain ⟨_, present, _⟩ := Move.bind_eq_ok.mp verified
      have found := built.get_of_verifyInclusion free (Move.mapError_eq_ok.mp present)
      exact ⟨_, found, SocialBinding.decode_encode _⟩
  · unfold verifySocialBinding at verified
    split at verified
    · cases verified
    · simp only at verified
      split at verified
      · rename_i absent
        rw [built.get_of_verifyNonInclusion free absent] at found
        cases found
      · obtain ⟨_, present, _⟩ := Move.bind_eq_ok.mp verified
        rw [built.get_of_verifyInclusion free (Move.mapError_eq_ok.mp present)] at found
        obtain rfl := Option.some.inj found
        exact SocialBinding.decode_encode _

/-- A reply for the payer, as the node draws it. -/
def payerReply : AccountProofPayload where
  address := Payment.payer
  height := 7
  stateRoot := Osp.payerTrie.root
  nonce := 0
  balances := [(1, 5000)]
  siblings := (Osp.payerTrie.prove (Keys.account Payment.crypto Payment.payer)).siblings
  terminal := (Osp.payerTrie.prove (Keys.account Payment.crypto Payment.payer)).terminal

/-- The payer's balance is accepted, and that an identifier is bound to nobody. -/
theorem payer_balance_is_accepted : ∃ v level,
    (LightClient.mk Osp.payerTrie.root none).verifyAccountProof Payment.crypto payerReply = some (.ok v) ∧
    Execute.decodeAccount (Osp.payerTrie.get (Keys.account Payment.crypto Payment.payer)) =
      .ok ⟨v.nonce, v.balances⟩ ∧
    (LightClient.mk Osp.payerTrie.root none).verifySocialBinding Payment.crypto Hash256.zero none
      (Osp.payerTrie.prove (Keys.socialByIdentifier Payment.crypto Hash256.zero)) Osp.payerTrie.root =
        .ok level ∧
    ∀ b, Osp.payerTrie.get (Keys.socialByIdentifier Payment.crypto Hash256.zero) = some b →
      SocialBinding.decode b = .ok .vacant := by
  let account := Keys.account Payment.crypto Payment.payer
  let social := Keys.socialByIdentifier Payment.crypto Hash256.zero
  obtain ⟨_, verified, v, rfl⟩ : ∃ r ∈ (LightClient.mk Osp.payerTrie.root none).verifyAccountProof Payment.crypto
      payerReply, ∃ v, r = .ok v := by decide +kernel
  obtain ⟨level, unassigned⟩ : ∃ level, (LightClient.mk Osp.payerTrie.root none).verifySocialBinding Payment.crypto
      Hash256.zero none (Osp.payerTrie.prove social) Osp.payerTrie.root = .ok level := by decide +kernel
  have freeAccount : CollisionFree Payment.crypto.sha256 {b | b ∈ Osp.payerTrie.queryList Payment.crypto
      payerReply.proof account Osp.payerAccount.encode} := by decide +kernel
  have freeSocial : CollisionFree Payment.crypto.sha256 {b | b ∈ Osp.payerTrie.queryList Payment.crypto
      (Osp.payerTrie.prove social) social SocialBinding.vacant.encode} := by decide +kernel
  have claimed : claimedBalances payerReply.balances .empty = .ok Osp.payerAccount.balances := by decide +kernel
  have built : MerkleTrie.Built Payment.crypto Osp.payerTrie := .insert _ _ (.insert _ _ .new)
  have anchored : payerReply.stateRoot = Osp.payerTrie.root := by simp only [payerReply]
  obtain ⟨accounts, bindings⟩ := accepts_only_what_is_stored built ⟨Osp.payerTrie.root, none⟩
  refine ⟨v, level, verified, (accounts payerReply v anchored ?_ verified).2, unassigned,
    (bindings Hash256.zero _ level).2 (freeSocial.mono MerkleTrie.queryImages_subset) unassigned⟩
  intro balances collected
  obtain rfl := Except.ok.inj (claimed.symm.trans collected)
  exact freeAccount.mono MerkleTrie.queryImages_subset

end LightClient
end Sena
