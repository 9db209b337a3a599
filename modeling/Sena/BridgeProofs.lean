import Sena.AccountProofs
import Sena.Keys
import Sena.L1Proofs

/-! Withdrawals against finalized assertions.

One withdrawal pays exactly the balance the claimant's own slot holds in the
post-state it is proven against, and no assertion is used twice by a claimant.
Different assertions are different withdrawals, though, and nothing on L2 is
debited by one. -/
namespace Sena

open Move Assertions Relation

/-- L1 and the bridge on it. -/
structure Bridged where
  l1 : L1
  bridge : Bridge

namespace Bridged

/-- One step in which only `allowed` withdrawals are made: anything on L1, a
deposit, or a withdrawal. -/
inductive StepWhen (crypto : Crypto) (allowed : Bridged → Address → Bridge.Claim → Prop) :
    Bridged → Bridged → Prop
  | l1 (step : L1.Step crypto s.l1 w) : StepWhen crypto allowed s { s with l1 := w }
  | deposit (who : Address) (amount : U64) (accepted : s.bridge.deposit who amount = .ok b) :
      StepWhen crypto allowed s { s with bridge := b }
  | withdraw (claimant : Address) (claim : Bridge.Claim) (kept : allowed s claimant claim)
      (accepted : Bridge.withdraw crypto s.l1.chain s.bridge claimant claim = .ok b) :
      StepWhen crypto allowed s { s with bridge := b }

/-- The bridge as it is created, for one L2 asset, on a deployment. -/
def deploy (crypto : Crypto) (d : L1.Deployment) (now : U64) (asset : U32)
    (wallets : Address → Nat) : Move Bridged := do
  let l1 ← L1.deploy crypto d now
  return ⟨l1, Bridge.initializeBridge asset wallets⟩

/-- The states a deployment with a bridge can get into. -/
def Reachable (crypto : Crypto) (d : L1.Deployment) (asset : U32) (s : Bridged) : Prop :=
  ∃ now held start, deploy crypto d now asset held = .ok start ∧
    ReflTransGen (StepWhen crypto fun _ _ _ => True) start s

end Bridged

namespace Bridge

variable {crypto : Crypto} {c : Chain} {b b' : Bridge} {claimant : Address} {claim : Claim}

/-- What an accepted withdrawal did: `amount` went from custody to the claimant,
and its identifier is spent. -/
structure Paid (crypto : Crypto) (c : Chain) (b : Bridge) (claimant : Address) (claim : Claim)
    (r : Assertion) (account : Osp.Account) (amount : U64) (key : Bytes) (b' : Bridge) : Prop where
  recordAt : c.assertions claim.assertionId = some r
  final : r.status = .finalized
  included : TrieVerifier.verifyInclusion crypto claim.proof r.postStateRoot
    (Keys.account crypto claimant).bytes (crypto.sha256 claim.accountValue).bytes = .ok ()
  identified : withdrawalId crypto claim.assertionId claimant b.l2AssetId = .ok key
  unspent : b.spent key = false
  decoded : Osp.decodeAccount claim.accountValue = .ok account
  balance : amount.val = (Osp.balanceOf account b.l2AssetId).val
  positive : 0 < amount.val
  result : b' = { b with
    spent := Function.update b.spent key true
    custody := b.custody - amount.val
    wallets := Function.update b.wallets claimant (b.wallets claimant + amount.val)
    withdrawn := b.withdrawn ++ [⟨claimant, amount, claim.assertionId, key⟩] }

theorem paid_of_withdraw (accepted : withdraw crypto c b claimant claim = .ok b') :
    ∃ r account amount key, Paid crypto c b claimant claim r account amount key b' := by
  simp only [withdraw, finalizedRoot, accountSlot, bind_eq_ok, ensure_eq_ok, fetch_eq_ok, checked_eq_ok,
    pure_iff] at accepted
  obtain ⟨root, ⟨r, recordAt, _, final, rfl⟩, slot, slotAt, _, _, _, included, key, identified, _, unspent,
    account, decoded, _, positive, _, _, amount, balance, _, _, rfl⟩ := accepted
  obtain ⟨_, rfl⟩ := Codec.digest_eq_ok.mp slotAt
  exact ⟨r, account, amount, key, recordAt, final, included, identified, unspent, decoded, balance,
    by omega, rfl⟩

/-- The strings a withdrawal's proof stands on: the nodes of the trie, the path
the claimant hashed, and the two values compared. -/
def withdrawalImages (crypto : Crypto) (t : MerkleTrie) (claimant : Address) (claim : Claim) : List Bytes :=
  t.nodes.map (·.2.image) ++
    (TrieVerifier.inclusionImages crypto claim.proof (Keys.account crypto claimant).bytes
      (crypto.sha256 claim.accountValue).bytes ++
    claim.accountValue :: (t.get (Keys.account crypto claimant)).toList)

/-- A withdrawal proven against a trie's root passes the value the trie stores in
the claimant's slot. -/
theorem Paid.stored (paid : Paid crypto c b claimant claim r account amount key b')
    (built : MerkleTrie.Built crypto t) (rooted : r.postStateRoot = t.root.bytes)
    (free : CollisionFree crypto.sha256 {x | x ∈ withdrawalImages crypto t claimant claim}) :
    t.get (Keys.account crypto claimant) = some claim.accountValue := by
  have freeTrie : t.Free crypto := free.mono fun x ⟨e, member, image⟩ => by
    simp only [withdrawalImages, Set.mem_ofPred_eq, List.mem_append, List.mem_map]
    exact .inl ⟨e, member, image⟩
  obtain ⟨tree, repr⟩ := built.represents freeTrie
  have included := paid.included
  rw [rooted, repr.root_eq] at included
  obtain ⟨v, found, same⟩ := TrieVerifier.verifyInclusion_sound _ free (fun n member => by
      simp only [withdrawalImages, Set.mem_ofPred_eq, List.mem_append, List.mem_map]
      exact .inl ⟨_, repr.holds n member, rfl⟩)
    (fun x member => by simp [withdrawalImages, member]) included
  obtain rfl := FixedBytes.ext same
  rw [repr.bound, Option.map_eq_some_iff] at found
  obtain ⟨stored, found, digests⟩ := found
  rw [found, free.inj (by simp [withdrawalImages, found]) (by simp [withdrawalImages]) digests]

/-- Every payment on record has its identifier spent. -/
def Logged (crypto : Crypto) (b : Bridge) : Prop :=
  ∀ e ∈ b.withdrawn, ∃ key, withdrawalId crypto e.assertion e.claimant b.l2AssetId = .ok key ∧
    b.spent key = true

/-- A claimant is not paid twice against one assertion. -/
theorem Paid.first (paid : Paid crypto c b claimant claim r account amount key b') (logged : Logged crypto b) :
    ∀ e ∈ b.withdrawn, ¬(e.assertion = claim.assertionId ∧ e.claimant = claimant) := by
  rintro e member ⟨assertion, who⟩
  obtain ⟨key', identified, spent⟩ := logged e member
  rw [assertion, who, paid.identified, Except.ok.injEq] at identified
  rw [← identified, paid.unspent] at spent
  cases spent

theorem Paid.logged (paid : Paid crypto c b claimant claim r account amount key b')
    (logged : Logged crypto b) : Logged crypto b' := by
  intro e member
  rw [paid.result] at member ⊢
  rcases List.mem_append.mp member with old | new
  · obtain ⟨key', identified, spent⟩ := logged e old
    refine ⟨key', identified, ?_⟩
    by_cases same : key' = key
    · simp [same]
    · simpa [same] using spent
  · obtain rfl := List.mem_singleton.mp new
    exact ⟨key, paid.identified, by simp⟩

theorem deposit_eq_ok (accepted : deposit b who amount = .ok b') :
    b'.withdrawn = b.withdrawn ∧ b'.spent = b.spent ∧ b'.l2AssetId = b.l2AssetId := by
  simp only [deposit, bind_eq_ok, ensure_eq_ok, pure_iff] at accepted
  obtain ⟨_, _, _, _, _, _, rfl⟩ := accepted
  exact ⟨rfl, rfl, rfl⟩

end Bridge

namespace Bridged

open Bridge

variable {crypto : Crypto} {s s' : Bridged}

theorem StepWhen.bridge (step : StepWhen crypto allowed s s') (logged : Logged crypto s.bridge) :
    Logged crypto s'.bridge ∧ s'.bridge.l2AssetId = s.bridge.l2AssetId := by
  cases step with
  | l1 => exact ⟨logged, rfl⟩
  | deposit who amount accepted =>
    obtain ⟨withdrawn, spent, asset⟩ := deposit_eq_ok accepted
    refine ⟨?_, asset⟩
    simpa only [Logged, withdrawn, spent, asset] using logged
  | withdraw claimant claim _ accepted =>
    obtain ⟨r, account, amount, key, paid⟩ := paid_of_withdraw accepted
    exact ⟨paid.logged logged, by rw [paid.result]⟩

theorem deploy_eq_ok (deployed : deploy crypto d now asset held = .ok s) :
    L1.deploy crypto d now = .ok s.l1 ∧ s.bridge = initializeBridge asset held := by
  simp only [deploy, bind_eq_ok, pure_iff] at deployed
  obtain ⟨l1, deployed, rfl⟩ := deployed
  exact ⟨deployed, rfl⟩

theorem bridge_of_steps (deployed : deploy crypto d now asset held = .ok s)
    (steps : ReflTransGen (StepWhen crypto allowed) s s') :
    Logged crypto s'.bridge ∧ s'.bridge.l2AssetId = asset := by
  induction steps with
  | refl =>
    rw [(deploy_eq_ok deployed).2]
    exact ⟨fun e member => by simp [initializeBridge] at member, rfl⟩
  | tail _ last ih =>
    obtain ⟨logged, same⟩ := last.bridge ih.1
    exact ⟨logged, same.trans ih.2⟩

/-- A withdrawal pays the claimant exactly the balance its own account has in the
post-state of a finalized assertion, once for each assertion. -/
theorem withdrawal_pays_own_proven_balance (reachable : Reachable crypto d asset s)
    (recordAt : s.l1.chain.assertions claim.assertionId = some r)
    (built : MerkleTrie.Built crypto t) (rooted : r.postStateRoot = t.root.bytes)
    (slots : ∀ address value, t.get (Keys.account crypto address) = some value →
      ∃ a, Account.decode value = .ok a)
    (free : CollisionFree crypto.sha256 {x | x ∈ withdrawalImages crypto t claimant claim})
    (accepted : withdraw crypto s.l1.chain s.bridge claimant claim = .ok b') :
    r.status = .finalized ∧
    t.get (Keys.account crypto claimant) = some claim.accountValue ∧
    (∃ a, Account.decode claim.accountValue = .ok a ∧ 1 ≤ (a.balance asset).val ∧
      b'.wallets claimant = s.bridge.wallets claimant + (a.balance asset).val ∧
      b'.custody = s.bridge.custody - (a.balance asset).val ∧
      ∃ amount key, amount.val = (a.balance asset).val ∧
        b'.withdrawn = s.bridge.withdrawn ++ [⟨claimant, amount, claim.assertionId, key⟩]) ∧
    ∀ e ∈ s.bridge.withdrawn, ¬(e.assertion = claim.assertionId ∧ e.claimant = claimant) := by
  obtain ⟨now, _, start, deployed, steps⟩ := reachable
  obtain ⟨logged, assetId⟩ := bridge_of_steps deployed steps
  obtain ⟨r', account, amount, key, paid⟩ := paid_of_withdraw accepted
  obtain rfl : r = r' := by simpa [recordAt] using paid.recordAt
  have stored := paid.stored built rooted free
  obtain ⟨a, decoded⟩ := slots claimant claim.accountValue stored
  have balance : amount.val = (a.balance asset).val := by
    have same := paid.decoded
    rw [Account.osp_decodeAccount decoded, Except.ok.injEq] at same
    rw [paid.balance, ← same, assetId, Account.osp_balanceOf]
  have positive := paid.positive
  refine ⟨paid.final, stored, ⟨a, decoded, by omega, ?_, ?_, amount, key, balance, ?_⟩, paid.first logged⟩
  · simp [paid.result, balance]
  · simp [paid.result, balance]
  · rw [paid.result]

/-- What the bridge has paid to an account. -/
def paidTo (b : Bridge) (who : Address) : Nat :=
  ((b.withdrawn.filter (·.claimant = who)).map (·.amount.val)).sum

/-- The balance the account stored for an address has in a state: zero if none is
stored, nothing if the slot holds no account. -/
def balanceIn (crypto : Crypto) (t : MerkleTrie) (asset : U32) (who : Address) : Option U128 :=
  match t.get (Keys.account crypto who) with
  | none => some 0
  | some value =>
    match Account.decode value with
    | .ok a => some (a.balance asset)
    | .error _ => none

/-- In the post-state of every finalized assertion the account has this balance. -/
def HoldsThroughout (crypto : Crypto) (states : Bytes → MerkleTrie) (asset : U32) (who : Address)
    (balance : U128) (c : Chain) : Prop :=
  ∀ key r, c.assertions key = some r → r.status = .finalized → MerkleTrie.Built crypto (states key) ∧
    r.postStateRoot = (states key).root.bytes ∧ balanceIn crypto (states key) asset who = some balance

/-- The account has not been paid against another assertion, and the withdrawal
exhibits no collision. -/
def OneAssertion (crypto : Crypto) (states : Bytes → MerkleTrie) (who : Address) (s : Bridged)
    (claimant : Address) (claim : Claim) : Prop :=
  claimant = who → (∀ e ∈ s.bridge.withdrawn, e.claimant = who → e.assertion = claim.assertionId) ∧
    CollisionFree crypto.sha256 {x | x ∈ withdrawalImages crypto (states claim.assertionId) who claim}

theorem HoldsThroughout.earlier (holds : HoldsThroughout crypto states asset who balance c')
    (evolves : Evolves c c') : HoldsThroughout crypto states asset who balance c := by
  intro key r found final
  obtain ⟨r', found', updates⟩ := evolves.records key r found
  obtain rfl := updates.settled (.inl final)
  exact holds key r' found' final

theorem StepWhen.moves {allowed : Bridged → Address → Claim → Prop} (step : StepWhen crypto allowed s s') :
    ReflTransGen (Moves crypto) s.l1.chain s'.l1.chain := by
  cases step with
  | l1 step => exact L1.StepWhen.moves step
  | deposit | withdraw => exact .refl

theorem sound_of_steps (deployed : deploy crypto d now asset held = .ok s)
    (steps : ReflTransGen (StepWhen crypto allowed) s s') : Sound crypto s'.l1.chain := by
  induction steps with
  | refl => exact (L1.deploy_eq_ok (deploy_eq_ok deployed).1).1
  | tail _ last ih => exact sound_of_moves ih last.moves

theorem amount_eq_balance (paid : Paid crypto s.l1.chain s.bridge who claim r account amount key b')
    (holds : HoldsThroughout crypto states s.bridge.l2AssetId who balance s.l1.chain)
    (free : CollisionFree crypto.sha256
      {x | x ∈ withdrawalImages crypto (states claim.assertionId) who claim}) :
    amount.val = balance.val := by
  obtain ⟨built, rooted, held⟩ := holds _ r paid.recordAt paid.final
  rw [balanceIn, paid.stored built rooted free] at held
  simp only at held
  split at held
  · rename_i a decoded
    have same := paid.decoded
    rw [Account.osp_decodeAccount decoded, Except.ok.injEq] at same
    rw [paid.balance, ← same, Account.osp_balanceOf, Option.some.inj held]
  · cases held

/-- The account's payments so far: none, or one of its whole balance. -/
def AtMostOne (b : Bridge) (who : Address) (balance : U128) : Prop :=
  b.withdrawn.filter (·.claimant = who) = [] ∨
    ∃ e, b.withdrawn.filter (·.claimant = who) = [e] ∧ e.amount.val = balance.val

theorem atMostOne_of_step (step : StepWhen crypto (OneAssertion crypto states who) s s')
    (logged : Logged crypto s.bridge)
    (holds : HoldsThroughout crypto states s.bridge.l2AssetId who balance s.l1.chain)
    (before : AtMostOne s.bridge who balance) : AtMostOne s'.bridge who balance := by
  cases step with
  | l1 => exact before
  | deposit _ _ accepted =>
    rw [AtMostOne, (deposit_eq_ok accepted).1]
    exact before
  | withdraw claimant claim kept accepted =>
    obtain ⟨r, account, amount, key, paid⟩ := paid_of_withdraw accepted
    have grown := congrArg Bridge.withdrawn paid.result
    by_cases mine : claimant = who
    · subst mine
      obtain ⟨sameAssertion, free⟩ := kept rfl
      have none' : s.bridge.withdrawn.filter (·.claimant = claimant) = [] := by
        rw [List.filter_eq_nil_iff]
        intro e member claimed
        have claimed : e.claimant = claimant := by simpa using claimed
        exact paid.first logged e member ⟨sameAssertion e member claimed, claimed⟩
      refine .inr ⟨⟨claimant, amount, claim.assertionId, key⟩, ?_, amount_eq_balance paid holds free⟩
      simp [grown, none']
    · simpa [AtMostOne, grown, mine] using before

/-- Where an account is never paid against a second assertion, the bridge pays it
at most the balance it has throughout. -/
theorem bridge_pays_a_balance_once (deployed : deploy crypto d now asset held = .ok s)
    (run : ReflTransGen (StepWhen crypto (OneAssertion crypto states who)) s s')
    (holds : HoldsThroughout crypto states asset who balance s'.l1.chain) :
    paidTo s'.bridge who ≤ balance.val := by
  have atMostOne : AtMostOne s'.bridge who balance := by
    induction run with
    | refl =>
      rw [(deploy_eq_ok deployed).2]
      exact .inl rfl
    | tail before last ih =>
      have earlier := holds.earlier (evolves_of_moves last.moves)
      obtain ⟨logged, assetId⟩ := bridge_of_steps deployed before
      exact atMostOne_of_step last logged (assetId.symm ▸ earlier) (ih earlier)
  rcases atMostOne with none' | ⟨e, one, amount⟩
  · simp [paidTo, none']
  · simp [paidTo, one, amount]

/-- One thing that happens in a scripted run. -/
inductive Event
  | l1 (event : L1.Event)
  | deposit (who : Address) (amount : U64)
  | withdraw (claimant : Address) (claim : Claim)

section Script

variable (allowed : Bridged → Address → Claim → Prop) [∀ s who claim, Decidable (allowed s who claim)]

def play (crypto : Crypto) (s : Bridged) (event : Bridged → Event) : Option Bridged :=
  match event s with
  | .l1 event => (L1.play (fun _ _ _ => True) crypto s.l1 fun _ => event).map fun l1 => { s with l1 }
  | .deposit who amount => (s.bridge.deposit who amount).toOption.map fun bridge => { s with bridge }
  | .withdraw claimant claim =>
    if allowed s claimant claim then
      (withdraw crypto s.l1.chain s.bridge claimant claim).toOption.map fun bridge => { s with bridge }
    else none

/-- A deployment followed by a script. -/
def scenario (crypto : Crypto) (d : L1.Deployment) (asset : U32) (held : Address → Nat)
    (script : List (Bridged → Event)) : Option Bridged :=
  (deploy crypto d 0 asset held).toOption.bind fun s => script.foldlM (play allowed crypto) s

variable {allowed}

theorem step_of_play (played : play allowed crypto s event = some s') : StepWhen crypto allowed s s' := by
  unfold play at played
  split at played
  · obtain ⟨w, made, rfl⟩ := Option.map_eq_some_iff.mp played
    exact .l1 (L1.step_of_play made)
  · obtain ⟨b, accepted, rfl⟩ := Option.map_eq_some_iff.mp played
    exact .deposit _ _ (toOption_eq_some.mp accepted)
  · split at played
    · rename_i kept
      obtain ⟨b, accepted, rfl⟩ := Option.map_eq_some_iff.mp played
      exact .withdraw _ _ kept (toOption_eq_some.mp accepted)
    · cases played

theorem steps_of_scenario (ran : scenario allowed crypto d asset held script = some s') :
    ∃ s, deploy crypto d 0 asset held = .ok s ∧ ReflTransGen (StepWhen crypto allowed) s s' := by
  obtain ⟨s, deployed, ran⟩ := Option.bind_eq_some_iff.mp ran
  exact ⟨s, toOption_eq_some.mp deployed,
    L1.reflTransGen_of_foldlM (fun s e s' (played : play allowed crypto s e = some s') =>
      step_of_play played) ran⟩

end Script

/-- Account 7 holds five units of asset 1, and account 8 nine. -/
def holder : Address := .fill 32 7

def holderAccount : Account := ⟨0, BTreeMap.empty.insert 1 5⟩

def otherAccount : Account := ⟨0, BTreeMap.empty.insert 1 9⟩

def holderState : MerkleTrie :=
  (MerkleTrie.new.insert L1.hashing (Keys.account L1.hashing holder) holderAccount.encode).insert L1.hashing
    (Keys.account L1.hashing (.fill 32 8)) otherAccount.encode

theorem holderState_built : MerkleTrie.Built L1.hashing holderState := .insert _ _ (.insert _ _ .new)

theorem holder_balance : balanceIn L1.hashing holderState 1 holder = some 5 := by decide +kernel

def holderDeployment : L1.Deployment :=
  { L1.floorDeployment with genesisRoot := holderState.root.bytes }

/-- The holder's withdrawal against an assertion. -/
def holderClaim (assertion : Bytes) : Claim where
  assertionId := assertion
  accountValue := holderAccount.encode
  siblings := (holderState.prove (Keys.account L1.hashing holder)).siblings.map (·.bytes)
  terminalIsLeaf := true
  terminalKey := (Keys.account L1.hashing holder).bytes
  terminalValueHash := (L1.hashing.sha256 holderAccount.encode).bytes

theorem holder_collisionFree (assertion : Bytes) : CollisionFree L1.hashing.sha256
    {x | x ∈ withdrawalImages L1.hashing holderState holder (holderClaim assertion)} := by
  -- the claimed assertion is not part of the proof
  change CollisionFree _ {x | x ∈ withdrawalImages L1.hashing holderState holder (holderClaim [])}
  decide +kernel

/-- Someone funds the bridge, and the holder withdraws against genesis. -/
def onceScript : List (Bridged → Event) :=
  [fun _ => .deposit (.fill 32 2) 10, fun s => .withdraw holder (holderClaim (s.l1.idAt 0))]

theorem holder_withdraws_own_balance : ∃ s b' r, Reachable L1.hashing holderDeployment 1 s ∧
    s.l1.chain.assertions (holderClaim (s.l1.idAt 0)).assertionId = some r ∧
    withdraw L1.hashing s.l1.chain s.bridge holder (holderClaim (s.l1.idAt 0)) = .ok b' ∧
    r.status = .finalized ∧
    holderState.get (Keys.account L1.hashing holder) = some holderAccount.encode ∧
    ∃ a, Account.decode holderAccount.encode = .ok a ∧
      b'.wallets holder = s.bridge.wallets holder + (a.balance 1).val := by
  obtain ⟨s, played, ⟨b', accepted⟩, r, recordAt, rooted⟩ :
      ∃ s ∈ scenario (fun _ _ _ => True) L1.hashing holderDeployment 1 (fun _ => 10) [fun _ => .deposit (.fill 32 2) 10],
        (∃ b', withdraw L1.hashing s.l1.chain s.bridge holder (holderClaim (s.l1.idAt 0)) = .ok b') ∧
        ∃ r ∈ s.l1.chain.assertions (s.l1.idAt 0), r.postStateRoot = holderState.root.bytes := by
    decide +kernel
  obtain ⟨start, deployed, steps⟩ := steps_of_scenario played
  have decodes : ∀ a ∈ [holderAccount, otherAccount], Account.decode a.encode = .ok a := by decide +kernel
  have slots : ∀ address value, holderState.get (Keys.account L1.hashing address) = some value →
      ∃ a, Account.decode value = .ok a := by
    intro address value found
    rw [holderState, MerkleTrie.get_insert, MerkleTrie.get_insert] at found
    split at found
    · exact ⟨otherAccount, Option.some.inj found ▸ decodes _ (by simp)⟩
    split at found
    · exact ⟨holderAccount, Option.some.inj found ▸ decodes _ (by simp)⟩
    · cases found
  obtain ⟨final, stored, ⟨a, decoded, _, paid, _⟩, _⟩ := withdrawal_pays_own_proven_balance
    ⟨0, _, start, deployed, steps⟩ recordAt holderState_built rooted slots (holder_collisionFree _)
    accepted
  exact ⟨s, b', r, ⟨0, _, start, deployed, steps⟩, recordAt, accepted, final, stored, a, decoded, paid⟩

instance (crypto : Crypto) (states : Bytes → MerkleTrie) (who : Address) (s : Bridged)
    (claimant : Address) (claim : Claim) : Decidable (OneAssertion crypto states who s claimant claim) :=
  inferInstanceAs (Decidable (claimant = who →
    (∀ e ∈ s.bridge.withdrawn, e.claimant = who → e.assertion = claim.assertionId) ∧
      CollisionFree crypto.sha256 {x | x ∈ withdrawalImages crypto (states claim.assertionId) who claim}))

/-- Every finalized assertion claims the holder's state. -/
def Unchanged (s : Bridged) : Prop :=
  ∀ key ∈ s.l1.chain.order, ∀ r ∈ s.l1.chain.assertions key,
    r.status = .finalized → r.postStateRoot = holderState.root.bytes

instance : Decidable (Unchanged s) := inferInstanceAs (Decidable (∀ key ∈ s.l1.chain.order, _))

theorem holdsThroughout_of_unchanged (ordered : Ordered s.l1.chain) (same : s.Unchanged) :
    HoldsThroughout L1.hashing (fun _ => holderState) 1 holder 5 s.l1.chain := by
  intro key r found final
  have listed : key ∈ s.l1.chain.order := (ordered.listed key).mpr (by simp [found])
  exact ⟨holderState_built, same key listed r found final, holder_balance⟩

theorem holder_is_paid_once : ∃ s, scenario (OneAssertion L1.hashing (fun _ => holderState) holder)
    L1.hashing holderDeployment 1 (fun _ => 10) onceScript = some s ∧
    HoldsThroughout L1.hashing (fun _ => holderState) 1 holder 5 s.l1.chain ∧
    paidTo s.bridge holder ≤ (5 : U128).val := by
  obtain ⟨s, played, same⟩ : ∃ s ∈ scenario (OneAssertion L1.hashing (fun _ => holderState) holder) L1.hashing
      holderDeployment 1 (fun _ => 10) onceScript, s.Unchanged := by
    decide +kernel
  obtain ⟨start, deployed, steps⟩ := steps_of_scenario played
  have holds := holdsThroughout_of_unchanged (sound_of_steps deployed steps).ordered same
  exact ⟨s, played, holds, bridge_pays_a_balance_once deployed steps holds⟩

/-- The same after an assertion that changed nothing is finalized, and a second
withdrawal against that. -/
def twiceScript : List (Bridged → Event) :=
  [fun s => .l1 (.call (.fill 32 2) (s.l1.idle 0 0)),
   fun _ => .l1 (.tick 86400),
   fun s => .l1 (.call (.fill 32 2) (.finalize (s.l1.idAt 1)))] ++ onceScript ++
  [fun s => .withdraw holder (holderClaim (s.l1.idAt 1))]

/-- The holder's balance is five throughout, and it is paid ten. -/
theorem holder_is_paid_twice : ∃ s, Reachable L1.hashing holderDeployment 1 s ∧
    HoldsThroughout L1.hashing (fun _ => holderState) 1 holder 5 s.l1.chain ∧
    paidTo s.bridge holder = 10 := by
  obtain ⟨s, played, same, paid⟩ : ∃ s ∈ scenario (fun _ _ _ => True) L1.hashing holderDeployment 1 (fun _ => 10)
      twiceScript, s.Unchanged ∧ paidTo s.bridge holder = 10 := by
    decide +kernel
  obtain ⟨start, deployed, steps⟩ := steps_of_scenario played
  exact ⟨s, ⟨0, _, start, deployed, steps⟩,
    holdsThroughout_of_unchanged (sound_of_steps deployed steps).ordered same, paid⟩

end Bridged
end Sena
