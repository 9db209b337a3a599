import Mathlib.Logic.Relation
import Sena.Assertions

/-! What an accepted call on the assertion chain did.

Each entry point is inverted once: the checks it passed, and the chain it left.
Payments touch balances only, and take exactly their amount out of escrow. -/
namespace Sena.Assertions

open Move

@[simp] theorem fetch_eq_ok {κ : Type} {table : κ → Option α} {key : κ} :
    fetch table key abort = .ok entry ↔ table key = some entry := by
  unfold fetch
  split <;> simp_all

/-- `amount` left escrow for someone's wallet; nothing else changed. -/
def Paid (c c' : Chain) (amount : Nat) : Prop :=
  amount ≤ c.escrow ∧ ∃ wallets, c' = { c with escrow := c.escrow - amount, wallets }

theorem Paid.zero (c : Chain) : Paid c c 0 := ⟨Nat.zero_le _, c.wallets, rfl⟩

theorem Paid.trans (first : Paid c c' a) (second : Paid c' c'' b) : Paid c c'' (a + b) := by
  obtain ⟨coversA, walletsA, rfl⟩ := first
  obtain ⟨coversB, walletsB, rfl⟩ := second
  simp only at coversB
  refine ⟨by omega, walletsB, ?_⟩
  rw [Nat.sub_add_eq]

/-- What a list of payments credits an account with. -/
def creditTo (shares : List (Address × Nat)) (account : Address) : Nat :=
  ((shares.filter (·.1 = account)).map (·.2)).sum

@[simp] theorem creditTo_nil (account : Address) : creditTo [] account = 0 := rfl

@[simp] theorem creditTo_append (first second : List (Address × Nat)) (account : Address) :
    creditTo (first ++ second) account = creditTo first account + creditTo second account := by
  simp [creditTo]

theorem creditTo_cons (recipient : Address) (amount : Nat) (rest : List (Address × Nat))
    (account : Address) : creditTo ((recipient, amount) :: rest) account =
      (if account = recipient then amount else 0) + creditTo rest account := by
  by_cases here : recipient = account
  · simp [creditTo, here]
  · simp [creditTo, here, Ne.symm here]

/-- Only these payments were made to wallets. -/
def Pays (c c' : Chain) (shares : List (Address × Nat)) : Prop :=
  ∀ account, c'.wallets account = c.wallets account + creditTo shares account

theorem Pays.trans (first : Pays c c' some') (second : Pays c' c'' others) : Pays c c'' (some' ++ others) := by
  intro account
  rw [second account, first account, creditTo_append, Nat.add_assoc]

theorem takeBond_eq_ok : takeBond c payer amount = .ok c' ↔
    amount.val < 2 ^ 64 ∧ (amount.val ≤ c.wallets payer ∧ c.permits payer amount.val = true) ∧ c' = { c with
      wallets := Function.update c.wallets payer (c.wallets payer - amount.val)
      escrow := c.escrow + amount.val } := by
  simp only [takeBond, bind_eq_ok, ensure_eq_ok, pure_iff]
  constructor
  · rintro ⟨_, small, _, funded, rfl⟩
    exact ⟨by omega, funded, rfl⟩
  · rintro ⟨small, funded, rfl⟩
    exact ⟨(), by omega, (), funded, rfl⟩

theorem paid_of_payFromEscrow (accepted : payFromEscrow c recipient amount = .ok c') : Paid c c' amount.val := by
  unfold payFromEscrow at accepted
  split at accepted
  · rename_i nothing
    cases accepted
    rw [nothing]
    exact Paid.zero c
  · simp only [bind_eq_ok, checked_eq_ok, ensure_eq_ok, pure_iff] at accepted
    obtain ⟨sent, same, _, covered, rfl⟩ := accepted
    rw [← same]
    exact ⟨covered.1, _, rfl⟩

theorem pays_of_payFromEscrow (accepted : payFromEscrow c recipient amount = .ok c') :
    Pays c c' [(recipient, amount.val)] := by
  intro account
  rw [creditTo_cons, creditTo_nil, Nat.add_zero]
  unfold payFromEscrow at accepted
  split at accepted
  · rename_i nothing
    cases accepted
    simp [nothing]
  · simp only [bind_eq_ok, checked_eq_ok, ensure_eq_ok, pure_iff] at accepted
    obtain ⟨sent, same, _, _, rfl⟩ := accepted
    by_cases here : account = recipient <;> simp [here, same]

theorem payFromEscrow_accepts (free : c.Unblocked) (recipient : Address) (small : amount.val < 2 ^ 64)
    (covered : amount.val ≤ c.escrow) : ∃ c', payFromEscrow c recipient amount = .ok c' := by
  unfold payFromEscrow
  split
  · exact ⟨c, rfl⟩
  · rw [checked_of_lt small, ok_bind, ensure_of ⟨covered, free _ _⟩]
    exact ⟨_, rfl⟩

theorem paid_of_distributeSlashed (accepted : distributeSlashed c winner bond = .ok c') : Paid c c' bond.val := by
  simp only [distributeSlashed, bind_eq_ok, mul_eq_ok, checked_eq_ok, sub_eq_ok] at accepted
  obtain ⟨_, _, reward, _, middle, toWinner, rest, ⟨part, left⟩, toTreasury⟩ := accepted
  have both := (paid_of_payFromEscrow toWinner).trans (paid_of_payFromEscrow toTreasury)
  rwa [left, Nat.add_sub_cancel' part] at both

/-- How a forfeited bond is split. -/
def slashed (winner treasury : Address) (bond : Nat) : List (Address × Nat) :=
  [(winner, bond * 50 / 100), (treasury, bond - bond * 50 / 100)]

theorem pays_of_distributeSlashed (accepted : distributeSlashed c winner bond = .ok c') :
    Pays c c' (slashed winner c.treasury bond.val) := by
  simp only [distributeSlashed, bind_eq_ok, mul_eq_ok, checked_eq_ok, sub_eq_ok] at accepted
  obtain ⟨scaled, scales, reward, half, middle, toWinner, rest, ⟨_, left⟩, toTreasury⟩ := accepted
  have both := (pays_of_payFromEscrow toWinner).trans (pays_of_payFromEscrow toTreasury)
  obtain ⟨_, _, rfl⟩ := paid_of_payFromEscrow toWinner
  have percent : SLASH_REWARD_PERCENT.val = 50 := rfl
  rwa [left, half, scales, percent] at both

theorem distributeSlashed_accepts (free : c.Unblocked) (winner : Address) (small : bond.val < 2 ^ 64)
    (covered : bond.val ≤ c.escrow) : ∃ c', distributeSlashed c winner bond = .ok c' := by
  have percent : SLASH_REWARD_PERCENT.val = 50 := rfl
  have scaledFits : bond.val * SLASH_REWARD_PERCENT.val < 2 ^ 128 := by rw [percent]; omega
  have rewardFits : bond.val * SLASH_REWARD_PERCENT.val / 100 < 2 ^ 128 := by rw [percent]; omega
  have part : bond.val * SLASH_REWARD_PERCENT.val / 100 ≤ bond.val := by rw [percent]; omega
  simp only [distributeSlashed, Move.mul, checked_of_lt scaledFits, ok_bind,
    checked_of_lt rewardFits]
  obtain ⟨middle, toWinner⟩ := payFromEscrow_accepts free winner
    (show (⟨_, rewardFits⟩ : U128).val < 2 ^ 64 by simp only; omega) (by simp only; omega)
  obtain ⟨_, wallets, rfl⟩ := paid_of_payFromEscrow toWinner
  have restFits : bond.val - bond.val * SLASH_REWARD_PERCENT.val / 100 < 2 ^ 128 := by omega
  simp only [toWinner, ok_bind, Move.sub, if_pos part, checked_of_lt restFits]
  exact payFromEscrow_accepts (by exact free) _ (by simp only; omega) (by simp only; omega)

/-- The bonds a list of challenges carries. -/
def bondsOf (list : List Challenge) : Nat := (list.map (·.bond.val)).sum

@[simp] theorem bondsOf_nil : bondsOf [] = 0 := rfl

@[simp] theorem bondsOf_cons (challenge : Challenge) (rest : List Challenge) :
    bondsOf (challenge :: rest) = challenge.bond.val + bondsOf rest := rfl

theorem bondsOf_perm {list : List Challenge} (same : list.Perm list') :
    bondsOf list = bondsOf list' := (same.map _).sum_nat

private theorem paid_of_refunds {list : List Challenge}
    (accepted : list.foldlM (fun c challenge => payFromEscrow c challenge.challenger challenge.bond) c
      = .ok c') : Paid c c' (bondsOf list) := by
  induction list generalizing c with
  | nil =>
    obtain rfl := Except.ok.inj accepted
    exact Paid.zero c
  | cons challenge rest ih =>
    rw [List.foldlM_cons, bind_eq_ok] at accepted
    obtain ⟨middle, first, others⟩ := accepted
    exact (paid_of_payFromEscrow first).trans (ih others)

/-- What refunding a list of challenges pays. -/
def refunds (list : List Challenge) : List (Address × Nat) := list.map fun x => (x.challenger, x.bond.val)

private theorem pays_of_refunds {list : List Challenge}
    (accepted : list.foldlM (fun c challenge => payFromEscrow c challenge.challenger challenge.bond) c
      = .ok c') : Pays c c' (refunds list) := by
  induction list generalizing c with
  | nil =>
    cases accepted
    exact fun _ => rfl
  | cons challenge rest ih =>
    rw [List.foldlM_cons, bind_eq_ok] at accepted
    obtain ⟨middle, first, others⟩ := accepted
    exact (pays_of_payFromEscrow first).trans (ih others)

private theorem refunds_accept {list : List Challenge} (free : c.Unblocked) (small : ∀ x ∈ list, x.bond.val < 2 ^ 64)
    (covered : bondsOf list ≤ c.escrow) :
    ∃ c', list.foldlM (fun c challenge => payFromEscrow c challenge.challenger challenge.bond) c
      = .ok c' := by
  induction list generalizing c with
  | nil => exact ⟨c, rfl⟩
  | cons challenge rest ih =>
    rw [bondsOf_cons] at covered
    obtain ⟨middle, first⟩ := payFromEscrow_accepts free challenge.challenger
      (small challenge (by simp)) (by omega)
    obtain ⟨_, wallets, rfl⟩ := paid_of_payFromEscrow first
    rw [List.foldlM_cons, first, ok_bind]
    exact ih (by exact free) (fun x member => small x (by simp [member])) (by simp only; omega)

/-- The challenges open against an assertion. -/
def Chain.openOn (c : Chain) (key : Bytes) : List Challenge := (c.challenges key).getD []

theorem paid_of_refundChallenges (accepted : refundChallenges c key = .ok c') :
    ∃ challenges, Paid { c with challenges } c' (bondsOf (c.openOn key)) ∧
      ∀ other, (challenges other).getD [] = if other = key then [] else c.openOn other := by
  unfold refundChallenges at accepted
  split at accepted
  · rename_i unlisted
    cases accepted
    refine ⟨c.challenges, ?_, fun other => ?_⟩
    · rw [Chain.openOn, unlisted]
      exact Paid.zero c
    · split
      · rename_i here
        rw [here, unlisted]
        rfl
      · rfl
  · rename_i list listed
    refine ⟨Function.update c.challenges key (some []), ?_, fun other => ?_⟩
    · rw [Chain.openOn, listed]
      exact paid_of_refunds accepted
    · simp only [Function.update_apply]
      split <;> rfl

theorem pays_of_refundChallenges (accepted : refundChallenges c key = .ok c') :
    Pays c c' (refunds (c.openOn key)) := by
  unfold refundChallenges at accepted
  split at accepted
  · rename_i unlisted
    cases accepted
    rw [Chain.openOn, unlisted]
    exact fun _ => rfl
  · rename_i list listed
    have paid := pays_of_refunds accepted
    rw [Chain.openOn, listed]
    exact paid

theorem refundChallenges_accepts (free : c.Unblocked)
    (small : ∀ x ∈ c.openOn key, x.bond.val < 2 ^ 64) (covered : bondsOf (c.openOn key) ≤ c.escrow) :
    ∃ c', refundChallenges c key = .ok c' := by
  unfold refundChallenges
  split
  · exact ⟨c, rfl⟩
  · rename_i list listed
    rw [Chain.openOn, listed] at small covered
    exact refunds_accept free small covered

/-- The chain an accepted posting leaves. -/
def Chain.posted (c : Chain) (now : U64) (proposer : Address) (args : Posting)
    (txRoot commitment key : Bytes) : Chain :=
  { c with
    wallets := Function.update c.wallets proposer (c.wallets proposer - args.bond.val)
    escrow := c.escrow + args.bond.val
    assertions := Function.update c.assertions key
      (some (args.record proposer now txRoot commitment))
    order := c.order ++ [key]
    published := c.published ++ [args.event key] }

/-- What `post` checked. -/
structure Posted (crypto : Crypto) (c : Chain) (now : U64) (proposer : Address) (args : Posting)
    (parent : Assertion) (txRoot commitment key : Bytes) : Prop where
  recipient : args.feeRecipient.length = 32
  shape : checkBatchShape args.txStarts args.txBytes.length args.traceLength args.preStateRoot
    args.postStateRoot = .ok ()
  parentAt : c.assertions args.parent = some parent
  parentLive : parent.status ≠ .rejected
  continues : parent.postStateRoot = args.preStateRoot
  bonded : c.minimumBond.val ≤ args.bond.val
  ordered : parent.timestamp.val ≤ args.timestamp.val
  rooted : BatchVerifier.rootOf crypto args.txBytes args.txStarts = .ok txRoot
  committed : BatchVerifier.headerCommitment crypto args.timestamp args.baseFee args.feeRecipient
    args.txBytes.length txRoot = .ok commitment
  identified : assertionId crypto args.parent 0 args.preStateRoot args.postStateRoot commitment
    args.traceLength args.bond = .ok key
  small : args.bond.val < 2 ^ 64
  funded : args.bond.val ≤ c.wallets proposer ∧ c.permits proposer args.bond.val = true
  fresh : c.assertions key = none

theorem posted_of_post (accepted : post crypto c now proposer args = .ok c') :
    ∃ parent txRoot commitment key, Posted crypto c now proposer args parent txRoot commitment key ∧
      c' = c.posted now proposer args txRoot commitment key := by
  simp only [post, checkPosting, bind_eq_ok, ensure_eq_ok, fetch_eq_ok, add_eq_ok, takeBond_eq_ok,
    pure_iff] at accepted
  obtain ⟨_, ⟨_, recipient, _, shape, parent, parentAt, _, parentLive, _, continues, _, bonded, _,
    ordered, _, _, _, _, _, _, _⟩, txRoot, rooted, commitment, committed, key, identified, _,
    ⟨small, funded, rfl⟩, _, fresh, rfl⟩ := accepted
  exact ⟨parent, txRoot, commitment, key, ⟨recipient, shape, parentAt, parentLive, continues, bonded,
    ordered, rooted, committed, identified, small, funded, by simpa using fresh⟩, rfl⟩

/-- The chain an accepted challenge leaves. -/
def Chain.challenged (c : Chain) (challenger : Address) (key : Bytes) (bond : U128)
    (record : Assertion) (count : U64) : Chain :=
  { c with
    wallets := Function.update c.wallets challenger (c.wallets challenger - bond.val)
    escrow := c.escrow + bond.val
    assertions := Function.update c.assertions key
      (some { record with status := .challenged, openChallenges := count })
    challenges := Function.update c.challenges key
      (some ((c.challenges key).getD [] ++ [⟨challenger, bond⟩])) }

theorem Chain.openOn_challenged (c : Chain) : (c.challenged challenger key bond record count).openOn key =
    c.openOn key ++ [⟨challenger, bond⟩] := by simp [openOn, challenged]

theorem Chain.openOn_challenged_of_ne (c : Chain) (apart : other ≠ key) :
    (c.challenged challenger key bond record count).openOn other = c.openOn other := by
  simp [openOn, challenged, apart]

theorem Chain.assertions_challenged (c : Chain) : (c.challenged challenger key bond record count).assertions key =
    some { record with status := .challenged, openChallenges := count } := by simp [challenged]

/-- What `open_challenge` checked. -/
structure Challenged (c : Chain) (challenger : Address) (key : Bytes) (bond : U128)
    (record : Assertion) (count : U64) : Prop where
  recordAt : c.assertions key = some record
  bonded : c.minimumBond.val ≤ bond.val
  notSelf : challenger ≠ record.proposer
  notTwice : hasOpenChallenge c key challenger = false
  small : bond.val < 2 ^ 64
  funded : bond.val ≤ c.wallets challenger ∧ c.permits challenger bond.val = true
  live : record.status = .pending ∨ record.status = .challenged
  counted : count.val = record.openChallenges.val + 1

theorem challenged_of_openChallenge (accepted : openChallenge c challenger key bond = .ok c') :
    ∃ record count, Challenged c challenger key bond record count ∧
      c' = c.challenged challenger key bond record count := by
  simp only [openChallenge, bind_eq_ok, ensure_eq_ok, fetch_eq_ok, add_eq_ok, takeBond_eq_ok,
    pure_iff] at accepted
  obtain ⟨record, recordAt, _, bonded, _, notSelf, _, notTwice, _, ⟨small, funded, rfl⟩, _, live,
    count, counted, rfl⟩ := accepted
  exact ⟨record, count, ⟨recordAt, bonded, notSelf, notTwice, small, funded, live, counted⟩, rfl⟩

theorem takeChallenge_eq_ok (accepted : takeChallenge c key who = .ok taken) :
    ∃ challenge ∈ c.openOn key, challenge.challenger = who ∧ taken = (challenge.bond, { c with
      challenges := Function.update c.challenges key
        (some ((c.openOn key).eraseP (·.challenger = who))) }) ∧
      (c.openOn key).Perm (challenge :: (c.openOn key).eraseP (·.challenger = who)) := by
  simp only [takeChallenge, bind_eq_ok, fetch_eq_ok] at accepted
  obtain ⟨list, listed, accepted⟩ := accepted
  split at accepted
  · cases accepted
  · rename_i challenge found
    have opened : c.openOn key = list := by rw [Chain.openOn, listed]; rfl
    cases accepted
    rw [opened]
    refine ⟨challenge, List.mem_of_find?_eq_some found, by simpa using List.find?_some found, rfl, ?_⟩
    obtain ⟨matches', before, after, rfl, none⟩ := List.find?_eq_some_iff_append.mp found
    rw [List.eraseP_append_right _ (by simpa using none), List.eraseP_cons_of_pos (by simpa using matches')]
    exact List.perm_middle

theorem takeChallenge_accepts (opened : hasOpenChallenge c key who = true) :
    ∃ taken, takeChallenge c key who = .ok taken := by
  unfold hasOpenChallenge at opened
  split at opened
  · cases opened
  · rename_i list listed
    obtain ⟨challenge, member, same⟩ := List.any_eq_true.mp opened
    rw [takeChallenge, fetch_eq_ok.mpr listed, ok_bind]
    split
    · rename_i missing
      exact absurd same (by simpa using List.find?_eq_none.mp missing challenge member)
    · exact ⟨_, rfl⟩

/-- A challenge lost: it is gone, its bond was paid out, and the assertion is
pending again if it was the last. -/
def Defended (c : Chain) (key : Bytes) (loser : Address) (record : Assertion) (c' : Chain) : Prop :=
  c.assertions key = some record ∧ record.status = .challenged ∧
  ∃ challenge ∈ c.openOn key, challenge.challenger = loser ∧
  bondsOf (c.openOn key) = challenge.bond.val +
    bondsOf ((c.openOn key).eraseP (·.challenger = loser)) ∧
  ∃ count : U64, record.openChallenges.val = count.val + 1 ∧
  Paid { c with
    challenges := Function.update c.challenges key
      (some ((c.openOn key).eraseP (·.challenger = loser)))
    assertions := Function.update c.assertions key (some { record with
      status := if count.val = 0 then .pending else record.status
      openChallenges := count }) } c' challenge.bond.val

theorem defended_of_defenderWon (accepted : defenderWon c key loser = .ok c') :
    ∃ record, Defended c key loser record c' := by
  simp only [defenderWon, bind_eq_ok, ensure_eq_ok, fetch_eq_ok, sub_eq_ok] at accepted
  obtain ⟨record, recordAt, taken, took, _, challenged, count, ⟨positive, counted⟩, paid⟩ := accepted
  obtain ⟨challenge, member, who, rfl, split⟩ := takeChallenge_eq_ok took
  have one : (1 : U64).val = 1 := rfl
  refine ⟨record, recordAt, challenged, challenge, member, who, bondsOf_perm split, count, by omega, ?_⟩
  exact paid_of_distributeSlashed paid

/-- An assertion was rejected: its bond and the bonds of all challenges against it
were paid out, and none of those challenges is left. -/
def Rejected (c : Chain) (key : Bytes) (record : Assertion) (c' : Chain) : Prop :=
  c.assertions key = some record ∧ (record.status = .pending ∨ record.status = .challenged) ∧
  ∃ challenges, (∀ other, (challenges other).getD [] = if other = key then [] else c.openOn other) ∧
  Paid { reject c key record with challenges } c' (record.bond.val + bondsOf (c.openOn key))

theorem Rejected.order (rejected : Rejected c key record c') : c'.order = c.order := by
  obtain ⟨_, _, _, _, _, _, rfl⟩ := rejected
  rfl

/-- A turn of the sweep leaves a candidate whose parent stands, or which is
settled, and rejects any other. -/
theorem rejected_of_sweep (accepted : sweep c candidate = .ok c') : ∃ record, c.assertions candidate = some record ∧
      ((c' = c ∧ (isRejected c record.parent = true →
          record.status = .rejected ∨ record.status = .finalized)) ∨
        (isRejected c record.parent = true ∧ Rejected c candidate record c' ∧
          Pays c c' ((c.treasury, record.bond.val) :: refunds (c.openOn candidate)))) := by
  simp only [sweep, bind_eq_ok, fetch_eq_ok] at accepted
  obtain ⟨record, recordAt, accepted⟩ := accepted
  refine ⟨record, recordAt, ?_⟩
  split at accepted
  · rename_i swept
    obtain ⟨middle, paid, refunded⟩ := bind_eq_ok.mp accepted
    have pays := (pays_of_payFromEscrow paid).trans (pays_of_refundChallenges refunded)
    obtain ⟨coversBond, wallets, rfl⟩ := paid_of_payFromEscrow paid
    obtain ⟨challenges, ⟨coversRefund, wallets', rfl⟩, left⟩ := paid_of_refundChallenges refunded
    refine .inr ⟨swept.2.2, ⟨recordAt, ?_, challenges, left, ?_, wallets', ?_⟩, pays⟩
    · cases status : record.status <;> simp_all
    · simp only [reject, Chain.openOn] at coversBond coversRefund ⊢
      omega
    · simp only [reject, Chain.openOn, Nat.sub_add_eq]
  · rename_i left
    refine .inl ⟨(Except.ok.inj accepted).symm, fun parent => ?_⟩
    cases status : record.status <;> simp_all

theorem rejected_of_win {record : Assertion} (recordAt : c.assertions key = some record)
    (challenged : record.status = .challenged) (took : takeChallenge c key winner = .ok taken)
    (toWinner : payFromEscrow (reject taken.2 key record) winner taken.1 = .ok c₂)
    (toBoth : distributeSlashed c₂ winner record.bond = .ok c₃) (refunded : refundChallenges c₃ key = .ok c₁) :
    Rejected c key record c₁ ∧ ∃ challenge, challenge.challenger = winner ∧
      (c.openOn key).Perm (challenge :: (c.openOn key).eraseP (·.challenger = winner)) ∧
      Pays c c₁ ((winner, challenge.bond.val) :: slashed winner c.treasury record.bond.val ++
        refunds ((c.openOn key).eraseP (·.challenger = winner))) := by
  obtain ⟨challenge, _, who, rfl, split⟩ := takeChallenge_eq_ok took
  have bonds := bondsOf_perm split
  rw [bondsOf_cons] at bonds
  have pays := ((pays_of_payFromEscrow toWinner).trans (pays_of_distributeSlashed toBoth)).trans
    (pays_of_refundChallenges refunded)
  obtain ⟨coversWinner, _, rfl⟩ := paid_of_payFromEscrow toWinner
  obtain ⟨coversSlash, _, rfl⟩ := paid_of_distributeSlashed toBoth
  obtain ⟨challenges, ⟨coversRefund, wallets, rfl⟩, left⟩ := paid_of_refundChallenges refunded
  have rest : (Function.update c.challenges key
    (some ((c.openOn key).eraseP (·.challenger = winner))) key).getD [] =
      (c.openOn key).eraseP (·.challenger = winner) := by simp
  refine ⟨⟨recordAt, .inr challenged, challenges, ?_, ?_, wallets, ?_⟩, challenge, who, split, ?_⟩
  · intro other
    rw [left other]
    split
    · rfl
    · rename_i elsewhere
      simp [Chain.openOn, reject, elsewhere]
  · simp only [reject, Chain.openOn, Function.update_self, Option.getD_some] at *
    omega
  · simp only [reject, Chain.openOn, Function.update_self, Option.getD_some] at *
    congr 1
    omega
  · rw [← rest]
    exact pays

theorem rejected_of_challengerWon (accepted : challengerWon c key winner = .ok c') :
    ∃ record c₁ challenge, Rejected c key record c₁ ∧ challenge.challenger = winner ∧
      (c.openOn key).Perm (challenge :: (c.openOn key).eraseP (·.challenger = winner)) ∧
      Pays c c₁ ((winner, challenge.bond.val) :: slashed winner c.treasury record.bond.val ++
        refunds ((c.openOn key).eraseP (·.challenger = winner))) ∧
      c₁.order.foldlM sweep c₁ = .ok c' := by
  simp only [challengerWon, bind_eq_ok, ensure_eq_ok, fetch_eq_ok] at accepted
  obtain ⟨record, recordAt, taken, took, _, challenged, _, toWinner, _, toBoth, c₁, refunded, swept⟩ :=
    accepted
  obtain ⟨rejected, challenge, who, split, pays⟩ :=
    rejected_of_win recordAt challenged took toWinner toBoth refunded
  exact ⟨record, c₁, challenge, rejected, who, split, pays, swept⟩

/-- An assertion was finalized and its bond returned. -/
def Finalized (c : Chain) (now : U64) (key : Bytes) (record parent : Assertion) (c' : Chain) : Prop :=
  c.assertions key = some record ∧ record.status = .pending ∧
  c.assertions record.parent = some parent ∧ parent.status = .finalized ∧
  c.challengeWindow.val + record.postedAt.val ≤ now.val ∧
  Paid { c with
    assertions := Function.update c.assertions key (some { record with status := .finalized })
    latestFinalized := key } c' record.bond.val

theorem finalized_of_finalize (accepted : finalize c now key = .ok c') :
    ∃ record parent, Finalized c now key record parent c' := by
  simp only [finalize, bind_eq_ok, ensure_eq_ok, fetch_eq_ok, sub_eq_ok] at accepted
  obtain ⟨record, recordAt, _, pending, parent, parentAt, _, final, elapsed, ⟨started, waited⟩, _,
    passed, paid⟩ := accepted
  exact ⟨record, parent, recordAt, pending, parentAt, final, by omega, paid_of_payFromEscrow paid⟩

/-- Everything that can happen to the chain. A challenger's win is a rejection
followed by the rejections of its sweep. -/
inductive Moves (crypto : Crypto) : Chain → Chain → Prop
  | posted (now : U64) (proposer : Address) (args : Posting) (encodable : args.Encodable)
      (posted : Posted crypto c now proposer args parent txRoot commitment key) :
      Moves crypto c (c.posted now proposer args txRoot commitment key)
  | challenged (challenger : Address)
      (challenged : Challenged c challenger key bond record count) :
      Moves crypto c (c.challenged challenger key bond record count)
  | defended (loser : Address) (defended : Defended c key loser record c') : Moves crypto c c'
  | rejected (rejected : Rejected c key record c') : Moves crypto c c'
  | finalized (now : U64) (finalized : Finalized c now key record parent c') : Moves crypto c c'

/-- Some assertion was rejected. -/
def Rejection (c c' : Chain) : Prop := ∃ key record, Rejected c key record c'

theorem rejections_of_sweeps {order : List Bytes} (accepted : order.foldlM sweep c = .ok c') :
    Relation.ReflTransGen Rejection c c' := by
  induction order generalizing c with
  | nil =>
    cases accepted
    exact .refl
  | cons candidate rest ih =>
    rw [List.foldlM_cons, bind_eq_ok] at accepted
    obtain ⟨middle, swept, others⟩ := accepted
    obtain ⟨record, _, ⟨rfl, _⟩ | ⟨_, rejected, _⟩⟩ := rejected_of_sweep swept
    · exact ih others
    · exact .head ⟨candidate, record, rejected⟩ (ih others)

theorem rejections_of_challengerWon (accepted : challengerWon c key winner = .ok c') :
    Relation.ReflTransGen Rejection c c' := by
  obtain ⟨record, c₁, _, rejected, _, _, _, swept⟩ := rejected_of_challengerWon accepted
  exact .head ⟨key, record, rejected⟩ (rejections_of_sweeps swept)

theorem moves_of_rejections (crypto : Crypto) (rejections : Relation.ReflTransGen Rejection c c') :
    Relation.ReflTransGen (Moves crypto) c c' :=
  Relation.ReflTransGen.mono (fun _ _ ⟨_, _, rejected⟩ => .rejected rejected) _ _ rejections

end Sena.Assertions
