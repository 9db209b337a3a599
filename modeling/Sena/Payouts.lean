import Mathlib.Algebra.Order.BigOperators.Group.List
import Mathlib.Data.List.Perm.Basic
import Sena.Games

/-! Where bonds go.

The escrow law says how much is held, not whose it is. Here every bond taken is
followed by name: it is at risk until it is paid out, once and in whole, to the
parties its outcome names. An outcome that is due is never refused for lack of
escrow. -/
namespace Sena.Assertions

open Move Relation

variable {c c' c'' : Chain} {key : Bytes} {r record : Assertion}

theorem Books.covers (books : Books c) (listed : key ∈ c.order) : c.atRisk key ≤ c.escrow := by
  rw [books.escrow]
  exact List.le_sum_of_mem (List.mem_map_of_mem listed)

theorem sweep_accepts (free : c.Unblocked) (books : Books c) (ordered : Ordered c) (listed : key ∈ c.order) :
    ∃ c', sweep c key = .ok c' := by
  obtain ⟨record, recordAt⟩ := Option.isSome_iff_exists.mp ((ordered.listed key).mp listed)
  rw [sweep, fetch_eq_ok.mpr recordAt, ok_bind]
  split
  · rename_i swept
    have live : record.status = .pending ∨ record.status = .challenged := by
      cases status : record.status <;> simp_all
    have covered := books.covers listed
    rw [Chain.atRisk_of_live recordAt live] at covered
    obtain ⟨middle, paid⟩ := payFromEscrow_accepts (c := reject c key record) free c.treasury
      (books.smallBond key record recordAt) (by simp only [reject]; omega)
    have made := paid
    obtain ⟨_, wallets, rfl⟩ := paid_of_payFromEscrow paid
    simp only
    rw [show (reject c key record).treasury = c.treasury from rfl, made, ok_bind]
    refine refundChallenges_accepts free (books.smallChallenges key) ?_
    simp only [reject, Chain.openOn] at covered ⊢
    omega
  · exact ⟨c, rfl⟩

theorem sweeps_accept {candidates : List Bytes} (free : c.Unblocked) (books : Books c) (ordered : Ordered c)
    (listed : ∀ key ∈ candidates, key ∈ c.order) : ∃ c', candidates.foldlM sweep c = .ok c' := by
  induction candidates generalizing c with
  | nil => exact ⟨c, rfl⟩
  | cons candidate rest ih =>
    obtain ⟨middle, swept⟩ := sweep_accepts free books ordered (listed candidate (by simp))
    rw [List.foldlM_cons, swept, ok_bind]
    obtain ⟨record, _, ⟨rfl, _⟩ | ⟨_, rejected, _⟩⟩ := rejected_of_sweep swept
    · exact ih free books ordered fun key member => listed key (by simp [member])
    · refine ih (rejected.evolves.unblocked free) (books.rejected ordered rejected) (rejected.ordered ordered) ?_
      intro key member
      rw [rejected.order]
      exact listed key (by simp [member])

private theorem payments_accept (free : c.Unblocked) (key : Bytes) (winner : Address) {first bond : U128} (smallFirst : first.val < 2 ^ 64)
    (smallBond : bond.val < 2 ^ 64) (smallOthers : ∀ x ∈ c.openOn key, x.bond.val < 2 ^ 64)
    (covered : first.val + bond.val + bondsOf (c.openOn key) ≤ c.escrow) :
    ∃ c₂ c₃ c₁, payFromEscrow c winner first = .ok c₂ ∧ distributeSlashed c₂ winner bond = .ok c₃ ∧
      refundChallenges c₃ key = .ok c₁ := by
  obtain ⟨c₂, toWinner⟩ := payFromEscrow_accepts free winner smallFirst (by omega : first.val ≤ c.escrow)
  obtain ⟨_, wallets, same⟩ := paid_of_payFromEscrow toWinner
  obtain ⟨c₃, toBoth⟩ := distributeSlashed_accepts (same ▸ free : c₂.Unblocked) winner smallBond
    (by simp only [same]; omega)
  obtain ⟨_, wallets', same'⟩ := paid_of_distributeSlashed toBoth
  have opened : c₃.openOn key = c.openOn key := by rw [same', same]; rfl
  obtain ⟨c₁, refunded⟩ : ∃ c₁, refundChallenges c₃ key = .ok c₁ :=
    refundChallenges_accepts (same' ▸ same ▸ free : c₃.Unblocked) (opened ▸ smallOthers) (by rw [opened]; simp only [same', same]; omega)
  exact ⟨c₂, c₃, c₁, toWinner, toBoth, refunded⟩

section
variable (books : Books c) (ordered : Ordered c)
include books ordered

private theorem contested_of_opened (opened : hasOpenChallenge c key who = true) :
    ∃ record challenge, c.assertions key = some record ∧ record.status = .challenged ∧
      challenge ∈ c.openOn key ∧
      takeChallenge c key who = .ok (challenge.bond, { c with
        challenges := Function.update c.challenges key
          (some ((c.openOn key).eraseP (·.challenger = who))) }) ∧
      challenge.bond.val + record.bond.val + bondsOf ((c.openOn key).eraseP (·.challenger = who)) ≤
        c.escrow := by
  obtain ⟨taken, took⟩ := takeChallenge_accepts opened
  obtain ⟨challenge, member, who, rfl, split⟩ := takeChallenge_eq_ok took
  have contested : c.openOn key ≠ [] := List.ne_nil_of_mem member
  cases recordAt : c.assertions key with
  | none => exact absurd (books.unknown key recordAt) contested
  | some record =>
    have challenged := (books.contested key record recordAt).mpr contested
    have covered := books.covers ((ordered.listed key).mpr (by simp [recordAt]))
    rw [Chain.atRisk_of_live recordAt (.inr challenged), bondsOf_perm split, bondsOf_cons] at covered
    exact ⟨record, challenge, rfl, challenged, member, took, by omega⟩

/-- A win can be awarded to whoever has an open challenge. -/
theorem challengerWon_accepts (free : c.Unblocked)
    (opened : hasOpenChallenge c key winner = true) : ∃ c', challengerWon c key winner = .ok c' := by
  obtain ⟨record, challenge, recordAt, challenged, member, took, covered⟩ :=
    contested_of_opened books ordered opened
  have left : ((Function.update c.challenges key
    (some ((c.openOn key).eraseP (·.challenger = winner)))) key).getD [] =
      (c.openOn key).eraseP (·.challenger = winner) := by simp
  obtain ⟨c₂, c₃, c₁, toWinner, toBoth, refunded⟩ := payments_accept (free : Chain.Unblocked _) key winner
    (c := reject { c with
      challenges := Function.update c.challenges key
        (some ((c.openOn key).eraseP (·.challenger = winner))) } key record)
    (books.smallChallenges key challenge member) (books.smallBond key record recordAt)
    (by
      rw [Chain.openOn, reject, left]
      exact fun x inside => books.smallChallenges key x (List.mem_of_mem_eraseP inside))
    (by rw [Chain.openOn, reject, left]; exact covered)
  have rejected := (rejected_of_win recordAt challenged took toWinner toBoth refunded).1
  simp only [challengerWon, fetch_eq_ok.mpr recordAt, ok_bind, took, ensure_of challenged, toWinner,
    toBoth, refunded]
  exact sweeps_accept (rejected.evolves.unblocked free) (books.rejected ordered rejected) (rejected.ordered ordered) fun _ listed => listed

theorem defenderWon_accepts (free : c.Unblocked)
    (opened : hasOpenChallenge c key loser = true) : ∃ c', defenderWon c key loser = .ok c' := by
  obtain ⟨record, challenge, recordAt, challenged, member, took, covered⟩ :=
    contested_of_opened books ordered opened
  have counted := books.counted key record recordAt
  have positive : (1 : U64).val ≤ record.openChallenges.val := by
    rw [counted]
    exact List.length_pos_of_mem member
  obtain ⟨count, subtracted⟩ := Move.sub_accepts positive
  simp only [defenderWon, fetch_eq_ok.mpr recordAt, ok_bind, took, ensure_of challenged, subtracted]
  exact distributeSlashed_accepts (by exact free) _ (books.smallChallenges key challenge member)
    (by simp only; omega)

theorem finalize_accepts (free : c.Unblocked) (recordAt : c.assertions key = some record)
    (pending : record.status = .pending) (parentAt : c.assertions record.parent = some r)
    (final : r.status = .finalized) (waited : c.challengeWindow.val + record.postedAt.val ≤ now.val) :
    ∃ c', finalize c now key = .ok c' := by
  have covered := books.covers ((ordered.listed key).mpr (by simp [recordAt]))
  rw [Chain.atRisk_of_live recordAt (.inl pending)] at covered
  obtain ⟨elapsed, subtracted⟩ := Move.sub_accepts (show record.postedAt.val ≤ now.val by omega)
  have passed := (sub_eq_ok.mp subtracted).2
  simp only [finalize, fetch_eq_ok.mpr recordAt, ok_bind, ensure_of pending, fetch_eq_ok.mpr parentAt,
    ensure_of final, subtracted]
  rw [ensure_of (show c.challengeWindow.val ≤ elapsed.val by omega), ok_bind]
  exact payFromEscrow_accepts (by exact free) _ (books.smallBond key record recordAt) (by simp only; omega)

end

inductive Side
  | proposal
  | challenge
deriving DecidableEq

/-- A bond taken: for which assertion, from whom, and whether it was posted with
the assertion or against it. -/
structure Stake where
  key : Bytes
  owner : Address
  side : Side
  amount : Nat
deriving DecidableEq

def Challenge.stake (key : Bytes) (x : Challenge) : Stake := ⟨key, x.challenger, .challenge, x.bond.val⟩

def Assertion.stake (key : Bytes) (r : Assertion) : Stake := ⟨key, r.proposer, .proposal, r.bond.val⟩

/-- The bond posted with an assertion, while it is at risk. -/
def Chain.proposalOn (c : Chain) (key : Bytes) : List Stake :=
  match c.assertions key with
  | some r => if r.status = .pending ∨ r.status = .challenged then [r.stake key] else []
  | none => []

/-- The bonds at risk over an assertion. -/
def Chain.stakesOn (c : Chain) (key : Bytes) : List Stake :=
  c.proposalOn key ++ (c.openOn key).map (Challenge.stake key)

/-- The bonds at risk. -/
def Chain.stakes (c : Chain) : List Stake := c.order.flatMap c.stakesOn

theorem Chain.stakesOn_of_live (recordAt : c.assertions key = some r)
    (live : r.status = .pending ∨ r.status = .challenged) :
    c.stakesOn key = r.stake key :: (c.openOn key).map (Challenge.stake key) := by
  simp [Chain.stakesOn, Chain.proposalOn, recordAt, live]

theorem Chain.stakesOn_of_settled (recordAt : c.assertions key = some r) (settled : r.status.Settled) :
    c.stakesOn key = (c.openOn key).map (Challenge.stake key) := by
  rcases settled with status | status <;> simp [Chain.stakesOn, Chain.proposalOn, recordAt, status]

theorem perm_flatMap_of_agree {α β : Type} [DecidableEq α] [DecidableEq β] {l : List α} {key : α}
    {f g : α → List β} (nodup : l.Nodup) (member : key ∈ l) (agree : ∀ x, x ≠ key → f x = g x) :
    (l.flatMap f ++ g key).Perm (l.flatMap g ++ f key) := by
  have others : (l.erase key).flatMap f = (l.erase key).flatMap g :=
    List.flatMap_congr fun x inside => agree x (nodup.mem_erase_iff.mp inside).1
  have split := List.perm_cons_erase member
  have first := split.flatMap_right f
  have second := split.flatMap_right g
  rw [List.flatMap_cons] at first second
  rw [others] at first
  refine List.perm_iff_count.mpr fun x => ?_
  have countFirst := first.count_eq x
  have countSecond := second.count_eq x
  simp only [List.count_append] at countFirst countSecond ⊢
  omega

/-- A bond paid out, and to whom. -/
structure Payment where
  stake : Stake
  shares : List (Address × Nat)

/-- Who a bond may go to: back to its owner; to the challenger who won, or the
proposer who did, and the treasury; or, when the assertion fell with an
ancestor, to the treasury alone. -/
inductive Payment.Fair (c : Chain) (bonds : List Stake) : Payment → Prop
  | returned (stake : Stake) : Fair c bonds ⟨stake, [(stake.owner, stake.amount)]⟩
  | won {key : Bytes} (owner : Address) (amount : Nat) (challenge : Challenge)
      (against : challenge.stake key ∈ bonds) : Fair c bonds
        ⟨⟨key, owner, .proposal, amount⟩, slashed challenge.challenger c.treasury amount⟩
  | lost {key : Bytes} {r : Assertion} (owner : Address) (amount : Nat)
      (recordAt : c.assertions key = some r) : Fair c bonds
      ⟨⟨key, owner, .challenge, amount⟩, slashed r.proposer c.treasury amount⟩
  | swept (key : Bytes) (owner : Address) (amount : Nat) :
      Fair c bonds ⟨⟨key, owner, .proposal, amount⟩, [(c.treasury, amount)]⟩

theorem Payment.Fair.whole {p : Payment} (fair : p.Fair c bonds) : (p.shares.map (·.2)).sum = p.stake.amount := by
  cases fair with
  | returned | swept => simp
  | won | lost =>
    simp only [slashed, List.map_cons, List.map_nil, List.sum_cons, List.sum_nil]
    omega

theorem Payment.Fair.mono {p : Payment} (fair : p.Fair c bonds)
    (treasury : c'.treasury = c.treasury) (evolves : Evolves c c') (more : bonds ⊆ bonds') :
    p.Fair c' bonds' := by
  cases fair with
  | returned stake => exact .returned stake
  | won owner amount challenge against =>
    rw [← treasury]
    exact .won owner amount challenge (more against)
  | @lost key r owner amount recordAt =>
    obtain ⟨r', recordAt', updates⟩ := evolves.records key r recordAt
    have proposer : r'.proposer = r.proposer := by rw [updates.claim]
    rw [← treasury, ← proposer]
    exact .lost owner amount recordAt'
  | swept key owner amount =>
    rw [← treasury]
    exact .swept key owner amount

/-- What bonds cost the accounts they were taken from. -/
def costs (bonds : List Stake) : List (Address × Nat) := bonds.map fun stake => (stake.owner, stake.amount)

def received (paid : List Payment) : List (Address × Nat) := paid.flatMap (·.shares)

theorem received_append (first second : List Payment) :
    received (first ++ second) = received first ++ received second := List.flatMap_append

/-- What happened to bonds between two states: of those at risk before and those
taken since, each is at risk now or was paid out, once; wallets changed by these
bonds and payments and nothing else. -/
structure Balanced (c c' : Chain) (taken : List Stake) (paid : List Payment) : Prop where
  treasury : c'.treasury = c.treasury
  stakes : (c.stakes ++ taken).Perm (c'.stakes ++ paid.map (·.stake))
  wallets : ∀ account, c'.wallets account + creditTo (costs taken) account =
    c.wallets account + creditTo (received paid) account
  fair : ∀ p ∈ paid, p.Fair c' (c.stakes ++ taken)

theorem Balanced.refl (c : Chain) : Balanced c c [] [] :=
  ⟨rfl, .refl _, fun _ => rfl, by simp⟩

theorem Balanced.trans (first : Balanced c c' taken paid) (second : Balanced c' c'' taken' paid')
    (evolves : Evolves c' c'') : Balanced c c'' (taken ++ taken') (paid ++ paid') := by
  refine ⟨second.treasury.trans first.treasury, ?_, fun account => ?_, fun p inside => ?_⟩
  · refine List.perm_iff_count.mpr fun x => ?_
    have before := first.stakes.count_eq x
    have after := second.stakes.count_eq x
    simp only [List.map_append, List.count_append] at before after ⊢
    omega
  · have before := first.wallets account
    have after := second.wallets account
    simp only [costs, received_append, List.map_append, creditTo_append] at before after ⊢
    omega
  · rcases List.mem_append.mp inside with inside | inside
    · exact (first.fair p inside).mono second.treasury evolves (by
        rw [← List.append_assoc]
        exact List.subset_append_left _ _)
    · refine (second.fair p inside).mono rfl (.refl _) fun stake member => ?_
      rcases List.mem_append.mp member with old | new
      · have known := first.stakes.mem_iff.mpr (List.mem_append_left _ old)
        rw [← List.append_assoc]
        exact List.mem_append_left _ known
      · simp [new]

/-- A write at one listed key balances if it does there. -/
theorem Balanced.write (ordered : Ordered c) (recordAt : c.assertions key = some record)
    (same : c'.order = c.order) (treasury : c'.treasury = c.treasury)
    (elsewhere : ∀ other, other ≠ key → c'.stakesOn other = c.stakesOn other)
    (here : (c.stakesOn key ++ taken).Perm (c'.stakesOn key ++ paid.map (·.stake)))
    (wallets : ∀ account, c'.wallets account + creditTo (costs taken) account =
      c.wallets account + creditTo (received paid) account)
    (fair : ∀ p ∈ paid, p.Fair c' (c.stakesOn key ++ taken)) : Balanced c c' taken paid := by
  have listed : key ∈ c.order := (ordered.listed key).mpr (by simp [recordAt])
  have agree := perm_flatMap_of_agree (f := c.stakesOn) (g := c'.stakesOn) ordered.nodup listed
    fun other apart => (elsewhere other apart).symm
  refine ⟨treasury, ?_, wallets, fun p inside => (fair p inside).mono rfl (.refl _) ?_⟩
  · refine List.perm_iff_count.mpr fun x => ?_
    have local' := here.count_eq x
    have others := agree.count_eq x
    simp only [Chain.stakes, same, List.count_append] at local' others ⊢
    omega
  · intro stake member
    rcases List.mem_append.mp member with old | new
    · exact List.mem_append_left _ (List.mem_flatMap.mpr ⟨key, listed, old⟩)
    · exact List.mem_append_right _ new

theorem Posted.balanced (ordered : Ordered c) (books : Books c)
    (posted : Posted crypto c now proposer args parent txRoot commitment key) :
    Balanced c (c.posted now proposer args txRoot commitment key)
      [⟨key, proposer, .proposal, args.bond.val⟩] [] := by
  have unlisted : key ∉ c.order := by simp [ordered.listed, posted.fresh]
  have agree : ∀ other ∈ c.order, (c.posted now proposer args txRoot commitment key).stakesOn other =
      c.stakesOn other := by
    intro other listed
    have apart : other ≠ key := fun same => unlisted (same ▸ listed)
    simp [Chain.stakesOn, Chain.proposalOn, Chain.posted, Chain.openOn, apart]
  have added : (c.posted now proposer args txRoot commitment key).stakesOn key =
      [⟨key, proposer, .proposal, args.bond.val⟩] := by
    rw [Chain.stakesOn_of_live (r := args.record proposer now txRoot commitment)
      (by simp [Chain.posted]) (.inl rfl), show (c.posted now proposer args txRoot commitment key).openOn
      key = [] from books.unknown key posted.fresh]
    rfl
  refine ⟨rfl, ?_, fun account => ?_, by simp⟩
  · rw [Chain.stakes, Chain.stakes, show (c.posted now proposer args txRoot commitment key).order =
      c.order ++ [key] from rfl, List.flatMap_append, List.flatMap_congr agree, List.flatMap_singleton,
      added, List.map_nil, List.append_nil]
  · have funded := posted.funded
    simp only [Chain.posted, costs, List.map_cons, List.map_nil, creditTo_cons, creditTo_nil, received,
      List.flatMap_nil]
    by_cases payer : account = proposer
    · subst payer
      simp only [Function.update_self, if_true]
      omega
    · simp [payer]

theorem Challenged.balanced (ordered : Ordered c) (challenged : Challenged c challenger key bond record count) :
    Balanced c (c.challenged challenger key bond record count)
      [⟨key, challenger, .challenge, bond.val⟩] [] := by
  refine .write ordered challenged.recordAt rfl rfl (fun other apart => ?_) ?_ (fun account => ?_) (by simp)
  · simp [Chain.stakesOn, Chain.proposalOn, Chain.openOn, Chain.challenged, apart]
  · rw [Chain.stakesOn_of_live challenged.recordAt challenged.live,
      Chain.stakesOn_of_live c.assertions_challenged (.inr rfl), Chain.openOn_challenged]
    simp [Assertion.stake, Challenge.stake]
  · have funded := challenged.funded
    simp only [Chain.challenged, costs, List.map_cons, List.map_nil, creditTo_cons, creditTo_nil, received,
      List.flatMap_nil]
    by_cases payer : account = challenger
    · subst payer
      simp only [Function.update_self, if_true]
      omega
    · simp [payer]

/-- Payments that return bonds to their owners. -/
def returns (bonds : List Stake) : List Payment := bonds.map fun stake => ⟨stake, [(stake.owner, stake.amount)]⟩

theorem stakes_returns (bonds : List Stake) : (returns bonds).map (·.stake) = bonds := by
  rw [returns, List.map_map]
  exact List.map_id bonds

theorem received_returns (list : List Challenge) :
    received (returns (list.map (Challenge.stake key))) = refunds list := by
  induction list with
  | nil => rfl
  | cons x rest ih =>
    simp only [received, returns, refunds, List.map_cons, List.flatMap_cons] at ih ⊢
    rw [ih]
    rfl

theorem fair_returns : ∀ p ∈ returns stakes, p.Fair c bonds := by
  intro p inside
  obtain ⟨stake, _, rfl⟩ := List.mem_map.mp inside
  exact .returned stake

section
variable (rejected : Rejected c key record c')
include rejected

theorem Rejected.treasury : c'.treasury = c.treasury := by
  obtain ⟨_, _, _, _, _, _, rfl⟩ := rejected
  rfl

/-- A rejection leaves nothing at risk over the assertion. -/
theorem Rejected.stakesOn (other : Bytes) : c'.stakesOn other = if other = key then [] else c.stakesOn other := by
  obtain ⟨_, _, challenges, left, _, _, rfl⟩ := rejected
  split
  · rename_i here
    subst here
    simp [Chain.stakesOn, Chain.proposalOn, Chain.openOn, reject, left]
  · rename_i apart
    simp [Chain.stakesOn, Chain.proposalOn, Chain.openOn, reject, left, apart]

theorem Rejected.balanced (ordered : Ordered c) (first : List Payment) (rest : List Challenge)
    (whole : (c.stakesOn key).Perm (first.map (·.stake) ++ rest.map (Challenge.stake key)))
    (pays : Pays c c' (received first ++ refunds rest)) (fair : ∀ p ∈ first, p.Fair c' (c.stakesOn key)) :
    Balanced c c' [] (first ++ returns (rest.map (Challenge.stake key))) := by
  refine .write ordered rejected.1 rejected.order rejected.treasury
    (fun other apart => by rw [rejected.stakesOn, if_neg apart]) ?_ (fun account => ?_) fun p inside => ?_
  · rw [rejected.stakesOn, if_pos rfl, List.map_append, stakes_returns, List.append_nil]
    exact whole
  · rw [received_append, received_returns]
    exact pays account
  · rw [List.append_nil]
    rcases List.mem_append.mp inside with inside | inside
    · exact fair p inside
    · exact fair_returns p inside

end

section
variable (ordered : Ordered c)
include ordered

theorem balanced_of_sweep (accepted : sweep c key = .ok c') : ∃ paid, Balanced c c' [] paid := by
  obtain ⟨record, recordAt, ⟨rfl, _⟩ | ⟨_, rejected, pays⟩⟩ := rejected_of_sweep accepted
  · exact ⟨[], .refl _⟩
  · refine ⟨_, rejected.balanced ordered [⟨record.stake key, [(c.treasury, record.bond.val)]⟩]
      (c.openOn key) ?_ pays fun p inside => ?_⟩
    · rw [Chain.stakesOn_of_live recordAt rejected.2.1]
      simp
    · obtain rfl := List.mem_singleton.mp inside
      rw [← rejected.treasury]
      exact .swept key record.proposer record.bond.val

theorem balanced_of_sweeps {candidates : List Bytes}
    (accepted : candidates.foldlM sweep c = .ok c') : ∃ paid, Balanced c c' [] paid := by
  induction candidates generalizing c with
  | nil =>
    obtain rfl := Except.ok.inj accepted
    exact ⟨[], .refl c⟩
  | cons candidate rest ih =>
    rw [List.foldlM_cons, bind_eq_ok] at accepted
    obtain ⟨middle, swept, others⟩ := accepted
    obtain ⟨paid, first⟩ := balanced_of_sweep ordered swept
    have evolves := evolves_of_moves (moves_of_rejections L1.hashing (rejections_of_sweeps others))
    obtain ⟨record, _, ⟨rfl, _⟩ | ⟨_, rejected, _⟩⟩ := rejected_of_sweep swept
    · exact ih ordered others
    · obtain ⟨paid', second⟩ := ih (rejected.ordered ordered) others
      exact ⟨_, first.trans second evolves⟩

theorem balanced_of_challengerWon (accepted : challengerWon c key winner = .ok c') :
    ∃ paid, Balanced c c' [] paid := by
  obtain ⟨record, c₁, challenge, rejected, rfl, split, pays, swept⟩ := rejected_of_challengerWon accepted
  have live := Chain.stakesOn_of_live rejected.1 rejected.2.1
  have first : Balanced c c₁ [] _ := rejected.balanced ordered
    [⟨challenge.stake key, [(challenge.challenger, challenge.bond.val)]⟩,
      ⟨record.stake key, slashed challenge.challenger c.treasury record.bond.val⟩]
    ((c.openOn key).eraseP (·.challenger = challenge.challenger))
    (by
      rw [live]
      exact ((split.map (Challenge.stake key)).cons _).trans (.swap _ _ _))
    (by simpa [received] using pays)
    (by
      intro p inside
      rcases List.mem_pair.mp inside with rfl | rfl
      · exact .returned (challenge.stake key)
      · rw [← rejected.treasury]
        refine .won record.proposer record.bond.val challenge ?_
        rw [live]
        exact List.mem_cons_of_mem _ (List.mem_map_of_mem (split.mem_iff.mpr (List.mem_cons_self ..))))
  have evolves := evolves_of_moves (moves_of_rejections L1.hashing (rejections_of_sweeps swept))
  obtain ⟨paid, second⟩ := balanced_of_sweeps (rejected.ordered ordered) swept
  exact ⟨_, first.trans second evolves⟩

theorem balanced_of_defenderWon (accepted : defenderWon c key loser = .ok c') : ∃ paid, Balanced c c' [] paid := by
  simp only [defenderWon, bind_eq_ok, ensure_eq_ok, fetch_eq_ok, sub_eq_ok] at accepted
  obtain ⟨record, recordAt, taken, took, _, challenged, count, _, paid⟩ := accepted
  obtain ⟨challenge, _, rfl, rfl, split⟩ := takeChallenge_eq_ok took
  have pays := pays_of_distributeSlashed paid
  obtain ⟨_, wallets, same⟩ := paid_of_distributeSlashed paid
  have written : c'.assertions key = some { record with
      status := if count.val = 0 then .pending else record.status
      openChallenges := count } := by simp [same]
  have opened : c'.openOn key = (c.openOn key).eraseP (·.challenger = challenge.challenger) := by
    simp [same, Chain.openOn]
  refine ⟨[⟨challenge.stake key, slashed record.proposer c.treasury challenge.bond.val⟩],
    .write ordered recordAt (by simp [same]) (by simp [same]) (fun other apart => ?_) ?_
      (fun account => ?_) fun p inside => ?_⟩
  · simp [same, Chain.stakesOn, Chain.proposalOn, Chain.openOn, apart]
  · rw [Chain.stakesOn_of_live recordAt (.inr challenged), Chain.stakesOn_of_live written (live_of_lost challenged), opened,
      List.append_nil]
    exact ((split.map (Challenge.stake key)).cons _).trans (by
      rw [List.map_cons, List.map_singleton, List.cons_append]
      exact (List.perm_append_singleton _ _).symm.cons _)
  · simpa [costs, received] using pays account
  · obtain rfl := List.mem_singleton.mp inside
    have treasury : c'.treasury = c.treasury := by simp [same]
    have fair : Payment.Fair c' (c.stakesOn key ++ []) _ :=
      .lost challenge.challenger challenge.bond.val written
    rwa [treasury] at fair

theorem balanced_of_finalize (accepted : finalize c now key = .ok c') : ∃ paid, Balanced c c' [] paid := by
  simp only [finalize, bind_eq_ok, ensure_eq_ok, fetch_eq_ok, sub_eq_ok] at accepted
  obtain ⟨record, recordAt, _, pending, _, _, _, _, _, _, _, _, paid⟩ := accepted
  have pays := pays_of_payFromEscrow paid
  obtain ⟨_, wallets, same⟩ := paid_of_payFromEscrow paid
  have written : c'.assertions key = some { record with status := .finalized } := by simp [same]
  have opened : c'.openOn key = c.openOn key := by simp [same, Chain.openOn]
  refine ⟨returns [record.stake key], .write ordered recordAt (by simp [same]) (by simp [same])
    (fun other apart => ?_) ?_ (fun account => ?_) fair_returns⟩
  · simp [same, Chain.stakesOn, Chain.proposalOn, Chain.openOn, apart]
  · rw [Chain.stakesOn_of_live recordAt (.inl pending), Chain.stakesOn_of_settled written (.inl rfl),
      opened, stakes_returns, List.append_nil]
    exact (List.perm_append_singleton _ _).symm
  · simpa [costs, received, returns, Assertion.stake] using pays account

end

/-- The bonds of all assertions that are pending or challenged. -/
def Chain.proposalBonds (c : Chain) : Nat :=
  (c.order.map fun key => match c.assertions key with
    | some r => if r.status = .pending ∨ r.status = .challenged then r.bond.val else 0
    | none => 0).sum

/-- The bonds of all challenges in the table. -/
def Chain.challengeBonds (c : Chain) : Nat := (c.order.map fun key => bondsOf (c.openOn key)).sum

/-- An outcome is accepted exactly when it is due. -/
structure Payable (c : Chain) (now : U64) : Prop where
  won : ∀ key winner, (∃ c', challengerWon c key winner = .ok c') ↔ hasOpenChallenge c key winner = true
  lost : ∀ key loser, (∃ c', defenderWon c key loser = .ok c') ↔ hasOpenChallenge c key loser = true
  final : ∀ key, (∃ c', finalize c now key = .ok c') ↔ ∃ r p, c.assertions key = some r ∧
    r.status = .pending ∧ c.assertions r.parent = some p ∧ p.status = .finalized ∧
    c.challengeWindow.val + r.postedAt.val ≤ now.val

theorem Sound.payable (sound : Sound crypto c) (free : c.Unblocked) (now : U64) : Payable c now := by
  refine ⟨fun key winner => ⟨?_, challengerWon_accepts sound.books sound.ordered free⟩,
    fun key loser => ⟨?_, defenderWon_accepts sound.books sound.ordered free⟩, fun key => ⟨?_, ?_⟩⟩
  · rintro ⟨c', accepted⟩
    obtain ⟨_, _, challenge, _, who, split, _⟩ := rejected_of_challengerWon accepted
    exact hasOpenChallenge_iff.mpr ⟨challenge, split.mem_iff.mpr (List.mem_cons_self ..), who⟩
  · rintro ⟨c', accepted⟩
    obtain ⟨_, _, _, challenge, member, who, _⟩ := defended_of_defenderWon accepted
    exact hasOpenChallenge_iff.mpr ⟨challenge, member, who⟩
  · rintro ⟨c', accepted⟩
    obtain ⟨r, p, recordAt, pending, parentAt, final, waited, _⟩ := finalized_of_finalize accepted
    exact ⟨r, p, recordAt, pending, parentAt, final, waited⟩
  · rintro ⟨r, p, recordAt, pending, parentAt, final, waited⟩
    exact finalize_accepts sound.books sound.ordered free recordAt pending parentAt final waited

end Sena.Assertions

namespace Sena

open Move Assertions Disputes Relation

/-- The bonds an accepted call takes, read off the state it leaves. -/
def Call.bonds (after : L1) (who : Address) : Call → List Stake
  | .post args => [⟨after.chain.order.getLastD [], who, .proposal, args.bond.val⟩]
  | .openChallenge key bond => [⟨key, who, .challenge, bond.val⟩]
  | _ => []

namespace L1

variable {crypto : Crypto} {w w' start : L1} {who : Address} {c : Call}

/-- A run, with the bonds taken in it. -/
inductive History (crypto : Crypto) (start : L1) : L1 → List Stake → Prop
  | start : History crypto start start []
  | call {w w' : L1} (earlier : History crypto start w taken) (who : Address) (c : Call)
      (encodable : c.Encodable) (accepted : w.call crypto who c = .ok w') :
      History crypto start w' (taken ++ c.bonds w' who)
  | tick {w : L1} (earlier : History crypto start w taken) (now : U64) (later : w.now.val ≤ now.val) :
      History crypto start { w with now } taken

theorem History.steps (history : History crypto start w taken) : ReflTransGen (Step crypto) start w := by
  induction history with
  | start => exact .refl
  | call _ who c encodable accepted ih => exact ih.tail (.call who c encodable trivial accepted)
  | tick _ now later ih => exact ih.tail (.tick now later)

theorem history_of_steps (steps : ReflTransGen (Step crypto) start w) : ∃ taken, History crypto start w taken := by
  induction steps with
  | refl => exact ⟨[], .start⟩
  | tail _ last ih =>
    obtain ⟨taken, history⟩ := ih
    cases last with
    | call who c encodable _ accepted => exact ⟨_, history.call who c encodable accepted⟩
    | tick now later => exact ⟨_, history.tick now later⟩

theorem balanced_of_settles (ordered : Ordered before)
    (settles : Settles before d winner after) : ∃ paid, Balanced before after [] paid := by
  cases settles with
  | moot => exact ⟨[], .refl before⟩
  | won won => exact balanced_of_challengerWon ordered won
  | lost lost => exact balanced_of_defenderWon ordered lost

theorem balanced_of_call (sound : Sound crypto w.chain) (accepted : w.call crypto who c = .ok w') :
    ∃ paid, Balanced w.chain w'.chain (c.bonds w' who) paid := by
  cases effect_of_call accepted with
  | @posted args _ txRoot commitment key posted =>
    refine ⟨[], ?_⟩
    have last : (w.chain.posted w.now who args txRoot commitment key).order.getLastD [] = key := by
      simp [Chain.posted]
    rw [Call.bonds, last]
    exact posted.balanced sound.ordered sound.books
  | challenged challenged => exact ⟨[], challenged.balanced sound.ordered⟩
  | finalized =>
    obtain ⟨_, made, same⟩ := bind_eq_ok.mp accepted
    obtain ⟨paid, balanced⟩ := balanced_of_finalize sound.ordered made
    rw [← Except.ok.inj same]
    exact ⟨paid, balanced⟩
  | created | worked | opened | dissected | selected => exact ⟨[], .refl _⟩
  | stepped _ _ _ _ settles => exact balanced_of_settles sound.ordered settles
  | timedOut _ _ _ settles => exact balanced_of_settles sound.ordered settles
  | proved about proved =>
    have none' : ∀ after, c.bonds after who = [] := fun _ => by
      cases c <;> first | rfl | cases about
    rw [none']
    exact balanced_of_challengerWon sound.ordered proved.won

theorem balanced_of_history (sound : Sound crypto start.chain) (history : History crypto start w taken) :
    ∃ paid, Balanced start.chain w.chain taken paid := by
  induction history with
  | start => exact ⟨[], .refl _⟩
  | call earlier who c encodable accepted ih =>
    obtain ⟨paid, balanced⟩ := ih
    have sound' := sound_of_moves sound (moves_of_steps earlier.steps)
    obtain ⟨paid', balanced'⟩ := balanced_of_call sound' accepted
    exact ⟨paid ++ paid', balanced.trans balanced'
      (evolves_of_moves ((effect_of_call accepted).moves encodable))⟩
  | tick _ _ _ ih => exact ih

theorem escrow_of_books {c : Chain} (books : Books c) : c.escrow = c.proposalBonds + c.challengeBonds := by
  rw [books.escrow, Chain.proposalBonds, Chain.challengeBonds, ← List.sum_map_add]
  rfl

/-- The escrow holds the bonds at risk and nothing else, so every payout that is
due can be made; and each bond ever taken is either still at risk or was paid
out, once and in whole, to those its outcome names. -/
theorem escrow_holds_bonds_at_risk (deployed : deploy crypto d time = .ok start)
    (history : History crypto start w taken) :
    w.chain.escrow = w.chain.proposalBonds + w.chain.challengeBonds ∧
    (w.chain.order.Nodup ∧ ∀ key, key ∉ w.chain.order →
      w.chain.assertions key = none ∧ w.chain.openOn key = []) ∧
    (w.chain.Unblocked → Payable w.chain w.now) ∧
    ∃ paid, taken.Perm (w.chain.stakes ++ paid.map (·.stake)) ∧
      (∀ p ∈ paid, p.Fair w.chain taken ∧ (p.shares.map (·.2)).sum = p.stake.amount) ∧
      ∀ account, w.chain.wallets account + creditTo (costs taken) account =
        d.wallets account + creditTo (received paid) account := by
  have sound := (deploy_eq_ok deployed).1
  have sound' := sound_of_moves sound (moves_of_steps history.steps)
  have unlisted : ∀ key, key ∉ w.chain.order → w.chain.assertions key = none := fun key missing => by
    simpa [sound'.ordered.listed] using missing
  refine ⟨escrow_of_books sound'.books, ⟨sound'.ordered.nodup, fun key missing =>
    ⟨unlisted key missing, sound'.books.unknown key (unlisted key missing)⟩⟩, fun free => sound'.payable free w.now, ?_⟩
  obtain ⟨paid, balanced⟩ := balanced_of_history sound history
  have empty : start.chain.stakes = [] ∧ start.chain.wallets = d.wallets := by
    simp only [deploy, initializeChain, bind_eq_ok, pure_iff, initializeRegistry_eq_ok] at deployed
    obtain ⟨_, ⟨_, _, rfl⟩, _, _, rfl⟩ := deployed
    simp [Chain.stakes, Chain.stakesOn, Chain.proposalOn, Chain.openOn, genesis]
  refine ⟨paid, ?_, fun p inside => ?_, fun account => ?_⟩
  · have stakes := balanced.stakes
    rwa [empty.1, List.nil_append] at stakes
  · have fair := balanced.fair p inside
    rw [empty.1, List.nil_append] at fair
    exact ⟨fair, fair.whole⟩
  · rw [balanced.wallets account, empty.2]

/-- Two assertions in a line: the first is finalized, the second challenged. -/
def bondScript : List (L1 → Event) :=
  [fun w => .call (.fill 32 2) (w.idle 0 7),
   fun w => .call (.fill 32 3) (w.idle 1 9),
   fun w => .call (.fill 32 4) (.openChallenge (w.idAt 2) 5),
   fun _ => .tick 86400,
   fun w => .call (.fill 32 4) (.finalize (w.idAt 1))]

theorem escrow_of_finalized_and_challenged : ∃ (w : L1) (taken : List Stake), w.chain.escrow = 14 ∧
    w.chain.escrow = w.chain.proposalBonds + w.chain.challengeBonds ∧ Payable w.chain w.now ∧
    ∃ paid, taken.Perm (w.chain.stakes ++ paid.map (·.stake)) ∧
      (∀ p ∈ paid, p.Fair w.chain taken ∧ (p.shares.map (·.2)).sum = p.stake.amount) ∧
      ∀ account, w.chain.wallets account + creditTo (costs taken) account =
        1000 + creditTo (received paid) account := by
  obtain ⟨w, played, held⟩ : ∃ w ∈ scenario (fun _ _ _ => True) hashing floorDeployment 0 bondScript,
      w.chain.escrow = 14 := by decide +kernel
  obtain ⟨start, deployed, steps⟩ := steps_of_scenario played
  obtain ⟨taken, history⟩ := history_of_steps steps
  obtain ⟨law, _, payable, paid⟩ := escrow_holds_bonds_at_risk deployed history
  have free : w.chain.Unblocked := unblocked_of_steps deployed steps fun _ _ => rfl
  exact ⟨w, taken, held, law, payable free, paid⟩

end L1
end Sena
