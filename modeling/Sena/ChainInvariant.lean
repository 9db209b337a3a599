import Sena.AssertionsProofs

/-! What holds of the assertion chain after any moves.

A record's claim never changes, and a settled record not at all. The posting
order lists every assertion once and after its parent. The escrow holds exactly
the bonds that are still at risk. -/
namespace Sena.Assertions

open Move Relation

variable {c c' : Chain} {key : Bytes} {r record written : Assertion}

/-- Settled records take no further outcome. -/
def Status.Settled (s : Status) : Prop := s = .finalized ∨ s = .rejected

/-- What may become of a record: its claim stays, and once settled all of it. -/
structure Assertion.Updates (r r' : Assertion) : Prop where
  claim : r' = { r with status := r'.status, openChallenges := r'.openChallenges }
  settled : r.status.Settled → r' = r

theorem Assertion.Updates.refl (r : Assertion) : r.Updates r := ⟨rfl, fun _ => rfl⟩

theorem Assertion.Updates.trans (first : r.Updates record) (second : record.Updates written) : r.Updates written := by
  refine ⟨?_, fun settled => ?_⟩
  · rw [second.claim, first.claim]
  · have same := first.settled settled
    subst same
    exact second.settled settled

/-- The chain only grows, and its records only get updated. -/
structure Evolves (c c' : Chain) : Prop where
  order : c.order <+: c'.order
  published : c.published <+: c'.published
  records : ∀ key r, c.assertions key = some r → ∃ r', c'.assertions key = some r' ∧ r.Updates r'
  permits : c'.permits = c.permits

theorem Evolves.refl (c : Chain) : Evolves c c :=
  ⟨List.prefix_rfl, List.prefix_rfl, fun _ r found => ⟨r, found, .refl r⟩, rfl⟩

theorem Evolves.trans (first : Evolves c c') (second : Evolves c' c'') : Evolves c c'' := by
  refine ⟨first.order.trans second.order, first.published.trans second.published, ?_,
    second.permits.trans first.permits⟩
  intro key r found
  obtain ⟨r', found', updates⟩ := first.records key r found
  obtain ⟨r'', found'', updates'⟩ := second.records key r' found'
  exact ⟨r'', found'', updates.trans updates'⟩

theorem Evolves.unblocked (evolves : Evolves c c') (free : c.Unblocked) : c'.Unblocked :=
  fun who amount => evolves.permits ▸ free who amount

theorem updates_write {table : Bytes → Option Assertion} (at' : table key = some record)
    (updates : record.Updates written) :
    ∀ other r, table other = some r →
      ∃ r', Function.update table key (some written) other = some r' ∧ r.Updates r' := by
  intro other r found
  by_cases here : other = key
  · subst here
    rw [at', Option.some.injEq] at found
    subst found
    exact ⟨written, by simp, updates⟩
  · exact ⟨r, by simpa [Function.update_apply, here] using found, .refl r⟩

theorem Posted.keeps (posted : Posted crypto c now proposer args parent txRoot commitment key)
    (found : c.assertions other = some r) :
    (c.posted now proposer args txRoot commitment key).assertions other = some r := by
  have elsewhere : other ≠ key := by
    rintro rfl
    simp [posted.fresh] at found
  simpa [Chain.posted, Function.update_apply, elsewhere] using found

theorem Rejected.evolves (rejected : Rejected c key record c') : Evolves c c' := by
  obtain ⟨recordAt, live, _, _, _, _, rfl⟩ := rejected
  refine ⟨List.prefix_rfl, List.prefix_rfl, updates_write recordAt ⟨rfl, ?_⟩, rfl⟩
  intro settled
  rcases live with live | live <;> simp [Status.Settled, live] at settled

theorem Moves.evolves (moves : Moves crypto c c') : Evolves c c' := by
  cases moves with
  | posted now proposer args _ posted =>
    exact ⟨List.prefix_append _ _, List.prefix_append _ _,
      fun other r found => ⟨r, posted.keeps found, .refl r⟩, rfl⟩
  | challenged challenger challenged =>
    refine ⟨List.prefix_rfl, List.prefix_rfl, updates_write challenged.recordAt ⟨rfl, ?_⟩, rfl⟩
    intro settled
    rcases challenged.live with live | live <;> simp [Status.Settled, live] at settled
  | defended loser defended =>
    obtain ⟨recordAt, challenged, _, _, _, _, count, _, _, _, rfl⟩ := defended
    refine ⟨List.prefix_rfl, List.prefix_rfl, updates_write recordAt ⟨rfl, ?_⟩, rfl⟩
    intro settled
    simp [Status.Settled, challenged] at settled
  | rejected rejected => exact rejected.evolves
  | finalized now finalized =>
    obtain ⟨recordAt, pending, _, _, _, _, _, rfl⟩ := finalized
    refine ⟨List.prefix_rfl, List.prefix_rfl, updates_write recordAt ⟨rfl, ?_⟩, rfl⟩
    intro settled
    simp [Status.Settled, pending] at settled

theorem evolves_of_moves (moves : ReflTransGen (Moves crypto) c c') : Evolves c c' := by
  induction moves with
  | refl => exact .refl c
  | tail _ last ih => exact ih.trans last.evolves

/-- The posting order lists every assertion once, genesis first, and after its
parent; what is finalized stands on something finalized. -/
structure Ordered (c : Chain) : Prop where
  nodup : c.order.Nodup
  listed : ∀ key, key ∈ c.order ↔ (c.assertions key).isSome
  first : ∃ key r, c.order[0]? = some key ∧ c.assertions key = some r ∧ r.status = .finalized
  parents : ∀ i key r, c.order[i + 1]? = some key → c.assertions key = some r →
    ∃ j p, j ≤ i ∧ c.order[j]? = some r.parent ∧ c.assertions r.parent = some p ∧
      (r.status = .finalized → p.status = .finalized)

/-- Moves that write one listed record and keep the order. -/
theorem Ordered.write (ordered : Ordered c) (recordAt : c.assertions key = some record) (same : c'.order = c.order)
    (wrote : c'.assertions = Function.update c.assertions key (some written))
    (claim : written.parent = record.parent)
    (up : record.status = .finalized → written.status = .finalized)
    (down : written.status = .finalized → record.status = .finalized ∨
      ∃ p, c.assertions record.parent = some p ∧ p.status = .finalized) : Ordered c' := by
  -- records elsewhere are untouched, and a final one at `key` stays final
  have kept : ∀ other r, c.assertions other = some r → ∃ r', c'.assertions other = some r' ∧
      (r.status = .finalized → r'.status = .finalized) := by
    intro other r found
    rw [wrote]
    by_cases here : other = key
    · subst here
      rw [recordAt, Option.some.injEq] at found
      subst found
      exact ⟨written, by simp, up⟩
    · exact ⟨r, by simpa [Function.update_apply, here] using found, fun final => final⟩
  refine ⟨same ▸ ordered.nodup, fun other => ?_, ?_, ?_⟩
  · rw [same, ordered.listed, wrote]
    by_cases here : other = key
    · simp [here, recordAt]
    · simp [here]
  · obtain ⟨first, r, at0, found, final⟩ := ordered.first
    obtain ⟨r', found', stays⟩ := kept first r found
    exact ⟨first, r', same ▸ at0, found', stays final⟩
  · intro i other r' listed found
    rw [same] at listed
    rw [wrote] at found
    by_cases here : other = key
    · subst here
      obtain rfl : written = r' := by simpa using found
      obtain ⟨j, p, before, parentAt, parent, final⟩ := ordered.parents i other record listed recordAt
      obtain ⟨p', parent', stays⟩ := kept record.parent p parent
      rw [claim]
      refine ⟨j, p', before, same ▸ parentAt, parent', fun written => stays ?_⟩
      rcases down written with already | ⟨q, again, q_final⟩
      · exact final already
      · rw [parent, Option.some.injEq] at again
        exact again ▸ q_final
    · rw [Function.update_apply, if_neg here] at found
      obtain ⟨j, p, before, parentAt, parent, final⟩ := ordered.parents i other r' listed found
      obtain ⟨p', parent', stays⟩ := kept r'.parent p parent
      exact ⟨j, p', before, same ▸ parentAt, parent', fun at' => stays (final at')⟩

theorem getElem?_of_longer {before after : List α} {i : Nat} (shorter : before <+: after)
    (found : before[i]? = some a) : after[i]? = some a := by
  obtain ⟨rest, rfl⟩ := shorter
  rw [List.getElem?_append_left (List.getElem?_eq_some_iff.mp found).1, found]

theorem listed_of_posted {other : Bytes} {i : Nat}
    (listed : (c.posted now proposer args txRoot commitment key).order[i]? = some other)
    (apart : other ≠ key) : c.order[i]? = some other := by
  simp only [Chain.posted, List.getElem?_append] at listed
  split at listed
  · exact listed
  · rw [List.getElem?_singleton] at listed
    split at listed
    · exact absurd (Option.some.inj listed).symm apart
    · cases listed

theorem Ordered.posted (ordered : Ordered c)
    (posted : Posted crypto c now proposer args parent txRoot commitment key) :
    Ordered (c.posted now proposer args txRoot commitment key) := by
  have unlisted : key ∉ c.order := by simp [ordered.listed, posted.fresh]
  have longer : c.order <+: (c.posted now proposer args txRoot commitment key).order :=
    List.prefix_append _ _
  refine ⟨?_, fun other => ?_, ?_, ?_⟩
  · have apart : ∀ other ∈ c.order, ¬other = key := fun other listed same => unlisted (same ▸ listed)
    simpa [Chain.posted, List.nodup_append, ordered.nodup] using apart
  · by_cases here : other = key
    · simp [Chain.posted, here]
    · simp [Chain.posted, here, ordered.listed]
  · obtain ⟨first, r, at0, found, final⟩ := ordered.first
    exact ⟨first, r, getElem?_of_longer longer at0, posted.keeps found, final⟩
  · intro i other r listed found
    by_cases here : other = key
    · subst here
      obtain rfl : args.record proposer now txRoot commitment = r := by
        simpa [Chain.posted] using found
      obtain ⟨j, parentAt⟩ := List.getElem?_of_mem
        ((ordered.listed args.parent).mpr (by simp [posted.parentAt]))
      -- the new assertion stands last, so its parent stands before it
      have last : i + 1 = c.order.length := by
        rcases Nat.lt_or_ge (i + 1) c.order.length with inside | beyond
        · rw [Chain.posted, List.getElem?_append_left inside] at listed
          exact absurd (List.mem_of_getElem? listed) unlisted
        · have bound := (List.getElem?_eq_some_iff.mp listed).1
          simp only [Chain.posted, List.length_append, List.length_singleton] at bound
          omega
      have within := (List.getElem?_eq_some_iff.mp parentAt).1
      exact ⟨j, parent, by omega, getElem?_of_longer longer parentAt, posted.keeps posted.parentAt,
        fun final => by cases final⟩
    · have found : c.assertions other = some r := by
        simpa [Chain.posted, Function.update_apply, here] using found
      obtain ⟨j, p, before, parentAt, parent, final⟩ :=
        ordered.parents i other r (listed_of_posted listed here) found
      exact ⟨j, p, before, getElem?_of_longer longer parentAt, posted.keeps parent, final⟩

theorem Rejected.ordered (rejected : Rejected c key record c') (ordered : Ordered c) : Ordered c' := by
  obtain ⟨recordAt, live, _, _, _, _, rfl⟩ := rejected
  refine ordered.write recordAt rfl rfl rfl (fun final => ?_) (fun final => by cases final)
  rcases live with live | live <;> simp [live] at final

theorem Moves.ordered (moves : Moves crypto c c') (ordered : Ordered c) : Ordered c' := by
  cases moves with
  | posted now proposer args _ posted => exact ordered.posted posted
  | challenged challenger challenged =>
    refine ordered.write challenged.recordAt rfl rfl rfl (fun final => ?_) (fun final => by cases final)
    rcases challenged.live with live | live <;> simp [live] at final
  | defended loser defended =>
    obtain ⟨recordAt, challenged, _, _, _, _, count, _, _, _, rfl⟩ := defended
    refine ordered.write recordAt rfl rfl rfl (fun final => by simp [challenged] at final) ?_
    intro final
    simp only [challenged] at final
    split at final <;> cases final
  | rejected rejected => exact rejected.ordered ordered
  | finalized now finalized =>
    obtain ⟨recordAt, pending, parentAt, final, _, _, _, rfl⟩ := finalized
    exact ordered.write recordAt rfl rfl rfl (fun _ => rfl) (fun _ => .inr ⟨_, parentAt, final⟩)

/-- The bonds an assertion still has at risk: its own until it is settled, and
those of the challenges open against it. -/
def Chain.atRisk (c : Chain) (key : Bytes) : Nat :=
  (match c.assertions key with
    | some r => if r.status = .pending ∨ r.status = .challenged then r.bond.val else 0
    | none => 0) + bondsOf (c.openOn key)

theorem Chain.atRisk_of_live (recordAt : c.assertions key = some r)
    (live : r.status = .pending ∨ r.status = .challenged) :
    c.atRisk key = r.bond.val + bondsOf (c.openOn key) := by
  simp [Chain.atRisk, recordAt, live]

/-- An assertion stays live when a challenge against it is lost. -/
theorem live_of_lost {status : Status} (challenged : status = .challenged) :
    (if n = 0 then .pending else status) = .pending ∨ (if n = 0 then .pending else status) = .challenged := by
  split
  · exact .inl rfl
  · exact .inr challenged

theorem Chain.atRisk_of_settled (recordAt : c.assertions key = some r) (settled : r.status.Settled) :
    c.atRisk key = bondsOf (c.openOn key) := by
  rcases settled with status | status <;> simp [Chain.atRisk, recordAt, status]

/-- Statuses and counters agree with the lists of challenges, and the escrow
holds what is at risk. -/
structure Books (c : Chain) : Prop where
  counted : ∀ key r, c.assertions key = some r → r.openChallenges.val = (c.openOn key).length
  contested : ∀ key r, c.assertions key = some r → (r.status = .challenged ↔ c.openOn key ≠ [])
  unknown : ∀ key, c.assertions key = none → c.openOn key = []
  smallBond : ∀ key r, c.assertions key = some r → r.bond.val < 2 ^ 64
  smallChallenges : ∀ key, ∀ x ∈ c.openOn key, x.bond.val < 2 ^ 64
  escrow : c.escrow = (c.order.map c.atRisk).sum

theorem sum_map_of_agree {α : Type} [DecidableEq α] {l : List α} {key : α} {f g : α → Nat}
    (nodup : l.Nodup) (member : key ∈ l) (agree : ∀ x, x ≠ key → f x = g x) :
    (l.map f).sum + g key = (l.map g).sum + f key := by
  have others : ((l.erase key).map f).sum = ((l.erase key).map g).sum := by
    rw [List.map_congr_left fun x inside => agree x (nodup.mem_erase_iff.mp inside).1]
  have split := List.perm_cons_erase member
  rw [(split.map f).sum_nat, (split.map g).sum_nat, List.map_cons, List.map_cons, List.sum_cons,
    List.sum_cons, others]
  omega

section
variable (books : Books c) (ordered : Ordered c)
include books ordered

/-- Moves that write one listed record and its list of challenges keep the books
if they do at that key. -/
theorem Books.write (recordAt : c.assertions key = some record) (same : c'.order = c.order)
    (wrote : c'.assertions = Function.update c.assertions key (some written))
    (elsewhere : ∀ other, other ≠ key → c'.openOn other = c.openOn other) (bond : written.bond = record.bond)
    (counted : written.openChallenges.val = (c'.openOn key).length)
    (contested : written.status = .challenged ↔ c'.openOn key ≠ []) (small : ∀ x ∈ c'.openOn key, x.bond.val < 2 ^ 64)
    (balanced : c'.escrow + c.atRisk key = c.escrow + c'.atRisk key) : Books c' := by
  have here : c'.assertions key = some written := by simp [wrote]
  have there : ∀ other, other ≠ key → c'.assertions other = c.assertions other :=
    fun other apart => by simp [wrote, apart]
  have member : key ∈ c.order := (ordered.listed key).mpr (by simp [recordAt])
  constructor
  · intro other r found
    by_cases at' : other = key
    · subst at'
      rw [here, Option.some.injEq] at found
      exact found ▸ counted
    · rw [elsewhere other at']
      exact books.counted other r (there other at' ▸ found)
  · intro other r found
    by_cases at' : other = key
    · subst at'
      rw [here, Option.some.injEq] at found
      exact found ▸ contested
    · rw [elsewhere other at']
      exact books.contested other r (there other at' ▸ found)
  · intro other missing
    by_cases at' : other = key
    · subst at'
      simp [here] at missing
    · rw [elsewhere other at']
      exact books.unknown other (there other at' ▸ missing)
  · intro other r found
    by_cases at' : other = key
    · subst at'
      rw [here, Option.some.injEq] at found
      rw [← found, bond]
      exact books.smallBond other record recordAt
    · exact books.smallBond other r (there other at' ▸ found)
  · intro other x inside
    by_cases at' : other = key
    · subst at'
      exact small x inside
    · exact books.smallChallenges other x (elsewhere other at' ▸ inside)
  · have agree : ∀ other, other ≠ key → c.atRisk other = c'.atRisk other := by
      intro other apart
      simp only [Chain.atRisk, there other apart, elsewhere other apart]
    have changed := sum_map_of_agree ordered.nodup member agree
    rw [same]
    have total := books.escrow
    omega

theorem Books.posted (posted : Posted crypto c now proposer args parent txRoot commitment key) :
    Books (c.posted now proposer args txRoot commitment key) := by
  have unlisted : key ∉ c.order := by simp [ordered.listed, posted.fresh]
  have none' := books.unknown key posted.fresh
  have opened : ∀ other, (c.posted now proposer args txRoot commitment key).openOn other =
    c.openOn other := fun _ => rfl
  have back : ∀ other r, (c.posted now proposer args txRoot commitment key).assertions other = some r →
      (other = key ∧ r = args.record proposer now txRoot commitment) ∨
        c.assertions other = some r := by
    intro other r found
    by_cases at' : other = key
    · exact .inl ⟨at', by simpa [Chain.posted, at', eq_comm] using found⟩
    · exact .inr (by simpa [Chain.posted, at'] using found)
  constructor
  · intro other r found
    rcases back other r found with ⟨rfl, rfl⟩ | old
    · simp [opened, none', Posting.record]
    · exact books.counted other r old
  · intro other r found
    rcases back other r found with ⟨rfl, rfl⟩ | old
    · simp [opened, none', Posting.record]
    · exact books.contested other r old
  · intro other missing
    refine books.unknown other ?_
    cases found : c.assertions other with
    | none => rfl
    | some r => simp [posted.keeps found] at missing
  · intro other r found
    rcases back other r found with ⟨rfl, rfl⟩ | old
    · exact posted.small
    · exact books.smallBond other r old
  · exact books.smallChallenges
  · have agree : ∀ other ∈ c.order, c.atRisk other =
        (c.posted now proposer args txRoot commitment key).atRisk other := by
      intro other listed
      have apart : other ≠ key := fun same => unlisted (same ▸ listed)
      simp [Chain.atRisk, Chain.posted, Chain.openOn, apart]
    have added : (c.posted now proposer args txRoot commitment key).atRisk key = args.bond.val := by
      rw [Chain.atRisk_of_live (r := args.record proposer now txRoot commitment)
        (by simp [Chain.posted]) (.inl rfl), opened, none']
      rfl
    rw [show (c.posted now proposer args txRoot commitment key).order = c.order ++ [key] from rfl,
      List.map_append, List.sum_append, ← List.map_congr_left agree, ← books.escrow]
    rw [List.map_singleton, List.sum_singleton, added]
    rfl

theorem Books.challenged (challenged : Challenged c challenger key bond record count) :
    Books (c.challenged challenger key bond record count) := by
  refine books.write ordered challenged.recordAt rfl rfl (fun other apart => ?_) rfl ?_ ?_ ?_ ?_
  · simp [Chain.openOn, Chain.challenged, apart]
  · simp [Chain.openOn_challenged, challenged.counted, books.counted key record challenged.recordAt]
  · simp [Chain.openOn_challenged]
  · intro x inside
    rw [Chain.openOn_challenged, List.mem_append, List.mem_singleton] at inside
    rcases inside with old | rfl
    · exact books.smallChallenges key x old
    · exact challenged.small
  · rw [Chain.atRisk_of_live challenged.recordAt challenged.live,
      Chain.atRisk_of_live c.assertions_challenged (.inr rfl), Chain.openOn_challenged]
    simp only [Chain.challenged, bondsOf, List.map_append, List.sum_append, List.map_cons,
      List.map_nil, List.sum_cons, List.sum_nil]
    omega

theorem Books.defended (defended : Defended c key loser record c') : Books c' := by
  obtain ⟨recordAt, contested, challenge, member, who, bonds, count, counted, covered, wallets, rfl⟩ :=
    defended
  have listed := books.counted key record recordAt
  have shorter := List.length_eraseP_of_mem member (p := (·.challenger = loser)) (by simpa using who)
  refine books.write ordered recordAt rfl rfl (fun other apart => ?_) rfl ?_ ?_ ?_ ?_
  · simp [Chain.openOn, apart]
  · simp only [Chain.openOn, Function.update_self, Option.getD_some] at listed shorter ⊢
    omega
  · -- one challenge fewer: none is left exactly when the counter reached zero
    simp only [Chain.openOn, Function.update_self, Option.getD_some] at listed shorter ⊢
    rw [← List.length_pos_iff, shorter, ← listed, counted]
    split <;> simp [contested] <;> omega
  · intro x inside
    refine books.smallChallenges key x ?_
    simp only [Chain.openOn, Function.update_self, Option.getD_some] at inside
    exact List.mem_of_mem_eraseP inside
  · rw [Chain.atRisk_of_live recordAt (.inr contested),
      Chain.atRisk_of_live (Function.update_self ..) (live_of_lost contested)]
    simp only [Chain.openOn, Function.update_self, Option.getD_some] at *
    omega

theorem Books.rejected (rejected : Rejected c key record c') : Books c' := by
  obtain ⟨recordAt, live, challenges, left, covered, wallets, rfl⟩ := rejected
  have emptied : (challenges key).getD [] = [] := by simp [left]
  refine books.write ordered recordAt rfl rfl (fun other apart => ?_) rfl ?_ ?_ ?_ ?_
  · simp [Chain.openOn, left, apart]
  · simp [Chain.openOn, emptied]
  · simp [Chain.openOn, emptied]
  · intro x inside
    simp [Chain.openOn, emptied] at inside
  · rw [Chain.atRisk_of_live recordAt live,
      Chain.atRisk_of_settled (Function.update_self ..) (.inr rfl)]
    simp only [Chain.openOn, reject, emptied, bondsOf_nil] at *
    omega

theorem Books.finalized (finalized : Finalized c now key record parent c') : Books c' := by
  obtain ⟨recordAt, pending, _, _, _, covered, wallets, rfl⟩ := finalized
  have none' : c.openOn key = [] := by
    have contested := books.contested key record recordAt
    simpa [pending] using contested
  have counted := books.counted key record recordAt
  refine books.write ordered recordAt rfl rfl (fun other apart => rfl) rfl counted ?_ ?_ ?_
  · simp [Chain.openOn] at none' ⊢
    exact none'
  · exact books.smallChallenges key
  · rw [Chain.atRisk_of_live recordAt (.inl pending),
      Chain.atRisk_of_settled (Function.update_self ..) (.inl rfl)]
    simp only [Chain.openOn] at *
    omega

end

theorem Moves.books (moves : Moves crypto c c') (ordered : Ordered c) (books : Books c) : Books c' := by
  cases moves with
  | posted now proposer args _ posted => exact books.posted ordered posted
  | challenged challenger challenged => exact books.challenged ordered challenged
  | defended loser defended => exact books.defended ordered defended
  | rejected rejected => exact books.rejected ordered rejected
  | finalized now finalized => exact books.finalized ordered finalized

/-- The posting a record goes back to, and what was checked of it. -/
structure PostedAs (crypto : Crypto) (c : Chain) (r : Assertion) (args : Posting) : Prop where
  encodable : args.Encodable
  recipient : args.feeRecipient.length = 32
  shape : checkBatchShape args.txStarts args.txBytes.length args.traceLength args.preStateRoot
    args.postStateRoot = .ok ()
  rooted : BatchVerifier.rootOf crypto args.txBytes args.txStarts = .ok r.txRoot
  continues : ∃ p, c.assertions args.parent = some p ∧ p.postStateRoot = args.preStateRoot
  record : ∃ proposer now commitment, (args.record proposer now r.txRoot commitment).Updates r

theorem PostedAs.evolve (postedAs : PostedAs crypto c r args) (evolves : Evolves c c')
    (updates : r.Updates record) : PostedAs crypto c' record args := by
  obtain ⟨encodable, recipient, shape, rooted, ⟨p, parentAt, continues⟩, proposer, now, commitment, from'⟩ :=
    postedAs
  obtain ⟨p', parentAt', updatesParent⟩ := evolves.records _ p parentAt
  have txRoot : record.txRoot = r.txRoot := by rw [updates.claim]
  refine ⟨encodable, recipient, shape, txRoot ▸ rooted, ⟨p', parentAt', ?_⟩, proposer, now, commitment, ?_⟩
  · rw [updatesParent.claim]
    exact continues
  · rw [txRoot]
    exact from'.trans updates

/-- Every assertion after genesis has the event that published its batch, and its
record commits to exactly that batch. -/
structure Archived (crypto : Crypto) (c : Chain) : Prop where
  length : c.order.length = c.published.length + 1
  events : ∀ i key r, c.order[i + 1]? = some key → c.assertions key = some r →
    ∃ args, PostedAs crypto c r args ∧ c.published[i]? = some (args.event key)

theorem Archived.write (archived : Archived crypto c) (evolves : Evolves c c')
    (listed : ∀ other, (c'.assertions other).isSome → (c.assertions other).isSome)
    (order : c'.order = c.order) (published : c'.published = c.published) : Archived crypto c' := by
  refine ⟨by rw [order, published]; exact archived.length, fun i other r' at' found' => ?_⟩
  obtain ⟨r, found⟩ := Option.isSome_iff_exists.mp (listed other (by simp [found']))
  obtain ⟨r₁, found₁, updates⟩ := evolves.records other r found
  obtain rfl : r₁ = r' := by simpa [found₁] using found'
  obtain ⟨args, postedAs, event⟩ := archived.events i other r (order ▸ at') found
  exact ⟨args, postedAs.evolve evolves updates, published ▸ event⟩

theorem Archived.posted (archived : Archived crypto c) (ordered : Ordered c) (encodable : args.Encodable)
    (posted : Posted crypto c now proposer args parent txRoot commitment key) :
    Archived crypto (c.posted now proposer args txRoot commitment key) := by
  have evolves := (Moves.posted now proposer args encodable posted).evolves
  have length := archived.length
  refine ⟨by simp [Chain.posted, length], fun i other r at' found => ?_⟩
  simp only [Chain.posted, List.getElem?_append] at at' ⊢
  split at at'
  · rename_i inside
    have old : (c.assertions other).isSome := (ordered.listed other).mp (List.mem_of_getElem? at')
    obtain ⟨r₀, found₀⟩ := Option.isSome_iff_exists.mp old
    obtain rfl : r₀ = r := by simpa [posted.keeps found₀] using found
    obtain ⟨args', postedAs, event⟩ := archived.events i other r₀ at' found₀
    exact ⟨args', postedAs.evolve evolves (.refl r₀), by rw [if_pos (by omega)]; exact event⟩
  · rename_i beyond
    rw [List.getElem?_singleton] at at'
    split at at'
    · rename_i last
      obtain rfl : key = other := by simpa using at'
      obtain rfl : args.record proposer now txRoot commitment = r := by simpa [Chain.posted] using found
      refine ⟨args, ⟨encodable, posted.recipient, posted.shape, posted.rooted,
        ⟨parent, posted.keeps posted.parentAt, posted.continues⟩, proposer, now, commitment, .refl _⟩, ?_⟩
      rw [if_neg (by omega), show i - c.published.length = 0 by omega]
      rfl
    · cases at'

theorem Moves.archived (moves : Moves crypto c c') (ordered : Ordered c) (archived : Archived crypto c) :
    Archived crypto c' := by
  have ordered' := moves.ordered ordered
  have evolves := moves.evolves
  have same (order : c'.order = c.order) :
      ∀ other, (c'.assertions other).isSome → (c.assertions other).isSome := by
    intro other found
    rwa [← ordered'.listed, order, ordered.listed] at found
  cases moves with
  | posted now proposer args encodable posted => exact archived.posted ordered encodable posted
  | challenged challenger challenged => exact archived.write evolves (same rfl) rfl rfl
  | defended loser defended =>
    obtain ⟨_, _, _, _, _, _, _, _, _, _, rfl⟩ := defended
    exact archived.write evolves (same rfl) rfl rfl
  | rejected rejected =>
    obtain ⟨_, _, _, _, _, _, rfl⟩ := rejected
    exact archived.write evolves (same rfl) rfl rfl
  | finalized now finalized =>
    obtain ⟨_, _, _, _, _, _, _, rfl⟩ := finalized
    exact archived.write evolves (same rfl) rfl rfl

/-- What holds of every chain a deployment can get into. -/
structure Sound (crypto : Crypto) (c : Chain) : Prop where
  ordered : Ordered c
  books : Books c
  archived : Archived crypto c

theorem Moves.sound (moves : Moves crypto c c') (sound : Sound crypto c) : Sound crypto c' :=
  ⟨moves.ordered sound.ordered, moves.books sound.ordered sound.books,
    moves.archived sound.ordered sound.archived⟩

theorem sound_of_moves (sound : Sound crypto c) (moves : ReflTransGen (Moves crypto) c c') : Sound crypto c' := by
  induction moves with
  | refl => exact sound
  | tail _ last ih => exact last.sound ih

/-- A chain just created has genesis in it and nothing else. -/
theorem sound_of_initializeChain
    (created : initializeChain crypto admin root window bond treasury age wallets permits = .ok c) :
    Sound crypto c := by
  simp only [initializeChain, bind_eq_ok, pure_iff] at created
  obtain ⟨key, identified, rfl⟩ := created
  have only : ∀ other r, Function.update (fun _ => none) key (some (genesis admin root)) other = some r →
      other = key ∧ r = genesis admin root := by
    intro other r found
    by_cases here : other = key
    · exact ⟨here, by simpa [here, eq_comm] using found⟩
    · simp [here] at found
  refine ⟨⟨?_, fun other => ?_, ?_, ?_⟩, ⟨?_, ?_, ?_, ?_, ?_, ?_⟩, ⟨rfl, ?_⟩⟩
  · simp
  · by_cases here : other = key <;> simp [here]
  · exact ⟨key, genesis admin root, rfl, by simp, rfl⟩
  · intro i other r listed
    simp at listed
  · intro other r found
    obtain ⟨_, rfl⟩ := only other r found
    rfl
  · intro other r found
    obtain ⟨_, rfl⟩ := only other r found
    simp [Chain.openOn, genesis]
  · intros
    rfl
  · intro other r found
    obtain ⟨_, rfl⟩ := only other r found
    simp [genesis]
  · intro other x inside
    simp [Chain.openOn] at inside
  · simp [Chain.atRisk, Chain.openOn, genesis]
  · intro i other r listed
    simp at listed

end Sena.Assertions
