import Sena.Falls
import Sena.Leaves

/-! Whether a challenge can be closed.

Anyone with a bond and a registry of their own can bring down an assertion that has a
step: they challenge it and wait for the defender, or show that its one step is not the
length of a program. What stands on it falls too, and with it every challenge. Where an
assertion and all below it that is not final have no step, no game can be opened and no
proof made, and a challenge stands for ever. -/
namespace Sena

open Move Assertions Disputes Relation

namespace Assertions

variable {c c' : Chain} {who : Address}

theorem challenged_of_open (books : Books c) (opened : hasOpenChallenge c key who = true) :
    ∃ r, c.assertions key = some r ∧ r.status = .challenged := by
  obtain ⟨x, inside, _⟩ := hasOpenChallenge_iff.mp opened
  cases found : c.assertions key with
  | none => simp [books.unknown key found] at inside
  | some r => exact ⟨r, rfl, (books.contested key r found).mpr (List.ne_nil_of_mem inside)⟩

theorem not_open_of_fallen (books : Books c) (fallen : c.Fallen key) : hasOpenChallenge c key who = false := by
  obtain ⟨r, found, rejected⟩ := fallen
  rw [Bool.eq_false_iff]
  intro opened
  obtain ⟨r', found', challenged⟩ := challenged_of_open books opened
  cases found.symm.trans found'
  cases challenged.symm.trans rejected

theorem fallen_of_challengerWon (won : challengerWon c key winner = .ok c') : c'.Fallen key := by
  obtain ⟨record, c₁, _, rejected, _, _, _, swept⟩ := rejected_of_challengerWon won
  have fallen : c₁.Fallen key := by
    obtain ⟨_, _, _, _, _, _, rfl⟩ := rejected
    exact ⟨_, Function.update_self _ _ _, rfl⟩
  exact fallen.evolve (evolves_of_rejections (rejections_of_sweeps swept))

theorem openChallenge_of_challenged (challenged : Challenged c who key bond record count) :
    openChallenge c who key bond = .ok (c.challenged who key bond record count) := by
  obtain ⟨recordAt, bonded, notSelf, notTwice, small, funded, live, counted⟩ := challenged
  simp only [openChallenge, bind_eq_ok, ensure_eq_ok, fetch_eq_ok, add_eq_ok, takeBond_eq_ok, pure_iff]
  exact ⟨record, recordAt, (), bonded, (), notSelf, (), notTwice, _, ⟨small, funded, rfl⟩, (), live, count, counted,
    rfl⟩

/-- A line of parents leads from one assertion to another, over nothing that is final. -/
def Chain.StandsOn (c : Chain) : Bytes → Bytes → Prop :=
  ReflTransGen fun key parent => ∃ r, c.assertions key = some r ∧ r.status ≠ .finalized ∧ r.parent = parent

theorem listed_of_live {r : Assertion} (ordered : Ordered c) (found : c.assertions key = some r)
    (live : r.status ≠ .finalized) : ∃ i, c.order[i + 1]? = some key := by
  obtain ⟨n, listed⟩ := List.getElem?_of_mem ((ordered.listed key).mpr (by simp [found]))
  cases n with
  | zero =>
    obtain ⟨first, r', at0, found', final⟩ := ordered.first
    obtain rfl : key = first := by simpa [listed] using at0
    obtain rfl : r = r' := by simpa [found] using found'
    exact absurd final live
  | succ i => exact ⟨i, listed⟩

theorem fallen_of_standsOn (ordered : Ordered c) (stands : c.StandsOn key base) (evolves : Evolves c c')
    (closed : Closed c') (fallen : c'.Fallen base) : c'.Fallen key := by
  induction stands using ReflTransGen.head_induction_on with
  | refl => exact fallen
  | head child _ ih =>
    obtain ⟨r, found, live, rfl⟩ := child
    obtain ⟨i, listed⟩ := listed_of_live ordered found live
    obtain ⟨r', found', updates⟩ := evolves.records _ r found
    refine ⟨r', found', closed i _ r' (getElem?_of_longer evolves.order listed) found' (isRejected_iff.mpr ?_)⟩
    rw [updates.claim]
    exact ih

/-- Empty batches down to something final. -/
inductive Hollow (c : Chain) : Bytes → Prop
  | ground {key : Bytes} {r : Assertion} (found : c.assertions key = some r) (final : r.status = .finalized) :
      Hollow c key
  | above {key : Bytes} {r : Assertion} (found : c.assertions key = some r) (live : r.status ≠ .rejected)
      (empty : r.txCount = 0 ∧ r.traceLength.val = 0) (below : Hollow c r.parent) : Hollow c key

theorem Hollow.not_fallen (hollow : Hollow c key) : ¬c.Fallen key := by
  rintro ⟨r', found', rejected⟩
  cases hollow with
  | ground found final =>
    cases found.symm.trans found'
    cases final.symm.trans rejected
  | above found live =>
    cases found.symm.trans found'
    exact live rejected

theorem count_of_shape (shape : checkBatchShape starts count length before after = .ok ()) (untraced : length.val = 0) :
    count = 0 := by
  by_contra some'
  simp only [checkBatchShape, if_neg some', bind_eq_ok, ensure_eq_ok] at shape
  obtain ⟨_, _, _, _, _, _, _, _, last, _, longer⟩ := shape
  omega

theorem hollow_of_untraced {r : Assertion} (sound : Sound crypto c) (closed : Closed c)
    (found : c.assertions key = some r) (live : r.status ≠ .rejected)
    (untraced : ∀ base r, c.StandsOn key base → c.assertions base = some r → r.status ≠ .finalized →
      r.traceLength.val = 0) : Hollow c key := by
  obtain ⟨n, listed⟩ := List.getElem?_of_mem ((sound.ordered.listed key).mpr (by simp [found]))
  -- a parent stands earlier in the posting order
  induction n using Nat.strong_induction_on generalizing key r with | _ n ih =>
  by_cases final : r.status = .finalized
  · exact .ground found final
  obtain ⟨i, listed'⟩ := listed_of_live sound.ordered found final
  obtain rfl : n = i + 1 :=
    (List.getElem?_inj (List.getElem?_eq_some_iff.mp listed).1 sound.ordered.nodup).mp (listed.trans listed'.symm)
  obtain ⟨j, p, before, at', parentAt, _⟩ := sound.ordered.parents i key r listed' found
  obtain ⟨args, postedAs, _⟩ := sound.archived.events i key r listed' found
  obtain ⟨counted, traced, _⟩ := postedAs.claims
  have none' := untraced key r .refl found final
  refine .above found live ⟨?_, none'⟩ (ih j (by omega) parentAt (fun down => ?_) (fun base r' stands => ?_) at')
  · rw [counted]
    exact count_of_shape postedAs.shape (traced ▸ none')
  · exact live (closed i key r listed' found (isRejected_iff.mpr ⟨p, parentAt, down⟩))
  · exact untraced base r' (stands.head ⟨r, found, final, rfl⟩)

end Assertions

namespace L1

variable {crypto : Crypto} {w w' : L1} {who other : Address} {c : Call} {key base : Bytes} {record : Assertion}

theorem lt_txCount_of_proveLeaf (proven : proveLeaf crypto record index leaf = .ok ()) : index < record.txCount :=
  (BatchVerifier.proves_eq_true.mp (proveLeaf_eq_ok.mp proven)).1

/-- A proof about a batch needs a transaction in it. -/
theorem txCount_of_structural (accepted : w.call crypto who c = .ok w') (about : c.structural = some (registry, key)) :
    ∃ record, w.chain.assertions key = some record ∧ 0 < record.txCount := by
  have proven {index : Nat} {leaf : LeafArgs} {record : Assertion} {reg : Registry} {length : Option Nat}
      (programmed : leafProgram crypto reg record index leaf = .ok length) : 0 < record.txCount := by
    simp only [leafProgram, bind_eq_ok] at programmed
    obtain ⟨_, proven, _⟩ := programmed
    exact Nat.zero_lt_of_lt (lt_txCount_of_proveLeaf proven)
  cases c with
  | proveUncompilable | proveStartGap =>
    cases about
    simp only [call, proveUncompilable, proveStartGap, disputeView, bind_eq_ok, fetch_eq_ok] at accepted
    obtain ⟨_, _, record, found, _, programmed, _⟩ := accepted
    exact ⟨record, found, proven programmed⟩
  | proveTraceLength =>
    cases about
    simp only [call, proveTraceLength, disputeView, bind_eq_ok, fetch_eq_ok, ensure_eq_ok] at accepted
    obtain ⟨_, _, record, found, _, some', _⟩ := accepted
    exact ⟨record, found, some'⟩
  | _ => cases about

theorem unplayed_of_untraced (playing : Playing crypto w) (found : w.chain.assertions key = some record)
    (untraced : record.traceLength.val = 0) (game : w.games g = some d) : d.assertion ≠ key := by
  rintro rfl
  have sound := playing.games _ _ game
  obtain ⟨r, recordAt, _, within⟩ := sound.record
  cases found.symm.trans recordAt
  have proper := sound.shape.proper
  omega

/-- Nobody brings down what is hollow. -/
theorem hollow_step (hollow : Hollow w.chain key) (playing : Playing crypto w) (step : Step crypto w w') :
    Hollow w'.chain key := by
  have evolves := evolves_of_moves step.moves
  induction hollow with
  | @ground key r found final =>
    obtain ⟨r', found', updates⟩ := evolves.records key r found
    obtain rfl := updates.settled (.inl final)
    exact .ground found' final
  | @above key r found live empty _ ih =>
    obtain ⟨r', found', updates⟩ := evolves.records key r found
    refine .above found' (fun down => ?_) (by rw [updates.claim]; exact empty) (by rw [updates.claim]; exact ih)
    cases step with
    | tick =>
      cases found.symm.trans found'
      exact live down
    | call caller c _ _ accepted =>
      rcases (effect_of_call accepted).falls ⟨r', found', down⟩ with ⟨r₀, before, rejected⟩ | ⟨r₁, found₁, fallen⟩ | beats
      · cases found.symm.trans before
        exact live rejected
      · cases found'.symm.trans found₁
        rw [updates.claim] at fallen
        exact ih.not_fallen fallen
      · cases beats with
        | timedOut game about => exact unplayed_of_untraced playing found empty.2 game about
        | stepped game about => exact unplayed_of_untraced playing found empty.2 game about
        | proved about =>
          obtain ⟨r₀, before, some'⟩ := txCount_of_structural accepted about
          cases found.symm.trans before
          omega

theorem open_of_hollow (hollow : Hollow w.chain key) (playing : Playing crypto w)
    (opened : hasOpenChallenge w.chain key who = true) (step : Step crypto w w') :
    hasOpenChallenge w'.chain key who = true := by
  have after := hollow_step hollow playing step
  cases step with
  | tick => exact opened
  | call caller c _ _ accepted =>
    rcases (effect_of_call accepted).standing (fun g d found => (playing.games g d found).named) opened with
      still | fallen | ⟨registry, d, _, game, _⟩
    · exact still
    · exact absurd fallen after.not_fallen
    · obtain ⟨about, -⟩ := disputeId_inj.mp (playing.games _ _ game).named
      cases hollow with
      | ground found final =>
        obtain ⟨r', found', challenged⟩ := challenged_of_open playing.sound.books opened
        cases found.symm.trans found'
        cases final.symm.trans challenged
      | above found _ empty => exact absurd about.symm (unplayed_of_untraced playing found empty.2 game)

theorem never_closed_of_hollow (hollow : Hollow w.chain key) (playing : Playing crypto w)
    (opened : hasOpenChallenge w.chain key who = true) (steps : ReflTransGen (Step crypto) w w') :
    hasOpenChallenge w'.chain key who = true := by
  suffices Hollow w'.chain key ∧ hasOpenChallenge w'.chain key who = true from this.2
  induction steps with
  | refl => exact ⟨hollow, opened⟩
  | tail before last ih =>
    have playing' := playing.steps before
    exact ⟨hollow_step ih.1 playing' last, open_of_hollow ih.1 playing' ih.2 last⟩

/-- An assertion of nothing, and a challenge against it. -/
def idleScript : List (L1 → Event) :=
  [fun w => .call (.fill 32 2) (idle 0 0 w), fun w => .call (.fill 32 3) (.openChallenge (w.idAt 1) 0)]

/-- A step that is no call of anyone but this account. -/
abbrev By (crypto : Crypto) (other : Address) : L1 → L1 → Prop := StepWhen crypto fun _ caller _ => caller = other

/-- Others than the challenger can bring it about that its challenge is closed. -/
def Closable (crypto : Crypto) (w : L1) (key : Bytes) (who : Address) : Prop :=
  ∃ w', ReflTransGen (StepWhen crypto fun _ caller _ => caller ≠ who) w w' ∧ hasOpenChallenge w'.chain key who = false

variable {d : Dispute} {plan : Deployment}

theorem steps_of_by (steps : ReflTransGen (By crypto other) w w') : ReflTransGen (Step crypto) w w' :=
  ReflTransGen.mono (fun _ _ step => step.mono fun _ _ _ _ => trivial) _ _ steps

theorem fallen_of_settles {c c' : Chain} (settles : Settles c d .challenger c') : c'.Fallen d.assertion := by
  cases settles with
  | moot _ recordAt rejected => exact ⟨_, recordAt, rejected⟩
  | won won => exact fallen_of_challengerWon won

/-- The roots of every assertion can be committed to. -/
theorem Reachable.framable (reachable : Reachable crypto plan w) (found : w.chain.assertions key = some record) :
    Framable record.preStateRoot ∧ Framable record.postStateRoot := by
  obtain ⟨time, start, deployed, steps⟩ := reachable
  induction steps generalizing key record with
  | refl =>
    simp only [deploy, initializeChain, bind_eq_ok, pure_iff, initializeRegistry_eq_ok] at deployed
    obtain ⟨_, ⟨id, named, rfl⟩, _, _, rfl⟩ := deployed
    have framable := (Codec.digest_eq_ok.mp named).1
    by_cases here : key = id
    · subst here
      obtain rfl : genesis plan.admin plan.genesisRoot = record := by simpa using found
      exact ⟨framable TrieVerifier.zero (by simp), framable plan.genesisRoot (by simp)⟩
    · simp [here] at found
  | tail before last ih =>
    have sound := ((playing_of_deploy deployed).steps before).sound
    rcases last.record_from sound found with ⟨r, found', updates⟩ | ⟨_, args, _, _, _, _, _, posted, rfl⟩
    · obtain ⟨pre, post⟩ := ih found'
      rw [updates.claim]
      exact ⟨pre, post⟩
    · have framable := (Codec.digest_eq_ok.mp posted.identified).1
      exact ⟨framable args.preStateRoot (by simp), framable args.postStateRoot (by simp)⟩

theorem jobVerdict_disabled (keyless : Compiler.isKeyless tx = true) (timestamp : U64) :
    jobVerdict crypto tx timestamp MoveKeyless.SETUP_DISABLED = .ok false := by
  unfold Compiler.isKeyless at keyless
  split at keyless
  · rename_i decoded
    rw [jobVerdict, decoded]
    rw [TxCodec.decode_eq, Option.map_eq_some_iff] at decoded
    obtain ⟨t, read, same⟩ := decoded
    obtain ⟨short, -, rfl⟩ := Transaction.decode_eq_ok.mp (toOption_eq_some.mp read)
    have digested : TxCodec.signingDigest crypto _ = _ :=
      Compiler.signingDigest_ofTransaction (Transaction.framable_payload short)
    rw [same] at digested
    simp only [digested, ok_bind]
    rfl
  · cases keyless

/-- An account with a registry of its own that challenges an assertion. -/
structure Contends (w : L1) (other : Address) (key : Bytes) (record : Assertion) : Prop where
  registered : w.registries other = some (.new MoveKeyless.SETUP_DISABLED)
  found : w.chain.assertions key = some record
  challenged : record.status = .challenged
  challenging : hasOpenChallenge w.chain key other = true

section
variable (reachable : Reachable crypto plan w) (free : w.chain.Unblocked) (contends : Contends w other key record)
include reachable free contends

/-- A game of several steps waits for the defender, who need only be let wait. -/
theorem falls_by_timeout (long : 2 ≤ record.traceLength.val) (early : w.now.val + MOVE_TIMEOUT.val + 1 < 2 ^ 64) :
    ∃ w', ReflTransGen (By crypto other) w w' ∧ w'.chain.Fallen key := by
  obtain ⟨registered, found, challenged, challenging⟩ := contends
  have commits (root : Bytes) (pc : U64) (framable : Framable root) :
      ∃ b, Osp.commitMachineState crypto ⟨root, pc⟩ = .ok b := by
    refine ⟨_, Codec.digest_eq_ok.mpr ⟨fun field among => ?_, rfl⟩⟩
    simp only [List.mem_cons, List.not_mem_nil, or_false] at among
    rcases among with rfl | rfl
    · exact framable
    · exact Codec.framable_be 8 _ (by decide)
  obtain ⟨pre, post⟩ := reachable.framable found
  obtain ⟨lo, agreed⟩ := commits record.preStateRoot 0 pre
  obtain ⟨hi, disputed⟩ := commits record.postStateRoot record.traceLength post
  have allowed : (allowance (clockBudget w.chain.challengeWindow)).val ≤ MOVE_TIMEOUT.val := by
    rw [allowance_val]
    exact Nat.min_le_left _ _
  obtain ⟨w₁, called⟩ : ∃ w₁, w.call crypto other (.openDispute other key) = .ok w₁ := by
    simp only [call, openDispute, disputeView, bind_eq_ok, fetch_eq_ok, ensure_eq_ok, add_eq_ok, pure_iff]
    exact ⟨_, _, registered, record, found, (), challenged, (), challenging, (), by omega, ⟨_, by omega⟩, rfl, lo, agreed,
      hi, disputed, (), rfl, rfl⟩
  obtain ⟨record', d, opened, rfl⟩ := opened_of_openDispute called
  cases found.symm.trans opened.recordAt
  have starts := opened.starts
  rw [if_neg (by omega)] at starts
  have deadline := opened.clocks.2.2.2
  have first : By crypto other w _ := .call other (.openDispute other key) trivial rfl called
  -- one second after its deadline anyone may end it
  let later : U64 := ⟨d.deadline.val + 1, by omega⟩
  have second : By crypto other (w.withGame ⟨other, disputeId key other⟩ d)
      { w.withGame ⟨other, disputeId key other⟩ d with now := later } :=
    .tick later (by change w.now.val ≤ d.deadline.val + 1; omega)
  have played : ReflTransGen (By crypto other) w _ := .tail (.single first) second
  have game : (L1.games { w.withGame ⟨other, disputeId key other⟩ d with now := later }) ⟨other, disputeId key other⟩ =
      some d := by
    change (w.withGame _ d).games _ = _
    rw [games_withGame registered, Function.update_self]
  obtain ⟨about, _, mine⟩ := opened.parties
  obtain ⟨w', claimed⟩ := (claimTimeout_accepts (reachable.playing.steps (steps_of_by played)) game
    (by simp [starts.1]) (by exact free)).mpr
    ⟨.inl (Nat.lt_succ_self _), .inl (by rw [about, mine]; exact challenging)⟩
  obtain ⟨d', chain, game', _, _, settles, rfl⟩ := settles_of_claimTimeout claimed
  cases game.symm.trans game'
  rw [starts.2] at settles
  exact ⟨_, played.tail (.call other (.claimTimeout _) trivial rfl claimed), about ▸ fallen_of_settles settles⟩

/-- One step is not the length of a program, and the last leaf shows that. -/
theorem falls_by_proof (single : record.traceLength.val = 1) :
    ∃ w', ReflTransGen (By crypto other) w w' ∧ w'.chain.Fallen key := by
  obtain ⟨registered, found, challenged, challenging⟩ := contends
  have sound := reachable.sound
  obtain ⟨i, listed⟩ := listed_of_live sound.ordered found (by simp [challenged])
  obtain ⟨args, postedAs, -⟩ := sound.archived.events i key record listed found
  have traced := postedAs.claims.2.1
  obtain ⟨lengths, starts, -⟩ := postedAs.unzip
  have some' : args.txBytes.length ≠ 0 := fun none' => by
    have := Watcher.traceLength_of_shape postedAs.shape none'
    rw [traced] at single
    omega
  obtain ⟨⟨a, tx⟩, here⟩ : ∃ leaf, args.leaves[args.txBytes.length - 1]? = some leaf :=
    ⟨_, List.getElem?_eq_getElem (by omega)⟩
  have zero : a.val = 0 := by
    have shape := postedAs.shape
    simp only [checkBatchShape, if_neg some', bind_eq_ok, ensure_eq_ok, borrow_eq_ok] at shape
    obtain ⟨_, _, _, _, _, _, _, _, last, lastAt, longer⟩ := shape
    obtain rfl : a = last := by simpa [here, lastAt] using congrArg (·[args.txBytes.length - 1]?) starts
    rw [traced] at single
    omega
  obtain ⟨siblings, own⟩ : ∃ siblings, Published crypto args _ ⟨a, tx, siblings⟩ := exists_published here
  -- a keyless transaction needs its verdict first
  obtain ⟨w₁, reg, steps, same, known, judged⟩ : ∃ w₁ reg, ReflTransGen (By crypto other) w w₁ ∧ w₁.chain = w.chain ∧
      w₁.registries other = some reg ∧ Judged crypto reg args tx := by
    by_cases keyless : Compiler.isKeyless tx = true
    · obtain ⟨job, named⟩ : ∃ job, MoveKeyless.jobId crypto tx args.timestamp MoveKeyless.SETUP_DISABLED = .ok job := by
        refine ⟨_, Codec.digest_eq_ok.mpr ⟨fun field among => ?_, rfl⟩⟩
        simp only [List.mem_cons, List.not_mem_nil, or_false] at among
        rcases among with rfl | rfl | rfl
        · exact postedAs.root.1 _ (List.mem_of_getElem? here)
        · exact Codec.framable_be 8 _ (by decide)
        · exact Codec.framable_be 8 _ (by decide)
      have verdict : jobVerdict crypto tx args.timestamp MoveKeyless.SETUP_DISABLED = .ok false :=
        jobVerdict_disabled keyless args.timestamp
      obtain ⟨w₁, ran⟩ : ∃ w₁, w.call crypto other
          (.runJob other tx args.timestamp MoveKeyless.SETUP_DISABLED) = .ok w₁ := by
        simp only [call, runJob, bind_eq_ok, fetch_eq_ok, ensure_eq_ok, pure_iff]
        exact ⟨_, _, registered, job, named, (), rfl, false, verdict, rfl⟩
      obtain ⟨reg, job', _, known, named', judged, rfl⟩ := worked_of_runJob ran
      cases registered.symm.trans known
      cases named.symm.trans named'
      exact ⟨_, _, .single (.call other (.runJob other tx _ _) trivial rfl ran), rfl, Function.update_self ..,
        fun _ => ⟨job, _, named, Function.update_self .., judged⟩⟩
    · exact ⟨w, _, .refl, rfl, registered, fun yes => absurd yes keyless⟩
  rw [← same] at found challenging postedAs sound free
  have proven : w₁.call crypto other _ = _ := proveTraceLength_published known found postedAs own judged fun n length => by
    have bounds := lengthOf_bounds postedAs.recipient length
    change a.val + n < 2 ^ 64 ∧ a.val + n ≠ _
    rw [← traced, single]
    omega
  obtain ⟨w', won⟩ := applyStructuralWin_accepts sound free challenging other
  rw [won] at proven
  refine ⟨w', steps.tail (.call other (.proveTraceLength _ _ _) trivial rfl proven), ?_⟩
  simp only [applyStructuralWin, bind_eq_ok, pure_iff] at won
  obtain ⟨_, _, chain, won, rfl⟩ := won
  rw [chain_closeGame]
  exact fallen_of_challengerWon won

end

/-- An account that has nothing to do with any assertion yet, and a bond to stake. -/
structure Outsider (w : L1) (other : Address) : Prop where
  unregistered : w.registries other = none
  apart : ∀ key r, w.chain.assertions key = some r → other ≠ r.proposer ∧ hasOpenChallenge w.chain key other = false
  funded : ∃ bond : U128, w.chain.minimumBond.val ≤ bond.val ∧ bond.val < 2 ^ 64 ∧ bond.val ≤ w.chain.wallets other

/-- An outsider brings down any assertion that has a step and is not settled. -/
theorem falls_to_outsider (reachable : Reachable crypto plan w) (free : w.chain.Unblocked) (outsider : Outsider w other)
    (found : w.chain.assertions base = some record) (live : record.status = .pending ∨ record.status = .challenged)
    (traced : 0 < record.traceLength.val) (few : record.openChallenges.val + 1 < 2 ^ 64)
    (early : w.now.val + MOVE_TIMEOUT.val + 1 < 2 ^ 64) :
    ∃ w', ReflTransGen (By crypto other) w w' ∧ w'.chain.Fallen base := by
  obtain ⟨bond, bonded, small, funded⟩ := outsider.funded
  obtain ⟨notProposer, notChallenging⟩ := outsider.apart base record found
  let w₁ : L1 := { w with
    registries := Function.update w.registries other (some (.new MoveKeyless.SETUP_DISABLED)) }
  have first : By crypto other w w₁ := .call other (.initializeRegistry MoveKeyless.SETUP_DISABLED) trivial rfl
    (initializeRegistry_eq_ok.mpr ⟨outsider.unregistered, by decide, rfl⟩)
  let count : U64 := ⟨record.openChallenges.val + 1, few⟩
  have challenged : Challenged w₁.chain other base bond record count :=
    ⟨found, bonded, notProposer, notChallenging, small, ⟨funded, free _ _⟩, live, rfl⟩
  let w₂ : L1 := { w₁ with chain := w.chain.challenged other base bond record count }
  have second : By crypto other w₁ w₂ := .call other (.openChallenge base bond) trivial rfl
    (bind_eq_ok.mpr ⟨_, openChallenge_of_challenged challenged, rfl⟩)
  have opening : ReflTransGen (By crypto other) w w₂ := .tail (.single first) second
  obtain ⟨time, start, deployed, before⟩ := reachable
  have reachable₂ : Reachable crypto plan w₂ := ⟨time, start, deployed, before.trans (steps_of_by opening)⟩
  have contends : Contends w₂ other base { record with status := .challenged, openChallenges := count } :=
    ⟨Function.update_self .., Function.update_self .., rfl,
      hasOpenChallenge_iff.mpr ⟨⟨other, bond⟩, by simp [w₂, Chain.challenged, Chain.openOn], rfl⟩⟩
  obtain ⟨w', closing, fallen⟩ : ∃ w', ReflTransGen (By crypto other) w₂ w' ∧ w'.chain.Fallen base := by
    by_cases single : record.traceLength.val = 1
    · exact falls_by_proof reachable₂ (by exact free) contends single
    · refine falls_by_timeout reachable₂ (by exact free) contends ?_ early
      change 2 ≤ record.traceLength.val
      omega
  exact ⟨w', opening.trans closing, fallen⟩

/-- A challenge against an empty batch on one of two steps. -/
def childScript : List (L1 → Event) :=
  [fun w => .call (.fill 32 2) w.twoSteps, fun w => .call (.fill 32 4) (w.idle 1 1),
   fun w => .call (.fill 32 3) (.openChallenge (w.idAt 2) 0)]

end L1
end Sena
