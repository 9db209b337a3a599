import Sena.DisputesProofs
import Sena.L1Runs

/-! What every accepted call does to L1, and what holds in every state a
deployment can get into. -/
namespace Sena

open Move Assertions Disputes Relation

/-- The registry a structural proof is made in, and the assertion it is about. -/
def Call.structural : Call → Option (Address × Bytes)
  | .proveUncompilable registry assertion _ _ | .proveStartGap registry assertion _ _ _
  | .proveTraceLength registry assertion _ => some (registry, assertion)
  | _ => none

namespace L1

/-- What an accepted call does: it writes one assertion, plays one game, creates a
registry or finishes a job, and a resolved game settles its assertion. -/
inductive Effect (crypto : Crypto) (w : L1) (who : Address) : Call → L1 → Prop
  | posted (posted : Posted crypto w.chain w.now who args parent txRoot commitment key) :
      Effect crypto w who (.post args)
        { w with chain := w.chain.posted w.now who args txRoot commitment key }
  | challenged (challenged : Challenged w.chain who key bond record count) :
      Effect crypto w who (.openChallenge key bond)
        { w with chain := w.chain.challenged who key bond record count }
  | finalized (finalized : Finalized w.chain w.now key record parent c') :
      Effect crypto w who (.finalize key) { w with chain := c' }
  | created (fresh : w.registries who = none) :
      Effect crypto w who (.initializeRegistry setup)
        { w with registries := Function.update w.registries who (some (.new setup)) }
  | worked (known : w.registries registry = some r)
      (named : MoveKeyless.jobId crypto tx timestamp setup = .ok job)
      (judged : jobVerdict crypto tx timestamp setup = .ok verdict) :
      Effect crypto w who (.runJob registry tx timestamp setup)
        { w with
          registries := Function.update w.registries registry
            (some { r with jobs := Function.update r.jobs job (some verdict) }) }
  | opened (opened : Opened crypto w who registry assertion record d) :
      Effect crypto w who (.openDispute registry assertion)
        (w.withGame ⟨registry, disputeId assertion who⟩ d)
  | dissected (found : w.games g = some d) (mover : who = d.defender)
      (dissected : Dissected d w.now commitments d') :
      Effect crypto w who (.dissect g commitments) (w.withGame g d')
  | selected (found : w.games g = some d) (notDefender : who ≠ d.defender)
      (mover : who = d.challenger) (selected : Selected d w.now index.val d') :
      Effect crypto w who (.select g index) (w.withGame g d')
  | stepped (found : w.games g = some d) (notDefender : who ≠ d.defender)
      (mover : who = d.challenger) (stepped : Stepped crypto w g.registry d leafIndex.val leaf witness left winner)
      (settles : Settles w.chain d winner c') :
      Effect crypto w who (.oneStep g leafIndex leaf witness)
        ({ w with chain := c' }.withGame g ((d.setClock .challenger left).resolve winner))
  | timedOut (found : w.games g = some d) (unresolved : d.stage ≠ .resolved)
      (late : d.deadline.val < w.now.val ∨ (d.clock d.turn).val < w.now.val - d.lastMoveAt.val)
      (settles : Settles w.chain d d.turn.other c') :
      Effect crypto w who (.claimTimeout g) ({ w with chain := c' }.withGame g (d.resolve d.turn.other))
  | proved {c : Call} (about : c.structural = some (registry, assertion))
      (proved : Proved w who registry assertion w') :
      Effect crypto w who c w'

variable {crypto : Crypto} {w w' : L1} {who : Address} {c : Call}

theorem effect_of_call (accepted : w.call crypto who c = .ok w') : Effect crypto w who c w' := by
  cases c with
  | post args =>
    obtain ⟨_, made, ⟨⟩⟩ := bind_eq_ok.mp accepted
    obtain ⟨_, _, _, _, posted, rfl⟩ := posted_of_post made
    exact .posted posted
  | openChallenge key bond =>
    obtain ⟨_, made, ⟨⟩⟩ := bind_eq_ok.mp accepted
    obtain ⟨_, _, challenged, rfl⟩ := challenged_of_openChallenge made
    exact .challenged challenged
  | finalize key =>
    obtain ⟨_, made, ⟨⟩⟩ := bind_eq_ok.mp accepted
    obtain ⟨_, _, finalized⟩ := finalized_of_finalize made
    exact .finalized finalized
  | initializeRegistry setup =>
    obtain ⟨fresh, _, rfl⟩ := initializeRegistry_eq_ok.mp accepted
    exact .created fresh
  | openDispute registry assertion =>
    obtain ⟨_, _, opened, rfl⟩ := opened_of_openDispute accepted
    exact .opened opened
  | dissect g commitments =>
    obtain ⟨_, _, found, mover, dissected, rfl⟩ := dissected_of_dissect accepted
    exact .dissected found mover dissected
  | select g index =>
    obtain ⟨_, _, found, notDefender, mover, selected, rfl⟩ := selected_of_select accepted
    exact .selected found notDefender mover selected
  | oneStep g leafIndex leaf witness =>
    obtain ⟨_, _, _, _, found, notDefender, mover, stepped, settles, rfl⟩ := stepped_of_oneStep accepted
    exact .stepped found notDefender mover stepped settles
  | proveUncompilable => exact .proved rfl (proved_of_proveUncompilable accepted)
  | proveStartGap => exact .proved rfl (proved_of_proveStartGap accepted)
  | proveTraceLength => exact .proved rfl (proved_of_proveTraceLength accepted)
  | claimTimeout g =>
    obtain ⟨_, _, found, unresolved, late, settles, rfl⟩ := settles_of_claimTimeout accepted
    exact .timedOut found unresolved late settles
  | runJob registry tx timestamp setup =>
    obtain ⟨_, _, _, known, named, judged, rfl⟩ := worked_of_runJob accepted
    exact .worked known named judged

theorem registry_withGame (known : w.registries a = some r) :
    ∃ r', (w.withGame g d).registries a = some r' ∧ r'.keylessSetup = r.keylessSetup := by
  by_cases here : a = g.registry
  · subst here
    exact ⟨{ r with disputes := Function.update r.disputes g.id (some d) }, by simp [withGame, known], rfl⟩
  · exact ⟨r, by simp [withGame, here, known], rfl⟩

/-- A registry stays, with the setup it was created with. -/
theorem Effect.registry (effect : Effect crypto w who c w') (known : w.registries a = some r) :
    ∃ r', w'.registries a = some r' ∧ r'.keylessSetup = r.keylessSetup := by
  cases effect with
  | posted | challenged | finalized => exact ⟨r, known, rfl⟩
  | created fresh =>
    have apart : a ≠ who := fun same => by simp [← same, known] at fresh
    exact ⟨r, by simpa [apart] using known, rfl⟩
  | @worked registry r₀ _ _ _ _ _ known' =>
    by_cases here : a = registry
    · subst here
      obtain rfl : r = r₀ := by simpa [known] using known'
      exact ⟨_, Function.update_self .., rfl⟩
    · exact ⟨r, by simpa [here] using known, rfl⟩
  | opened | dissected | selected => exact registry_withGame known
  | stepped | timedOut => exact registry_withGame (by exact known)
  | proved _ proved =>
    obtain ⟨chain, _, rfl⟩ := proved.result
    rcases closeGame_cases { w with chain } _ with ⟨_, same⟩ | ⟨_, _, same⟩
    · exact ⟨r, by rw [same]; exact known, rfl⟩
    · rw [same]
      exact registry_withGame (by exact known)

theorem registry_of_steps (steps : ReflTransGen (StepWhen crypto allowed) w w') (known : w.registries a = some r) :
    ∃ r', w'.registries a = some r' ∧ r'.keylessSetup = r.keylessSetup := by
  induction steps with
  | refl => exact ⟨r, known, rfl⟩
  | tail _ last ih =>
    obtain ⟨r₁, known₁, same⟩ := ih
    cases last with
    | tick => exact ⟨r₁, known₁, same⟩
    | call who c _ _ accepted =>
      obtain ⟨r', known', same'⟩ := (effect_of_call accepted).registry known₁
      exact ⟨r', known', same'.trans same⟩

theorem moves_of_settles {before after : Chain} (settles : Settles before d winner after) :
    ReflTransGen (Moves crypto) before after := by
  cases settles with
  | moot => exact .refl
  | won won => exact moves_of_rejections crypto (rejections_of_challengerWon won)
  | lost lost =>
    obtain ⟨_, defended⟩ := defended_of_defenderWon lost
    exact .single (.defended _ defended)

theorem Effect.moves (effect : Effect crypto w who c w') (encodable : c.Encodable) :
    ReflTransGen (Moves crypto) w.chain w'.chain := by
  cases effect with
  | posted posted => exact .single (.posted _ _ _ encodable posted)
  | challenged challenged => exact .single (.challenged _ challenged)
  | finalized finalized => exact .single (.finalized _ finalized)
  | created | worked | opened | dissected | selected => exact .refl
  | stepped _ _ _ _ settles => exact moves_of_settles settles
  | timedOut _ _ _ settles => exact moves_of_settles settles
  | proved _ proved => exact moves_of_rejections crypto (rejections_of_challengerWon proved.won)

theorem StepWhen.moves (step : StepWhen crypto allowed w w') : ReflTransGen (Moves crypto) w.chain w'.chain := by
  cases step with
  | call who c encodable _ accepted => exact (effect_of_call accepted).moves encodable
  | tick => exact .refl

theorem moves_of_steps (steps : ReflTransGen (StepWhen crypto allowed) w w') :
    ReflTransGen (Moves crypto) w.chain w'.chain := by
  induction steps with
  | refl => exact .refl
  | tail _ last ih => exact ih.trans last.moves

/-- What is allowed stays so where more is. -/
theorem StepWhen.mono {allowed' : L1 → Address → Call → Prop} (step : StepWhen crypto allowed w w')
    (more : ∀ w who c, allowed w who c → allowed' w who c) : StepWhen crypto allowed' w w' := by
  cases step with
  | call who c encodable kept accepted => exact .call who c encodable (more _ _ _ kept) accepted
  | tick now later => exact .tick now later

theorem deploy_eq_ok (deployed : deploy crypto d start = .ok w) :
    Sound crypto w.chain ∧ w.now = start ∧ (w.games = fun _ => none) ∧
      w.registries = Function.update (fun _ => none) d.admin (some (.new d.keylessSetup)) := by
  simp only [deploy, bind_eq_ok, initializeRegistry_eq_ok] at deployed
  obtain ⟨chain, created, _, _, rfl⟩ := deployed
  exact ⟨sound_of_initializeChain created, rfl, games_created (w := ⟨start, chain, fun _ => none⟩) rfl, rfl⟩

theorem Reachable.sound (reachable : Reachable crypto d w) : Sound crypto w.chain := by
  obtain ⟨now, start, deployed, steps⟩ := reachable
  exact sound_of_moves (deploy_eq_ok deployed).1 (moves_of_steps steps)

theorem unblocked_of_steps (deployed : deploy crypto d start = .ok w)
    (steps : ReflTransGen (StepWhen crypto allowed) w w') (free : ∀ who amount, d.permits who amount = true) :
    w'.chain.Unblocked := by
  refine (evolves_of_moves (moves_of_steps steps)).unblocked ?_
  simp only [deploy, initializeChain, bind_eq_ok, pure_iff, initializeRegistry_eq_ok] at deployed
  obtain ⟨_, ⟨_, _, rfl⟩, _, _, rfl⟩ := deployed
  exact free

theorem Reachable.unblocked (reachable : Reachable crypto d w) (free : ∀ who amount, d.permits who amount = true) :
    w.chain.Unblocked := by
  obtain ⟨_, _, deployed, steps⟩ := reachable
  exact unblocked_of_steps deployed steps free

theorem order_of_rejections {before after : Chain} (rejections : ReflTransGen Rejection before after) :
    after.order = before.order := by
  induction rejections with
  | refl => rfl
  | tail _ last ih =>
    obtain ⟨_, _, rejected⟩ := last
    exact rejected.order.trans ih

theorem order_of_settles {before after : Chain} (settles : Settles before d winner after) :
    after.order = before.order := by
  cases settles with
  | moot => rfl
  | won won => exact order_of_rejections (rejections_of_challengerWon won)
  | lost lost =>
    obtain ⟨_, _, _, _, _, _, _, _, _, _, _, rfl⟩ := defended_of_defenderWon lost
    rfl

theorem Effect.order (effect : Effect crypto w who c w') (notPost : ∀ args, c ≠ .post args) :
    w'.chain.order = w.chain.order := by
  cases effect with
  | posted => exact absurd rfl (notPost _)
  | finalized finalized =>
    obtain ⟨_, _, _, _, _, _, _, rfl⟩ := finalized
    rfl
  | challenged | created | worked | opened | dissected | selected => rfl
  | stepped _ _ _ _ settles => exact order_of_settles settles
  | timedOut _ _ _ settles => exact order_of_settles settles
  | proved _ proved => exact order_of_rejections (rejections_of_challengerWon proved.won)

/-- A step only updates the records there are, or it posts one. -/
theorem StepWhen.posts (step : StepWhen crypto allowed w w') (sound : Sound crypto w.chain) :
    (∀ key r', w'.chain.assertions key = some r' → ∃ r, w.chain.assertions key = some r ∧ r.Updates r') ∨
      ∃ who args parent txRoot commitment key, allowed w who (.post args) ∧ args.Encodable ∧
        Posted crypto w.chain w.now who args parent txRoot commitment key ∧
        w'.chain = w.chain.posted w.now who args txRoot commitment key := by
  have moves := step.moves
  have evolves := evolves_of_moves moves
  -- a listed key was there before, with a record that was only updated
  have old (order : w'.chain.order = w.chain.order) : ∀ key r', w'.chain.assertions key = some r' →
      ∃ r, w.chain.assertions key = some r ∧ r.Updates r' := by
    intro key r' found
    have listed := ((sound_of_moves sound moves).ordered.listed key).mpr (by simp [found])
    rw [order, sound.ordered.listed] at listed
    obtain ⟨r, before⟩ := Option.isSome_iff_exists.mp listed
    obtain ⟨after, found', updates⟩ := evolves.records key r before
    obtain rfl : after = r' := by simpa [found'] using found
    exact ⟨r, before, updates⟩
  cases step with
  | tick => exact .inl (old rfl)
  | call who c encodable kept accepted =>
    have effect := effect_of_call accepted
    by_cases isPost : ∃ args, c = .post args
    · obtain ⟨args, rfl⟩ := isPost
      cases effect with
      | posted posted => exact .inr ⟨who, args, _, _, _, _, kept, encodable, posted, rfl⟩
      | proved about => cases about
    · exact .inl (old (effect.order fun args same => isPost ⟨args, same⟩))

/-- A record stood there before, or the step posted it. -/
theorem StepWhen.record_from (step : StepWhen crypto allowed w w') (sound : Sound crypto w.chain)
    (found : w'.chain.assertions key = some r') :
    (∃ r, w.chain.assertions key = some r ∧ r.Updates r') ∨
      ∃ who args parent txRoot commitment, allowed w who (.post args) ∧ args.Encodable ∧
        Posted crypto w.chain w.now who args parent txRoot commitment key ∧
        r' = args.record who w.now txRoot commitment := by
  rcases step.posts sound with old | ⟨who, args, parent, txRoot, commitment, fresh, kept, encodable, posted, after⟩
  · exact .inl (old key r' found)
  · rw [after] at found
    by_cases here : key = fresh
    · subst here
      obtain rfl : args.record who w.now txRoot commitment = r' := by simpa [Chain.posted] using found
      exact .inr ⟨who, args, parent, txRoot, commitment, kept, encodable, posted, rfl⟩
    · exact .inl ⟨r', by simpa [Chain.posted, here] using found, .refl r'⟩

/-- A script of steps is a run. -/
theorem reflTransGen_of_foldlM {σ ε : Type} {play : σ → ε → Option σ} {step : σ → σ → Prop}
    (steps : ∀ s e s', play s e = some s' → step s s') {script : List ε} {s s' : σ}
    (ran : script.foldlM play s = some s') : ReflTransGen step s s' := by
  induction script generalizing s with
  | nil =>
    cases ran
    exact .refl
  | cons event rest ih =>
    rw [List.foldlM_cons] at ran
    obtain ⟨middle, played, others⟩ := Option.bind_eq_some_iff.mp ran
    exact .head (steps _ _ _ played) (ih others)

/-- One thing that happens in a scripted run. -/
inductive Event
  | call (who : Address) (call : Call)
  | tick (now : U64)
deriving DecidableEq

section Script

variable (allowed : L1 → Address → Call → Prop) [∀ w who c, Decidable (allowed w who c)]

/-- Plays what the script says at this state; time does not go back. -/
def play (crypto : Crypto) (w : L1) (event : L1 → Event) : Option L1 :=
  match event w with
  | .call who c => if c.Encodable ∧ allowed w who c then (w.call crypto who c).toOption else none
  | .tick now => if w.now.val ≤ now.val then some { w with now } else none

def run (crypto : Crypto) (w : L1) (script : List (L1 → Event)) : Option L1 :=
  script.foldlM (play allowed crypto) w

variable {allowed}

theorem step_of_play (played : play allowed crypto w event = some w') : StepWhen crypto allowed w w' := by
  unfold play at played
  split at played
  · rename_i who c _
    split at played
    · rename_i kept
      exact .call who c kept.1 kept.2 (toOption_eq_some.mp played)
    · cases played
  · split at played
    · rename_i now _ later
      cases played
      exact .tick now later
    · cases played

theorem steps_of_run (ran : run allowed crypto w script = some w') : ReflTransGen (StepWhen crypto allowed) w w' := by
  unfold run at ran
  exact reflTransGen_of_foldlM (fun s e s' (played : play allowed crypto s e = some s') =>
    step_of_play played) ran

/-- A deployment followed by a script. -/
def scenario (allowed : L1 → Address → Call → Prop) [∀ w who c, Decidable (allowed w who c)]
    (crypto : Crypto) (d : Deployment) (start : U64) (script : List (L1 → Event)) : Option L1 :=
  (deploy crypto d start).toOption.bind fun w => run allowed crypto w script

theorem steps_of_scenario (ran : scenario allowed crypto d start script = some w') :
    ∃ w, deploy crypto d start = .ok w ∧ ReflTransGen (StepWhen crypto allowed) w w' := by
  obtain ⟨w, deployed, ran⟩ := Option.bind_eq_some_iff.mp ran
  exact ⟨w, toOption_eq_some.mp deployed, steps_of_run ran⟩

theorem reachable_of_scenario (ran : scenario (fun _ _ _ => True) crypto d start script = some w) :
    Reachable crypto d w := by
  obtain ⟨first, deployed, steps⟩ := steps_of_scenario ran
  exact ⟨start, first, deployed, steps⟩

end Script

/-- SHA-256 as it is, for scenarios that consult no other cryptography. -/
def hashing : Crypto := .accepting []

/-- A deployment on an empty ledger with every limit at its floor. -/
def floorDeployment : Deployment where
  admin := .fill 32 1
  genesisRoot := TrieVerifier.zero
  challengeWindow := 0
  minimumBond := 0
  treasury := .fill 32 1
  maxBatchAge := 0
  wallets := fun _ => 1000
  permits := fun _ _ => true
  keylessSetup := 0

/-- The id posted at `index`, or none of the ids. -/
def idAt (w : L1) (index : Nat) : Bytes := w.chain.order.getD index []

/-- The state the assertion posted at `index` claims. -/
def rootAt (w : L1) (index : Nat) : Bytes :=
  ((w.chain.assertions (w.idAt index)).map (·.postStateRoot)).getD []

/-- An assertion that changes nothing, on the one posted at `index`. -/
def idle (index : Nat) (bond : U128) (w : L1) : Call := .post {
  parent := w.idAt index
  preStateRoot := w.rootAt index
  postStateRoot := w.rootAt index
  timestamp := w.now
  baseFee := 0
  feeRecipient := TrieVerifier.zero
  txBytes := []
  txStarts := []
  traceLength := 0
  bond := bond }

end L1
end Sena
