import Sena.Clocks
import Sena.WatcherReads

/-! The proposer's L1 agent, and whose the assertions are that it records as posted.

It posts a block unless L1 has the assertion already, which it then takes for its own:
posted by itself, before it could save that. But an id does not depend on the proposer,
and anyone may call the contracts between any two of its turns. -/
namespace Sena
namespace Relayer

open L1Client Relation Assertions
open L1 (StepWhen Reachable Playing hashing floorDeployment)

/-- A sealed L2 block, as the relayer needs it. -/
structure L2Block where
  timestamp : U64
  baseFee : U128
  feeRecipient : L2Address
  preStateRoot : Hash256
  postStateRoot : Hash256
  txBytes : List Bytes
  txStarts : List U64
  traceLength : U64

structure Config where
  /-- The relayer's own account. -/
  me : Address
  bond : U128

/-- One posted assertion. -/
structure Posted where
  height : Nat
  id : Hash256
  finalized : Bool
  rejected : Bool

/-- L1, the relayer's memory and what it saved of it. -/
structure Session where
  l1 : L1
  posted : List Posted
  saved : List Posted

/-- A relayer that resumes from what was saved. -/
def new (l1 : L1) (saved : List Posted) : Session := ⟨l1, saved, saved⟩

/-- What the next block is posted on. -/
def Session.parent (crypto : Crypto) (s : Session) (block : L2Block) : Hash256 :=
  match s.posted.getLast? with
  | some p => p.id
  | none => genesisId crypto block.preStateRoot

/-- The id of a block's assertion. -/
def blockId (crypto : Crypto) (config : Config) (parent : Hash256) (block : L2Block) : Hash256 :=
  let tree := Batch.BatchTree.build crypto (block.txStarts.zip block.txBytes)
  let commitment :=
    Batch.headerCommitment crypto block.timestamp block.baseFee block.feeRecipient tree.txCount tree.root
  L1Client.assertionId crypto parent block.preStateRoot block.postStateRoot commitment block.traceLength config.bond

/-- The arguments `post` is called with. -/
def posting (config : Config) (parent : Hash256) (block : L2Block) : Posting where
  parent := parent.bytes
  preStateRoot := block.preStateRoot.bytes
  postStateRoot := block.postStateRoot.bytes
  timestamp := block.timestamp
  baseFee := block.baseFee
  feeRecipient := block.feeRecipient.bytes
  txBytes := block.txBytes
  txStarts := block.txStarts
  traceLength := block.traceLength
  bond := config.bond

/-- One turn of the loop of `post_new`, up to where it saves. -/
def Session.postNext (crypto : Crypto) (config : Config) (s : Session) (block : L2Block) : Move Session := do
  let height := (s.posted.getLast?.map (·.height + 1)).getD 1
  let parent := s.parent crypto block
  let id := blockId crypto config parent block
  let alreadyPosted := (disputeView s.l1.chain id.bytes).toOption.isSome
  let l1 ← (if alreadyPosted then .ok s.l1 else s.l1.call crypto config.me (.post (posting config parent block)))
  return { s with l1, posted := s.posted ++ [⟨height, id, false, false⟩] }

/-- One turn of a run in which only `allowed` calls are made and the relayer posts its
`own` blocks, each on its parent. Its moves as a defender and the finalizations it asks
for are calls like any other's, and it notes which of its assertions have ended. -/
inductive Turn (crypto : Crypto) (config : Config) (own : Hash256 → L2Block → Prop)
    (allowed : L1 → Address → Call → Prop) : Session → Session → Prop
  | called (step : StepWhen crypto allowed s.l1 l1) : Turn crypto config own allowed s { s with l1 }
  | posted (block : L2Block) (due : own (s.parent crypto block) block)
      (encodable : block.txBytes.length ≤ BCS_MAX_SEQUENCE) (returned : s.postNext crypto config block = .ok s') :
      Turn crypto config own allowed s s'
  | noted (posted : List Posted)
      (same : posted.map (fun p => (p.height, p.id)) = s.posted.map fun p => (p.height, p.id)) :
      Turn crypto config own allowed s { s with posted }
  | saved : Turn crypto config own allowed s { s with saved := s.posted }
  | restarted : Turn crypto config own allowed s (new s.l1 s.saved)

/-- The id `post` gives an assertion. -/
def postedId (crypto : Crypto) (args : Posting) : Move Bytes := do
  let txRoot ← BatchVerifier.rootOf crypto args.txBytes args.txStarts
  let commitment ← BatchVerifier.headerCommitment crypto args.timestamp args.baseFee args.feeRecipient
    args.txBytes.length txRoot
  Assertions.assertionId crypto args.parent 0 args.preStateRoot args.postStateRoot commitment args.traceLength args.bond

/-- The call is the relayer's, or posts none of the relayer's blocks on its parent. -/
def Elsewhere (crypto : Crypto) (config : Config) (own : Hash256 → L2Block → Prop) (_ : L1) (who : Address) :
    Call → Prop
  | .post args => who = config.me ∨
      ∀ parent block, own parent block → postedId crypto args ≠ .ok (blockId crypto config parent block).bytes
  | _ => True

/-- The assertion is on L1, and the relayer's. -/
def Proposes (config : Config) (c : Chain) (key : Bytes) : Prop :=
  ∃ r, c.assertions key = some r ∧ r.proposer = config.me

/-- L1 has none of the relayer's blocks from another account. -/
def Unclaimed (crypto : Crypto) (config : Config) (own : Hash256 → L2Block → Prop) (c : Chain) : Prop :=
  ∀ parent block, own parent block → ∀ r, c.assertions (blockId crypto config parent block).bytes = some r →
    r.proposer = config.me

theorem postedId_posting {parent : Hash256} {block : L2Block}
    (posted : Assertions.Posted crypto c at' who (posting config parent block) record txRoot commitment key) :
    key = (blockId crypto config parent block).bytes := by
  have paired : block.txStarts.length = block.txBytes.length := Watcher.paired_of_shape posted.shape
  have rooted : BatchVerifier.rootOf crypto block.txBytes block.txStarts = .ok txRoot := posted.rooted
  rw [BatchVerifier.rootOf_build paired (BatchVerifier.framable_of_rootOf rooted)] at rooted
  obtain ⟨-, committed⟩ := Codec.digest_eq_ok.mp posted.committed
  obtain ⟨-, identified⟩ := Codec.digest_eq_ok.mp posted.identified
  have count : (block.txStarts.zip block.txBytes).length = block.txBytes.length := by simp [paired]
  rw [identified, committed, ← Except.ok.inj rooted]
  simp only [blockId, L1Client.assertionId, Batch.headerCommitment, Batch.BatchTree.build, count]
  rfl

/-- What holds throughout. -/
structure Kept (crypto : Crypto) (config : Config) (own : Hash256 → L2Block → Prop) (s : Session) : Prop where
  playing : Playing crypto s.l1
  unclaimed : Unclaimed crypto config own s.l1.chain
  listed : ∀ p, p ∈ s.posted ∨ p ∈ s.saved → Proposes config s.l1.chain p.id.bytes

theorem Kept.step (kept : Kept crypto config own s) (step : StepWhen crypto (Elsewhere crypto config own) s.l1 l1) :
    Kept crypto config own { s with l1 } := by
  refine ⟨kept.playing.step step, fun parent block ours r found => ?_, fun p member => ?_⟩
  · rcases step.posts kept.playing.sound with old | ⟨who, args, _, _, _, key, elsewhere, _, posted, after⟩
    · obtain ⟨before, found', updates⟩ := old _ r found
      rw [updates.claim]
      exact kept.unclaimed parent block ours before found'
    · simp only [after, Chain.posted, Function.update_apply] at found
      split at found
      · rename_i here
        cases found
        refine elsewhere.resolve_right fun apart => apart parent block ours ?_
        simp only [postedId, posted.rooted, posted.committed, posted.identified, Move.ok_bind, here]
      · exact kept.unclaimed parent block ours r found
  · obtain ⟨r, found, mine⟩ := kept.listed p member
    obtain ⟨r', found', updates⟩ := (evolves_of_moves step.moves).records _ r found
    exact ⟨r', found', by rw [updates.claim]; exact mine⟩

theorem Kept.turn (kept : Kept crypto config own s) (turn : Turn crypto config own (Elsewhere crypto config own) s s') :
    Kept crypto config own s' := by
  cases turn with
  | called step => exact kept.step step
  | saved => exact ⟨kept.playing, kept.unclaimed, fun p member => kept.listed p (.inl (or_self_iff.mp member))⟩
  | restarted => exact ⟨kept.playing, kept.unclaimed, fun p member => kept.listed p (.inr (or_self_iff.mp member))⟩
  | noted posted same =>
    refine ⟨kept.playing, kept.unclaimed, fun p member => ?_⟩
    rcases member with listed | saved
    · obtain ⟨q, among, alike⟩ := List.mem_map.mp (same ▸ List.mem_map_of_mem listed)
      rw [← (Prod.mk.inj alike).2]
      exact kept.listed q (.inl among)
    · exact kept.listed p (.inr saved)
  | posted block due encodable returned =>
    obtain ⟨l1, made, same⟩ := Move.bind_eq_ok.mp returned
    cases same
    -- the block is on L1 as the relayer's, found there or posted now
    obtain ⟨kept', proposes⟩ : Kept crypto config own { s with l1 } ∧
        Proposes config l1.chain (blockId crypto config (s.parent crypto block) block).bytes := by
      split at made
      · rename_i already
        cases made
        obtain ⟨r, found⟩ := Option.isSome_iff_exists.mp already
        have at' := fetch_eq_ok.mp (Move.toOption_eq_some.mp found)
        exact ⟨kept, r, at', kept.unclaimed _ block due r at'⟩
      · refine ⟨kept.step (.call config.me (.post (posting config _ block)) encodable (.inl rfl) made), ?_⟩
        cases L1.effect_of_call made with
        | posted posted =>
          rw [← postedId_posting posted]
          exact ⟨_, Function.update_self .., rfl⟩
        | proved about => cases about
    refine ⟨kept'.playing, kept'.unclaimed, fun p member => ?_⟩
    simp only [List.mem_append, List.mem_singleton] at member
    rcases member with (old | rfl) | saved
    · exact kept'.listed p (.inl old)
    · exact proposes
    · exact kept'.listed p (.inr saved)

/-- The relayer can defend every assertion it records, as long as no other account
posts one of its blocks. -/
theorem relayer_defends_what_it_records (reachable : Reachable crypto plan start)
    (unclaimed : Unclaimed crypto config own start.chain)
    (turns : ReflTransGen (Turn crypto config own (Elsewhere crypto config own)) (new start []) s) :
    ∀ p, p ∈ s.posted ∨ p ∈ s.saved → Proposes config s.l1.chain p.id.bytes ∧
      ∀ g d, s.l1.games g = some d → d.assertion = p.id.bytes →
        Disputes.partyOf d config.me = .ok .defender := by
  have kept : Kept crypto config own s := by
    induction turns with
    | refl => exact ⟨reachable.playing, unclaimed, fun p member => by simp [new] at member⟩
    | tail _ last ih => exact ih.turn last
  intro p member
  obtain ⟨r, found, mine⟩ := kept.listed p member
  refine ⟨⟨r, found, mine⟩, fun g d game about => Disputes.partyOf_eq_defender.mpr ?_⟩
  obtain ⟨r', found', defender, _⟩ := (kept.playing.games g d game).record
  rw [about, found, Option.some.injEq] at found'
  rw [defender, ← found', mine]

/-- A relayer that posts without a bond. -/
def unbonded : Config := ⟨.fill 32 4, 0⟩

/-- A block of two steps over the empty ledger. -/
def firstBlock : L2Block := ⟨0, 0, Hash256.zero, Hash256.zero, Hash256.zero, [[]], [0], 2⟩

/-- The block posted in time is the relayer's to defend. -/
theorem first_block_is_defended : ∃ w s, Reachable hashing floorDeployment w ∧
    (new w []).postNext hashing unbonded firstBlock = .ok s ∧ s.posted ≠ [] ∧
    ∀ p ∈ s.posted, Proposes unbonded s.l1.chain p.id.bytes := by
  obtain ⟨w, played, absent, s, posts, listed⟩ : ∃ w ∈ L1.scenario (fun _ _ _ => True) hashing floorDeployment 0 [],
      w.chain.assertions (blockId hashing unbonded ((new w []).parent hashing firstBlock) firstBlock).bytes = none ∧
      ∃ s, (new w []).postNext hashing unbonded firstBlock = .ok s ∧ s.posted ≠ [] := by
    decide +kernel
  have reachable := L1.reachable_of_scenario played
  have unclaimed : Unclaimed hashing unbonded
      (fun parent block => parent = (new w []).parent hashing block ∧ block = firstBlock) w.chain := by
    rintro _ _ ⟨rfl, rfl⟩ r found
    simp [absent] at found
  exact ⟨w, s, reachable, posts, listed, fun p member => (relayer_defends_what_it_records reachable unclaimed
    (.single (.posted firstBlock ⟨rfl, rfl⟩ (by decide) posts)) p (.inl member)).1⟩

/-- Another account posts the relayer's block first. The relayer records the assertion
as its own, and is no defender in the game over it. -/
theorem forestalled_block_is_recorded : ∃ w s p d, Reachable hashing floorDeployment w ∧
    (new w []).postNext hashing unbonded firstBlock = .ok s ∧ p ∈ s.posted ∧
    ¬Proposes unbonded s.l1.chain p.id.bytes ∧ s.l1.games w.gameKey = some d ∧
    d.assertion = p.id.bytes ∧ Disputes.partyOf d unbonded.me ≠ .ok .defender := by
  obtain ⟨w, played, s, returned, p, member, others, d, found, about, apart⟩ :
      ∃ w ∈ L1.scenario (fun _ _ _ => True) hashing floorDeployment 0 ((L1.narrowScript 0).take 3),
        ∃ s, (new w []).postNext hashing unbonded firstBlock = .ok s ∧ ∃ p ∈ s.posted,
          (∀ r ∈ s.l1.chain.assertions p.id.bytes, r.proposer ≠ unbonded.me) ∧
          ∃ d ∈ s.l1.games w.gameKey, d.assertion = p.id.bytes ∧ unbonded.me ≠ d.defender := by
    decide +kernel
  exact ⟨w, s, p, d, L1.reachable_of_scenario played, returned, member, fun ⟨r, at', mine⟩ => others r at' mine,
    found, about, fun defends => apart (Disputes.partyOf_eq_defender.mp defends)⟩

end Relayer
end Sena
