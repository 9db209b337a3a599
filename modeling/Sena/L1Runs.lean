import Mathlib.Logic.Relation
import Sena.Bridge
import Sena.Disputes

/-! Runs of the contracts: any account may make any call at any time, and the clock
moves forward. -/
namespace Sena

open Move Assertions Disputes

/-- The entry points of the assertion chain, the dispute registries and their job
stores, with the arguments a caller chooses. -/
inductive Call
  | post (args : Posting)
  | openChallenge (id : Bytes) (bond : U128)
  | finalize (id : Bytes)
  | initializeRegistry (keylessSetup : UInt8)
  | openDispute (registry : Address) (assertion : Bytes)
  | dissect (game : GameId) (commitments : List Bytes)
  | select (game : GameId) (index : U64)
  | oneStep (game : GameId) (leafIndex : U64) (leaf : LeafArgs) (witness : WitnessArgs)
  | proveUncompilable (registry : Address) (assertion : Bytes) (index : U64) (leaf : LeafArgs)
  | proveStartGap (registry : Address) (assertion : Bytes) (index : U64) (a b : LeafArgs)
  | proveTraceLength (registry : Address) (assertion : Bytes) (leaf : LeafArgs)
  | claimTimeout (game : GameId)
  | runJob (registry : Address) (txBytes : Bytes) (timestamp : U64) (setup : UInt8)
deriving DecidableEq

namespace L1

/-- Replaces the chain, when a call on it is accepted. -/
def withChain (w : L1) (result : Move Chain) : Move L1 := do
  let chain ← result
  return { w with chain }

/-- One transaction of an account. -/
def call (crypto : Crypto) (w : L1) (who : Address) : Call → Move L1
  | .post args => w.withChain (post crypto w.chain w.now who args)
  | .openChallenge id bond => w.withChain (openChallenge w.chain who id bond)
  | .finalize id => w.withChain (finalize w.chain w.now id)
  | .initializeRegistry keylessSetup => initializeRegistry w who keylessSetup
  | .openDispute registry assertion => openDispute crypto w who registry assertion
  | .dissect game commitments => dissect w who game commitments
  | .select game index => select w who game index
  | .oneStep game leafIndex leaf witness => oneStep crypto w who game leafIndex leaf witness
  | .proveUncompilable registry assertion index leaf => proveUncompilable crypto w who registry assertion index leaf
  | .proveStartGap registry assertion index a b => proveStartGap crypto w who registry assertion index a b
  | .proveTraceLength registry assertion leaf => proveTraceLength crypto w who registry assertion leaf
  | .claimTimeout game => claimTimeout w game
  | .runJob registry txBytes timestamp setup => runJob crypto w registry txBytes timestamp setup

end L1

/-- The batch a call publishes can be encoded as an argument. -/
def Call.Encodable : Call → Prop
  | .post args => args.Encodable
  | _ => True

instance : DecidablePred Call.Encodable := fun c => by
  cases c <;> first | exact isTrue trivial | exact inferInstanceAs (Decidable (Posting.Encodable _))

namespace L1

/-- One step of L1 in which only `allowed` calls are made: an accepted call or the
passing of time. -/
inductive StepWhen (crypto : Crypto) (allowed : L1 → Address → Call → Prop) : L1 → L1 → Prop
  | call (who : Address) (c : Call) (encodable : c.Encodable) (kept : allowed w who c)
      (accepted : w.call crypto who c = .ok w') : StepWhen crypto allowed w w'
  | tick (now : U64) (later : w.now.val ≤ now.val) : StepWhen crypto allowed w { w with now }

/-- One step of L1, whatever anyone calls. -/
def Step (crypto : Crypto) : L1 → L1 → Prop := StepWhen crypto fun _ _ _ => True

/-- What the deployer chooses when the contracts are created. -/
structure Deployment where
  admin : Address
  genesisRoot : Bytes
  challengeWindow : U64
  minimumBond : U128
  treasury : Address
  maxBatchAge : U64
  wallets : Address → Nat
  permits : Address → Nat → Bool
  keylessSetup : UInt8

/-- The contracts as they are created, at a time the deployer does not choose: the
chain, and the registry of the same account. -/
def deploy (crypto : Crypto) (d : Deployment) (now : U64) : Move L1 := do
  let chain ← initializeChain crypto d.admin d.genesisRoot d.challengeWindow d.minimumBond d.treasury
    d.maxBatchAge d.wallets d.permits
  initializeRegistry ⟨now, chain, fun _ => none⟩ d.admin d.keylessSetup

/-- The states a deployment can get into. -/
def Reachable (crypto : Crypto) (d : Deployment) (w : L1) : Prop :=
  ∃ now start, deploy crypto d now = .ok start ∧ Relation.ReflTransGen (Step crypto) start w

end L1
end Sena
