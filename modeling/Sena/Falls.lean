import Sena.Endings
import Sena.Lifecycle

/-! What brings an assertion down.

An assertion is rejected when somebody wins against it, or when it stands on one that
is rejected. A win is the forfeit of a defender who was to move, a one-step proof, or a
proof about the batch. -/
namespace Sena

open Move Assertions Disputes Relation

namespace Assertions

variable {c c' : Chain} {key : Bytes}

theorem fallen_of_write {written : Assertion} (wrote : c'.assertions = Function.update c.assertions at' (some written))
    (stands : written.status ≠ .rejected) (fallen : c'.Fallen key) : c.Fallen key := by
  obtain ⟨r, found, rejected⟩ := fallen
  rw [wrote] at found
  by_cases here : key = at'
  · subst here
    rw [Function.update_self, Option.some.injEq] at found
    exact absurd (found ▸ rejected) stands
  · rw [Function.update_of_ne here] at found
    exact ⟨r, found, rejected⟩

theorem Rejected.falls {record : Assertion} (rejected : Rejected c at' record c') (fallen : c'.Fallen key) :
    c.Fallen key ∨ key = at' := by
  obtain ⟨_, _, _, _, _, _, rfl⟩ := rejected
  by_cases here : key = at'
  · exact .inr here
  · obtain ⟨r, found, rejected⟩ := fallen
    exact .inl ⟨r, by simpa [reject, here] using found, rejected⟩

theorem evolves_of_rejections (rejections : ReflTransGen Rejection c c') : Evolves c c' := by
  induction rejections with
  | refl => exact .refl c
  | tail _ last ih =>
    obtain ⟨_, _, rejected⟩ := last
    exact ih.trans rejected.evolves

/-- The assertion stands on one that is rejected. -/
def Chain.Unsupported (c : Chain) (key : Bytes) : Prop := ∃ r, c.assertions key = some r ∧ c.Fallen r.parent

theorem Chain.Unsupported.evolve (unsupported : c.Unsupported key) (evolves : Evolves c c') : c'.Unsupported key := by
  obtain ⟨r, found, fallen⟩ := unsupported
  obtain ⟨r', found', updates⟩ := evolves.records key r found
  exact ⟨r', found', by rw [updates.claim]; exact fallen.evolve evolves⟩

theorem falls_of_sweeps {candidates : List Bytes} (swept : candidates.foldlM sweep c = .ok c')
    (fallen : c'.Fallen key) : c.Fallen key ∨ c'.Unsupported key := by
  induction candidates generalizing c with
  | nil =>
    cases swept
    exact .inl fallen
  | cons candidate rest ih =>
    rw [List.foldlM_cons, bind_eq_ok] at swept
    obtain ⟨mid, first, others⟩ := swept
    rcases ih others with down | unsupported
    · obtain ⟨record, recordAt, ⟨rfl, _⟩ | ⟨above, rejected, _⟩⟩ := rejected_of_sweep first
      · exact .inl down
      · rcases rejected.falls down with before | rfl
        · exact .inl before
        · have evolves : Evolves c c' := rejected.evolves.trans (evolves_of_rejections (rejections_of_sweeps others))
          exact .inr (Chain.Unsupported.evolve ⟨record, recordAt, isRejected_iff.mp above⟩ evolves)
    · exact .inr unsupported

theorem falls_of_challengerWon (won : challengerWon c at' winner = .ok c') (fallen : c'.Fallen key) :
    c.Fallen key ∨ c'.Unsupported key ∨ key = at' := by
  obtain ⟨_, _, _, rejected, _, _, _, swept⟩ := rejected_of_challengerWon won
  rcases falls_of_sweeps swept fallen with down | unsupported
  · exact (rejected.falls down).imp_right .inr
  · exact .inr (.inl unsupported)

end Assertions

theorem Disputes.Party.other_eq_challenger {party : Party} : party.other = .challenger ↔ party = .defender := by
  cases party <;> simp [Party.other]

namespace L1

variable {crypto : Crypto} {w w' : L1} {who : Address} {c : Call} {key : Bytes}

/-- The calls by which somebody wins against an assertion. -/
inductive Beats (crypto : Crypto) (w : L1) (key : Bytes) : Call → Prop
  | timedOut (found : w.games at' = some d) (about : d.assertion = key) (unresolved : d.stage ≠ .resolved)
      (turn : d.turn = .defender) : Beats crypto w key (.claimTimeout at')
  | stepped (found : w.games at' = some d) (about : d.assertion = key)
      (stepped : Stepped crypto w at'.registry d leafIndex.val leaf witness left .challenger) :
      Beats crypto w key (.oneStep at' leafIndex leaf witness)
  | proved {c : Call} (about : c.structural = some (registry, key)) : Beats crypto w key c

/-- An assertion falls by a call that wins against it, or with its parent. -/
theorem Effect.falls (effect : Effect crypto w who c w') (fallen : w'.chain.Fallen key) :
    w.chain.Fallen key ∨ w'.chain.Unsupported key ∨ Beats crypto w key c := by
  have settled {d : Dispute} {winner : Party} {c' : Chain} (settles : Settles w.chain d winner c')
      (fallen : c'.Fallen key) :
      w.chain.Fallen key ∨ c'.Unsupported key ∨ winner = .challenger ∧ d.assertion = key := by
    cases settles with
    | moot => exact .inl fallen
    | won won => exact (falls_of_challengerWon won fallen).imp_right (Or.imp_right fun same => ⟨rfl, same.symm⟩)
    | lost lost =>
      obtain ⟨record, _, challenged, _, _, _, _, _, _, _, _, rfl⟩ := defended_of_defenderWon lost
      refine .inl (fallen_of_write rfl ?_ fallen)
      dsimp only
      rw [challenged]
      split <;> rintro ⟨⟩
  cases effect with
  | posted posted => exact .inl (fallen_of_write rfl (by rintro ⟨⟩) fallen)
  | challenged challenged => exact .inl (fallen_of_write rfl (by rintro ⟨⟩) fallen)
  | finalized finalized =>
    obtain ⟨_, _, _, _, _, _, _, rfl⟩ := finalized
    exact .inl (fallen_of_write rfl (by rintro ⟨⟩) fallen)
  | created | worked | opened | dissected | selected => exact .inl fallen
  | stepped found _ _ stepped settles =>
    rcases settled settles fallen with down | unsupported | ⟨rfl, about⟩
    · exact .inl down
    · exact .inr (.inl unsupported)
    · exact .inr (.inr (.stepped found about stepped))
  | timedOut found unresolved _ settles =>
    rcases settled settles fallen with down | unsupported | ⟨won, about⟩
    · exact .inl down
    · exact .inr (.inl unsupported)
    · exact .inr (.inr (.timedOut found about unresolved (Party.other_eq_challenger.mp won)))
  | proved about proved =>
    rcases falls_of_challengerWon proved.won fallen with down | unsupported | rfl
    · exact .inl down
    · exact .inr (.inl unsupported)
    · exact .inr (.inr (.proved about))

end L1
end Sena
