import StackMachine.Proofs.Agreement

namespace StackMachine

namespace Exploration

/-- What `s'` does in a state in which `s` is not at fault, `s` does as well. -/
structure Refines (s' s : Subject) : Prop where
  code_eq : s'.code = s.code
  faultless : ∀ σ, (∀ kind, ¬ Faults s σ kind) → ∀ kind, ¬ Faults s' σ kind
  step : ∀ σ τ, (∀ kind, ¬ Faults s σ kind) → Step s' σ τ → Step s σ τ

variable {s s' : Subject} {σ : State}

theorem Refines.reachable (h : Refines s' s)
    (hgood : ∀ σ kind, Reachable s σ → ¬ Faults s σ kind) (hσ : Reachable s' σ) :
    Reachable s σ := by
  induction hσ with
  | start => exact .start
  | step _ hstep ih => exact ih.step (h.step _ _ (fun kind => hgood _ kind ih) hstep)

end Exploration

open Exploration Traversal

theorem Traversal.Accounts.not_explained_of_refines {s s' : Subject} {m : DepthMemo}
    (hm : Accounts s m) (h : Refines s' s) (e : VerifyError) : ¬ Explained s' e := by
  have hreach {σ : State} (hσ : Reachable s' σ) : Reachable s σ := h.reachable hm.faultless hσ
  rintro (⟨hσ, hblames⟩ | @⟨σ, ρ, hσ, hρ, hpc, hrec, hne⟩)
  · obtain ⟨kind, _, hfault⟩ := hblames.faults
    exact h.faultless _ (fun kind => hm.faultless _ kind (hreach hσ)) kind hfault
  · rw [h.code_eq] at hrec
    exact hm.not_explained _ (.twoDepths (hreach hσ) (hreach hρ) hpc hrec hne)

variable {code : Code} {tables tables' : JumpTables} {cfg cfg' : Config} {v : VerifiedCode}

theorem verifyOwned_of_refines (hv : verifyOwned code tables cfg = .ok v)
    (hle : code.size ≤ cfg'.lengthBound)
    (h : Refines (subjectOf code tables' cfg') (subjectOf code tables cfg)) :
    ∃ v', verifyOwned code tables' cfg' = .ok v' ∧
      ∀ pc depth, v'.depthAt? pc = some depth → v.depthAt? pc = some depth := by
  obtain ⟨_, hm⟩ := accounts_of_verifyOwned hv
  cases hv' : verifyOwned code tables' cfg' with
  | error e =>
    obtain ⟨hlt, _⟩ | ⟨_, hexplained⟩ := explained_of_verifyOwned hv'
    · exact absurd hle (Nat.not_le.mpr hlt)
    · exact absurd hexplained (hm.not_explained_of_refines h e)
  | ok v' =>
    refine ⟨v', rfl, fun pc depth hdepth => ?_⟩
    obtain ⟨_, hm'⟩ := accounts_of_verifyOwned hv'
    obtain ⟨hrec, σ, hσ, hpc, hσdepth⟩ := (hm'.get?_iff pc depth).mp hdepth
    exact (hm.get?_iff pc depth).mpr ⟨hrec, σ, h.reachable hm.faultless hσ, hpc, hσdepth⟩

end StackMachine
