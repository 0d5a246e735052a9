import StackMachine.Proofs.Exploration.Closure
import StackMachine.Proofs.Refinement

namespace StackMachine

/-- Every destination in `t'` is one in `t`, and a jump with destinations in `t` keeps some. -/
structure JumpTables.Narrows (t' t : JumpTables) : Prop where
  lists : ∀ src dst, t'.Lists src dst → t.Lists src dst
  listed : ∀ src dst, t.Lists src dst → ∃ dst', t'.Lists src dst'

theorem JumpTables.narrows_of_lists_iff {t' t : JumpTables}
    (h : ∀ src dst, t'.Lists src dst ↔ t.Lists src dst) : t'.Narrows t where
  lists src dst := (h src dst).mp
  listed src dst hdst := ⟨dst, (h src dst).mpr hdst⟩

namespace Exploration

variable {code : Code} {tables tables' : JumpTables} {limit pc dst : Nat} {v : AbstractValue}
  {σ τ : State} {kind : FaultKind}

theorem targets_const (value : Option Nat) :
    (subject code tables' limit).targets pc (.const value) =
      (subject code tables limit).targets pc (.const value) := by
  cases value <;> rfl

theorem Executes.withTables {i : Instr} (h : Executes (subject code tables' limit) σ i)
    (tables : JumpTables) : Executes (subject code tables limit) σ i :=
  ⟨h.decodes, h.not_terminator, h.needs, h.room⟩

section Narrowed

variable (h : tables'.Narrows tables)

include h

theorem mem_targets_of_narrows (hsome : (subject code tables limit).targets pc v ≠ [])
    (hdst : dst ∈ (subject code tables' limit).targets pc v) :
    dst ∈ (subject code tables limit).targets pc v := by
  cases v with
  | const value => rwa [targets_const] at hdst
  | unknown =>
    obtain ⟨other, hother⟩ := List.exists_mem_of_ne_nil _ hsome
    rw [mem_targets_unknown_iff] at hdst hother ⊢
    exact ⟨h.lists pc dst hdst.1, hother.2⟩

theorem targets_ne_nil_of_narrows (hsome : (subject code tables limit).targets pc v ≠ []) :
    (subject code tables' limit).targets pc v ≠ [] := by
  cases v with
  | const value => rwa [targets_const] at hsome
  | unknown =>
    obtain ⟨other, hother⟩ := List.exists_mem_of_ne_nil _ hsome
    rw [mem_targets_unknown_iff] at hother
    obtain ⟨dst, hdst⟩ := h.listed pc other hother.1
    have hmem : dst ∈ (subject code tables' limit).targets pc .unknown :=
      mem_targets_unknown_iff.mpr ⟨hdst, fun o ho => hother.2 o (h.lists pc o ho)⟩
    exact List.ne_nil_of_mem hmem

theorem faults_of_narrows (hfault : Faults (subject code tables' limit) σ kind) :
    Faults (subject code tables limit) σ kind := by
  cases hfault with
  | malformed hlt hd => exact .malformed hlt hd
  | underflow hd hlt => exact .underflow hd hlt
  | overflow hd hterm hneeds hlt => exact .overflow hd hterm hneeds hlt
  | badTarget hexec hjumps hnone =>
    refine .badTarget (hexec.withTables tables) hjumps ?_
    exact Decidable.byContradiction fun hsome => targets_ne_nil_of_narrows h hsome hnone

theorem refines_of_narrows :
    Refines (subject code tables' limit) (subject code tables limit) where
  code_eq := rfl
  faultless σ hgood kind hfault := hgood kind (faults_of_narrows h hfault)
  step σ τ hgood hstep := by
    cases hstep with
    | jump hexec hjumps hdst =>
      have hexec' := hexec.withTables tables
      have hsome := (executes_of_faultless hexec'.decodes hexec'.not_terminator hgood).2
      exact .jump hexec' hjumps (mem_targets_of_narrows h (hsome hjumps) hdst)
    | next hexec hrole _ =>
      have hexec' := hexec.withTables tables
      have hsome := (executes_of_faultless hexec'.decodes hexec'.not_terminator hgood).2
      exact .next hexec' hrole fun hbranch => hsome (.inr hbranch)

end Narrowed

end Exploration

theorem verifyOwned_of_narrows {code : Code} {tables tables' : JumpTables} {cfg : Config}
    {v : VerifiedCode} (h : tables'.Narrows tables) (hv : verifyOwned code tables cfg = .ok v) :
    ∃ v', verifyOwned code tables' cfg = .ok v' ∧
      ∀ pc depth, v'.depthAt? pc = some depth → v.depthAt? pc = some depth :=
  verifyOwned_of_refines hv (accounts_of_verifyOwned hv).1 (Exploration.refines_of_narrows h)

theorem depthAt?_of_narrows {code : Code} {tables tables' : JumpTables} {cfg : Config}
    {v v' : VerifiedCode} {pc depth : Nat} (h : tables'.Narrows tables)
    (hv : verifyOwned code tables cfg = .ok v) (hv' : verifyOwned code tables' cfg = .ok v')
    (hdepth : v'.depthAt? pc = some depth) : v.depthAt? pc = some depth := by
  obtain ⟨w, hw, hle⟩ := verifyOwned_of_narrows h hv
  obtain rfl : v' = w := Except.ok.inj (hv'.symm.trans hw)
  exact hle pc depth hdepth

/-- Code that is accepted stays so when its jumps get fewer destinations, but not none, and no depth
is new then. Tables that list the same, in whichever table, make no difference. -/
theorem verdict_of_narrows (code : Code) (tables tables' : JumpTables) (cfg : Config) :
    (tables'.Narrows tables → ∀ v, verifyOwned code tables cfg = .ok v →
      ∃ v', verifyOwned code tables' cfg = .ok v' ∧
        ∀ pc depth, v'.depthAt? pc = some depth → v.depthAt? pc = some depth) ∧
    ((∀ src dst, tables'.Lists src dst ↔ tables.Lists src dst) →
      ((∃ v, verifyOwned code tables cfg = .ok v) ↔ ∃ v', verifyOwned code tables' cfg = .ok v') ∧
      ∀ v v', verifyOwned code tables cfg = .ok v → verifyOwned code tables' cfg = .ok v' →
        ∀ pc, v.depthAt? pc = v'.depthAt? pc) := by
  refine ⟨fun h v hv => verifyOwned_of_narrows h hv, fun h => ?_⟩
  have hthere : tables'.Narrows tables := JumpTables.narrows_of_lists_iff h
  have hback : tables.Narrows tables' := JumpTables.narrows_of_lists_iff fun s d => (h s d).symm
  refine ⟨⟨?_, ?_⟩, fun v v' hv hv' pc => Option.ext fun depth => ?_⟩
  · rintro ⟨v, hv⟩
    obtain ⟨v', hv', _⟩ := verifyOwned_of_narrows hthere hv
    exact ⟨v', hv'⟩
  · rintro ⟨v', hv'⟩
    obtain ⟨v, hv, _⟩ := verifyOwned_of_narrows hback hv'
    exact ⟨v, hv⟩
  · exact ⟨depthAt?_of_narrows hback hv' hv, depthAt?_of_narrows hthere hv hv'⟩

theorem narrowed_computed_jump :
    let one : JumpTable := ⟨#[⟨1, 2⟩], List.pairwise_singleton _ _⟩
    let other : JumpTable := ⟨#[⟨1, 4⟩], List.pairwise_singleton _ _⟩
    ∃ v v', verifyOwned #[0x36, 0x56, 0x5B, 0x00, 0x5B, 0x00] ⟨one, other⟩ {} = .ok v ∧
      verifyOwned #[0x36, 0x56, 0x5B, 0x00, 0x5B, 0x00] ⟨.empty, one⟩ {} = .ok v' ∧
      ∀ pc depth, v'.depthAt? pc = some depth → v.depthAt? pc = some depth := by
  intro one other
  have hends : endsAccepted #[0x36, 0x56, 0x5B, 0x00, 0x5B, 0x00] ⟨one, other⟩ {} 10 = true := by
    decide +kernel
  obtain ⟨v, hv⟩ := exists_ok_of_endsAccepted 10 (by decide) hends
  have hnarrows : (⟨.empty, one⟩ : JumpTables).Narrows ⟨one, other⟩ := by
    refine ⟨fun src dst h => .inl (h.resolve_left List.not_mem_nil), fun src dst h => ?_⟩
    have hsrc : src = 1 := by
      obtain h | h := h <;> exact congrArg JumpEntry.src (List.mem_singleton.mp h)
    exact ⟨2, .inr (hsrc ▸ List.mem_singleton.mpr rfl)⟩
  obtain ⟨v', hv', hle⟩ := (verdict_of_narrows _ _ _ _).1 hnarrows v hv
  exact ⟨v, v', hv, hv', hle⟩

end StackMachine
