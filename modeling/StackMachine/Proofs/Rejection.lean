import StackMachine.Proofs.Agreement

namespace StackMachine

open Exploration Traversal

variable {code : Code} {tables : JumpTables} {cfg : Config} {limit : Nat} {e : VerifyError}

def TruthfulTarget (code : Code) (tables : JumpTables) (pc : Nat) : JumpTarget → Prop
  | .static value => ∀ dst, value = some dst → ¬ IsJumpDest code dst
  | .unlisted => (tables.lookup pc).destinations = []
  | .listed table dst => ∃ before after,
      (tables.lookup pc).destinations = before ++ (table, dst) :: after ∧
        (∀ d ∈ before, IsJumpDest code d.2) ∧ ¬ IsJumpDest code dst

/-- What an error says of code and tables, in terms of their exploration under a limit. -/
def Truthful (code : Code) (tables : JumpTables) (limit : Nat) : VerifyError → Prop
  | .codeTooLarge length max => length = code.size ∧ max < code.size
  | .table _ _ => False
  | .malformedInstruction pc error =>
      decodeAt code pc = .error error ∧ ⟨.malformed, pc⟩ ∈ (explore code tables limit).faults
  | .stackUnderflow pc depth required => ∃ i, decodeAt code pc = .ok i ∧
      required = i.opcode.stackIn ∧ depth < required ∧
      ⟨.underflow, pc⟩ ∈ (explore code tables limit).faults ∧
      (i.opcode.isTerminator = false → depth ∈ (explore code tables limit).depthsAt pc)
  | .stackOverflow pc depth bound => ∃ i, decodeAt code pc = .ok i ∧
      bound = limit ∧ depth ≤ limit ∧ i.opcode.stackIn ≤ depth ∧
      limit < depth - i.opcode.stackIn + i.opcode.stackOut ∧
      depth ∈ (explore code tables limit).depthsAt pc ∧
      ⟨.overflow, pc⟩ ∈ (explore code tables limit).faults
  | .unreachableJumpTarget pc target => ∃ i, decodeAt code pc = .ok i ∧
      (i.opcode = .jump ∨ i.opcode = .jumpi) ∧
      ⟨.badTarget, pc⟩ ∈ (explore code tables limit).faults ∧ TruthfulTarget code tables pc target
  | .depthInconsistency pc recorded observed => recorded ≠ observed ∧
      recorded ∈ (explore code tables limit).depthsAt pc ∧
      observed ∈ (explore code tables limit).depthsAt pc

section Truth

variable (hcode : code.size ≤ maxOffset)

include hcode

theorem truthfulTarget_of_badTarget {pc : Nat} {v : AbstractValue} {x : JumpTarget}
    (h : BadTarget (subject code tables limit) pc v x) : TruthfulTarget code tables pc x := by
  have hvalid (o : Nat) : (subject code tables limit).jumpDests.isValid o = true ↔
      IsJumpDest code o := JumpDests.isValid_iff hcode
  have hnot {o : Nat} (ho : (subject code tables limit).jumpDests.isValid o = false) :
      ¬ IsJumpDest code o := by
    rw [← hvalid, ho]
    exact Bool.noConfusion
  cases h with
  | static hbad => exact fun dst hdst => hnot (hbad dst hdst)
  | unlisted hnone => exact hnone
  | listed heq hgood hbad =>
    exact ⟨_, _, heq, fun d hd => (hvalid d.2).mp (hgood d hd), hnot hbad⟩

theorem truthful_of_blames {σ : State} (hσ : Reachable (subject code tables limit) σ)
    (h : Blames (subject code tables limit) σ e) : Truthful code tables limit e := by
  obtain ⟨kind, hkind, hfault⟩ := h.faults
  have hmem : ⟨kind, σ.pc⟩ ∈ (explore code tables limit).faults :=
    (mem_faults_iff hcode).mpr ⟨σ, hσ, hfault, rfl⟩
  have hdepth (hrec : Recorded code σ.pc) : σ.depth ∈ (explore code tables limit).depthsAt σ.pc :=
    (mem_depthsAt_iff hcode).mpr ⟨σ, hσ, hrec, rfl, rfl⟩
  cases h with
  | malformed hlt hd =>
    obtain rfl := Option.some.inj hkind
    exact ⟨hd, hmem⟩
  | underflow hd hlt =>
    obtain rfl := Option.some.inj hkind
    exact ⟨_, hd, rfl, hlt, hmem, fun hterm => hdepth ⟨_, hd, hterm⟩⟩
  | overflow hd hterm hneeds hlt =>
    obtain rfl := Option.some.inj hkind
    exact ⟨_, hd, rfl, hσ.depth_le, hneeds, hlt, hdepth ⟨_, hd, hterm⟩, hmem⟩
  | badTarget hexec hjumps _ hbad =>
    obtain rfl := Option.some.inj hkind
    refine ⟨_, hexec.decodes, ?_, hmem, truthfulTarget_of_badTarget hcode hbad⟩
    exact hjumps.imp Opcode.role_eq_jump_iff.mp Opcode.role_eq_branch_iff.mp

theorem truthful_of_explained (h : Explained (subject code tables limit) e) :
    Truthful code tables limit e := by
  cases h with
  | blamed hσ hblames => exact truthful_of_blames hcode hσ hblames
  | twoDepths hσ hρ hpc hrec hne =>
    exact ⟨hne, (mem_depthsAt_iff hcode).mpr ⟨_, hρ, hrec, hpc, rfl⟩,
      (mem_depthsAt_iff hcode).mpr ⟨_, hσ, hrec, rfl, rfl⟩⟩

end Truth

/-- A rejection is true of the code, in all its fields. -/
theorem truthful_of_verify_error (h : verify code tables cfg = .error e) :
    Truthful code tables (min cfg.stackLimit stackCapacity) e := by
  have howned := verify_eq_error_iff.mp h
  obtain ⟨hlt, rfl⟩ | ⟨hle, hexplained⟩ := explained_of_verifyOwned howned
  · exact ⟨rfl, hlt⟩
  · exact truthful_of_explained (size_le_of_lengthBound hle) hexplained

theorem truthful_lone_jump :
    verify #[0x56] JumpTables.empty {} = .error (.stackUnderflow 0 0 1) ∧
      Truthful #[0x56] JumpTables.empty 1024 (.stackUnderflow 0 0 1) := by
  have hrejected : (stepsFromStart #[0x56] JumpTables.empty {} 2).cursor =
      .rejected (.stackUnderflow 0 0 1) := by decide +kernel
  have hdone : (stepsFromStart #[0x56] JumpTables.empty {} 2).isFinished = true := by
    rw [isFinished, hrejected]
  have hverify : verify #[0x56] JumpTables.empty {} = .error (.stackUnderflow 0 0 1) := by
    rw [verify_eq_map, verifyOwned_eq_iterate 2 (by decide) hdone, verdict, hrejected]
    rfl
  exact ⟨hverify, truthful_of_verify_error hverify⟩

end StackMachine
