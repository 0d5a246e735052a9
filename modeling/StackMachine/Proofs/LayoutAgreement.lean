import StackMachine.Listing
import StackMachine.Proofs.Agreement
import StackMachine.Proofs.Traversal.Arrivals

namespace StackMachine

open Exploration Traversal

/-- If the event is that of an instruction, it is an item of the layout. -/
def Event.InLayout (code : Code) : Event → Prop
  | .instr pc next op _ =>
    ∃ i, .ok i ∈ layout code ∧ i.offset = pc ∧ i.next = next ∧ i.opcode = op
  | _ => True

namespace Traversal

variable {g : Setting} {t u : Traversal} {pc n : Nat} {i : Instr}

theorem inLayout_emit {code : Code} {e : Event} (hlog : ∀ x ∈ t.log, x.InLayout code)
    (he : e.InLayout code) : ∀ x ∈ (t.emit g e).log, x.InLayout code := by
  unfold emit TraceMask.record
  split
  · exact List.forall_mem_cons.mpr ⟨he, hlog⟩
  · exact hlog

theorem inLayout_executed (hcode : g.code.size ≤ maxOffset) (hb : Boundary g.code pc)
    (hd : decodeAt g.code pc = .ok i) (hlog : ∀ x ∈ t.log, x.InLayout g.code) :
    ∀ x ∈ (t.executed g i).log, x.InLayout g.code := by
  refine inLayout_emit hlog ⟨i, ?_, rfl, rfl, rfl⟩
  exact (mem_layout_iff hcode).mpr ⟨pc, lt_size_of_decodeAt hd, hb, hd⟩

theorem Stepped.inLayout (hcode : g.code.size ≤ maxOffset) (hb : Boundary g.code pc)
    (h : Stepped g t pc u) (hlog : ∀ x ∈ t.log, x.InLayout g.code) :
    ∀ x ∈ u.log, x.InLayout g.code := by
  cases h with
  | runOff | malformed | haltRefused | revisited | conflict | underflow | overflow
  | branchRefused => exact hlog
  | halted hd => exact inLayout_executed hcode hb hd hlog
  | @jumpRefused i _ hruns =>
    exact inLayout_executed (t := (t.noted pc).popped 1) hcode hb hruns.decodes hlog
  | @marked i hruns =>
    exact inLayout_executed (t := (t.noted pc).forget) hcode hb hruns.decodes hlog
  | @computed i a hruns =>
    exact inLayout_executed (t := { t.noted pc with stack := t.stack.act i.literal a }) hcode hb
      hruns.decodes hlog
  | @jumpedStatic i dst hruns =>
    have hexec := inLayout_executed (t := (t.noted pc).popped 1) hcode hb hruns.decodes hlog
    have hjump := inLayout_emit (g := g) (e := .jump pc (.static dst)) hexec trivial
    exact inLayout_emit (t := (emit g _ _).forget) hjump trivial
  | @jumpedListed i dsts hruns =>
    have hexec := inLayout_executed (t := (t.noted pc).popped 1) hcode hb hruns.decodes hlog
    exact inLayout_emit hexec trivial
  | @branched i route hruns =>
    have hjump := inLayout_emit (g := g) (t := (t.noted pc).popped 2)
      (e := .jump pc route.resolution) hlog trivial
    have hexec := inLayout_executed (t := ((emit g _ _).queue route.destinations).forget) hcode hb
      hruns.decodes hjump
    exact inLayout_emit hexec trivial

/-- Every instruction that a run executes is at a boundary. -/
theorem inLayout_stateAfter {stackLimit : Nat}
    (hs : Analysed (g.subject (min stackLimit stackCapacity))) (scheduler : Scheduler) (n : Nat) :
    ∀ x ∈ (stateAfter g scheduler stackLimit n).log, x.InLayout g.code := by
  induction n with
  | zero => exact nofun
  | succ n ih =>
    have hmoved := moved_stateAfter hs scheduler n
    generalize stateAfter g scheduler stackLimit (n + 1) = u at hmoved ⊢
    cases hmoved with
    | ended => exact ih
    | stepped hcursor hstep =>
      have hb := (consistent_stateAfter hs scheduler n).boundary hs hcursor
      exact hstep.inLayout hs.size_le hb ih
    | begun =>
      unfold begin
      split
      · exact ih
      · exact inLayout_emit (e := .block _ _) ih trivial

end Traversal

section Verifications

variable {code : Code} {tables : JumpTables} {cfg : Config} {mask : TraceMask}

def traversalAfter (code : Code) (tables : JumpTables) (cfg : Config) (mask : TraceMask) (n : Nat) :
    Traversal :=
  stateAfter (Setting.of code tables mask) Scheduler.newest cfg.stackLimit n

theorem exists_traverse_eq (code : Code) (tables : JumpTables) (cfg : Config) (mask : TraceMask) :
    ∃ n, traverse code tables cfg mask = traversalAfter code tables cfg mask n := by
  obtain ⟨n, _, hrun⟩ := exists_run_eq_iterate Scheduler.newest (Setting.of code tables mask)
    (start cfg.stackLimit code.size)
  exact ⟨n, hrun⟩

theorem traverse_eq_of_isFinished {n : Nat}
    (hdone : (traversalAfter code tables cfg mask n).isFinished = true) :
    traverse code tables cfg mask = traversalAfter code tables cfg mask n :=
  run_eq_iterate Scheduler.newest hdone

theorem mem_log_of_instr_mem {pc next depth : Nat} {op : Opcode}
    (h : .instr pc next op depth ∈ (verifyTraced code tables cfg mask).2) :
    code.size ≤ cfg.lengthBound ∧
      .instr pc next op depth ∈ (traverse code tables cfg mask).log := by
  have hrecord {e : Event} {log : List Event} (hmem : .instr pc next op depth ∈ mask.record e log)
      (hne : .instr pc next op depth ≠ e) : .instr pc next op depth ∈ log := by
    unfold TraceMask.record at hmem
    split at hmem
    · exact (List.mem_cons.mp hmem).resolve_left hne
    · exact hmem
  by_cases hle : code.size ≤ cfg.lengthBound
  · rw [verifyTraced_of_le hle] at h
    refine ⟨hle, ?_⟩
    obtain hopening | hrest := List.mem_append.mp h
    · cases hrecord hopening (by simp)
    · exact hrecord (List.mem_reverse.mp hrest) (by simp)
  · rw [verifyTraced_of_lt (Nat.lt_of_not_le hle)] at h
    obtain hopening | hend := List.mem_append.mp h
    · cases hrecord hopening (by simp)
    · cases hrecord hend (by simp)

theorem verdict_of_verifyTraced {e : VerifyError}
    (h : (verifyTraced code tables cfg mask).1 = .error e) :
    e = .codeTooLarge code.size cfg.lengthBound ∨
      code.size ≤ cfg.lengthBound ∧ (traverse code tables cfg mask).verdict = .error e := by
  by_cases hle : code.size ≤ cfg.lengthBound
  · rw [verifyTraced_of_le hle] at h
    refine .inr ⟨hle, ?_⟩
    cases hverdict : (traverse code tables cfg mask).verdict with
    | ok m =>
      rw [hverdict] at h
      cases h
    | error e' =>
      rw [hverdict] at h
      exact congrArg Except.error (Except.error.inj h)
  · rw [verifyTraced_of_lt (Nat.lt_of_not_le hle)] at h
    exact .inl (Except.error.inj h).symm

theorem analysed_of_le (hle : code.size ≤ cfg.lengthBound) : Analysed
    ((Setting.of code tables mask).subject (min cfg.stackLimit stackCapacity)) :=
  ⟨rfl, size_le_of_lengthBound hle⟩

theorem mem_layout_of_malformed {pc : Nat} {e : DecodeError}
    (h : (verifyTraced code tables cfg mask).1 = .error (.malformedInstruction pc e)) :
    .error e ∈ layout code ∧ e.pc = pc := by
  obtain htooLarge | ⟨hle, hverdict⟩ := verdict_of_verifyTraced h
  · cases htooLarge
  have hcode := size_le_of_lengthBound hle
  have hexplained : Explained
      ((Setting.of code tables mask).subject (min cfg.stackLimit stackCapacity)) _ :=
    explained_of_verdict (g := Setting.of code tables mask) hcode rfl hverdict
  cases hexplained with
  | @blamed σ _ hσ hblames =>
    cases hblames with
    | malformed hlt hd =>
      have hb : Boundary code σ.pc := hσ.boundary (analysed_of_le hle)
      exact ⟨(mem_layout_iff hcode).mpr ⟨σ.pc, hlt, hb, hd⟩, decodeAt_error_pc hd⟩

theorem isJumpDest_of_depthInconsistency {pc recorded observed : Nat}
    (h : (verifyTraced code tables cfg mask).1 =
      .error (.depthInconsistency pc recorded observed)) :
    code.size ≤ maxOffset ∧ IsJumpDest code pc := by
  obtain htooLarge | ⟨hle, hverdict⟩ := verdict_of_verifyTraced h
  · cases htooLarge
  obtain ⟨n, htraverse⟩ := exists_traverse_eq code tables cfg mask
  rw [htraverse, verdict_eq_error_iff] at hverdict
  exact ⟨size_le_of_lengthBound hle, isJumpDest_of_conflict (analysed_of_le hle) hverdict⟩

/-- What is executed and what is refused are items of the layout, and an offset at which paths
arrive more than once is a valid destination. -/
theorem layouts_agree (code : Code) (tables : JumpTables) (cfg : Config) (mask : TraceMask) :
    (Listing.ofCode code).items = layout code ∧
    (∀ pc next op depth, .instr pc next op depth ∈ (verifyTraced code tables cfg mask).2 →
      ∃ i, .ok i ∈ layout code ∧ i.offset = pc ∧ i.next = next ∧ i.opcode = op) ∧
    (∀ pc e, (verifyTraced code tables cfg mask).1 = .error (.malformedInstruction pc e) →
      .error e ∈ layout code ∧ e.pc = pc) ∧
    (∀ pc recorded observed, (verifyTraced code tables cfg mask).1 =
        .error (.depthInconsistency pc recorded observed) →
      (JumpDests.ofCode code).isValid pc = true) ∧
    (code.size ≤ cfg.lengthBound → ∀ n pc,
      (traversalAfter code tables cfg mask n).cursor = .running pc →
      (∃ m < n, (traversalAfter code tables cfg mask m).cursor = .running pc) ∨
        (traversalAfter code tables cfg mask n).memo.Holds pc →
      (JumpDests.ofCode code).isValid pc = true) := by
  refine ⟨rfl, fun pc next op depth hmem => ?_, fun pc e h => mem_layout_of_malformed h,
    fun pc recorded observed h => ?_, fun hle n pc hcursor htwice => ?_⟩
  · obtain ⟨hle, hlog⟩ := mem_log_of_instr_mem hmem
    obtain ⟨n, htraverse⟩ := exists_traverse_eq code tables cfg mask
    rw [htraverse] at hlog
    exact inLayout_stateAfter (analysed_of_le hle) Scheduler.newest n _ hlog
  · obtain ⟨hcode, hdest⟩ := isJumpDest_of_depthInconsistency h
    exact (JumpDests.isValid_iff hcode).mpr hdest
  · have hs : Analysed
        ((Setting.of code tables mask).subject (min cfg.stackLimit stackCapacity)) :=
      analysed_of_le hle
    refine (JumpDests.isValid_iff hs.size_le).mpr ?_
    obtain ⟨m, hlt, hm⟩ | hholds := htwice
    · exact isJumpDest_of_arrives_twice hs hlt hm hcursor
    · exact isJumpDest_of_holds hs hcursor hholds

theorem layouts_agree_loop :
    (traversalAfter #[0x5B, 0x60, 0x00, 0x56] JumpTables.empty {} TraceMask.all 4).cursor =
        .running 0 ∧
      (JumpDests.ofCode #[0x5B, 0x60, 0x00, 0x56]).isValid 0 = true := by
  have hfirst : (traversalAfter #[0x5B, 0x60, 0x00, 0x56] JumpTables.empty {} TraceMask.all
      1).cursor = .running 0 := by decide +kernel
  have hagain : (traversalAfter #[0x5B, 0x60, 0x00, 0x56] JumpTables.empty {} TraceMask.all
      4).cursor = .running 0 := by decide +kernel
  obtain ⟨_, _, _, _, htwice⟩ :=
    layouts_agree #[0x5B, 0x60, 0x00, 0x56] JumpTables.empty {} TraceMask.all
  exact ⟨hagain, htwice (by decide) 4 0 hagain (.inl ⟨1, by decide, hfirst⟩)⟩

end Verifications

end StackMachine
