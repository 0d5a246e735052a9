import StackMachine.Proofs.LayoutAgreement

namespace StackMachine

open Exploration Traversal

def Opcode.depthBehind (op : Opcode) (arrival : Nat) : Nat := arrival - op.stackIn + op.stackOut

/-- The depth that is reported for an opcode that is executed at some depth. -/
def Opcode.reportedDepth (op : Opcode) (arrival : Nat) : Nat :=
  if op.isTerminator then arrival else op.depthBehind arrival

def Event.Reports (code : Code) (t : Traversal) : Event → Prop
  | .instr pc next op depth => t.cursor = .running pc ∧
    (∃ i, decodeAt code pc = .ok i ∧ i.next = next ∧ i.opcode = op) ∧
    op.stackIn ≤ t.stack.depth ∧ depth = op.reportedDepth t.stack.depth
  | _ => True

def Grows (P : Event → Prop) (log log' : List Event) : Prop :=
  ∃ new, log' = new ++ log ∧ ∀ e ∈ new, P e

namespace Grows

variable {P : Event → Prop} {log : List Event} {g : Setting} {t : Traversal} {e : Event}

theorem refl (P : Event → Prop) (log : List Event) : Grows P log log := ⟨[], rfl, nofun⟩

theorem emit (h : Grows P log t.log) (he : P e) : Grows P log (t.emit g e).log := by
  obtain ⟨new, hlog, hnew⟩ := h
  unfold Traversal.emit TraceMask.record
  split
  · exact ⟨e :: new, congrArg (e :: ·) hlog, List.forall_mem_cons.mpr ⟨he, hnew⟩⟩
  · exact ⟨new, hlog, hnew⟩

end Grows

namespace Traversal

variable {g : Setting} {t u : Traversal} {pc limit : Nat} {i : Instr}

theorem reports_executed (hcursor : t.cursor = .running pc) (hd : decodeAt g.code pc = .ok i)
    (hneeds : i.opcode.stackIn ≤ t.stack.depth) {depth : Nat}
    (hdepth : depth = i.opcode.reportedDepth t.stack.depth) :
    (Event.instr i.offset i.next i.opcode depth).Reports g.code t := by
  obtain rfl := decodeAt_offset hd
  exact ⟨hcursor, ⟨i, hd, rfl, rfl⟩, hneeds, hdepth⟩

theorem Runs.reports (hcursor : t.cursor = .running pc) (h : Runs g t pc i) {depth : Nat}
    (hdepth : depth = i.opcode.depthBehind t.stack.depth) :
    (Event.instr i.offset i.next i.opcode depth).Reports g.code t := by
  refine reports_executed hcursor h.decodes h.needs ?_
  rw [hdepth, Opcode.reportedDepth, h.not_terminator]
  rfl

theorem depthBehind_jump (h : i.opcode.role = .jump) (depth : Nat) :
    depth - 1 = i.opcode.depthBehind depth := by
  rw [Opcode.role_eq_jump_iff.mp h]
  rfl

theorem depthBehind_branch (h : i.opcode.role = .branch) (depth : Nat) :
    depth - 2 = i.opcode.depthBehind depth := by
  rw [Opcode.role_eq_branch_iff.mp h]
  rfl

theorem Stepped.reports (hcursor : t.cursor = .running pc) (h : Stepped g t pc u) :
    Grows (Event.Reports g.code t) t.log u.log := by
  have hlog := Grows.refl (Event.Reports g.code t) t.log
  cases h with
  | runOff | malformed | haltRefused | revisited | conflict | underflow | overflow
  | branchRefused => exact hlog
  | halted hd hterm hneeds =>
    refine hlog.emit (reports_executed hcursor hd hneeds ?_)
    rw [Opcode.reportedDepth, hterm]
    rfl
  | jumpRefused hruns hrole =>
    exact hlog.emit (t := (t.noted pc).popped 1) (hruns.reports hcursor (depthBehind_jump hrole _))
  | @jumpedStatic i dst hruns hrole =>
    have hexec := hlog.emit (g := g) (t := (t.noted pc).popped 1)
      (hruns.reports hcursor (depthBehind_jump hrole _))
    have hjump := hexec.emit (g := g) (e := .jump pc (.static dst)) trivial
    exact hjump.emit (t := (emit g _ _).forget) trivial
  | jumpedListed hruns hrole =>
    have hexec := hlog.emit (g := g) (t := (t.noted pc).popped 1)
      (hruns.reports hcursor (depthBehind_jump hrole _))
    exact hexec.emit trivial
  | @branched i route hruns hrole =>
    -- A branch reports its jump in front of itself, when its operands are gone.
    have hjump := hlog.emit (g := g) (t := (t.noted pc).popped 2)
      (e := .jump pc route.resolution) trivial
    have hdepth := (SymbolicStack.depth_enterBlock ((t.noted pc).popped 2).stack).trans
      (depthBehind_branch hrole t.stack.depth)
    have hexec := hjump.emit (g := g) (t := ((emit g _ _).queue route.destinations).forget)
      (hruns.reports hcursor hdepth)
    exact hexec.emit trivial
  | marked hruns hrole =>
    refine hlog.emit (t := (t.noted pc).forget) (hruns.reports hcursor ?_)
    rw [Opcode.role_eq_mark_iff.mp hrole]
    exact SymbolicStack.depth_enterBlock _
  | @computed i a hruns hrole =>
    have heff : a.effect = (i.opcode.stackIn, i.opcode.stackOut) := Opcode.effect_of_role hrole
    have hdepth := SymbolicStack.depth_act (a := a) (by rw [heff]; exact hruns.needs) i.literal
    rw [heff] at hdepth
    exact hlog.emit (t := { t.noted pc with stack := t.stack.act i.literal a })
      (hruns.reports hcursor hdepth)

theorem Moved.reports (h : Moved g t u) :
    Grows (Event.Reports g.code t) t.log u.log := by
  have hlog := Grows.refl (Event.Reports g.code t) t.log
  cases h with
  | ended => exact hlog
  | stepped hcursor hstep => exact hstep.reports hcursor
  | begun =>
    unfold Traversal.begin
    split
    · exact hlog
    · exact hlog.emit trivial

end Traversal

section Verifications

variable {code : Code} {tables : JumpTables} {cfg : Config} {mask : TraceMask}

/-- The events of the step behind the first `n` ones, the last event first. -/
def newEvents (code : Code) (tables : JumpTables) (cfg : Config) (mask : TraceMask) (n : Nat) :
    List Event :=
  (traversalAfter code tables cfg mask (n + 1)).log.take
    ((traversalAfter code tables cfg mask (n + 1)).log.length -
      (traversalAfter code tables cfg mask n).log.length)

theorem newEvents_reports (hle : code.size ≤ cfg.lengthBound) (n : Nat) :
    (traversalAfter code tables cfg mask (n + 1)).log =
        newEvents code tables cfg mask n ++ (traversalAfter code tables cfg mask n).log ∧
      ∀ e ∈ newEvents code tables cfg mask n,
        e.Reports code (traversalAfter code tables cfg mask n) := by
  have hs : Analysed ((Setting.of code tables mask).subject (min cfg.stackLimit stackCapacity)) :=
    analysed_of_le hle
  obtain ⟨new, hlog, hnew⟩ : Grows (Event.Reports code (traversalAfter code tables cfg mask n))
      (traversalAfter code tables cfg mask n).log
      (traversalAfter code tables cfg mask (n + 1)).log :=
    (moved_stateAfter hs Scheduler.newest n).reports
  have hevents : newEvents code tables cfg mask n = new := by
    rw [newEvents, hlog, List.length_append, Nat.add_sub_cancel, List.take_left]
  exact ⟨hevents ▸ hlog, hevents ▸ hnew⟩

theorem exists_newEvents_of_mem (hle : code.size ≤ cfg.lengthBound) {e : Event} {n : Nat}
    (h : e ∈ (traversalAfter code tables cfg mask n).log) :
    ∃ m < n, e ∈ newEvents code tables cfg mask m := by
  induction n with
  | zero => cases h
  | succ n ih =>
    rw [(newEvents_reports hle n).1] at h
    obtain hnew | hold := List.mem_append.mp h
    · exact ⟨n, Nat.lt_succ_self n, hnew⟩
    · obtain ⟨m, hlt, hm⟩ := ih hold
      exact ⟨m, Nat.lt_succ_of_lt hlt, hm⟩

/-- The event of an instruction comes from a step at its offset. It reports the depth behind the
instruction, but if the instruction halts, the depth in front of it. -/
theorem reported_depth (code : Code) (tables : JumpTables) (cfg : Config) (mask : TraceMask)
    {pc next depth : Nat} {op : Opcode}
    (h : .instr pc next op depth ∈ (verifyTraced code tables cfg mask).2) :
    (∃ n, .instr pc next op depth ∈ newEvents code tables cfg mask n) ∧
      ∀ n, .instr pc next op depth ∈ newEvents code tables cfg mask n →
        (traversalAfter code tables cfg mask n).cursor = .running pc ∧
          op.stackIn ≤ (traversalAfter code tables cfg mask n).stack.depth ∧
          depth = if op.isTerminator = true then
              (traversalAfter code tables cfg mask n).stack.depth
            else
              (traversalAfter code tables cfg mask n).stack.depth - op.stackIn + op.stackOut := by
  obtain ⟨hle, hlog⟩ := mem_log_of_instr_mem h
  obtain ⟨last, htraverse⟩ := exists_traverse_eq code tables cfg mask
  rw [htraverse] at hlog
  refine ⟨?_, fun n hmem => ?_⟩
  · obtain ⟨n, _, hmem⟩ := exists_newEvents_of_mem hle hlog
    exact ⟨n, hmem⟩
  · obtain ⟨hcursor, _, hneeds, hdepth⟩ := (newEvents_reports hle n).2 _ hmem
    exact ⟨hcursor, hneeds, hdepth⟩

theorem mem_newEvents_return :
    .instr 2 3 .ret 2 ∈ newEvents #[0x5F, 0x5F, 0xF3] JumpTables.empty {} TraceMask.all 3 ∧
      (traversalAfter #[0x5F, 0x5F, 0xF3] JumpTables.empty {} TraceMask.all 3).stack.depth = 2 := by
  decide +kernel

theorem reported_depth_return :
    .instr 2 3 .ret 2 ∈ (verifyTraced #[0x5F, 0x5F, 0xF3] JumpTables.empty {} TraceMask.all).2 ∧
      (traversalAfter #[0x5F, 0x5F, 0xF3] JumpTables.empty {} TraceMask.all 3).cursor =
        .running 2 ∧
      2 = (traversalAfter #[0x5F, 0x5F, 0xF3] JumpTables.empty {} TraceMask.all 3).stack.depth := by
  have hmem : .instr 2 3 .ret 2 ∈
      (verifyTraced #[0x5F, 0x5F, 0xF3] JumpTables.empty {} TraceMask.all).2 := by
    rw [verifyTraced_of_le (by decide), traverse_eq_of_isFinished (n := 4) (by decide +kernel)]
    decide +kernel
  obtain ⟨_, hevents⟩ := reported_depth _ _ _ _ hmem
  obtain ⟨hcursor, _, hdepth⟩ := hevents 3 mem_newEvents_return.1
  exact ⟨hmem, hcursor, hdepth⟩

/-- The operands of a `RETURN` are not taken off the reported depth. -/
theorem return_keeps_operands :
    ¬ ∀ n pc next op depth,
      .instr pc next op depth ∈ newEvents #[0x5F, 0x5F, 0xF3] JumpTables.empty {} TraceMask.all n →
        depth = (traversalAfter #[0x5F, 0x5F, 0xF3] JumpTables.empty {} TraceMask.all n).stack.depth
          - op.stackIn + op.stackOut := by
  intro hall
  obtain ⟨hmem, hdepth⟩ := mem_newEvents_return
  have hreported := hall 3 2 3 .ret 2 hmem
  rw [hdepth] at hreported
  cases hreported

end Verifications

end StackMachine
