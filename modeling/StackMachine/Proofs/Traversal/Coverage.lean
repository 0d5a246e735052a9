import StackMachine.Proofs.Traversal.Ledger

namespace StackMachine.Traversal

open Exploration

variable {code : Code} {tables : JumpTables} {pc q : Nat} {t u : Traversal} {m : DepthMemo}
  {i : Instr}

/-- The start, or an offset behind a visited instruction that does not always jump away. -/
def Due (code : Code) (m : DepthMemo) (pc : Nat) : Prop :=
  pc = 0 ∨ ∃ q i, decodeAt code q = .ok i ∧ i.opcode.role ≠ .jump ∧ i.next = pc ∧ m.Holds q

def Pending (t : Traversal) (pc : Nat) : Prop := t.cursor = .running pc ∨ ∃ k ∈ t.work, k.pc = pc

/-- Nothing is left to look at: the instruction was executed, or the code ends. -/
def Passed (code : Code) (t : Traversal) (pc : Nat) : Prop :=
  code.size ≤ pc ∨ pc ∈ instrPcs t.log

def Heeds (code : Code) (t : Traversal) : Prop :=
  t.Alive → ∀ pc, Due code t.memo pc → Pending t pc ∨ Passed code t pc

theorem due_record {depth : Nat} (hd : decodeAt code pc = .ok i)
    (hdue : Due code (m.record pc depth) q) :
    Due code m q ∨ i.opcode.role ≠ .jump ∧ i.next = q := by
  obtain rfl | ⟨p, j, hj, hrole, rfl, hholds⟩ := hdue
  · exact .inl (.inl rfl)
  by_cases hp : p = pc
  · subst hp
    obtain rfl := decodeAt_unique hd hj
    exact .inr ⟨hrole, rfl⟩
  · rw [DepthMemo.Holds, DepthMemo.get?_record_of_ne hp] at hholds
    exact .inl (.inr ⟨p, j, hj, hrole, rfl, hholds⟩)

namespace Stepped

variable (h : Stepped (Setting.full code tables) t pc u)

include h

theorem instrPcs_subset : instrPcs t.log ⊆ instrPcs u.log := by
  cases h with
  | runOff | malformed | haltRefused | revisited | conflict | underflow | overflow
  | branchRefused => exact List.Subset.refl _
  | halted | jumpRefused | jumpedStatic | jumpedListed | branched | marked | computed =>
    exact List.subset_cons_self _ _

theorem work_subset : t.work ⊆ u.work := by
  cases h with
  | runOff | malformed | haltRefused | halted | revisited | conflict | underflow | overflow
  | jumpRefused | branchRefused | jumpedStatic | marked | computed => exact List.Subset.refl _
  | jumpedListed | branched => exact List.subset_append_right _ _

theorem passed (halive : u.Alive) (hseen : t.memo.Holds pc → pc ∈ instrPcs t.log)
    (hsize : t.memo.cells.size = code.size) : Passed code u pc := by
  cases h with
  | runOff hend => exact .inl hend
  | malformed | haltRefused | conflict | underflow | overflow | jumpRefused | branchRefused =>
    exact absurd rfl (halive _)
  | revisited hd _ hvisit =>
    have hget := DepthMemo.get?_of_visit_again (hsize ▸ lt_size_of_decodeAt hd) hvisit
    refine .inr (hseen ?_)
    rw [DepthMemo.Holds, hget]
    exact Option.some_ne_none _
  | halted hd =>
    obtain rfl := decodeAt_offset hd
    exact .inr List.mem_cons_self
  | jumpedStatic hruns | jumpedListed hruns | branched hruns | marked hruns | computed hruns =>
    obtain rfl := decodeAt_offset hruns.decodes
    exact .inr List.mem_cons_self

/-- What becomes due by a step is the next instruction, and the path goes on there. -/
theorem due_or_running (halive : u.Alive) (hdue : Due code u.memo q) :
    Due code t.memo q ∨ u.cursor = .running q := by
  cases h with
  | runOff | halted | revisited => exact .inl hdue
  | malformed | haltRefused | conflict | underflow | overflow | jumpRefused | branchRefused =>
    exact absurd rfl (halive _)
  | jumpedStatic hruns hrole | jumpedListed hruns hrole =>
    exact .inl ((due_record hruns.decodes hdue).resolve_right fun hnext => hnext.1 hrole)
  | branched hruns | marked hruns | computed hruns =>
    exact (due_record hruns.decodes hdue).imp_right fun hnext => congrArg Cursor.running hnext.2

theorem heeds (hcursor : t.cursor = .running pc)
    (hseen : t.memo.Holds pc → pc ∈ instrPcs t.log) (hsize : t.memo.cells.size = code.size)
    (hheeds : Heeds code t) : Heeds code u := by
  intro halive q hdue
  obtain hold | hrun := h.due_or_running halive hdue
  · obtain (hq | ⟨k, hk, rfl⟩) | hpassed := hheeds (alive_of_running hcursor) q hold
    · obtain rfl := Cursor.running.inj (hcursor.symm.trans hq)
      exact .inr (h.passed halive hseen hsize)
    · exact .inl (.inr ⟨k, h.work_subset hk, rfl⟩)
    · exact .inr (hpassed.imp_right fun hmem => h.instrPcs_subset hmem)
  · exact .inl (.inl hrun)

end Stepped

theorem heeds_begin {k : Task} {rest : List Task} (hcursor : t.cursor = .idle)
    (hperm : (k :: rest).Perm t.work) (hheeds : Heeds code t) :
    Heeds code (Traversal.begin (Setting.full code tables) k { t with work := rest }) := by
  intro halive q hdue
  obtain ⟨hmemo, hwork, hcases⟩ := begin_cases (Setting.full code tables) k { t with work := rest }
  rw [hmemo] at hdue
  have hrun := hcases.resolve_right fun ⟨e, hrej⟩ => halive _ hrej
  obtain (hq | ⟨k', hk', rfl⟩) | hpassed := hheeds (alive_of_idle hcursor) q hdue
  · rw [hcursor] at hq
    cases hq
  · obtain rfl | hrest := List.mem_cons.mp (hperm.mem_iff.mpr hk')
    · exact .inl (.inl hrun)
    · exact .inl (.inr ⟨k', hwork ▸ hrest, rfl⟩)
  · refine .inr (hpassed.imp_right fun hmem => ?_)
    unfold Traversal.begin
    split
    · exact hmem
    · exact hmem

section Run

variable (hcode : code.size ≤ maxOffset) (scheduler : Scheduler) (stackLimit n : Nat)

include hcode

theorem ledger_stateAfter : Ledger (Setting.full code tables)
    (stateAfter (Setting.full code tables) scheduler stackLimit (n + 1)) := by
  have hs : Analysed ((Setting.full code tables).subject (min stackLimit stackCapacity)) :=
    ⟨rfl, hcode⟩
  induction n with
  | zero => exact ledger_step_start scheduler stackLimit
  | succ n ih =>
    rw [stateAfter, Function.iterate_succ_apply', ← stateAfter]
    exact ih.step hs scheduler (consistent_stateAfter hs scheduler (n + 1))

theorem heeds_stateAfter :
    Heeds code (stateAfter (Setting.full code tables) scheduler stackLimit n) := by
  have hs : Analysed ((Setting.full code tables).subject (min stackLimit stackCapacity)) :=
    ⟨rfl, hcode⟩
  induction n with
  | zero =>
    rintro - q (rfl | ⟨p, _, _, _, _, hholds⟩)
    · exact .inl (.inr ⟨⟨0, 0⟩, List.mem_singleton.mpr rfl, rfl⟩)
    · exact absurd (DepthMemo.get?_new _ _) hholds
  | succ n ih =>
    have hmoved := moved_stateAfter hs scheduler n
    generalize stateAfter (Setting.full code tables) scheduler stackLimit (n + 1) = u at hmoved ⊢
    cases hmoved with
    | ended => exact ih
    | begun hcursor hperm => exact heeds_begin hcursor hperm ih
    | stepped hcursor hstep =>
      -- The first step begins the only task; from then on there is a ledger.
      cases n with
      | zero => cases hcursor
      | succ n =>
        have hledger : Ledger (Setting.full code tables)
            (stateAfter (Setting.full code tables) scheduler stackLimit (n + 1)) :=
          ledger_stateAfter hcode scheduler stackLimit n
        have hsize := (sane_stateAfter hs scheduler (n + 1)).size_eq
        exact hstep.heeds hcursor (hledger.executed (alive_of_running hcursor) _) hsize ih

end Run

theorem mem_instrPcs_of_due (hcode : code.size ≤ maxOffset) {scheduler : Scheduler}
    {stackLimit : Nat} (hverdict : ((start stackLimit code.size).run (Setting.full code tables)
      scheduler).verdict = .ok m) (hdue : Due code m pc) (hlt : pc < code.size) :
    pc ∈ instrPcs
      ((start stackLimit code.size).run (Setting.full code tables) scheduler).log := by
  obtain ⟨n, hdone, hrun⟩ :=
    exists_run_eq_iterate scheduler (Setting.full code tables) (start stackLimit code.size)
  obtain ⟨halive, rfl⟩ := verdict_eq_ok_iff.mp hverdict
  rw [hrun] at halive hdue ⊢
  obtain ⟨hidle, hwork⟩ := halive.idle_of_isFinished hdone
  have hheeds : Heeds code (stateAfter (Setting.full code tables) scheduler stackLimit n) :=
    heeds_stateAfter hcode scheduler stackLimit n
  obtain (hq | ⟨k, hk, _⟩) | hend | hmem := hheeds halive pc hdue
  · exact absurd (hidle.symm.trans hq) nofun
  · exact absurd (hwork ▸ hk) List.not_mem_nil
  · exact absurd hlt (Nat.not_lt.mpr hend)
  · exact hmem

end StackMachine.Traversal
