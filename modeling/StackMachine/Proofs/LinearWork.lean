import StackMachine.Proofs.Agreement
import StackMachine.Proofs.Traversal.Ledger

namespace StackMachine

open Exploration Traversal

variable {code : Code} {tables : JumpTables} {cfg : Config}

def allEvents (code : Code) (tables : JumpTables) (cfg : Config) : List Event :=
  (verifyTraced code tables cfg TraceMask.all).2

section Events

theorem allEvents_of_lt (tables : JumpTables) (h : cfg.lengthBound < code.size) : ∃ error,
    allEvents code tables cfg = [.runStart code.size tables.size, .runEnd error] := by
  rw [allEvents, verifyTraced_of_lt h]
  exact ⟨_, rfl⟩

theorem allEvents_of_le (tables : JumpTables) (h : code.size ≤ cfg.lengthBound) : ∃ outcome,
    allEvents code tables cfg = .runStart code.size tables.size ::
      ((traverse code tables cfg TraceMask.all).log.reverse ++ [.runEnd outcome]) := by
  rw [allEvents, verifyTraced_of_le h]
  exact ⟨_, congrArg (_ :: ·) (List.reverse_cons ..)⟩

theorem instrPcs_allEvents (h : code.size ≤ cfg.lengthBound) :
    instrPcs (allEvents code tables cfg) =
      (instrPcs (traverse code tables cfg TraceMask.all).log).reverse := by
  obtain ⟨outcome, hevents⟩ := allEvents_of_le tables h
  rw [hevents]
  simp [instrPcs, List.filterMap_cons, List.filterMap_reverse, Event.instrPc?]

theorem jumpPcs_allEvents (h : code.size ≤ cfg.lengthBound) :
    jumpPcs (allEvents code tables cfg) =
      (jumpPcs (traverse code tables cfg TraceMask.all).log).reverse := by
  obtain ⟨outcome, hevents⟩ := allEvents_of_le tables h
  rw [hevents]
  simp [jumpPcs, List.filterMap_cons, List.filterMap_reverse, Event.jumpPc?]

theorem blockCount_allEvents (h : code.size ≤ cfg.lengthBound) :
    blockCount (allEvents code tables cfg) =
      blockCount (traverse code tables cfg TraceMask.all).log := by
  obtain ⟨outcome, hevents⟩ := allEvents_of_le tables h
  rw [hevents]
  simp [blockCount, Event.isBlock]

end Events

theorem allowance_le (tables : JumpTables) {jumps : List Nat} (h : jumps.Nodup) :
    allowance tables jumps ≤ 2 * jumps.length + tables.size :=
  Nat.add_le_add_left (tables.sum_lookup_size_le h) _

section Accepted

variable {v : VerifiedCode}

theorem verdict_of_verifyOwned (h : verifyOwned code tables cfg = .ok v) : ∃ m,
    (traverse code tables cfg TraceMask.all).verdict = .ok m ∧
      ∀ pc, v.depthAt? pc = m.get? pc := by
  obtain ⟨hle, haccounts⟩ := accounts_of_verifyOwned h
  have hcode := size_le_of_lengthBound hle
  cases hverdict : (traverse code tables cfg TraceMask.all).verdict with
  | error e =>
    have hexplained : Explained (subjectOf code tables cfg) e :=
      explained_of_verdict (g := Setting.full code tables) hcode rfl hverdict
    exact absurd hexplained (haccounts.not_explained e)
  | ok m =>
    have haccounts' : Accounts (subjectOf code tables cfg) m :=
      accounts_of_verdict (g := Setting.full code tables) hcode rfl hverdict
    exact ⟨m, rfl, haccounts.get?_eq haccounts'⟩

/-- The offsets with a depth are those that were executed, except for the halts. -/
theorem isSome_depthAt?_iff (h : verifyOwned code tables cfg = .ok v) (pc : Nat) :
    (v.depthAt? pc).isSome = true ↔
      Recorded code pc ∧ (instrPcs (allEvents code tables cfg)).count pc = 1 := by
  obtain ⟨hle, haccounts⟩ := accounts_of_verifyOwned h
  have hledger : Ledger (Setting.full code tables) (traverse code tables cfg TraceMask.all) :=
    ledger_run (size_le_of_lengthBound hle) Scheduler.newest cfg.stackLimit
  obtain ⟨m, hverdict, hdepth⟩ := verdict_of_verifyOwned h
  obtain ⟨halive, hmemo⟩ := verdict_eq_ok_iff.mp hverdict
  have hholds : (v.depthAt? pc).isSome = true ↔
      (traverse code tables cfg TraceMask.all).memo.Holds pc := by
    rw [hdepth, hmemo, DepthMemo.Holds, Option.isSome_iff_ne_none]
  rw [instrPcs_allEvents hle, List.count_reverse]
  constructor
  · intro hsome
    obtain ⟨depth, hget⟩ := Option.isSome_iff_exists.mp hsome
    refine ⟨((haccounts.get?_iff pc depth).mp hget).1, ?_⟩
    exact List.count_eq_one_of_mem hledger.logged.instr_nodup
      (hledger.executed halive pc (hholds.mp hsome))
  · rintro ⟨hrec, hcount⟩
    have hmem : pc ∈ instrPcs (traverse code tables cfg TraceMask.all).log :=
      List.count_pos_iff.mp (by omega)
    exact hholds.mpr (hledger.logged.instr_holds pc hmem hrec)

end Accepted

/-- Verification ends. No instruction is executed twice and no jump is resolved twice, whether the
code is accepted or not, and the blocks are bounded by the jumps and the size of the tables. -/
theorem linear_work (code : Code) (tables : JumpTables) (cfg : Config) :
    (traverse code tables cfg TraceMask.all).isFinished = true ∧
      (∃ n, traverse code tables cfg TraceMask.all =
        (Traversal.step (Setting.of code tables TraceMask.all) Scheduler.newest)^[n]
          (Traversal.start cfg.stackLimit code.size)) ∧
      (instrPcs (allEvents code tables cfg)).Nodup ∧
      (jumpPcs (allEvents code tables cfg)).Nodup ∧
      (∀ pc ∈ instrPcs (allEvents code tables cfg), pc < code.size) ∧
      blockCount (allEvents code tables cfg) ≤
        1 + 2 * (jumpPcs (allEvents code tables cfg)).length + tables.size ∧
      ∀ v, verifyOwned code tables cfg = .ok v → ∀ pc, (v.depthAt? pc).isSome = true ↔
        Recorded code pc ∧ (instrPcs (allEvents code tables cfg)).count pc = 1 := by
  obtain ⟨n, hdone, hrun⟩ := exists_run_eq_iterate Scheduler.newest (Setting.full code tables)
    (Traversal.start cfg.stackLimit code.size)
  refine ⟨(congrArg isFinished hrun).trans hdone, ⟨n, hrun⟩, ?_⟩
  by_cases hle : code.size ≤ cfg.lengthBound
  · have hledger : Ledger (Setting.full code tables) (traverse code tables cfg TraceMask.all) :=
      ledger_run (size_le_of_lengthBound hle) Scheduler.newest cfg.stackLimit
    have hlogged := hledger.logged
    rw [blockCount_allEvents hle, jumpPcs_allEvents hle, instrPcs_allEvents hle,
      List.length_reverse]
    refine ⟨List.nodup_reverse.mpr hlogged.instr_nodup, List.nodup_reverse.mpr hlogged.jump_nodup,
      fun pc hpc => hlogged.instr_lt pc (List.mem_reverse.mp hpc), ?_, fun v hv pc => ?_⟩
    · have hblocks := hledger.blocks
      have hallowance := allowance_le tables hlogged.jump_nodup
      change _ ≤ 1 + allowance tables _ at hblocks
      omega
    · rw [← instrPcs_allEvents hle]
      exact isSome_depthAt?_iff hv pc
  -- Code that is too large is refused before anything is executed.
  · have hlt := Nat.lt_of_not_le hle
    obtain ⟨error, hevents⟩ := allEvents_of_lt tables hlt
    rw [hevents]
    refine ⟨List.nodup_nil, List.nodup_nil, nofun, Nat.zero_le _, fun v hv => ?_⟩
    rw [verifyOwned_of_lt hlt] at hv
    cases hv

end StackMachine
