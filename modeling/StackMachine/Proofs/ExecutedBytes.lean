import StackMachine.Proofs.CodeEnd
import StackMachine.Proofs.LayoutAgreement
import StackMachine.Proofs.LinearWork
import StackMachine.Proofs.Lockstep
import StackMachine.Proofs.Traversal.Coverage

namespace StackMachine

open Exploration Traversal

variable {code code' : Code} {tables : JumpTables} {cfg : Config} {v : VerifiedCode} {σ : State}
  {pc : Nat} {i : Instr}

section Events

theorem exists_event_of_mem_instrPcs {events : List Event} (h : pc ∈ instrPcs events) :
    ∃ next op depth, .instr pc next op depth ∈ events := by
  obtain ⟨e, hmem, he⟩ := List.mem_filterMap.mp h
  cases e with
  | instr pc next op depth =>
    obtain rfl := Option.some.inj he
    exact ⟨next, op, depth, hmem⟩
  | runStart | block | jump | runEnd => cases he

theorem decodes_of_event {next depth : Nat} {op : Opcode}
    (h : .instr pc next op depth ∈ allEvents code tables cfg) :
    ∃ i, decodeAt code pc = .ok i ∧ i.next = next ∧ i.opcode = op := by
  obtain ⟨hle, hlog⟩ := mem_log_of_instr_mem h
  obtain ⟨n, htraverse⟩ := exists_traverse_eq code tables cfg TraceMask.all
  rw [htraverse] at hlog
  obtain ⟨i, hi, rfl, hnext, hop⟩ :=
    inLayout_stateAfter (analysed_of_le hle) Scheduler.newest n _ hlog
  obtain ⟨q, _, _, hd⟩ := (mem_layout_iff (size_le_of_lengthBound hle)).mp hi
  rw [decodeAt_offset hd]
  exact ⟨i, hd, hnext, hop⟩

theorem mem_instrPcs_of_reachable (h : verifyOwned code tables cfg = .ok v)
    (hσ : Reachable (subjectOf code tables cfg) σ) (hlt : σ.pc < code.size) :
    σ.pc ∈ instrPcs (allEvents code tables cfg) := by
  obtain ⟨hle, haccounts⟩ := accounts_of_verifyOwned h
  obtain ⟨m, hverdict, hdepth⟩ := verdict_of_verifyOwned h
  have hcode := size_le_of_lengthBound hle
  have hs : Analysed (subjectOf code tables cfg) := analysed_subject hcode
  have hholds {ρ : State} (hρ : Reachable (subjectOf code tables cfg) ρ)
      (hrec : Recorded code ρ.pc) : m.Holds ρ.pc := by
    have hget := (haccounts.get?_iff ρ.pc ρ.depth).mpr ⟨hrec, ρ, hρ, rfl, rfl⟩
    rw [DepthMemo.Holds, ← hdepth, VerifiedCode.depthAt?, hget]
    exact Option.some_ne_none _
  rw [instrPcs_allEvents hle, List.mem_reverse]
  -- A `JUMPDEST` is in the memo itself; what comes behind an instruction is due.
  cases hσ with
  | start => exact mem_instrPcs_of_due hcode hverdict (.inl rfl) hlt
  | @step ρ _ hρ hstep =>
    obtain hdest | ⟨i, hexec, hrole, rfl⟩ := hstep.isJumpDest_or_next hs
    · have hledger : Ledger (Setting.full code tables) (traverse code tables cfg TraceMask.all) :=
        ledger_run hcode Scheduler.newest cfg.stackLimit
      obtain ⟨halive, rfl⟩ := verdict_eq_ok_iff.mp hverdict
      obtain ⟨i, hd, hop⟩ := decodeAt_of_jumpdest hcode (marked_of_isJumpDest hdest)
      have hrec : Recorded code σ.pc := ⟨i, hd, by rw [hop]; rfl⟩
      exact hledger.executed halive _ (hholds (hρ.step hstep) hrec)
    · rw [pc_arrive] at hlt ⊢
      have hrec : Recorded code ρ.pc := ⟨i, hexec.decodes, hexec.not_terminator⟩
      exact mem_instrPcs_of_due hcode hverdict
        (.inr ⟨ρ.pc, i, hexec.decodes, hrole, rfl, hholds hρ hrec⟩) hlt

/-- Every reachable instruction of accepted code is executed. -/
theorem executed_of_reachable (h : verifyOwned code tables cfg = .ok v)
    (hσ : Reachable (subjectOf code tables cfg) σ) (hlt : σ.pc < code.size) :
    ∃ i depth, decodeAt code σ.pc = .ok i ∧
      .instr σ.pc i.next i.opcode depth ∈ allEvents code tables cfg := by
  obtain ⟨next, op, depth, hevent⟩ :=
    exists_event_of_mem_instrPcs (mem_instrPcs_of_reachable h hσ hlt)
  obtain ⟨i, hd, rfl, rfl⟩ := decodes_of_event hevent
  exact ⟨i, depth, hd, hevent⟩

end Events

section Replacement

theorem resolve_of_accepted {t : Traversal} (h : verifyOwned code tables cfg = .ok v)
    (hdests : ∀ pc next depth, .instr pc next .jumpdest depth ∈ allEvents code tables cfg →
      (JumpDests.ofCode code').isValid pc = true)
    (hσ : Reachable (subjectOf code tables cfg) (t.view code pc))
    (hd : decodeAt code pc = .ok i) (hjumps : Jumps i.opcode) :
    Setting.resolve (.of code' tables TraceMask.none) pc t.target =
      Setting.resolve (.of code tables TraceMask.none) pc t.target := by
  obtain ⟨hle, haccounts⟩ := accounts_of_verifyOwned h
  have hs : Analysed (subjectOf code tables cfg) := analysed_subject (size_le_of_lengthBound hle)
  have hterm : i.opcode.isTerminator = false := by
    obtain hrole | hrole := hjumps
    · rw [Opcode.role_eq_jump_iff.mp hrole]
      rfl
    · rw [Opcode.role_eq_branch_iff.mp hrole]
      rfl
  have hd' : decodeAt (subjectOf code tables cfg).code (t.view code pc).pc = .ok i := by
    rw [pc_view]
    exact hd
  obtain ⟨hexec, hgood⟩ :=
    executes_of_faultless hd' hterm fun kind => haccounts.faultless _ kind hσ
  have hneeds : i.opcode.stackIn ≤ t.stack.depth := by
    rw [← depth_view code pc t]
    exact hexec.needs
  have htargets : targetsAt (subjectOf code tables cfg) (t.view code pc) =
      (subjectOf code tables cfg).targets pc (.ofSlot t.target) :=
    targetsAt_view (g := .of code tables TraceMask.none) hd hneeds hjumps
  -- In accepted code the jump has targets, so that only a route is left to look at.
  cases hres : Setting.resolve (.of code tables TraceMask.none) pc t.target with
  | error x =>
    exact absurd (htargets.trans (targets_of_resolve_error _ hres).1) (hgood hjumps)
  | ok route =>
    refine resolve_of_valid ?_ hres fun dst hdst => ?_
    · rfl
    have hdest : IsJumpDest code dst :=
      isJumpDest_of_resolve (g := .of code tables TraceMask.none) hs hres dst hdst
    rw [← (targets_of_resolve_ok (min cfg.stackLimit stackCapacity) hres).1] at hdst
    have hτ := hσ.step (.jump hexec hjumps (htargets ▸ hdst))
    obtain ⟨j, depth, hj, hevent⟩ := executed_of_reachable h hτ hdest.lt_size
    rw [(marked_iff hj).mp (marked_of_isJumpDest hdest)] at hevent
    exact hdests dst j.next depth hevent

/-- Code with the same bytes in place of the executed ones is accepted with the same depths. -/
theorem verifyOwned_of_executed (h : verifyOwned code tables cfg = .ok v)
    (hlen : code'.size ≤ cfg.lengthBound)
    (hsize : code'.size = code.size ∨ code.size < code'.size ∧ Closed code)
    (hbytes : ∀ pc next op depth, .instr pc next op depth ∈ allEvents code tables cfg →
      ∀ k, pc ≤ k → k < next → code'[k]? = code[k]?)
    (hdests : ∀ pc next depth, .instr pc next .jumpdest depth ∈ allEvents code tables cfg →
      (JumpDests.ofCode code').isValid pc = true) :
    ∃ v', verifyOwned code' tables cfg = .ok v' ∧ ∀ pc, v'.depthAt? pc = v.depthAt? pc := by
  obtain ⟨hle, _⟩ := accounts_of_verifyOwned h
  have hs : Analysed (subjectOf code tables cfg) := analysed_subject (size_le_of_lengthBound hle)
  have hsame : SameFindings (verifyOwned code tables cfg) (verifyOwned code' tables cfg) := by
    refine sameFindings_of_alike hle hlen (by omega) fun t pc hσ => ?_
    by_cases hlt : pc < code.size
    · obtain ⟨i, depth, hd, hevent⟩ := executed_of_reachable h hσ (by rwa [pc_view])
      rw [pc_view] at hd hevent
      exact .decodes hd (decodeAt_congr hd (hbytes pc i.next i.opcode depth hevent))
        (resolve_of_accepted h hdests hσ hd)
    -- No path gets to the end of closed code, so it does not matter what is there.
    · obtain heq | ⟨_, hclosed⟩ := hsize
      · exact .ends (Nat.le_of_not_lt hlt) (heq ▸ Nat.le_of_not_lt hlt)
      · have hbefore := hclosed.lt_size hs hσ
        rw [pc_view] at hbefore
        exact absurd hbefore hlt
  rw [h] at hsame
  exact hsame.exists_of_ok

theorem verifyOwned_of_executed_jump :
    (∀ pc next op depth, .instr pc next op depth ∈
        allEvents #[0x60, 0x04, 0x56, 0xFE, 0x5B, 0x00] JumpTables.empty {} →
      ∀ k, pc ≤ k → k < next → (#[0x60, 0x04, 0x56, 0x5B, 0x5B, 0x00, 0x60] : Code)[k]? =
        (#[0x60, 0x04, 0x56, 0xFE, 0x5B, 0x00] : Code)[k]?) ∧
      ∃ v v', verifyOwned #[0x60, 0x04, 0x56, 0xFE, 0x5B, 0x00] JumpTables.empty {} = .ok v ∧
        verifyOwned #[0x60, 0x04, 0x56, 0x5B, 0x5B, 0x00, 0x60] JumpTables.empty {} = .ok v' ∧
        ∀ pc, v'.depthAt? pc = v.depthAt? pc := by
  have hdone : (traversalAfter #[0x60, 0x04, 0x56, 0xFE, 0x5B, 0x00] JumpTables.empty {}
      TraceMask.all 6).isFinished = true := by decide +kernel
  have hlog : (traversalAfter #[0x60, 0x04, 0x56, 0xFE, 0x5B, 0x00] JumpTables.empty {}
      TraceMask.all 6).log =
      [.instr 5 6 .stop 0, .instr 4 5 .jumpdest 0, .block 4 0, .jump 2 (.static 4),
        .instr 2 3 .jump 0, .instr 0 2 (.push 1) 1, .block 0 0] := by decide +kernel
  have hevents (pc next : Nat) (op : Opcode) (depth : Nat) (h : .instr pc next op depth ∈
      allEvents #[0x60, 0x04, 0x56, 0xFE, 0x5B, 0x00] JumpTables.empty {}) :
      (next ≤ 3 ∨ 3 < pc) ∧ next ≤ 6 ∧ (op = .jumpdest → pc = 4) := by
    have hmem := (mem_log_of_instr_mem h).2
    rw [traverse_eq_of_isFinished hdone, hlog] at hmem
    simp only [List.mem_cons, Event.instr.injEq, reduceCtorEq, List.not_mem_nil, or_false,
      false_or] at hmem
    obtain ⟨rfl, rfl, rfl, _⟩ | ⟨rfl, rfl, rfl, _⟩ | ⟨rfl, rfl, rfl, _⟩ | ⟨rfl, rfl, rfl, _⟩ :=
      hmem <;> decide
  have hsame : ∀ k < 6, k ≠ 3 → (#[0x60, 0x04, 0x56, 0x5B, 0x5B, 0x00, 0x60] : Code)[k]? =
      (#[0x60, 0x04, 0x56, 0xFE, 0x5B, 0x00] : Code)[k]? := by decide
  have hclosed : Closed #[0x60, 0x04, 0x56, 0xFE, 0x5B, 0x00] := by
    refine ⟨⟨5, .stop, [], 6⟩, ?_, .inl rfl⟩
    decide +kernel
  have hbytes (pc next : Nat) (op : Opcode) (depth : Nat) (h : .instr pc next op depth ∈
      allEvents #[0x60, 0x04, 0x56, 0xFE, 0x5B, 0x00] JumpTables.empty {}) (k : Nat)
      (hk : pc ≤ k) (hk' : k < next) :
      (#[0x60, 0x04, 0x56, 0x5B, 0x5B, 0x00, 0x60] : Code)[k]? =
        (#[0x60, 0x04, 0x56, 0xFE, 0x5B, 0x00] : Code)[k]? := by
    obtain ⟨haround, hle, _⟩ := hevents pc next op depth h
    exact hsame k (by omega) (by omega)
  have hvalid : (JumpDests.ofCode #[0x60, 0x04, 0x56, 0x5B, 0x5B, 0x00, 0x60]).isValid 4 =
      true := by decide +kernel
  obtain ⟨v, hv⟩ := exists_ok_of_endsAccepted 6 (by decide)
    (show endsAccepted #[0x60, 0x04, 0x56, 0xFE, 0x5B, 0x00] JumpTables.empty {} 6 = true by
      decide +kernel)
  obtain ⟨v', hv', hdepth⟩ := verifyOwned_of_executed hv (by decide) (.inr ⟨by decide, hclosed⟩)
    hbytes fun pc next depth h => (hevents pc next .jumpdest depth h).2.2 rfl ▸ hvalid
  exact ⟨hbytes, v, v', hv, hv', hdepth⟩

end Replacement

end StackMachine
