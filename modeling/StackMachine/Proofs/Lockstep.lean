import StackMachine.Proofs.Agreement
import StackMachine.Proofs.Traversal.Arrivals

namespace StackMachine

/-- A memo with the same depths, and maybe with room for more offsets. -/
structure DepthMemo.Extends (m' m : DepthMemo) : Prop where
  size_le : m.cells.size ≤ m'.cells.size
  get?_eq : ∀ pc, m'.get? pc = m.get? pc

namespace DepthMemo.Extends

variable {m m' : DepthMemo} {pc : Nat}

theorem visit_eq (h : m'.Extends m) (hlt : pc < m.cells.size) (depth : Nat) :
    m'.visit pc depth = m.visit pc depth := by
  rw [visit_of_lt hlt, visit_of_lt (Nat.lt_of_lt_of_le hlt h.size_le), h.get?_eq]

theorem record (h : m'.Extends m) (hlt : pc < m.cells.size) (depth : Nat) :
    (m'.record pc depth).Extends (m.record pc depth) where
  size_le := by
    rw [size_record, size_record]
    exact h.size_le
  get?_eq q := by
    by_cases hq : q = pc
    · rw [hq, get?_record_of_lt hlt, get?_record_of_lt (Nat.lt_of_lt_of_le hlt h.size_le)]
    · rw [get?_record_of_ne hq, get?_record_of_ne hq]
      exact h.get?_eq q

end DepthMemo.Extends

namespace Traversal

open Exploration

variable {g g' : Setting} {t t' : Traversal} {pc : Nat} {i : Instr}

/-- The traversals differ at most in their logs and in the size of their memos. -/
structure Matches (t t' : Traversal) : Prop where
  cursor_eq : t'.cursor = t.cursor
  stack_eq : t'.stack = t.stack
  work_eq : t'.work = t.work
  memo : t'.memo.Extends t.memo

/-- The step of `t` at `pc` is the same in both settings. The one code may end where the other has
an instruction that halts without fail. -/
inductive Alike (g g' : Setting) (t : Traversal) (pc : Nat) : Prop where
  | ends : g.code.size ≤ pc → g'.code.size ≤ pc → Alike g g' t pc
  | halts {i : Instr} : g.code.size ≤ pc → decodeAt g'.code pc = .ok i →
      i.opcode.isTerminator = true → i.opcode.stackIn = 0 → Alike g g' t pc
  | fails {e : DecodeError} : pc < g.code.size → pc < g'.code.size →
      decodeAt g.code pc = .error e → decodeAt g'.code pc = .error e → Alike g g' t pc
  | decodes {i : Instr} : decodeAt g.code pc = .ok i → decodeAt g'.code pc = .ok i →
      (Jumps i.opcode → g'.resolve pc t.target = g.resolve pc t.target) → Alike g g' t pc

namespace Matches

theorem reject (h : Matches t t') (e : VerifyError) : Matches (t.reject e) (t'.reject e) :=
  ⟨rfl, h.stack_eq, h.work_eq, h.memo⟩

theorem leave (h : Matches t t') : Matches t.leave t'.leave :=
  ⟨rfl, h.stack_eq, h.work_eq, h.memo⟩

theorem jump (h : Matches t t')
    (hres : g'.resolve i.offset t.target = g.resolve i.offset t.target) :
    Matches (t.jump g i) (t'.jump g' i) := by
  unfold Traversal.jump
  rw [h.stack_eq, SymbolicStack.pop]
  have htarget : t.stack.read (t.stack.depth - 1) = t.target := rfl
  cases hneeds : t.stack.shortage? 1 with
  | some e => exact h.reject _
  | none =>
    simp only [htarget, hres]
    cases g.resolve i.offset t.target with
    | error x => exact ⟨rfl, rfl, h.work_eq, h.memo⟩
    | ok route =>
      cases route with
      | static dst => exact ⟨rfl, rfl, h.work_eq, h.memo⟩
      | listed dsts => exact ⟨rfl, rfl, congrArg (_ ++ ·) h.work_eq, h.memo⟩

theorem branch (h : Matches t t')
    (hres : g'.resolve i.offset t.target = g.resolve i.offset t.target) :
    Matches (t.branch g i) (t'.branch g' i) := by
  unfold Traversal.branch
  rw [h.stack_eq]
  have htarget : t.stack.read (t.stack.depth - 1) = t.target := rfl
  cases hneeds : t.stack.shortage? 2 with
  | some e => exact h.reject _
  | none =>
    simp only [htarget, hres]
    cases g.resolve i.offset t.target with
    | error x => exact h.reject _
    | ok route => exact ⟨rfl, rfl, congrArg (_ ++ ·) h.work_eq, h.memo⟩

theorem execute (h : Matches t t')
    (hres : Jumps i.opcode → g'.resolve i.offset t.target = g.resolve i.offset t.target) :
    Matches (t.execute g i) (t'.execute g' i) := by
  unfold Traversal.execute
  cases hrole : i.opcode.role with
  | jump => exact h.jump (hres (.inl hrole))
  | branch => exact h.branch (hres (.inr hrole))
  | mark => exact ⟨rfl, congrArg SymbolicStack.enterBlock h.stack_eq, h.work_eq, h.memo⟩
  | compute a =>
    simp only [h.stack_eq]
    cases t.stack.obstacle? a with
    | some e => exact h.reject _
    | none => exact ⟨rfl, rfl, h.work_eq, h.memo⟩

theorem arrive (h : Matches t t') (hlt : i.offset < t.memo.cells.size)
    (hres : Jumps i.opcode → g'.resolve i.offset t.target = g.resolve i.offset t.target) :
    Matches (t.arrive g i) (t'.arrive g' i) := by
  unfold Traversal.arrive
  rw [h.stack_eq, h.memo.visit_eq hlt]
  cases t.memo.visit i.offset t.stack.depth with
  | first =>
    have hnoted : Matches (t.noted i.offset)
        { t' with stack := t.stack, memo := t'.memo.record i.offset t.stack.depth } :=
      ⟨h.cursor_eq, rfl, h.work_eq, h.memo.record hlt _⟩
    exact hnoted.execute hres
  | again => exact h.leave
  | conflict recorded => exact h.reject _

theorem halt (h : Matches t t') : Matches (t.halt g i) (t'.halt g' i) := by
  unfold Traversal.halt
  rw [h.stack_eq]
  cases t.stack.shortage? i.opcode.stackIn with
  | some e => exact h.reject _
  | none => exact ⟨rfl, h.stack_eq, h.work_eq, h.memo⟩

theorem stepAt (h : Matches t t') (hsize : t.memo.cells.size = g.code.size)
    (halike : Alike g g' t pc) : Matches (t.stepAt g pc) (t'.stepAt g' pc) := by
  unfold Traversal.stepAt
  cases halike with
  | ends hend hend' =>
    rw [if_pos hend, if_pos hend']
    exact h.leave
  | halts hend hd hterm hin =>
    -- The one path runs off the end where the other halts; they differ in the event only.
    rw [if_pos hend, if_neg (Nat.not_le.mpr (lt_size_of_decodeAt hd)), hd]
    simp only [hterm, Traversal.halt, SymbolicStack.shortage?, hin, Nat.not_lt_zero, ↓reduceIte]
    exact ⟨rfl, h.stack_eq, h.work_eq, h.memo⟩
  | fails hlt hlt' he he' =>
    rw [if_neg (Nat.not_le.mpr hlt), if_neg (Nat.not_le.mpr hlt'), he, he']
    exact h.reject _
  | decodes hd hd' hres =>
    obtain rfl := decodeAt_offset hd
    have hlt := lt_size_of_decodeAt hd
    rw [if_neg (Nat.not_le.mpr hlt), if_neg (Nat.not_le.mpr (lt_size_of_decodeAt hd')), hd, hd']
    dsimp only
    split
    · exact h.halt
    · exact h.arrive (hsize ▸ hlt) hres

theorem begin (h : Matches t t') (k : Task) : Matches (t.begin g k) (t'.begin g' k) := by
  unfold Traversal.begin
  rw [h.stack_eq]
  cases t.stack.reset k.depth with
  | error e => exact h.reject _
  | ok stack => exact ⟨rfl, rfl, h.work_eq, h.memo⟩

end Matches

section Run

theorem Matches.isFinished_eq (h : Matches t t') : t'.isFinished = t.isFinished := by
  rw [isFinished, isFinished, h.cursor_eq, h.work_eq]

theorem Matches.step (h : Matches t t') (hsize : t.memo.cells.size = g.code.size)
    (halike : ∀ pc, t.cursor = .running pc → Alike g g' t pc) :
    Matches (t.step g Scheduler.newest) (t'.step g' Scheduler.newest) := by
  have hnewest : Scheduler.newest t' = Scheduler.newest t := rfl
  unfold Traversal.step
  rw [h.cursor_eq, h.work_eq, hnewest]
  cases hcursor : t.cursor with
  | rejected e => exact h
  | running pc => exact h.stepAt hsize (halike pc hcursor)
  | idle =>
    dsimp only
    cases take? (Scheduler.newest t) t.work with
    | none => exact h
    | some taken =>
      obtain ⟨k, rest⟩ := taken
      have hrest : Matches { t with work := rest } { t' with work := rest } :=
        ⟨h.cursor_eq, h.stack_eq, rfl, h.memo⟩
      exact hrest.begin k

theorem matches_start (hle : g.code.size ≤ g'.code.size) (stackLimit : Nat) :
    Matches (start stackLimit g.code.size) (start stackLimit g'.code.size) := by
  refine ⟨rfl, rfl, rfl, ?_, fun pc => ?_⟩
  · simpa [start, DepthMemo.new] using hle
  · exact (DepthMemo.get?_new _ _).trans (DepthMemo.get?_new _ _).symm

variable {stackLimit : Nat} (hs : Analysed (g.subject (min stackLimit stackCapacity)))
  (hle : g.code.size ≤ g'.code.size)
  (halike : ∀ n pc, (stateAfter g Scheduler.newest stackLimit n).cursor = .running pc →
    Alike g g' (stateAfter g Scheduler.newest stackLimit n) pc)

include hs hle halike

theorem matches_stateAfter (n : Nat) :
    Matches (stateAfter g Scheduler.newest stackLimit n)
      (stateAfter g' Scheduler.newest stackLimit n) := by
  induction n with
  | zero => exact matches_start hle stackLimit
  | succ n ih =>
    have hstep := ih.step (sane_stateAfter hs Scheduler.newest n).size_eq (halike n)
    rwa [stateAfter, stateAfter, Function.iterate_succ_apply', Function.iterate_succ_apply']

theorem matches_run : Matches ((start stackLimit g.code.size).run g Scheduler.newest)
    ((start stackLimit g'.code.size).run g' Scheduler.newest) := by
  obtain ⟨n, hdone, hrun⟩ :=
    exists_run_eq_iterate Scheduler.newest g (start stackLimit g.code.size)
  have hmatches := matches_stateAfter hs hle halike n
  have hdone' : (stateAfter g' Scheduler.newest stackLimit n).isFinished = true :=
    hmatches.isFinished_eq.trans hdone
  rw [hrun, run_eq_iterate Scheduler.newest hdone']
  exact hmatches

end Run

section Resolution

variable {v : SlotValue} (htables : g'.tables = g.tables)

include htables

theorem resolve_congr (hvalid : ∀ o, g'.jumpDests.isValid o = g.jumpDests.isValid o) :
    g'.resolve pc v = g.resolve pc v := by
  unfold Setting.resolve
  simp only [htables, hvalid]

theorem resolve_of_valid {route : Setting.Route} (h : g.resolve pc v = .ok route)
    (hvalid : ∀ dst ∈ route.destinations, g'.jumpDests.isValid dst = true) :
    g'.resolve pc v = .ok route := by
  unfold Setting.resolve at h ⊢
  rw [htables]
  cases v with
  | constant c =>
    cases hvalue : c.value with
    | none => simp [hvalue] at h
    | some dst =>
      simp only [hvalue] at h ⊢
      split at h
      · obtain rfl := Except.ok.inj h
        exact if_pos (hvalid dst (List.mem_singleton.mpr rfl))
      · cases h
  | unknown =>
    dsimp only at h ⊢
    split at h
    · cases h
    next hlisted =>
      rw [if_neg hlisted]
      split at h
      · cases h
      · obtain rfl := Except.ok.inj h
        have hnone : (g.tables.lookup pc).destinations.find?
            (fun d => !g'.jumpDests.isValid d.2) = none := by
          refine List.find?_eq_none.mpr fun d hd => ?_
          rw [hvalid d.2 (List.mem_map_of_mem hd)]
          exact Bool.noConfusion
        rw [hnone]

end Resolution

end Traversal

section Verifications

open Exploration Traversal

/-- Both are the same error, or both are acceptances with the same depths. -/
inductive SameFindings :
    Except VerifyError VerifiedCode → Except VerifyError VerifiedCode → Prop where
  | rejected (e : VerifyError) : SameFindings (.error e) (.error e)
  | accepted {v v' : VerifiedCode} : (∀ pc, v'.depthAt? pc = v.depthAt? pc) →
      SameFindings (.ok v) (.ok v')

variable {code code' : Code} {tables : JumpTables} {cfg : Config}

namespace SameFindings

theorem verify_eq (h : SameFindings (verifyOwned code tables cfg) (verifyOwned code' tables cfg)) :
    verify code' tables cfg = verify code tables cfg := by
  rw [verify_eq_map, verify_eq_map]
  generalize verifyOwned code tables cfg = x at h ⊢
  generalize verifyOwned code' tables cfg = x' at h ⊢
  cases h <;> rfl

theorem exists_of_ok {x' : Except VerifyError VerifiedCode} {v : VerifiedCode}
    (h : SameFindings (.ok v) x') :
    ∃ v', x' = .ok v' ∧ ∀ pc, v'.depthAt? pc = v.depthAt? pc := by
  cases h with
  | accepted hdepth => exact ⟨_, rfl, hdepth⟩

theorem depthAt?_eq {x x' : Except VerifyError VerifiedCode} (h : SameFindings x x')
    {v v' : VerifiedCode} (hv : x = .ok v) (hv' : x' = .ok v') (pc : Nat) :
    v'.depthAt? pc = v.depthAt? pc := by
  cases h with
  | rejected => cases hv
  | accepted hdepth =>
    obtain rfl := Except.ok.inj hv
    obtain rfl := Except.ok.inj hv'
    exact hdepth pc

end SameFindings

/-- The same is found if every step from a reachable state is the same. -/
theorem sameFindings_of_alike (hle : code.size ≤ cfg.lengthBound)
    (hle' : code'.size ≤ cfg.lengthBound) (hsize : code.size ≤ code'.size)
    (halike : ∀ t pc, Reachable (subjectOf code tables cfg) (t.view code pc) →
      Alike (.of code tables TraceMask.none) (.of code' tables TraceMask.none) t pc) :
    SameFindings (verifyOwned code tables cfg) (verifyOwned code' tables cfg) := by
  have hs : Analysed ((Setting.of code tables TraceMask.none).subject
      (min cfg.stackLimit stackCapacity)) := analysed_subject (size_le_of_lengthBound hle)
  have hmatches : Matches (traverse code tables cfg TraceMask.none)
      (traverse code' tables cfg TraceMask.none) := by
    unfold traverse
    exact matches_run hs hsize fun n pc hcursor =>
      halike _ pc (reachable_of_running hs Scheduler.newest hcursor)
  rw [verifyOwned_of_le hle, verifyOwned_of_le hle', verdict, verdict, hmatches.cursor_eq]
  cases (traverse code tables cfg TraceMask.none).cursor with
  | rejected e => exact .rejected e
  | idle => exact .accepted hmatches.memo.get?_eq
  | running => exact .accepted hmatches.memo.get?_eq

end Verifications

end StackMachine
