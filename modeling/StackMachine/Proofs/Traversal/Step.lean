import Mathlib.Data.List.Perm.Basic
import Mathlib.Logic.Function.Iterate
import StackMachine.Proofs.DepthMemo
import StackMachine.Proofs.Stack
import StackMachine.Verification.Traversal

namespace StackMachine.Traversal

variable {g : Setting} {t : Traversal} {pc : Nat} {i : Instr}

def noted (pc : Nat) (t : Traversal) : Traversal :=
  { t with memo := t.memo.record pc t.stack.depth }

theorem stack_noted (pc : Nat) (t : Traversal) : (t.noted pc).stack = t.stack := rfl

def popped (n : Nat) (t : Traversal) : Traversal := { t with stack := t.stack.drop n }

def target (t : Traversal) : SlotValue := t.stack.read (t.stack.depth - 1)

/-- The path arrives at an instruction for the first time. -/
structure Arrives (g : Setting) (t : Traversal) (pc : Nat) (i : Instr) : Prop where
  decodes : decodeAt g.code pc = .ok i
  not_terminator : i.opcode.isTerminator = false
  fresh : t.memo.visit pc t.stack.depth = .first

/-- The instruction finds its items, and there is room for its results. -/
structure Runs (g : Setting) (t : Traversal) (pc : Nat) (i : Instr) : Prop
    extends Arrives g t pc i where
  needs : i.opcode.stackIn ≤ t.stack.depth
  room : t.stack.depth - i.opcode.stackIn + i.opcode.stackOut ≤ t.stack.limit

/-- Everything that a step at an offset can do, with its guards and the state it leads to. -/
inductive Stepped (g : Setting) (t : Traversal) (pc : Nat) : Traversal → Prop where
  | runOff : g.code.size ≤ pc → Stepped g t pc t.leave
  | malformed {e : DecodeError} : pc < g.code.size → decodeAt g.code pc = .error e →
      Stepped g t pc (t.reject (.malformedInstruction pc e))
  | haltRefused {i : Instr} : decodeAt g.code pc = .ok i → i.opcode.isTerminator = true →
      t.stack.depth < i.opcode.stackIn →
      Stepped g t pc (t.reject (.stackUnderflow pc t.stack.depth i.opcode.stackIn))
  | halted {i : Instr} : decodeAt g.code pc = .ok i → i.opcode.isTerminator = true →
      i.opcode.stackIn ≤ t.stack.depth → Stepped g t pc (t.executed g i).leave
  | revisited {i : Instr} : decodeAt g.code pc = .ok i → i.opcode.isTerminator = false →
      t.memo.visit pc t.stack.depth = .again → Stepped g t pc t.leave
  | conflict {i : Instr} {recorded : Nat} : decodeAt g.code pc = .ok i →
      i.opcode.isTerminator = false → t.memo.visit pc t.stack.depth = .conflict recorded →
      Stepped g t pc (t.reject (.depthInconsistency pc recorded t.stack.depth))
  | underflow {i : Instr} : Arrives g t pc i → t.stack.depth < i.opcode.stackIn →
      Stepped g t pc
        ((t.noted pc).reject (.stackUnderflow pc t.stack.depth i.opcode.stackIn))
  | overflow {i : Instr} : Arrives g t pc i → i.opcode.stackIn ≤ t.stack.depth →
      t.stack.limit < t.stack.depth - i.opcode.stackIn + i.opcode.stackOut →
      Stepped g t pc ((t.noted pc).reject (.stackOverflow pc t.stack.depth t.stack.limit))
  | jumpRefused {i : Instr} {x : JumpTarget} : Runs g t pc i → i.opcode.role = .jump →
      g.resolve pc t.target = .error x →
      Stepped g t pc
        ((((t.noted pc).popped 1).executed g i).reject (.unreachableJumpTarget pc x))
  | branchRefused {i : Instr} {x : JumpTarget} : Runs g t pc i → i.opcode.role = .branch →
      g.resolve pc t.target = .error x →
      Stepped g t pc ((t.noted pc).reject (.unreachableJumpTarget pc x))
  | jumpedStatic {i : Instr} {dst : Nat} : Runs g t pc i → i.opcode.role = .jump →
      g.resolve pc t.target = .ok (.static dst) →
      Stepped g t pc
        (((((t.noted pc).popped 1).executed g i).emit g
          (.jump pc (.static dst))).forget.enter g dst)
  | jumpedListed {i : Instr} {dsts : List Nat} : Runs g t pc i → i.opcode.role = .jump →
      g.resolve pc t.target = .ok (.listed dsts) →
      Stepped g t pc
        (((((t.noted pc).popped 1).executed g i).emit g (.jump pc (.dynamic dsts.length))).queue
          dsts).leave
  | branched {i : Instr} {route : Setting.Route} : Runs g t pc i → i.opcode.role = .branch →
      g.resolve pc t.target = .ok route →
      Stepped g t pc
        ((((((t.noted pc).popped 2).emit g (.jump pc route.resolution)).queue
          route.destinations).forget.executed g i).enter g i.next)
  | marked {i : Instr} : Runs g t pc i → i.opcode.role = .mark →
      Stepped g t pc ((t.noted pc).forget.advance g i)
  | computed {i : Instr} {a : StackAction} : Runs g t pc i → i.opcode.role = .compute a →
      Stepped g t pc
        ({ t.noted pc with stack := t.stack.act i.literal a }.advance g i)

section Inversion

theorem stepped_halt (hd : decodeAt g.code i.offset = .ok i)
    (hterm : i.opcode.isTerminator = true) : Stepped g t i.offset (t.halt g i) := by
  unfold halt
  rw [SymbolicStack.shortage?_eq]
  by_cases hneeds : t.stack.depth < i.opcode.stackIn
  · rw [if_pos hneeds]
    exact .haltRefused hd hterm hneeds
  · rw [if_neg hneeds]
    exact .halted hd hterm (Nat.le_of_not_lt hneeds)

variable (harr : Arrives g t i.offset i) (hs : t.stack.WellFormed)

include harr hs

theorem Arrives.runs (hneeds : ¬ t.stack.depth < i.opcode.stackIn) (hout : i.opcode.stackOut = 0) :
    Runs g t i.offset i where
  toArrives := harr
  needs := Nat.le_of_not_lt hneeds
  room := by
    rw [hout]
    exact Nat.le_trans (Nat.sub_le _ _) hs.depth_le

theorem stepped_jump (hrole : i.opcode.role = .jump) :
    Stepped g t i.offset ((t.noted i.offset).jump g i) := by
  have hop : i.opcode = .jump := Opcode.role_eq_jump_iff.mp hrole
  have hin : i.opcode.stackIn = 1 := by rw [hop]; rfl
  unfold jump
  rw [stack_noted, SymbolicStack.pop, SymbolicStack.shortage?_eq]
  by_cases hneeds : t.stack.depth < 1
  · rw [if_pos hneeds, ← hin]
    exact .underflow harr (hin ▸ hneeds)
  · rw [if_neg hneeds]
    have hruns : Runs g t i.offset i := harr.runs hs (hin ▸ hneeds) (by rw [hop]; rfl)
    have htarget : t.stack.read (t.stack.depth - 1) = t.target := rfl
    simp only [htarget]
    cases hres : g.resolve i.offset t.target with
    | error x => exact .jumpRefused hruns hrole hres
    | ok route =>
      cases route with
      | static dst => exact .jumpedStatic hruns hrole hres
      | listed dsts => exact .jumpedListed hruns hrole hres

theorem stepped_branch (hrole : i.opcode.role = .branch) :
    Stepped g t i.offset ((t.noted i.offset).branch g i) := by
  have hop : i.opcode = .jumpi := Opcode.role_eq_branch_iff.mp hrole
  have hin : i.opcode.stackIn = 2 := by rw [hop]; rfl
  unfold branch
  rw [stack_noted, SymbolicStack.shortage?_eq]
  by_cases hneeds : t.stack.depth < 2
  · rw [if_pos hneeds, ← hin]
    exact .underflow harr (hin ▸ hneeds)
  · rw [if_neg hneeds]
    have hruns : Runs g t i.offset i := harr.runs hs (hin ▸ hneeds) (by rw [hop]; rfl)
    have htarget : t.stack.read (t.stack.depth - 1) = t.target := rfl
    simp only [htarget]
    cases hres : g.resolve i.offset t.target with
    | error x => exact .branchRefused hruns hrole hres
    | ok route => exact .branched hruns hrole hres

theorem stepped_compute {a : StackAction} (hrole : i.opcode.role = .compute a) :
    Stepped g t i.offset ((t.noted i.offset).execute g i) := by
  have heff : a.effect = (i.opcode.stackIn, i.opcode.stackOut) := Opcode.effect_of_role hrole
  unfold execute
  simp only [hrole, stack_noted, SymbolicStack.obstacle?_eq hs, heff]
  by_cases hneeds : t.stack.depth < i.opcode.stackIn
  · rw [if_pos hneeds]
    exact .underflow harr hneeds
  rw [if_neg hneeds]
  by_cases hroom : t.stack.limit < t.stack.depth - i.opcode.stackIn + i.opcode.stackOut
  · rw [if_pos hroom]
    exact .overflow harr (Nat.le_of_not_lt hneeds) hroom
  · rw [if_neg hroom]
    exact .computed ⟨harr, Nat.le_of_not_lt hneeds, Nat.le_of_not_lt hroom⟩ hrole

theorem stepped_execute : Stepped g t i.offset ((t.noted i.offset).execute g i) := by
  cases hrole : i.opcode.role with
  | compute a => exact stepped_compute harr hs hrole
  | jump =>
    rw [execute, hrole]
    exact stepped_jump harr hs hrole
  | branch =>
    rw [execute, hrole]
    exact stepped_branch harr hs hrole
  | mark =>
    have hop : i.opcode = .jumpdest := Opcode.role_eq_mark_iff.mp hrole
    have hneeds : ¬ t.stack.depth < i.opcode.stackIn := by rw [hop]; exact Nat.not_lt_zero _
    rw [execute, hrole]
    exact .marked (harr.runs hs hneeds (by rw [hop]; rfl)) hrole

end Inversion

theorem stepped_stepAt (hs : t.stack.WellFormed) : Stepped g t pc (t.stepAt g pc) := by
  unfold stepAt
  by_cases hend : g.code.size ≤ pc
  · rw [if_pos hend]
    exact .runOff hend
  rw [if_neg hend]
  cases hd : decodeAt g.code pc with
  | error e => exact .malformed (Nat.lt_of_not_le hend) hd
  | ok i =>
    obtain rfl := decodeAt_offset hd
    dsimp only
    cases hterm : i.opcode.isTerminator with
    | true => exact stepped_halt hd hterm
    | false =>
      change Stepped g t i.offset (t.arrive g i)
      unfold arrive
      cases hvisit : t.memo.visit i.offset t.stack.depth with
      | first => exact stepped_execute ⟨hd, hterm, hvisit⟩ hs
      | again => exact .revisited hd hterm hvisit
      | conflict recorded => exact .conflict hd hterm hvisit

section Scheduling

theorem perm_of_take? {position : Nat} {work rest : List Task} {k : Task}
    (h : take? position work = some (k, rest)) : (k :: rest).Perm work := by
  unfold take? at h
  split at h
  next hget =>
    obtain ⟨hlt, hk⟩ := List.getElem?_eq_some_iff.mp hget
    obtain ⟨rfl, rfl⟩ := Prod.mk.inj (Option.some.inj h)
    have hperm := List.getElem_cons_eraseIdx_perm hlt
    rwa [hk] at hperm
  · obtain ⟨rfl, rfl⟩ := Prod.mk.inj (Option.some.inj h)
    exact List.Perm.refl _
  · cases h

variable (scheduler : Scheduler)

theorem step_of_running (h : t.cursor = .running pc) : t.step g scheduler = t.stepAt g pc := by
  rw [step, h]

/-- Between two tasks, some task is begun and the others wait on. -/
theorem step_of_idle (h : t.cursor = .idle) (hmore : t.isFinished = false) :
    ∃ k rest, (k :: rest).Perm t.work ∧ t.step g scheduler = { t with work := rest }.begin g k := by
  have hne : t.work ≠ [] := by
    intro hwork
    rw [isFinished, h, hwork] at hmore
    cases hmore
  cases htake : take? (scheduler t) t.work with
  | none => exact absurd (take?_eq_none_iff.mp htake) hne
  | some taken =>
    refine ⟨taken.1, taken.2, perm_of_take? htake, ?_⟩
    rw [step, h]
    simp only [htake]

theorem begin_of_le {k : Task} (h : k.depth ≤ t.stack.limit) :
    t.begin g k =
      { t with stack := { t.stack with depth := k.depth }.enterBlock }.enter g k.pc := by
  rw [begin, SymbolicStack.reset_of_le h]

theorem step_of_isFinished (h : t.isFinished = true) : t.step g scheduler = t := by
  unfold isFinished at h
  unfold step
  cases hcursor : t.cursor with
  | rejected e => rfl
  | running pc =>
    rw [hcursor] at h
    cases h
  | idle =>
    rw [hcursor] at h
    have htake : take? (scheduler t) t.work = none := take?_eq_none_iff.mpr (List.isEmpty_iff.mp h)
    simp only [htake]

theorem run_eq_iterate {n : Nat} (h : ((step g scheduler)^[n] t).isFinished = true) :
    t.run g scheduler = (step g scheduler)^[n] t := by
  induction n generalizing t with
  | zero => exact (run.eq_1 g scheduler t).trans (dif_pos h)
  | succ n ih =>
    rw [Function.iterate_succ_apply] at h ⊢
    rw [← ih h]
    by_cases hdone : t.isFinished = true
    · rw [step_of_isFinished scheduler hdone]
    · rw [run.eq_1 g scheduler t, dif_neg hdone]

theorem exists_run_eq_iterate (g : Setting) (t : Traversal) :
    ∃ n, ((step g scheduler)^[n] t).isFinished = true ∧
      t.run g scheduler = (step g scheduler)^[n] t := by
  fun_induction Traversal.run g scheduler t with
  | case1 t hdone => exact ⟨0, hdone, rfl⟩
  | case2 t hmore ih =>
    obtain ⟨n, hdone, hrun⟩ := ih
    exact ⟨n + 1, hdone, hrun⟩

end Scheduling

end StackMachine.Traversal
