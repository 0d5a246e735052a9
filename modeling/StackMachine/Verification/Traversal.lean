import StackMachine.JumpDests
import StackMachine.Verification.DepthMemo
import StackMachine.Verification.Trace

namespace StackMachine

structure Task where
  pc : Nat
  depth : Nat
  deriving DecidableEq

structure Setting where
  code : Code
  tables : JumpTables
  jumpDests : JumpDests
  mask : TraceMask

namespace Setting

def of (code : Code) (tables : JumpTables) (mask : TraceMask) : Setting :=
  ⟨code, tables, JumpDests.ofCode code, mask⟩

/-- Where a jump goes: to a known offset, or to any offset listed for it. -/
inductive Route where
  | static (dst : Nat)
  | listed (dsts : List Nat)
  deriving DecidableEq

namespace Route

def destinations : Route → List Nat
  | static dst => [dst]
  | listed dsts => dsts

def resolution : Route → JumpResolution
  | static dst => .static dst
  | listed dsts => .dynamic dsts.length

end Route

/-- The route of the jump at `pc` with the popped destination `target`. Every listed destination
has to be valid, in either table. -/
def resolve (g : Setting) (pc : Nat) (target : SlotValue) : Except JumpTarget Route :=
  match target with
  | .constant c =>
    match c.value with
    | some dst => if g.jumpDests.isValid dst then .ok (.static dst) else .error (.static (some dst))
    | none => .error (.static none)
  | .unknown =>
    let destinations := (g.tables.lookup pc).destinations
    if destinations.isEmpty then .error .unlisted
    else match destinations.find? fun d => !g.jumpDests.isValid d.2 with
      | some (table, dst) => .error (.listed table dst)
      | none => .ok (.listed (destinations.map Prod.snd))

end Setting

inductive Cursor where
  | idle
  | running (pc : Nat)
  | rejected (error : VerifyError)
  deriving DecidableEq

structure Traversal where
  cursor : Cursor
  stack : SymbolicStack
  memo : DepthMemo
  work : List Task
  log : List Event
  deriving DecidableEq

/-- The position in the worklist of the task to take next; a position past its end means the
newest task. -/
abbrev Scheduler := Traversal → Nat

def Scheduler.newest : Scheduler := fun _ => 0

def Instr.literal (i : Instr) : SlotValue :=
  match i.opcode with
  | .pc => .constant ⟨.pc i.offset, some i.offset⟩
  | _ => .constant ⟨.push i.offset, i.immediate32?⟩

namespace Traversal

def start (stackLimit codeLength : Nat) : Traversal where
  cursor := .idle
  stack := SymbolicStack.new stackLimit
  memo := DepthMemo.new codeLength
  work := [⟨0, 0⟩]
  log := []

def emit (g : Setting) (e : Event) (t : Traversal) : Traversal :=
  { t with log := g.mask.record e t.log }

def leave (t : Traversal) : Traversal := { t with cursor := .idle }

def reject (e : VerifyError) (t : Traversal) : Traversal := { t with cursor := .rejected e }

def executed (g : Setting) (i : Instr) (t : Traversal) : Traversal :=
  t.emit g (.instr i.offset i.next i.opcode t.stack.depth)

def advance (g : Setting) (i : Instr) (t : Traversal) : Traversal :=
  { t.executed g i with cursor := .running i.next }

def enter (g : Setting) (pc : Nat) (t : Traversal) : Traversal :=
  { t.emit g (.block pc t.stack.depth) with cursor := .running pc }

def forget (t : Traversal) : Traversal := { t with stack := t.stack.enterBlock }

def queue (dsts : List Nat) (t : Traversal) : Traversal :=
  -- The last destination becomes the newest task.
  { t with work := (dsts.reverse.map fun pc => ⟨pc, t.stack.depth⟩) ++ t.work }

def jump (g : Setting) (i : Instr) (t : Traversal) : Traversal :=
  match t.stack.pop with
  | .error e => t.reject (.ofStack i.offset e)
  | .ok (target, stack) =>
    let t := { t with stack }.executed g i
    match g.resolve i.offset target with
    | .error target => t.reject (.unreachableJumpTarget i.offset target)
    | .ok route =>
      let t := t.emit g (.jump i.offset route.resolution)
      match route with
      | .static dst => t.forget.enter g dst
      | .listed dsts => (t.queue dsts).leave

def branch (g : Setting) (i : Instr) (t : Traversal) : Traversal :=
  match t.stack.shortage? 2 with
  | some e => t.reject (.ofStack i.offset e)
  | none =>
    let target := t.stack.read (t.stack.depth - 1)
    match g.resolve i.offset target with
    | .error target => t.reject (.unreachableJumpTarget i.offset target)
    | .ok route =>
      let t := { t with stack := t.stack.drop 2 }.emit g (.jump i.offset route.resolution)
      ((t.queue route.destinations).forget.executed g i).enter g i.next

def execute (g : Setting) (i : Instr) (t : Traversal) : Traversal :=
  match i.opcode.role with
  | .jump => t.jump g i
  | .branch => t.branch g i
  | .mark => t.forget.advance g i
  | .compute action =>
    match t.stack.obstacle? action with
    | some e => t.reject (.ofStack i.offset e)
    | none => { t with stack := t.stack.act i.literal action }.advance g i

def arrive (g : Setting) (i : Instr) (t : Traversal) : Traversal :=
  match t.memo.visit i.offset t.stack.depth with
  | .first => { t with memo := t.memo.record i.offset t.stack.depth }.execute g i
  | .again => t.leave
  | .conflict recorded => t.reject (.depthInconsistency i.offset recorded t.stack.depth)

def halt (g : Setting) (i : Instr) (t : Traversal) : Traversal :=
  match t.stack.shortage? i.opcode.stackIn with
  | some e => t.reject (.ofStack i.offset e)
  -- The operands are not taken off before the depth is reported.
  | none => (t.executed g i).leave

/-- One step at `pc`. Running off the end of the code ends the path like a `STOP`. -/
def stepAt (g : Setting) (pc : Nat) (t : Traversal) : Traversal :=
  if g.code.size ≤ pc then t.leave
  else match decodeAt g.code pc with
    | .error e => t.reject (.malformedInstruction pc e)
    | .ok i => if i.opcode.isTerminator then t.halt g i else t.arrive g i

def take? (position : Nat) (work : List Task) : Option (Task × List Task) :=
  match work[position]?, work with
  | some task, work => some (task, work.eraseIdx position)
  | none, task :: rest => some (task, rest)
  | none, [] => none

def begin (g : Setting) (task : Task) (t : Traversal) : Traversal :=
  match t.stack.reset task.depth with
  | .error e => t.reject (.ofStack task.pc e)
  | .ok stack => { t with stack }.enter g task.pc

def isFinished (t : Traversal) : Bool :=
  match t.cursor with
  | .rejected _ => true
  | .running _ => false
  | .idle => t.work.isEmpty

def step (g : Setting) (scheduler : Scheduler) (t : Traversal) : Traversal :=
  match t.cursor with
  | .rejected _ => t
  | .running pc => t.stepAt g pc
  | .idle =>
    match take? (scheduler t) t.work with
    | none => t
    | some (task, work) => { t with work }.begin g task

/-- Pending entries, with the current path counted as half a one. -/
def load (t : Traversal) : Nat :=
  2 * t.work.length + match t.cursor with
    | .running _ => 1
    | _ => 0

@[simp] theorem memo_jump (g : Setting) (i : Instr) (t : Traversal) :
    (t.jump g i).memo = t.memo := by
  unfold jump
  split
  · rfl
  · dsimp only
    split
    · rfl
    · split <;> rfl

@[simp] theorem memo_branch (g : Setting) (i : Instr) (t : Traversal) :
    (t.branch g i).memo = t.memo := by
  unfold branch
  split
  · rfl
  · dsimp only
    split <;> rfl

@[simp] theorem memo_execute (g : Setting) (i : Instr) (t : Traversal) :
    (t.execute g i).memo = t.memo := by
  unfold execute
  split
  · exact memo_jump g i t
  · exact memo_branch g i t
  · rfl
  · split <;> rfl

/-- A step of a path ends the path or visits a new offset. -/
theorem stepAt_ends_or_visits (g : Setting) (pc : Nat) (t : Traversal) :
    ((t.stepAt g pc).memo = t.memo ∧ (t.stepAt g pc).load = 2 * t.work.length) ∨
      (t.stepAt g pc).memo.remaining < t.memo.remaining := by
  unfold stepAt
  split
  · exact .inl ⟨rfl, rfl⟩
  split
  · exact .inl ⟨rfl, rfl⟩
  split
  · unfold halt
    split <;> exact .inl ⟨rfl, rfl⟩
  · unfold arrive
    split
    next hv =>
      right
      rw [memo_execute]
      exact DepthMemo.remaining_record_lt hv
    · exact .inl ⟨rfl, rfl⟩
    · exact .inl ⟨rfl, rfl⟩

theorem length_of_take? {position : Nat} {work rest : List Task} {task : Task}
    (h : take? position work = some (task, rest)) : work.length = rest.length + 1 := by
  unfold take? at h
  split at h
  next hget =>
    have hlt := (List.getElem?_eq_some_iff.mp hget).1
    simp only [Option.some.injEq, Prod.mk.injEq] at h
    rw [← h.2, List.length_eraseIdx_of_lt hlt]
    omega
  · simp only [Option.some.injEq, Prod.mk.injEq] at h
    rw [h.2, List.length_cons]
  · simp at h

theorem begin_memo_load (g : Setting) (task : Task) (t : Traversal) :
    (t.begin g task).memo = t.memo ∧ (t.begin g task).load ≤ 2 * t.work.length + 1 := by
  unfold begin
  split
  · exact ⟨rfl, Nat.le_succ _⟩
  · exact ⟨rfl, Nat.le_refl _⟩

theorem take?_eq_none_iff {position : Nat} {work : List Task} :
    take? position work = none ↔ work = [] := by
  unfold take?
  cases h : work[position]? <;> cases work <;> simp at h ⊢

theorem step_decreases (g : Setting) (scheduler : Scheduler) {t : Traversal}
    (h : t.isFinished = false) :
    Prod.Lex (· < ·) (· < ·)
      ((t.step g scheduler).memo.remaining, (t.step g scheduler).load)
      (t.memo.remaining, t.load) := by
  unfold step
  split
  next hc => simp [isFinished, hc] at h
  next pc hc =>
    obtain ⟨hm, hl⟩ | hlt := stepAt_ends_or_visits g pc t
    · rw [hm, hl, load, hc]
      exact .right _ (Nat.lt_succ_self _)
    · exact .left _ _ hlt
  next hc =>
    split
    next htake => simp [isFinished, hc, take?_eq_none_iff.mp htake] at h
    next task work htake =>
      obtain ⟨hm, hl⟩ := begin_memo_load g task { t with work }
      have hlen := length_of_take? htake
      have hload : t.load = 2 * t.work.length := by rw [load, hc, Nat.add_zero]
      rw [hm, hload]
      exact .right _ (by simp only at hl; omega)

def run (g : Setting) (scheduler : Scheduler) (t : Traversal) : Traversal :=
  if _h : t.isFinished then t else run g scheduler (t.step g scheduler)
termination_by (t.memo.remaining, t.load)
decreasing_by exact step_decreases g scheduler (Bool.eq_false_iff.mpr _h)

def verdict (t : Traversal) : Except VerifyError DepthMemo :=
  match t.cursor with
  | .rejected e => .error e
  | _ => .ok t.memo

end Traversal

end StackMachine
