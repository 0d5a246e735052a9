import Std.Data.HashSet
import StackMachine.Ascending
import StackMachine.JumpDests
import StackMachine.JumpTable

namespace StackMachine

inductive FaultKind where
  | malformed
  | underflow
  | overflow
  | badTarget
  deriving DecidableEq

def FaultKind.rank : FaultKind → Nat
  | malformed => 0
  | underflow => 1
  | overflow => 2
  | badTarget => 3

structure Fault where
  kind : FaultKind
  pc : Nat
  deriving DecidableEq

namespace Fault

def le (a b : Fault) : Bool :=
  decide (a.kind.rank < b.kind.rank ∨ a.kind.rank = b.kind.rank ∧ a.pc ≤ b.pc)

end Fault

inductive AbstractValue where
  | unknown
  /-- A constant; no value if it exceeds 32 bits. -/
  | const (value : Option Nat)
  deriving DecidableEq

structure BlockEntry where
  pc : Nat
  depth : Nat
  deriving DecidableEq, Hashable

structure Exploration where
  /-- For each offset the depths with which its instruction is reached, ascending. Terminators
  have none. -/
  depths : Array (List Nat)
  faults : List Fault
  deriving DecidableEq

namespace Exploration

def depthsAt (e : Exploration) (pc : Nat) : List Nat := e.depths.getD pc []

def depthAt? (e : Exploration) (pc : Nat) : Option Nat :=
  match e.depthsAt pc with
  | [depth] => some depth
  | _ => none

def isClean (e : Exploration) : Bool :=
  e.faults.isEmpty && e.depths.all fun depths => decide (depths.length ≤ 1)

structure Subject where
  code : Code
  tables : JumpTables
  jumpDests : JumpDests
  limit : Nat

namespace Subject

/-- The destinations of the jump at `pc`; none if one of them is not known to be valid. -/
def targets (s : Subject) (pc : Nat) : AbstractValue → List Nat
  | .const (some dst) => if s.jumpDests.isValid dst then [dst] else []
  | .const none => []
  | .unknown =>
    let listed := (s.tables.lookup pc).destinations.map Prod.snd
    if listed.all s.jumpDests.isValid then listed else []

end Subject

structure BlockWalk where
  visits : List (Nat × Nat)
  fault : Option Fault
  exits : List BlockEntry

def literal (i : Instr) : AbstractValue :=
  match i.opcode with
  | .pc => .const (some i.offset)
  | _ => .const i.immediate32?

/-- Leave a block by the jump at `pc`, with the items below its operands; `following` are the
entries reached without the jump. -/
def leaveBlock (s : Subject) (pc : Nat) (target : AbstractValue) (depth : Nat)
    (following : List Nat) (visits : List (Nat × Nat)) : BlockWalk :=
  match s.targets pc target with
  | [] => ⟨visits, some ⟨.badTarget, pc⟩, []⟩
  | dsts => ⟨visits, none, (dsts ++ following).map fun dst => ⟨dst, depth⟩⟩

def walkBlock (s : Subject) (entry pc : Nat) (items : List AbstractValue)
    (visits : List (Nat × Nat)) : BlockWalk :=
  if s.code.size ≤ pc then ⟨visits, none, []⟩
  else match _h : decodeAt s.code pc with
    | .error _ => ⟨visits, some ⟨.malformed, pc⟩, []⟩
    | .ok i =>
      let op := i.opcode
      let depth := items.length
      if op = .jumpdest ∧ pc ≠ entry then ⟨visits, none, [⟨pc, depth⟩]⟩
      else if op.isTerminator then
        ⟨visits, if depth < op.stackIn then some ⟨.underflow, pc⟩ else none, []⟩
      else
        let visits := (pc, depth) :: visits
        if depth < op.stackIn then ⟨visits, some ⟨.underflow, pc⟩, []⟩
        else if s.limit < depth - op.stackIn + op.stackOut then
          ⟨visits, some ⟨.overflow, pc⟩, []⟩
        else match op.role with
          | .jump => leaveBlock s pc (items.headD .unknown) (depth - 1) [] visits
          | .branch => leaveBlock s pc (items.headD .unknown) (depth - 2) [i.next] visits
          | .mark => walkBlock s entry i.next items visits
          | .compute action =>
            walkBlock s entry i.next (action.onList .unknown (literal i) items) visits
termination_by s.code.size - pc
decreasing_by all_goals
  have := lt_next_of_decodeAt _h
  omega

structure Frontier where
  seen : Std.HashSet BlockEntry
  work : List BlockEntry
  visits : List (Nat × Nat)
  faults : List Fault

namespace Frontier

def start : Frontier := ⟨∅, [⟨0, 0⟩], [], []⟩

/-- Whether an entry lies in the finite range of offsets and depths that blocks lead to. -/
def inRange (s : Subject) (e : BlockEntry) : Bool := e.pc ≤ s.code.size && e.depth ≤ s.limit

def expand (s : Subject) (e : BlockEntry) (work : List BlockEntry) (f : Frontier) : Frontier :=
  let walk := walkBlock s e.pc e.pc (List.replicate e.depth .unknown) f.visits
  ⟨f.seen.insert e, walk.exits.reverse ++ work, walk.visits, walk.fault.toList ++ f.faults⟩

def step (s : Subject) (f : Frontier) : Frontier :=
  match f.work with
  | [] => f
  | e :: work =>
    if f.seen.contains e || !inRange s e then { f with work } else f.expand s e work

def range (s : Subject) : List BlockEntry :=
  (List.range (s.code.size + 1)).flatMap fun pc =>
    (List.range (s.limit + 1)).map fun depth => ⟨pc, depth⟩

def remaining (s : Subject) (f : Frontier) : Nat :=
  (range s).countP fun e => !f.seen.contains e

theorem mem_range {s : Subject} {e : BlockEntry} (h : inRange s e = true) : e ∈ range s := by
  simp only [inRange, Bool.and_eq_true, decide_eq_true_eq] at h
  simp only [range, List.mem_flatMap, List.mem_range, List.mem_map]
  exact ⟨e.pc, by omega, e.depth, by omega, rfl⟩

theorem countP_lt_of_imp {α : Type} {p q : α → Bool} {items : List α} {a : α} (ha : a ∈ items)
    (hpa : p a = true) (hqa : q a = false) (hqp : ∀ x, q x = true → p x = true) :
    items.countP q < items.countP p := by
  induction items with
  | nil => simp at ha
  | cons b items ih =>
    have hle : items.countP q ≤ items.countP p := List.countP_mono_left fun x _ => hqp x
    obtain rfl | hmem := List.mem_cons.mp ha
    · rw [List.countP_cons_of_pos hpa, List.countP_cons_of_neg (by simp [hqa])]
      omega
    · have hlt := ih hmem
      have hb := hqp b
      rw [List.countP_cons, List.countP_cons]
      split <;> split
      · omega
      next hq hp => exact absurd (hb hq) hp
      · omega
      · omega

theorem step_decreases (s : Subject) {f : Frontier} (h : f.work ≠ []) :
    Prod.Lex (· < ·) (· < ·) ((f.step s).remaining s, (f.step s).work.length)
      (f.remaining s, f.work.length) := by
  unfold step
  split
  next hw => exact absurd hw h
  next e work hw =>
    split
    · rw [hw]
      exact .right _ (Nat.lt_succ_self _)
    next hfresh =>
      simp only [Bool.or_eq_true, Bool.not_eq_true', not_or, Bool.not_eq_true,
        Bool.not_eq_false] at hfresh
      refine .left _ _ (countP_lt_of_imp (mem_range hfresh.2) ?_ ?_ ?_)
      · simp [hfresh.1]
      · simp [expand]
      · intro x hx
        simp only [expand, Std.HashSet.contains_insert, Bool.not_eq_true', Bool.or_eq_false_iff]
          at hx
        simp [hx.2]

def run (s : Subject) (f : Frontier) : Frontier :=
  if _h : f.work = [] then f else run s (f.step s)
termination_by (f.remaining s, f.work.length)
decreasing_by exact step_decreases s _h

end Frontier

def depthLists (size : Nat) (visits : List (Nat × Nat)) : Array (List Nat) :=
  visits.foldl (fun lists visit => lists.modify visit.1 (visit.2 :: ·)) (Array.replicate size [])

def ofFrontier (size : Nat) (f : Frontier) : Exploration where
  depths := (depthLists size f.visits).map (Ascending.ofList Ascending.natLe)
  faults := Ascending.ofList Fault.le f.faults

end Exploration

/-- Explore code from offset 0 with a stack of at most `limit` items. Every block entry is walked
once for every depth with which it is reached, and a fault ends its path only. -/
def explore (code : Code) (tables : JumpTables) (limit : Nat) : Exploration :=
  Exploration.ofFrontier code.size
    (Exploration.Frontier.run ⟨code, tables, JumpDests.ofCode code, limit⟩
      Exploration.Frontier.start)

end StackMachine
