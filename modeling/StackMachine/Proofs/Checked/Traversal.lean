import StackMachine.Proofs.Checked.Stack
import StackMachine.Proofs.JumpTable
import StackMachine.Proofs.Traversal.Bounds

namespace StackMachine.Checked

open Exploration Traversal

variable {g : Setting} {bits : BitWords} {t : Traversal} {i : Instr} {pc limit : Nat}

section Opcodes

def action? (s : Signature) : Option StackAction :=
  if s.traits.push then some .push
  else if s.traits.dup then some (.dup s.stackIn)
  else if s.traits.swap then do
    let n ← sub? s.stackIn 1
    return .swap n
  else some (.replace s.stackIn s.stackOut)

def role? : Opcode → Option Role
  | .jump => some .jump
  | .jumpi => some .branch
  | .jumpdest => some .mark
  | .pc => some (.compute .push)
  | op => do
    let a ← action? op.signature
    return .compute a

theorem role?_eq (op : Opcode) : role? op = some op.role := by
  cases op with
  | swap n =>
    have hpos : 1 ≤ (Opcode.swap n).signature.stackIn := Nat.le_add_left 1 (n.val + 1)
    have haction : action? (Opcode.swap n).signature = some (Opcode.swap n).signature.action := by
      change (do
        let k ← sub? (Opcode.swap n).signature.stackIn 1
        return StackAction.swap k) = _
      rw [sub?_of_le hpos]
      rfl
    change (do
      let a ← action? (Opcode.swap n).signature
      return Role.compute a) = _
    rw [haction]
    rfl
  | _ => rfl

end Opcodes

section Resolution

def entriesFrom? (t : JumpTable) (src : Nat) : Option (List JumpEntry) := do
  let start := partitionPoint t.entries (fun e => decide (e.src < src)) 0 t.size
  let _ ← slice? t.entries start t.size
  let stop := partitionPoint t.entries (fun e => decide (e.src = src)) start t.size
  let found ← slice? t.entries start stop
  return found.toList

def lookup? (t : JumpTables) (src : Nat) : Option Lookup := do
  let jumps ← entriesFrom? t.jumps src
  let traps ← entriesFrom? t.traps src
  return ⟨src, jumps, traps⟩

def resolve? (g : Setting) (bits : BitWords) (pc : Nat) (target : SlotValue) :
    Option (Except JumpTarget Setting.Route) :=
  match target with
  | .constant c =>
    match c.value with
    | some dst => do
      if ← bits.test? dst then return .ok (.static dst) else return .error (.static (some dst))
    | none => some (.error (.static none))
  | .unknown => do
    let listed ← lookup? g.tables pc
    let destinations := listed.destinations
    if destinations.isEmpty then return .error .unlisted
    else
      match ← destinations.findM? fun d => (bits.test? d.2).map Bool.not with
      | some (table, dst) => return .error (.listed table dst)
      | none => return .ok (.listed (destinations.map Prod.snd))

theorem partitionPoint_mem {α : Type} (items : Array α) (p : α → Bool) {lo hi : Nat}
    (h : lo ≤ hi) : lo ≤ partitionPoint items p lo hi ∧ partitionPoint items p lo hi ≤ hi := by
  fun_induction partitionPoint items p lo hi with
  | case1 lo hi hlt mid hsat ih =>
    obtain ⟨hlo, hhi⟩ := ih (by omega)
    exact ⟨by omega, hhi⟩
  | case2 lo hi hlt mid hunsat ih =>
    obtain ⟨hlo, hhi⟩ := ih (by omega)
    exact ⟨hlo, by omega⟩
  | case3 lo hi hle => exact ⟨Nat.le_refl lo, h⟩

theorem entriesFrom?_eq (t : JumpTable) (src : Nat) :
    entriesFrom? t src = some (t.entriesFrom src) := by
  obtain ⟨_, hstart⟩ :=
    partitionPoint_mem t.entries (fun e => decide (e.src < src)) (Nat.zero_le t.size)
  obtain ⟨hle, hstop⟩ := partitionPoint_mem t.entries (fun e => decide (e.src = src)) hstart
  simp only [entriesFrom?, slice?_of_le hstart (Nat.le_refl _), slice?_of_le hle hstop,
    Option.bind_eq_bind, Option.bind_some]
  rfl

theorem lookup?_eq (t : JumpTables) (src : Nat) : lookup? t src = some (t.lookup src) := by
  rw [lookup?, entriesFrom?_eq, entriesFrom?_eq]
  rfl

theorem findM?_eq {α : Type} {p : α → Option Bool} {q : α → Bool} (h : ∀ a, p a = some (q a))
    (items : List α) : items.findM? p = some (items.find? q) := by
  induction items with
  | nil => rfl
  | cons a rest ih =>
    rw [List.findM?, h, List.find?_cons]
    cases q a with
    | true => rfl
    | false => exact ih

theorem resolve?_eq (hbits : bits.Represents g.jumpDests.marks) (pc : Nat) (v : SlotValue) :
    resolve? g bits pc v = some (g.resolve pc v) := by
  have htest (o : Nat) : bits.test? o = some (g.jumpDests.isValid o) := hbits.test?_eq o
  unfold resolve? Setting.resolve
  cases v with
  | constant c =>
    cases hvalue : c.value with
    | none => simp only [hvalue]
    | some dst =>
      simp only [hvalue, htest, Option.bind_eq_bind, Option.bind_some]
      split <;> rfl
  | unknown =>
    have hfind := findM?_eq (p := fun d : TableKind × Nat => (bits.test? d.2).map Bool.not)
      (q := fun d => !g.jumpDests.isValid d.2) (fun d => by rw [htest]; rfl)
      (g.tables.lookup pc).destinations
    simp only [lookup?_eq, hfind, Option.bind_eq_bind, Option.bind_some]
    split
    · rfl
    · cases (g.tables.lookup pc).destinations.find? fun d => !g.jumpDests.isValid d.2 <;> rfl

end Resolution

section Steps

def forget? (t : Traversal) : Option Traversal := do
  let stack ← enterBlock? t.stack
  return { t with stack }

def jump? (g : Setting) (bits : BitWords) (i : Instr) (t : Traversal) : Option Traversal := do
  match ← pop? t.stack with
  | .error e => return t.reject (.ofStack i.offset e)
  | .ok (target, stack) =>
    let t := { t with stack }.executed g i
    match ← resolve? g bits i.offset target with
    | .error target => return t.reject (.unreachableJumpTarget i.offset target)
    | .ok route =>
      let t := t.emit g (.jump i.offset route.resolution)
      match route with
      | .static dst => do
        let t ← forget? t
        return t.enter g dst
      | .listed dsts => return (t.queue dsts).leave

def branch? (g : Setting) (bits : BitWords) (i : Instr) (t : Traversal) : Option Traversal :=
  match t.stack.shortage? 2 with
  | some e => some (t.reject (.ofStack i.offset e))
  | none => do
    match ← pop? t.stack with
    | .error e => return t.reject (.ofStack i.offset e)
    | .ok (target, below) =>
      match ← pop? below with
      | .error e => return t.reject (.ofStack i.offset e)
      | .ok (_, stack) =>
        match ← resolve? g bits i.offset target with
        | .error target => return t.reject (.unreachableJumpTarget i.offset target)
        | .ok route =>
          let t := { t with stack }.emit g (.jump i.offset route.resolution)
          let t ← forget? (t.queue route.destinations)
          return (t.executed g i).enter g i.next

def execute? (g : Setting) (bits : BitWords) (i : Instr) (t : Traversal) : Option Traversal := do
  match ← role? i.opcode with
  | .jump => jump? g bits i t
  | .branch => branch? g bits i t
  | .mark => do
    let t ← forget? t
    return t.advance g i
  | .compute action =>
    match ← obstacle? t.stack action with
    | some e => return t.reject (.ofStack i.offset e)
    | none => do
      let stack ← act? t.stack i.literal action
      return { t with stack }.advance g i

def arrive? (g : Setting) (bits : BitWords) (i : Instr) (t : Traversal) : Option Traversal := do
  match ← visit? t.memo i.offset t.stack.depth with
  | .first => do
    let memo ← record? t.memo i.offset t.stack.depth
    execute? g bits i { t with memo }
  | .again => return t.leave
  | .conflict recorded => return t.reject (.depthInconsistency i.offset recorded t.stack.depth)

def stepAt? (g : Setting) (bits : BitWords) (pc : Nat) (t : Traversal) : Option Traversal :=
  if g.code.size ≤ pc then some t.leave
  else do
    match ← decodeAt? g.code pc with
    | .error (.outOfBounds _) => none
    | .error e => return t.reject (.malformedInstruction pc e)
    | .ok i => if i.opcode.isTerminator then return t.halt g i else arrive? g bits i t

def begin? (g : Setting) (task : Task) (t : Traversal) : Option Traversal := do
  match ← reset? t.stack task.depth with
  | .error _ => none
  | .ok stack => return { t with stack }.enter g task.pc

def step? (g : Setting) (bits : BitWords) (t : Traversal) : Option Traversal :=
  match t.cursor with
  | .rejected _ => some t
  | .running pc => stepAt? g bits pc t
  | .idle =>
    match take? (Scheduler.newest t) t.work with
    | none => some t
    | some (task, work) => begin? g task { t with work }

/-- A step that brings a run no nearer to its end has no result. -/
def run? (g : Setting) (bits : BitWords) (t : Traversal) : Option Traversal :=
  if t.isFinished then some t
  else
    match step? g bits t with
    | none => none
    | some u =>
      if _h : Prod.Lex (· < ·) (· < ·) (u.memo.remaining, u.load) (t.memo.remaining, t.load) then
        run? g bits u
      else none
termination_by (t.memo.remaining, t.load)
decreasing_by exact _h

/-- The stack is within its limit, and its epoch within 32 bits. -/
structure Bounded (s : SymbolicStack) : Prop extends s.WellFormed where
  limit_le : s.limit ≤ 0xFFFE
  epoch_le : s.epoch ≤ SymbolicStack.lastEpoch

variable (hbits : bits.Represents g.jumpDests.marks) (hs : Bounded t.stack)

theorem forget?_eq (h : t.stack.epoch ≤ SymbolicStack.lastEpoch) : forget? t = some t.forget := by
  rw [forget?, enterBlock?_eq h]
  rfl

include hbits hs

theorem jump?_eq : jump? g bits i t = some (t.jump g i) := by
  unfold jump? Traversal.jump
  simp only [pop?_eq hs.depth_le, Option.bind_eq_bind, Option.bind_some]
  rw [SymbolicStack.pop]
  cases t.stack.shortage? 1 with
  | some e => rfl
  | none =>
    simp only [resolve?_eq hbits, Option.bind_some]
    cases g.resolve i.offset (t.stack.read (t.stack.depth - 1)) with
    | error x => rfl
    | ok route =>
      cases route with
      | static dst =>
        dsimp only
        rw [forget?_eq]
        · rfl
        · exact hs.epoch_le
      | listed dsts => rfl

theorem branch?_eq : branch? g bits i t = some (t.branch g i) := by
  unfold branch? Traversal.branch
  rw [SymbolicStack.shortage?_eq]
  by_cases hneeds : t.stack.depth < 2
  · rw [if_pos hneeds]
  have hbelow : 1 ≤ (t.stack.drop 1).depth := by
    change 1 ≤ t.stack.depth - 1
    omega
  have hpop := pop?_of_pos hs.depth_le (by omega : 1 ≤ t.stack.depth)
  have hpop' := pop?_of_pos (hs.toWellFormed.drop 1).depth_le hbelow
  rw [if_neg hneeds]
  simp only [hpop, hpop', resolve?_eq hbits, Option.bind_eq_bind, Option.bind_some]
  cases g.resolve i.offset (t.stack.read (t.stack.depth - 1)) with
  | error x => rfl
  | ok route =>
    dsimp only
    rw [forget?_eq]
    · rfl
    · exact hs.epoch_le

theorem execute?_eq : execute? g bits i t = some (t.execute g i) := by
  unfold execute? Traversal.execute
  simp only [role?_eq, Option.bind_eq_bind, Option.bind_some]
  cases i.opcode.role with
  | jump => exact jump?_eq hbits hs
  | branch => exact branch?_eq hbits hs
  | mark =>
    dsimp only
    rw [forget?_eq hs.epoch_le]
    rfl
  | compute a =>
    simp only [obstacle?_eq, Option.bind_some]
    cases hobstacle : t.stack.obstacle? a with
    | some e => rfl
    | none =>
      simp only [act?_eq hs.toWellFormed i.literal hobstacle, Option.bind_some]
      rfl

theorem arrive?_eq (hlt : i.offset < t.memo.cells.size) :
    arrive? g bits i t = some (t.arrive g i) := by
  have hdepth : t.stack.depth ≤ 0xFFFE := Nat.le_trans hs.depth_le hs.limit_le
  unfold arrive? Traversal.arrive
  simp only [visit?_eq hlt, Option.bind_eq_bind, Option.bind_some]
  cases t.memo.visit i.offset t.stack.depth with
  | first =>
    simp only [record?_eq hlt hdepth, Option.bind_some]
    exact execute?_eq (t := { t with memo := t.memo.record i.offset t.stack.depth }) hbits hs
  | again => rfl
  | conflict recorded => rfl

theorem stepAt?_eq (hcode : g.code.size ≤ maxOffset) (hsize : t.memo.cells.size = g.code.size) :
    stepAt? g bits pc t = some (t.stepAt g pc) := by
  unfold stepAt? Traversal.stepAt
  by_cases hend : g.code.size ≤ pc
  · rw [if_pos hend, if_pos hend]
  rw [if_neg hend, if_neg hend, decodeAt?_eq, Option.bind_eq_bind, Option.bind_some]
  cases hd : decodeAt g.code pc with
  | error e =>
    cases e with
    | outOfBounds q =>
      exact absurd hd (decodeAt_ne_outOfBounds hcode (Nat.lt_of_not_le hend) q)
    | unknownOpcode => rfl
    | truncatedImmediate => rfl
  | ok i =>
    obtain rfl := decodeAt_offset hd
    dsimp only
    split
    · rfl
    · exact arrive?_eq hbits hs (hsize ▸ lt_size_of_decodeAt hd)

omit hbits in
theorem begin?_eq {k : Task} (h : k.depth ≤ t.stack.limit) : begin? g k t = some (t.begin g k) := by
  unfold begin? Traversal.begin
  rw [reset?_eq hs.epoch_le, SymbolicStack.reset_of_le h]
  rfl

end Steps

section Run

/-- What every state of a run is like. -/
structure Orderly (g : Setting) (limit : Nat) (t : Traversal) : Prop where
  consistent : Consistent g limit t
  sane : Sane g limit t
  epoch_le : t.stack.epoch ≤ SymbolicStack.lastEpoch

variable (hs : Analysed (g.subject limit)) (hlimit : limit ≤ 0xFFFE)

include hs hlimit

theorem Orderly.step (h : Orderly g limit t) (hmore : t.isFinished = false) :
    Orderly g limit (t.step g Scheduler.newest) where
  consistent := h.consistent.step hs hlimit Scheduler.newest hmore
  sane := h.sane.moved (h.consistent.moved Scheduler.newest)
  epoch_le := (h.consistent.moved Scheduler.newest).epoch_le h.epoch_le

variable (hbits : bits.Represents g.jumpDests.marks)

include hbits

theorem step?_eq (h : Orderly g limit t) :
    step? g bits t = some (t.step g Scheduler.newest) := by
  have hbounded : Bounded t.stack :=
    ⟨h.sane.stack, Nat.le_trans (Nat.le_of_eq h.sane.limit_eq) hlimit, h.epoch_le⟩
  unfold step? Traversal.step
  cases hcursor : t.cursor with
  | rejected e => rfl
  | running pc => exact stepAt?_eq hbits hbounded hs.size_le h.sane.size_eq
  | idle =>
    dsimp only
    cases htake : take? (Scheduler.newest t) t.work with
    | none => rfl
    | some taken =>
      obtain ⟨k, rest⟩ := taken
      have hk : k ∈ t.work := (perm_of_take? htake).subset List.mem_cons_self
      have hle := h.consistent.depth_le_of_mem_work (alive_of_idle hcursor) hk
      exact begin?_eq (t := { t with work := rest }) hbounded (h.sane.limit_eq ▸ hle)

theorem run?_eq (h : Orderly g limit t) : run? g bits t = some (t.run g Scheduler.newest) := by
  fun_induction Traversal.run g Scheduler.newest t with
  | case1 t hdone => rw [run?, if_pos hdone]
  | case2 t hmore ih =>
    have hmore' := Bool.eq_false_iff.mpr hmore
    rw [run?, if_neg hmore, step?_eq hs hlimit hbits h]
    dsimp only
    rw [dif_pos (step_decreases g Scheduler.newest hmore')]
    exact ih (h.step hs hlimit hmore')

end Run

end StackMachine.Checked
