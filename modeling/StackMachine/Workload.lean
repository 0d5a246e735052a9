import StackMachine.Assembler

namespace StackMachine

structure Workload where
  code : Code
  tables : JumpTables := {}
  deriving DecidableEq

namespace Workload

open Assembler

def liftLabel {α : Type} (r : Except UnresolvedLabel α) : Except AssemblyError α :=
  r.mapError fun _ => .unresolvedLabel

def static (a : Assembler) : Except AssemblyError Workload := do
  return { code := ← a.finish }

def repeated {α : Type} (n : Nat) (step : α → Nat → Except AssemblyError α) (a : α) :
    Except AssemblyError α :=
  (List.range n).foldlM step a

def straightLine (n : Nat) : Except AssemblyError Workload :=
  let body := (List.range n).foldl (fun a i => (a.pushNumber i).op .add) (empty.pushNumber 1)
  static ((body.op .pop).op .stop)

/-- One branch whose arms meet again. -/
def diamond (a : Assembler) : Except AssemblyError Assembler := do
  let (other, a) := a.newLabel
  let (join, a) := a.newLabel
  let a := (a.op .calldatasize).jumpiTo other
  let a := ((a.pushNumber 1).op .pop).jumpTo join
  let a ← liftLabel (a.jumpdest other)
  let a := (a.pushNumber 2).op .pop
  liftLabel (a.jumpdest join)

def diamonds (n : Nat) : Except AssemblyError Workload := do
  let a ← repeated n (fun a _ => diamond a) empty
  static (a.op .stop)

def countdown (a : Assembler) : Except AssemblyError Assembler := do
  let (top, a) := a.newLabel
  let (done, a) := a.newLabel
  let a := (a.pushNumber 0).op .calldataload
  let a ← liftLabel (a.jumpdest top)
  let a := ((a.op (.dup 0)).op .iszero).jumpiTo done
  let a := (((a.pushNumber 1).op (.swap 0)).op .sub).jumpTo top
  let a ← liftLabel (a.jumpdest done)
  return a.op .pop

def loops (n : Nat) : Except AssemblyError Workload := do
  let a ← repeated n (fun a _ => countdown a) empty
  static (a.op .stop)

structure Dispatch where
  assembler : Assembler
  jumps : TableBuilder := {}
  traps : TableBuilder := {}

/-- Add an arm; every fourth one is listed in the trap table. -/
def Dispatch.addArm (site : Label) (d : Dispatch) (index : Nat) :
    Except AssemblyError Dispatch := do
  let (arm, a) := d.assembler.newLabel
  let a ← liftLabel (a.jumpdest arm)
  let assembler := ((a.pushNumber index).op .pop).op .stop
  if index % 4 = 3 then return { d with assembler, traps := d.traps.entry site arm }
  else return { d with assembler, jumps := d.jumps.entry site arm }

def dispatch (n : Nat) : Except AssemblyError Workload := do
  let (site, a) := ((empty.pushNumber 0).op .calldataload).dynamicJump
  let d ← repeated n (Dispatch.addArm site) { assembler := a }
  let jumps ← liftLabel (d.jumps.build d.assembler)
  let traps ← liftLabel (d.traps.build d.assembler)
  return { code := ← d.assembler.finish, tables := ⟨jumps, traps⟩ }

/-- `n` branches to one destination. -/
def fanIn (n : Nat) : Except AssemblyError Workload := do
  let (target, a) := empty.newLabel
  let a := (List.range n).foldl (fun a _ => (a.op .calldatasize).jumpiTo target) a
  let a ← liftLabel (a.jumpdest target)
  static (a.op .stop)

end Workload

end StackMachine
