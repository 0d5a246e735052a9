import StackMachine.Verification.Error

namespace StackMachine

inductive JumpResolution where
  | static (dst : Nat)
  | dynamic (listed : Nat)
  deriving DecidableEq

inductive Event where
  | runStart (codeLength tableEntries : Nat)
  | block (pc depth : Nat)
  /-- An instruction was executed. The depth is the one behind it, but an instruction that halts keeps
  its operands, and the depth is the one in front of it. -/
  | instr (pc next : Nat) (opcode : Opcode) (depth : Nat)
  | jump (pc : Nat) (resolution : JumpResolution)
  | runEnd (outcome : Option VerifyError)
  deriving DecidableEq

inductive EventClass where
  | run
  | instr
  | block
  | jump
  deriving DecidableEq

def EventClass.all : List EventClass := [run, instr, block, jump]

def Event.class : Event → EventClass
  | runStart _ _ => .run
  | block _ _ => .block
  | instr _ _ _ _ => .instr
  | jump _ _ => .jump
  | runEnd _ => .run

structure TraceMask where
  run : Bool := false
  instr : Bool := false
  block : Bool := false
  jump : Bool := false
  deriving DecidableEq

namespace TraceMask

def none : TraceMask := {}

def all : TraceMask := ⟨true, true, true, true⟩

def has (m : TraceMask) : EventClass → Bool
  | .run => m.run
  | .instr => m.instr
  | .block => m.block
  | .jump => m.jump

def ofList (cs : List EventClass) : TraceMask :=
  ⟨cs.contains .run, cs.contains .instr, cs.contains .block, cs.contains .jump⟩

def union (m n : TraceMask) : TraceMask :=
  ⟨m.run || n.run, m.instr || n.instr, m.block || n.block, m.jump || n.jump⟩

def contains (m n : TraceMask) : Bool := m.union n == m

/-- Put an event at the head of a log, if its class is recorded. -/
def record (m : TraceMask) (e : Event) (log : List Event) : List Event :=
  if m.has e.class then e :: log else log

end TraceMask

end StackMachine
