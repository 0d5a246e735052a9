import StackMachine.Instr
import StackMachine.JumpTable
import StackMachine.Stack

namespace StackMachine

inductive JumpTarget where
  /-- A known constant that is no valid destination; no value if it exceeds 32 bits. -/
  | static (value : Option Nat)
  | unlisted
  | listed (table : TableKind) (dst : Nat)
  deriving DecidableEq

inductive VerifyError where
  | codeTooLarge (length max : Nat)
  | table (table : TableKind) (error : TableError)
  | malformedInstruction (pc : Nat) (error : DecodeError)
  | unreachableJumpTarget (pc : Nat) (target : JumpTarget)
  | stackUnderflow (pc depth required : Nat)
  | stackOverflow (pc depth limit : Nat)
  | depthInconsistency (pc recorded observed : Nat)
  deriving DecidableEq

inductive ErrorKind where
  | malformedInstruction
  | unreachableJumpTarget
  | stackUnderflow
  | stackOverflow
  | depthInconsistency
  | limits
  | table
  deriving DecidableEq

namespace VerifyError

def kind : VerifyError → ErrorKind
  | codeTooLarge _ _ => .limits
  | table _ _ => .table
  | malformedInstruction _ _ => .malformedInstruction
  | unreachableJumpTarget _ _ => .unreachableJumpTarget
  | stackUnderflow _ _ _ => .stackUnderflow
  | stackOverflow _ _ _ => .stackOverflow
  | depthInconsistency _ _ _ => .depthInconsistency

def pc? : VerifyError → Option Nat
  | codeTooLarge _ _ => none
  | table _ _ => none
  | malformedInstruction pc _ => some pc
  | unreachableJumpTarget pc _ => some pc
  | stackUnderflow pc _ _ => some pc
  | stackOverflow pc _ _ => some pc
  | depthInconsistency pc _ _ => some pc

def ofStack (pc : Nat) : StackError → VerifyError
  | .underflow depth required => .stackUnderflow pc depth required
  | .overflow depth limit => .stackOverflow pc depth limit

end VerifyError

end StackMachine
