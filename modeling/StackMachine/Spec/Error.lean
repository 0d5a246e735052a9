import StackMachine.Hex
import StackMachine.Spec.HexByte

namespace StackMachine

inductive SpecError where
  | unsupportedVersion (version : Nat)
  /-- The text of a byte field, without blanks around it, is no byte. -/
  | invalidByte (text : String) (fault : HexByte.Fault)
  | duplicateByte (byte : UInt8) (first second : String)
  | duplicateName (name : String)
  | unknownFlag (flag name : String)
  | immediateTooWide (width : Nat) (name : String)
  | immediateWithoutPush (name : String)
  | pushEffect (name : String)
  | dupEffect (name : String)
  | swapEffect (name : String)
  | terminatingJump (name : String)
  | missingDoc (name : String)
  deriving DecidableEq

namespace SpecError

def maxImmediate : Nat := 32

def message : SpecError → String
  | unsupportedVersion version => "unsupported opcodes.json version " ++ toString version
  | invalidByte text _ => "invalid opcode byte '" ++ text ++ "'"
  | duplicateByte byte first second =>
    "duplicate opcode byte 0x" ++ Hex.ofByteUpper byte ++ ": " ++ first ++ " and " ++ second
  | duplicateName name => "duplicate opcode name '" ++ name ++ "'"
  | unknownFlag flag name => "unknown flag '" ++ flag ++ "' for opcode " ++ name
  | immediateTooWide width name =>
    "immediate width " ++ toString width ++ " for opcode " ++ name ++ " exceeds "
      ++ toString maxImmediate
  | immediateWithoutPush name => "opcode " ++ name ++ " has an immediate but is not push-family"
  | pushEffect name => "push-family opcode " ++ name ++ " must remove 0 and add 1"
  | dupEffect name => "dup opcode " ++ name ++ " must add exactly one item"
  | swapEffect name => "swap opcode " ++ name ++ " must preserve depth"
  | terminatingJump name => "opcode " ++ name ++ " cannot be both a jump and a terminator"
  | missingDoc name => "missing doc for opcode " ++ name

def cause? : SpecError → Option String
  | invalidByte _ fault => some fault.message
  | _ => none

def fullMessage (e : SpecError) : String :=
  match e.cause? with
  | some cause => e.message ++ ": " ++ cause
  | none => e.message

end SpecError

end StackMachine
