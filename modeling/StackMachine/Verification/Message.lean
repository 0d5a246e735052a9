import StackMachine.Hex
import StackMachine.JumpTable.Wire
import StackMachine.Verification.Error

namespace StackMachine

def atOffset (pc : Nat) : String := "pc=" ++ toString pc

def TableError.message : TableError → String
  | trailingBytes len =>
    "length " ++ toString len ++ " is not a multiple of " ++ toString JumpTable.entrySize
  | unsorted index => "entry " ++ toString index ++ " is out of order"
  | entryTooLarge index => "entry " ++ toString index ++ " does not fit in u16"

def DecodeError.message : DecodeError → String
  | unknownOpcode pc byte => atOffset pc ++ " unassigned opcode 0x" ++ Hex.ofByteUpper byte
  | truncatedImmediate pc opcode needed available =>
    atOffset pc ++ " " ++ opcode.mnemonic ++ " immediate truncated (needs " ++ toString needed
      ++ " bytes, " ++ toString available ++ " available)"
  | outOfBounds pc => atOffset pc ++ " out of bounds"

def StackError.message : StackError → String
  | underflow depth required =>
    "stack underflow (depth " ++ toString depth ++ ", requires " ++ toString required ++ ")"
  | overflow depth limit =>
    "stack overflow (depth " ++ toString depth ++ ", limit " ++ toString limit ++ ")"

def TableKind.name : TableKind → String
  | jump => "jump table"
  | trap => "trap table"

def JumpTarget.description : JumpTarget → String
  | static (some value) => "static target " ++ toString value
  | static none => "static target wider than u32"
  | unlisted => "dynamic target with no table entry"
  | listed table dst => table.name ++ " destination " ++ toString dst

namespace VerifyError

def message : VerifyError → String
  | codeTooLarge length max =>
    "code length " ++ toString length ++ " exceeds maximum " ++ toString max
  | table kind error => "malformed " ++ kind.name ++ ": " ++ error.message
  | malformedInstruction _ error => "malformed instruction: " ++ error.message
  | unreachableJumpTarget pc target =>
    atOffset pc ++ " unreachable jump target (" ++ target.description ++ ")"
  | stackUnderflow pc depth required =>
    atOffset pc ++ " " ++ (StackError.underflow depth required).message
  | stackOverflow pc depth limit =>
    atOffset pc ++ " " ++ (StackError.overflow depth limit).message
  | depthInconsistency pc recorded observed =>
    atOffset pc ++ " depth inconsistency (recorded " ++ toString recorded ++ ", observed "
      ++ toString observed ++ ")"

def causes : VerifyError → List String
  | table _ error => [error.message]
  | malformedInstruction _ error => [error.message]
  | _ => []

end VerifyError

end StackMachine
