import StackMachine.Opcode

namespace StackMachine

structure OpcodeInfo extends Signature where
  mnemonic : String
  isAssigned : Bool
  deriving DecidableEq

namespace OpcodeInfo

def unassigned : OpcodeInfo where
  mnemonic := "<invalid>"
  isAssigned := false
  stackIn := 0
  stackOut := 0

def ofOpcode (op : Opcode) : OpcodeInfo where
  toSignature := op.signature
  mnemonic := op.mnemonic
  isAssigned := true

def ofByte (b : UInt8) : OpcodeInfo :=
  match Opcode.ofByte? b with
  | some op => ofOpcode op
  | none => unassigned

end OpcodeInfo

end StackMachine
