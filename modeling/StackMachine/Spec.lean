import StackMachine.Json.Value
import StackMachine.Signature

namespace StackMachine

structure OpcodeSpec where
  name : String
  mnemonic : String
  byte : String
  stackIn : Nat
  stackOut : Nat
  immediate : Nat
  terminator : Bool
  flags : List String
  doc : Option String
  deriving DecidableEq

structure Spec where
  version : Nat
  opcodes : List OpcodeSpec
  deriving DecidableEq

namespace OpcodeSpec

def hasTrait (op : OpcodeSpec) (t : Trait) : Bool := op.flags.contains t.name

def traits (op : OpcodeSpec) : TraitSet := TraitSet.ofList (Trait.all.filter op.hasTrait)

def signature (op : OpcodeSpec) : Signature where
  stackIn := op.stackIn
  stackOut := op.stackOut
  immediate := op.immediate
  terminator := op.terminator
  traits := op.traits

open Json

def optionalText? : Option Value → Option (Option String)
  | none => some none
  | some .null => some none
  | some value => value.asText?.map some

def byteField? (value : Option Value) : Option Nat := value.bind (Value.asNatural? 256)

def textField? (value : Option Value) : Option String := value.bind Value.asText?

def ofValue? (value : Value) : Option OpcodeSpec := do
  let fields ← value.fields? ["name", "mnemonic", "byte", "stack_in", "stack_out", "immediate",
    "terminator", "flags", "doc"]
  match fields with
  | [name, mnemonic, byte, stackIn, stackOut, immediate, terminator, flags, doc] =>
    some {
      name := ← textField? name
      mnemonic := ← textField? mnemonic
      byte := ← textField? byte
      stackIn := ← byteField? stackIn
      stackOut := ← byteField? stackOut
      immediate := ← byteField? immediate
      terminator := ← terminator.bind Value.asBool?
      flags := ← (← flags.bind Value.asArray?).mapM Value.asText?
      doc := ← optionalText? doc }
  | _ => none

end OpcodeSpec

namespace Spec

open Json

def ofValue? (value : Value) : Option Spec := do
  match ← value.fields? ["version", "opcodes"] with
  | [version, opcodes] =>
    some {
      version := ← version.bind (Value.asNatural? 0x100000000)
      opcodes := ← (← opcodes.bind Value.asArray?).mapM OpcodeSpec.ofValue? }
  | _ => none

def ofText? (text : String) : Option Spec := (parse? text).bind ofValue?

end Spec

end StackMachine
