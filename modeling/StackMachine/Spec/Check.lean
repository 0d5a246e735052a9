import StackMachine.Spec
import StackMachine.Spec.Error

namespace StackMachine

def Spec.byteOfText (text : String) : Except SpecError UInt8 :=
  match HexByte.parse text with
  | .ok byte => .ok byte
  | .error fault => .error (.invalidByte (String.ofList (HexByte.trim text.toList)) fault)

structure Assignment where
  byte : UInt8
  op : OpcodeSpec
  deriving DecidableEq

namespace Assignment

def ofSpec (op : OpcodeSpec) : Except SpecError Assignment :=
  (Spec.byteOfText op.byte).map (⟨·, op⟩)

def le (a b : Assignment) : Bool :=
  decide (a.byte < b.byte) || (a.byte == b.byte && decide (a.op.name ≤ b.op.name))

def repeatedByte? : List Assignment → Option SpecError
  | a :: b :: rest =>
    if a.byte = b.byte then some (.duplicateByte a.byte a.op.name b.op.name)
    else repeatedByte? (b :: rest)
  | _ => none

end Assignment

def repeated? {α : Type} [DecidableEq α] : List α → Option α
  | a :: b :: rest => if a = b then some a else repeated? (b :: rest)
  | _ => none

namespace OpcodeSpec

def fault? (op : OpcodeSpec) : Option SpecError :=
  match op.flags.find? fun flag => (Trait.ofName? flag).isNone with
  | some flag => some (.unknownFlag flag op.name)
  | none =>
    if SpecError.maxImmediate < op.immediate then some (.immediateTooWide op.immediate op.name)
    else if op.immediate ≠ 0 ∧ ¬ op.hasTrait .push then some (.immediateWithoutPush op.name)
    else if op.hasTrait .push ∧ ¬ (op.stackIn = 0 ∧ op.stackOut = 1) then
      some (.pushEffect op.name)
    else if op.hasTrait .dup ∧ op.stackOut ≠ op.stackIn + 1 then some (.dupEffect op.name)
    else if op.hasTrait .swap ∧ (op.stackIn ≠ op.stackOut ∨ op.stackIn < 2) then
      some (.swapEffect op.name)
    else if op.terminator ∧ (op.hasTrait .jump ∨ op.hasTrait .jumpi) then
      some (.terminatingJump op.name)
    else none

end OpcodeSpec

namespace Spec

def refuse (found : Option SpecError) : Except SpecError Unit :=
  match found with
  | some e => .error e
  | none => .ok ()

/-- The opcodes in the order of their bytes, if the specification passes every check but that for
missing docs. -/
def check (spec : Spec) : Except SpecError (List Assignment) := do
  refuse (if spec.version ≠ 1 then some (.unsupportedVersion spec.version) else none)
  let assignments ← spec.opcodes.mapM Assignment.ofSpec
  -- In order, equal bytes are neighbours.
  let ordered := assignments.mergeSort Assignment.le
  refuse (Assignment.repeatedByte? ordered)
  let names := (ordered.map (·.op.name)).mergeSort fun a b => decide (a ≤ b)
  refuse ((repeated? names).map .duplicateName)
  refuse (ordered.findSome? (·.op.fault?))
  return ordered

end Spec

end StackMachine
