import StackMachine.Verification

namespace StackMachine

structure Label where
  id : Nat
  deriving DecidableEq

def Label.maxId : Nat := 0xFFFFFFFF

/-- The label of a slot. Numbers have 32 bits, and the slots from the last number on share it. -/
def Label.ofSlot (slot : Nat) : Label := ⟨min slot maxId⟩

theorem Label.ofSlot_of_le {slot : Nat} (h : slot ≤ maxId) : ofSlot slot = ⟨slot⟩ := by
  rw [ofSlot, Nat.min_eq_left h]

theorem Label.ofSlot_succ_ne_zero (slot : Nat) : ofSlot (slot + 1) ≠ ⟨0⟩ := by
  intro h
  have hid : min (slot + 1) maxId = 0 := congrArg id h
  rw [maxId] at hid
  omega

theorem Label.id_ofSlot_le (slot : Nat) : (ofSlot slot).id ≤ slot := Nat.min_le_left slot maxId

theorem Label.id_ofSlot_lt {slot count : Nat} (h : slot < count) : (ofSlot slot).id < count :=
  Nat.lt_of_le_of_lt (id_ofSlot_le slot) h

/-- The two immediate bytes at `position` wait for the offset of a label. -/
structure Fixup where
  position : Nat
  label : Label
  deriving DecidableEq

inductive UnresolvedLabel where
  | mk
  deriving DecidableEq

inductive AssemblyError where
  | unresolvedLabel
  /-- A referenced label was placed at an offset with more than 16 bits. -/
  | labelOutOfRange (pc : Nat)
  | verify (error : VerifyError)
  deriving DecidableEq

structure Assembler where
  bytes : Array UInt8 := #[]
  labels : Array (Option Nat) := #[]
  fixups : List Fixup := []
  deriving DecidableEq

namespace Assembler

def empty : Assembler := {}

def pc (a : Assembler) : Nat := min a.bytes.size maxOffset

def newLabel (a : Assembler) : Label × Assembler :=
  (.ofSlot a.labels.size, { a with labels := a.labels.push none })

/-- Place a label at the next byte; an earlier placement is forgotten. -/
def place (label : Label) (a : Assembler) : Except UnresolvedLabel Assembler :=
  if label.id < a.labels.size then
    .ok { a with labels := a.labels.setIfInBounds label.id (some a.pc) }
  else .error .mk

def labelPc? (a : Assembler) (label : Label) : Option Nat := a.labels[label.id]?.join

def raw (bytes : List UInt8) (a : Assembler) : Assembler :=
  { a with bytes := a.bytes ++ bytes }

def op (opcode : Opcode) (a : Assembler) : Assembler := a.raw [opcode.toByte]

def wordDigits (value : List UInt8) : List UInt8 :=
  BigEndian.significant (value.drop (value.length - 32))

/-- Write the narrowest push of a big-endian number, of which the low 32 bytes count. -/
def push (value : List UInt8) (a : Assembler) : Assembler :=
  let digits := wordDigits value
  match Opcode.pushOfWidth? digits.length with
  | some opcode => a.raw (opcode.toByte :: digits)
  | none => a.op (.push 0)

def pushNumber (value : Nat) (a : Assembler) : Assembler := a.push (BigEndian.ofWord64 value)

/-- A reference has a fixed width, so that filling it in never moves the code around it. -/
def pushLabel (label : Label) (a : Assembler) : Assembler :=
  let a := a.op (.push 2)
  { a with fixups := ⟨a.bytes.size, label⟩ :: a.fixups }.raw [0, 0]

def jumpdest (label : Label) (a : Assembler) : Except UnresolvedLabel Assembler :=
  (a.place label).map (op .jumpdest)

def jumpTo (label : Label) (a : Assembler) : Assembler := (a.pushLabel label).op .jump

def jumpiTo (label : Label) (a : Assembler) : Assembler := (a.pushLabel label).op .jumpi

/-- Write a jump whose destination is computed at run time; the label marks it as a table
source. -/
def dynamic (opcode : Opcode) (a : Assembler) : Label × Assembler :=
  (.ofSlot a.labels.size, { a with labels := a.labels.push (some a.pc) }.op opcode)

def dynamicJump (a : Assembler) : Label × Assembler := a.dynamic .jump

def dynamicJumpi (a : Assembler) : Label × Assembler := a.dynamic .jumpi

def patch (bytes : Array UInt8) (position value : Nat) : Array UInt8 :=
  (bytes.setIfInBounds position (UInt8.ofNat (value / 256))).setIfInBounds (position + 1)
    (UInt8.ofNat (value % 256))

def fill (a : Assembler) (bytes : Array UInt8) (f : Fixup) : Except AssemblyError (Array UInt8) :=
  match a.labelPc? f.label with
  | none => .error .unresolvedLabel
  | some pc => if 0xFFFF < pc then .error (.labelOutOfRange pc) else .ok (patch bytes f.position pc)

def finish (a : Assembler) : Except AssemblyError Code :=
  a.fixups.reverse.foldlM a.fill a.bytes

def finishChecked (tables : JumpTables) (cfg : Config) (a : Assembler) :
    Except AssemblyError Code := do
  let code ← a.finish
  (verify code tables cfg).mapError .verify
  return code

end Assembler

structure TableBuilder where
  pairs : List (Label × Label) := []
  deriving DecidableEq

namespace TableBuilder

def empty : TableBuilder := {}

def entry (src dst : Label) (b : TableBuilder) : TableBuilder := ⟨(src, dst) :: b.pairs⟩

def entries (src : Label) (dsts : List Label) (b : TableBuilder) : TableBuilder :=
  dsts.foldl (fun b dst => b.entry src dst) b

def resolve (a : Assembler) (pair : Label × Label) : Except UnresolvedLabel JumpEntry :=
  match a.labelPc? pair.1, a.labelPc? pair.2 with
  | some src, some dst => .ok ⟨src, dst⟩
  | _, _ => .error .mk

def build (b : TableBuilder) (a : Assembler) : Except UnresolvedLabel JumpTable :=
  (b.pairs.reverse.mapM (resolve a)).map JumpTable.ofEntries

end TableBuilder

def UnresolvedLabel.message : UnresolvedLabel → String
  | mk => "label was referenced but never placed"

namespace AssemblyError

def message : AssemblyError → String
  | unresolvedLabel => "unresolved label"
  | labelOutOfRange pc => "label at " ++ atOffset pc ++ " does not fit in PUSH2"
  | verify error => "verification failed: " ++ error.message

def causes : AssemblyError → List String
  | verify error => error.message :: error.causes
  | _ => []

end AssemblyError

end StackMachine
