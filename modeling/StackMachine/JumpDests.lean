import StackMachine.Layout

namespace StackMachine

/-- One mark for each byte of a code buffer. A `JUMPDEST` byte inside an immediate has none. -/
structure JumpDests where
  marks : Array Bool
  deriving DecidableEq

namespace JumpDests

def note (marks : Array Bool) : Item → Array Bool
  | .ok i => if i.opcode = .jumpdest then marks.setIfInBounds i.offset true else marks
  | .error _ => marks

def ofCode (code : Code) : JumpDests :=
  ⟨(layout code).foldl note (Array.replicate code.size false)⟩

def isValid (d : JumpDests) (offset : Nat) : Bool := d.marks.getD offset false

def count (d : JumpDests) : Nat := d.marks.count true

def codeLength (d : JumpDests) : Nat := d.marks.size

def toList (d : JumpDests) : List Nat := (List.range d.codeLength).filter d.isValid

end JumpDests

end StackMachine
