import StackMachine.Hex
import StackMachine.Verification

namespace StackMachine

def fourDigits (n : Nat) : String :=
  let digits := toString n
  String.ofList (List.replicate (4 - digits.length) '0') ++ digits

def Item.text : Item → String
  | .ok i =>
    if i.immediate.isEmpty then i.opcode.mnemonic
    else i.opcode.mnemonic ++ " 0x" ++ Hex.ofBytes i.immediate
  | .error (.unknownOpcode _ byte) => "<unassigned 0x" ++ Hex.ofByte byte ++ ">"
  | .error (.truncatedImmediate _ opcode needed available) =>
    opcode.mnemonic ++ " <truncated: " ++ toString available ++ " of " ++ toString needed
      ++ " bytes>"
  | .error (.outOfBounds _) => "<out of bounds>"

def Item.line (item : Item) : String := fourDigits item.offset ++ ": " ++ item.text

def TableKind.tag : TableKind → String
  | jump => "jump"
  | trap => "trap"

def Lookup.annotation (l : Lookup) : String :=
  " ;" ++ String.join (l.destinations.map fun d => " " ++ d.1.tag ++ "->" ++ fourDigits d.2)

structure Listing where
  code : Code
  items : List Item
  tables : Option JumpTables

namespace Listing

def ofCode (code : Code) : Listing := ⟨code, layout code, none⟩

def withTables (code : Code) (tables : JumpTables) : Listing := ⟨code, layout code, some tables⟩

def ofVerified (v : VerifiedCode) : Listing := withTables v.code v.tables

def listed? (l : Listing) (pc : Nat) : Option Lookup := l.tables.map (·.lookup pc)

/-- The annotation of an item: only jumps with listed destinations have one. -/
def annotation (l : Listing) (item : Item) : String :=
  if item.opcode? = some .jump ∨ item.opcode? = some .jumpi then
    match l.listed? item.offset with
    | some lookup => if lookup.isListed then lookup.annotation else ""
    | none => ""
  else ""

def lines (l : Listing) : List String := l.items.map fun item => item.line ++ l.annotation item

def text (l : Listing) : String := String.join (l.lines.map (· ++ "\n"))

end Listing

end StackMachine
