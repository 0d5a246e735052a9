import StackMachine.JumpTable
import StackMachine.BigEndian

namespace StackMachine.JumpTable

def entrySize : Nat := 4

def word16At (bytes : Array UInt8) (offset : Nat) : Nat :=
  BigEndian.toNat [bytes.getD offset 0, bytes.getD (offset + 1) 0]

def entryAt (bytes : Array UInt8) (offset : Nat) : JumpEntry :=
  ⟨word16At bytes offset, word16At bytes (offset + 2)⟩

def decode (bytes : Array UInt8) : Except TableError JumpTable :=
  if bytes.size % entrySize ≠ 0 then .error (.trailingBytes bytes.size)
  else ofAscending <|
    (List.range (bytes.size / entrySize)).map fun index => entryAt bytes (entrySize * index)

def encodeEntry? (e : JumpEntry) : Option (List UInt8) :=
  if e.src ≤ 0xFFFF ∧ e.dst ≤ 0xFFFF then
    some (BigEndian.ofWord16 e.src ++ BigEndian.ofWord16 e.dst)
  else none

/-- The encoding behind the bytes written so far; `index` is the position of the head. -/
def encodeEntries (index : Nat) (written : Array UInt8) :
    List JumpEntry → Except TableError (Array UInt8)
  | [] => .ok written
  | e :: rest =>
    match encodeEntry? e with
    | some bytes => encodeEntries (index + 1) (written ++ bytes) rest
    | none => .error (.entryTooLarge index)

def encode (t : JumpTable) : Except TableError (Array UInt8) := encodeEntries 0 #[] t.toList

end StackMachine.JumpTable
