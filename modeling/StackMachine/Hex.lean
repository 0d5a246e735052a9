namespace StackMachine.Hex

def lower (b : UInt8) : List Char :=
  [Nat.digitChar (b.toNat / 16), Nat.digitChar (b.toNat % 16)]

def upper (b : UInt8) : List Char := (lower b).map Char.toUpper

def digit? (c : Char) : Option Nat :=
  if '0' ≤ c ∧ c ≤ '9' then some (c.toNat - '0'.toNat)
  else if 'a' ≤ c ∧ c ≤ 'f' then some (c.toNat - 'a'.toNat + 10)
  else if 'A' ≤ c ∧ c ≤ 'F' then some (c.toNat - 'A'.toNat + 10)
  else none

def ofByte (b : UInt8) : String := String.ofList (lower b)

def ofByteUpper (b : UInt8) : String := String.ofList (upper b)

def ofBytes (bytes : List UInt8) : String := String.ofList (bytes.flatMap lower)

end StackMachine.Hex
