namespace StackMachine.BigEndian

def toNat (bytes : List UInt8) : Nat := bytes.foldl (fun n b => n * 256 + b.toNat) 0

def significant (bytes : List UInt8) : List UInt8 := bytes.dropWhile (· == 0)

def shiftIn (word : UInt32) (b : UInt8) : UInt32 := (word <<< 8) ||| b.toUInt32

/-- The number that the bytes write, if it has at most four significant bytes. -/
def word32? (bytes : List UInt8) : Option Nat :=
  let digits := significant bytes
  if 4 < digits.length then none else some (digits.foldl shiftIn 0).toNat

def ofWord16 (n : Nat) : List UInt8 := [UInt8.ofNat (n / 256), UInt8.ofNat (n % 256)]

def ofWord64 (n : Nat) : List UInt8 :=
  [56, 48, 40, 32, 24, 16, 8, 0].map fun shift => UInt8.ofNat (n >>> shift)

end StackMachine.BigEndian
