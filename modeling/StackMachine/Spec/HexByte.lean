import StackMachine.Hex

namespace StackMachine.HexByte

def isBlank (c : Char) : Bool :=
  let n := c.toNat
  (0x9 ≤ n && n ≤ 0xD) || n == 0x20 || n == 0x85 || n == 0xA0 || n == 0x1680
    || (0x2000 ≤ n && n ≤ 0x200A) || n == 0x2028 || n == 0x2029 || n == 0x202F || n == 0x205F
    || n == 0x3000

def trim (text : List Char) : List Char :=
  ((text.dropWhile isBlank).reverse.dropWhile isBlank).reverse

def withoutRadix : List Char → List Char
  | '0' :: 'x' :: rest => rest
  | '0' :: 'X' :: rest => rest
  | text => text

inductive Fault where
  | empty
  | invalidDigit
  | tooLarge
  deriving DecidableEq

def Fault.message : Fault → String
  | empty => "cannot parse integer from empty string"
  | invalidDigit => "invalid digit found in string"
  | tooLarge => "number too large to fit in target type"

def readDigits (value : Nat) : List Char → Except Fault Nat
  | [] => .ok value
  | c :: rest =>
    match Hex.digit? c with
    | none => .error .invalidDigit
    | some d => if value * 16 + d < 256 then readDigits (value * 16 + d) rest else .error .tooLarge

/-- A number with an optional plus sign; a sign alone is no number. -/
def readNumber : List Char → Except Fault Nat
  | [] => .error .empty
  | ['+'] => .error .invalidDigit
  | '+' :: digits => readDigits 0 digits
  | digits => readDigits 0 digits

def parse (text : String) : Except Fault UInt8 :=
  (readNumber (withoutRadix (trim text.toList))).map UInt8.ofNat

end StackMachine.HexByte
