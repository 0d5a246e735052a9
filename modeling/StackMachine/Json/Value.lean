import StackMachine.Json.Token

namespace StackMachine.Json

/-- Members of an object keep their order and may repeat a key. Strings keep their escapes, because
a string that nobody reads may hold a lone surrogate. -/
inductive Value where
  | null
  | bool (value : Bool)
  | natural (value : Nat)
  | otherNumber
  | string (pieces : List StringPiece)
  | array (items : List Value)
  | object (members : List (List StringPiece × Value))

inductive Frame where
  | array (earlier : List Value)
  | object (earlier : List (List StringPiece × Value)) (key : List StringPiece)

inductive Want where
  | value
  | item
  | key (earlier : List (List StringPiece × Value))
  | colon (earlier : List (List StringPiece × Value)) (key : List StringPiece)
  | separator (last : Value)

structure Parser where
  want : Want
  frames : List Frame

namespace Parser

def value? (frames : List Frame) : Token → Option Parser
  | .null => some ⟨.separator .null, frames⟩
  | .bool b => some ⟨.separator (.bool b), frames⟩
  | .natural n => some ⟨.separator (.natural n), frames⟩
  | .otherNumber => some ⟨.separator .otherNumber, frames⟩
  | .string s => some ⟨.separator (.string s), frames⟩
  | .openBracket => some ⟨.item, frames⟩
  | .openBrace => some ⟨.key [], frames⟩
  | _ => none

def separator? (last : Value) (frames : List Frame) (token : Token) : Option Parser :=
  match frames, token with
  | .array earlier :: frames, .comma => some ⟨.value, .array (last :: earlier) :: frames⟩
  | .array earlier :: frames, .closeBracket =>
    some ⟨.separator (.array (last :: earlier).reverse), frames⟩
  | .object earlier key :: frames, .comma => some ⟨.key ((key, last) :: earlier), frames⟩
  | .object earlier key :: frames, .closeBrace =>
    some ⟨.separator (.object ((key, last) :: earlier).reverse), frames⟩
  | _, _ => none

def step? (p : Parser) (token : Token) : Option Parser :=
  match p.want, token with
  | .value, token => value? p.frames token
  | .item, .closeBracket => some ⟨.separator (.array []), p.frames⟩
  | .item, token => value? (.array [] :: p.frames) token
  | .key [], .closeBrace => some ⟨.separator (.object []), p.frames⟩
  | .key earlier, .string key => some ⟨.colon earlier key, p.frames⟩
  | .colon earlier key, .colon => some ⟨.value, .object earlier key :: p.frames⟩
  | .separator last, token => separator? last p.frames token
  | _, _ => none

def finish? (p : Parser) : Option Value :=
  match p.want, p.frames with
  | .separator value, [] => some value
  | _, _ => none

end Parser

def parse? (text : String) : Option Value :=
  (tokens? text.toList).bind fun tokens =>
    (tokens.foldlM Parser.step? ⟨.value, []⟩).bind Parser.finish?

def isHighSurrogate (unit : Nat) : Bool := 0xD800 ≤ unit && unit < 0xDC00

def isLowSurrogate (unit : Nat) : Bool := 0xDC00 ≤ unit && unit < 0xE000

/-- The characters of a string. A high surrogate has to come right before a low one. -/
def characters? : List StringPiece → Option (List Char)
  | [] => some []
  | .char c :: rest => (characters? rest).map (c :: ·)
  | .unit high :: .unit low :: rest =>
    if isHighSurrogate high then
      if isLowSurrogate low then
        (characters? rest).map
          (Char.ofNat (0x10000 + (high - 0xD800) * 0x400 + (low - 0xDC00)) :: ·)
      else none
    else if isLowSurrogate high then none
    else (characters? (.unit low :: rest)).map (Char.ofNat high :: ·)
  | .unit high :: rest =>
    if isHighSurrogate high || isLowSurrogate high then none
    else (characters? rest).map (Char.ofNat high :: ·)

def text? (pieces : List StringPiece) : Option String := (characters? pieces).map String.ofList

namespace Value

def asText? : Value → Option String
  | string pieces => text? pieces
  | _ => none

def asNatural? (bound : Nat) : Value → Option Nat
  | natural n => if n < bound then some n else none
  | _ => none

def asBool? : Value → Option Bool
  | bool b => some b
  | _ => none

def asArray? : Value → Option (List Value)
  | array items => some items
  | _ => none

/-- The value of a field among members with readable keys; `some none` if there is none, nothing
if there are two. -/
def field? (members : List (String × Value)) (name : String) : Option (Option Value) :=
  match members.filter (·.1 == name) with
  | [] => some none
  | [(_, value)] => some (some value)
  | _ => none

/-- The fields of a record, by name. An object has each of them at most once, among others; an
array has exactly these fields, in order. -/
def fields? (names : List String) : Value → Option (List (Option Value))
  | object members => do
    let members ← members.mapM fun m => (text? m.1).map fun key => (key, m.2)
    names.mapM (field? members)
  | array items => if items.length = names.length then some (items.map some) else none
  | _ => none

end Value

end StackMachine.Json
