import StackMachine.Hex

namespace StackMachine.Json

inductive StringPiece where
  | char (c : Char)
  /-- A 16-bit unit that was written as `\u` and four digits. -/
  | unit (value : Nat)
  deriving DecidableEq

inductive Token where
  | openBrace
  | closeBrace
  | openBracket
  | closeBracket
  | comma
  | colon
  | null
  | bool (value : Bool)
  | natural (value : Nat)
  | otherNumber
  | string (pieces : List StringPiece)
  deriving DecidableEq

inductive NumberPhase where
  | sign
  | zero
  | digits
  | point
  | fraction
  | exponent
  | exponentSign
  | exponentDigits
  deriving DecidableEq

structure NumberText where
  phase : NumberPhase
  value : Nat
  plain : Bool
  deriving DecidableEq

inductive LexerMode where
  | between
  | string (pieces : List StringPiece)
  | escape (pieces : List StringPiece)
  | unit (pieces : List StringPiece) (missing value : Nat)
  | number (text : NumberText)
  /-- Inside a word whose rest is known. -/
  | word (rest : List Char) (token : Token)

structure Lexer where
  mode : LexerMode
  tokens : List Token

namespace Lexer

def isBlank (c : Char) : Bool := c == ' ' || c == '\t' || c == '\n' || c == '\r'

def decimalDigit? (c : Char) : Option Nat :=
  if '0' ≤ c ∧ c ≤ '9' then some (c.toNat - '0'.toNat) else none

def escaped? : Char → Option Char
  | '"' => some '"'
  | '\\' => some '\\'
  | '/' => some '/'
  | 'b' => some '\x08'
  | 'f' => some '\x0c'
  | 'n' => some '\n'
  | 'r' => some '\r'
  | 't' => some '\t'
  | _ => none

def continueNumber? (n : NumberText) (c : Char) : Option NumberText :=
  match n.phase, decimalDigit? c with
  | .sign, some 0 => some { n with phase := .zero }
  | .sign, some d => some { n with phase := .digits, value := d }
  | .digits, some d => some { n with value := n.value * 10 + d }
  | .point, some _ => some { n with phase := .fraction }
  | .fraction, some _ => some n
  | .exponent, some _ => some { n with phase := .exponentDigits }
  | .exponentSign, some _ => some { n with phase := .exponentDigits }
  | .exponentDigits, some _ => some n
  | .zero, none | .digits, none =>
    if c = '.' then some { n with phase := .point, plain := false }
    else if c = 'e' ∨ c = 'E' then some { n with phase := .exponent, plain := false }
    else none
  | .fraction, none =>
    if c = 'e' ∨ c = 'E' then some { n with phase := .exponent, plain := false } else none
  | .exponent, none => if c = '+' ∨ c = '-' then some { n with phase := .exponentSign } else none
  | _, _ => none

def numberToken? (n : NumberText) : Option Token :=
  match n.phase with
  | .zero | .digits | .fraction | .exponentDigits =>
    some (if n.plain then .natural n.value else .otherNumber)
  | _ => none

def begin? (tokens : List Token) (c : Char) : Option Lexer :=
  if isBlank c then some ⟨.between, tokens⟩
  else match c with
    | '\x7b' => some ⟨.between, .openBrace :: tokens⟩
    | '\x7d' => some ⟨.between, .closeBrace :: tokens⟩
    | '[' => some ⟨.between, .openBracket :: tokens⟩
    | ']' => some ⟨.between, .closeBracket :: tokens⟩
    | ',' => some ⟨.between, .comma :: tokens⟩
    | ':' => some ⟨.between, .colon :: tokens⟩
    | '"' => some ⟨.string [], tokens⟩
    | 'n' => some ⟨.word ['u', 'l', 'l'] .null, tokens⟩
    | 't' => some ⟨.word ['r', 'u', 'e'] (.bool true), tokens⟩
    | 'f' => some ⟨.word ['a', 'l', 's', 'e'] (.bool false), tokens⟩
    | '-' => some ⟨.number ⟨.sign, 0, false⟩, tokens⟩
    | '0' => some ⟨.number ⟨.zero, 0, true⟩, tokens⟩
    | c => (decimalDigit? c).map fun d => ⟨.number ⟨.digits, d, true⟩, tokens⟩

def step? (l : Lexer) (c : Char) : Option Lexer :=
  match l.mode with
  | .between => begin? l.tokens c
  | .string pieces =>
    if c = '"' then some ⟨.between, .string pieces.reverse :: l.tokens⟩
    else if c = '\\' then some ⟨.escape pieces, l.tokens⟩
    else if c.toNat < 0x20 then none
    else some ⟨.string (.char c :: pieces), l.tokens⟩
  | .escape pieces =>
    if c = 'u' then some ⟨.unit pieces 4 0, l.tokens⟩
    else (escaped? c).map fun e => ⟨.string (.char e :: pieces), l.tokens⟩
  | .unit pieces missing value =>
    (Hex.digit? c).map fun d =>
      let value := value * 16 + d
      if missing ≤ 1 then ⟨.string (.unit value :: pieces), l.tokens⟩
      else ⟨.unit pieces (missing - 1) value, l.tokens⟩
  | .number n =>
    match continueNumber? n c with
    | some n => some ⟨.number n, l.tokens⟩
    | none => (numberToken? n).bind fun token => begin? (token :: l.tokens) c
  | .word rest token =>
    match rest with
    | [] => none
    | [last] => if c = last then some ⟨.between, token :: l.tokens⟩ else none
    | next :: rest => if c = next then some ⟨.word rest token, l.tokens⟩ else none

def finish? (l : Lexer) : Option (List Token) :=
  match l.mode with
  | .between => some l.tokens.reverse
  | .number n => (numberToken? n).map fun token => (token :: l.tokens).reverse
  | _ => none

end Lexer

/-- The tokens of a text, if it is made of tokens and blanks. -/
def tokens? (text : List Char) : Option (List Token) :=
  (text.foldlM Lexer.step? ⟨.between, []⟩).bind Lexer.finish?

end StackMachine.Json
