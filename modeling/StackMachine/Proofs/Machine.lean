import StackMachine.Proofs.Boundary
import StackMachine.Proofs.JumpTable

namespace StackMachine

abbrev Word := BitVec 256

def Instr.word (i : Instr) : Word := BitVec.ofNat 256 (BigEndian.toNat i.immediate)

/-- The opcodes that run on to the next instruction and whose results are arbitrary words. -/
def Opcode.IsOrdinary : Opcode → Prop
  | .push _ | .pc | .dup _ | .swap _ | .jumpdest | .jump | .jumpi => False
  | op => op.isTerminator = false

namespace Machine

inductive Tag where
  | traced
  | untraced
  deriving DecidableEq

/-- A word, and whether it is traced to a push or a `PC` of the current block. -/
structure Cell where
  word : Word
  tag : Tag
  deriving DecidableEq

def Cell.untrace (c : Cell) : Cell := ⟨c.word, .untraced⟩

structure State where
  pc : Nat
  stack : List Cell
  deriving DecidableEq

structure Program where
  code : Code
  tables : JumpTables
  limit : Nat

inductive Leads (p : Program) (pc : Nat) : Cell → Nat → Prop where
  | traced (w : Word) : Leads p pc ⟨w, .traced⟩ w.toNat
  | listed {w : Word} {dst : Nat} : p.tables.Lists pc dst → Leads p pc ⟨w, .untraced⟩ dst

/-- The machine checks nothing: a state may be at fault, and steps say nothing about it. -/
inductive Step (p : Program) (σ : State) : State → Prop where
  | push {i : Instr} {width : Fin 33} : decodeAt p.code σ.pc = .ok i → i.opcode = .push width →
      Step p σ ⟨i.next, ⟨i.word, .traced⟩ :: σ.stack⟩
  | pc {i : Instr} : decodeAt p.code σ.pc = .ok i → i.opcode = .pc →
      Step p σ ⟨i.next, ⟨BitVec.ofNat 256 σ.pc, .traced⟩ :: σ.stack⟩
  | dup {i : Instr} {index : Fin 16} {c : Cell} : decodeAt p.code σ.pc = .ok i →
      i.opcode = .dup index → σ.stack[index.val]? = some c → Step p σ ⟨i.next, c :: σ.stack⟩
  | swap {i : Instr} {index : Fin 16} {top other : Cell} {between below : List Cell} :
      decodeAt p.code σ.pc = .ok i → i.opcode = .swap index → between.length = index.val →
      σ.stack = top :: (between ++ other :: below) →
      Step p σ ⟨i.next, other :: (between ++ top :: below)⟩
  | jumpdest {i : Instr} : decodeAt p.code σ.pc = .ok i → i.opcode = .jumpdest →
      Step p σ ⟨i.next, σ.stack.map Cell.untrace⟩
  | jump {i : Instr} {target : Cell} {rest : List Cell} {dst : Nat} :
      decodeAt p.code σ.pc = .ok i → i.opcode = .jump → σ.stack = target :: rest →
      Leads p σ.pc target dst → Step p σ ⟨dst, rest.map Cell.untrace⟩
  | branch {i : Instr} {target condition : Cell} {rest : List Cell} {dst : Nat} :
      decodeAt p.code σ.pc = .ok i → i.opcode = .jumpi → σ.stack = target :: condition :: rest →
      Leads p σ.pc target dst → Step p σ ⟨dst, rest.map Cell.untrace⟩
  | fallThrough {i : Instr} {target condition : Cell} {rest : List Cell} :
      decodeAt p.code σ.pc = .ok i → i.opcode = .jumpi → σ.stack = target :: condition :: rest →
      Step p σ ⟨i.next, rest.map Cell.untrace⟩
  | ordinary {i : Instr} {results : List Word} : decodeAt p.code σ.pc = .ok i →
      i.opcode.IsOrdinary → results.length = i.opcode.stackOut →
      Step p σ ⟨i.next, results.map (⟨·, .untraced⟩) ++ σ.stack.drop i.opcode.stackIn⟩

inductive Halted (p : Program) (σ : State) : Prop where
  | atEnd : p.code.size ≤ σ.pc → Halted p σ
  | terminator {i : Instr} : decodeAt p.code σ.pc = .ok i → i.opcode.isTerminator = true →
      Halted p σ

inductive Faults (p : Program) (σ : State) : Prop where
  | malformed {e : DecodeError} : σ.pc < p.code.size → decodeAt p.code σ.pc = .error e →
      Faults p σ
  | underflow {i : Instr} : decodeAt p.code σ.pc = .ok i → σ.stack.length < i.opcode.stackIn →
      Faults p σ
  | overflow {i : Instr} : decodeAt p.code σ.pc = .ok i →
      p.limit < σ.stack.length - i.opcode.stackIn + i.opcode.stackOut → Faults p σ
  | badTarget {i : Instr} {target : Cell} {dst : Nat} : decodeAt p.code σ.pc = .ok i →
      (i.opcode = .jump ∨ i.opcode = .jumpi) → σ.stack.head? = some target →
      Leads p σ.pc target dst → ¬ IsJumpDest p.code dst → Faults p σ
  | noTarget {i : Instr} {target : Cell} : decodeAt p.code σ.pc = .ok i →
      (i.opcode = .jump ∨ i.opcode = .jumpi) → σ.stack.head? = some target →
      (∀ dst, ¬ Leads p σ.pc target dst) → Faults p σ

inductive Reachable (p : Program) : State → Prop where
  | start : Reachable p ⟨0, []⟩
  | step {σ τ : State} : Reachable p σ → Step p σ τ → Reachable p τ

end Machine

end StackMachine
