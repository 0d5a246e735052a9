import StackMachine.Opcode
import StackMachine.BigEndian

namespace StackMachine

abbrev Code := Array UInt8

def maxOffset : Nat := 0xFFFFFFFF

structure Instr where
  offset : Nat
  opcode : Opcode
  immediate : List UInt8
  next : Nat
  deriving DecidableEq

def Instr.immediate32? (i : Instr) : Option Nat := BigEndian.word32? i.immediate

inductive DecodeError where
  | unknownOpcode (pc : Nat) (byte : UInt8)
  | truncatedImmediate (pc : Nat) (opcode : Opcode) (needed available : Nat)
  | outOfBounds (pc : Nat)
  deriving DecidableEq

def DecodeError.pc : DecodeError → Nat
  | unknownOpcode pc _ => pc
  | truncatedImmediate pc _ _ _ => pc
  | outOfBounds pc => pc

/-- A push whose immediate runs past the end of the code does not decode. Offsets have 32 bits, so
an instruction with no representable next offset is out of bounds. -/
def decodeAt (code : Code) (pc : Nat) : Except DecodeError Instr :=
  match code[pc]? with
  | none => .error (.outOfBounds pc)
  | some byte =>
    match Opcode.ofByte? byte with
    | none => .error (.unknownOpcode pc byte)
    | some opcode =>
      let start := pc + 1
      let needed := opcode.immediateWidth
      let available := code.size - start
      if available < needed then .error (.truncatedImmediate pc opcode needed available)
      else if maxOffset < start + needed then .error (.outOfBounds pc)
      else .ok ⟨pc, opcode, (code.extract start (start + needed)).toList, start + needed⟩

section Decoded

variable {code : Code} {pc : Nat} {i : Instr}

theorem decodeAt_eq_ok_iff : decodeAt code pc = .ok i ↔
    ∃ byte, code[pc]? = some byte ∧ Opcode.ofByte? byte = some i.opcode ∧ i.offset = pc ∧
      i.next = pc + 1 + i.opcode.immediateWidth ∧ i.next ≤ code.size ∧ i.next ≤ maxOffset ∧
      i.immediate = (code.extract (pc + 1) i.next).toList := by
  unfold decodeAt
  split
  · simp [*]
  next byte hb =>
    have hlt : pc < code.size := by
      obtain ⟨h, -⟩ := Array.getElem?_eq_some_iff.mp hb
      exact h
    split
    next hop => rw [hb]; simp [hop]
    next op hop =>
      simp only [hb, Option.some.injEq, exists_eq_left', hop]
      split
      · simp only [reduceCtorEq, false_iff]
        rintro ⟨rfl, -, h, h', -⟩
        omega
      split
      · simp only [reduceCtorEq, false_iff]
        rintro ⟨rfl, -, h, -, h', -⟩
        omega
      · cases i with
        | mk offset opcode immediate next =>
          simp only [Except.ok.injEq, Instr.mk.injEq]
          constructor
          · rintro ⟨rfl, rfl, rfl, rfl⟩
            exact ⟨rfl, rfl, rfl, by omega, by omega, rfl⟩
          · rintro ⟨rfl, rfl, rfl, -, -, rfl⟩
            exact ⟨rfl, rfl, rfl, rfl⟩

theorem decodeAt_offset (h : decodeAt code pc = .ok i) : i.offset = pc := by
  obtain ⟨_, _, _, h, _⟩ := decodeAt_eq_ok_iff.mp h
  exact h

theorem decodeAt_next (h : decodeAt code pc = .ok i) :
    i.next = pc + 1 + i.opcode.immediateWidth := by
  obtain ⟨_, _, _, _, h, _⟩ := decodeAt_eq_ok_iff.mp h
  exact h

theorem decodeAt_next_le (h : decodeAt code pc = .ok i) : i.next ≤ code.size := by
  obtain ⟨_, _, _, _, _, h, _⟩ := decodeAt_eq_ok_iff.mp h
  exact h

theorem lt_next_of_decodeAt (h : decodeAt code pc = .ok i) : pc < i.next := by
  rw [decodeAt_next h]
  omega

end Decoded

end StackMachine
