import StackMachine.Instr

namespace StackMachine

/-- An instruction position: an instruction, or the reason why none decodes there. -/
abbrev Item := Except DecodeError Instr

namespace Item

def offset : Item → Nat
  | .ok i => i.offset
  | .error e => e.pc

def opcode? : Item → Option Opcode
  | .ok i => some i.opcode
  | .error (.truncatedImmediate _ opcode _ _) => some opcode
  | .error _ => none

def next (size pc : Nat) : Item → Nat
  | .ok i => i.next
  | .error (.unknownOpcode _ _) => pc + 1
  | .error _ => size

end Item

theorem Item.lt_next {code : Code} {pc : Nat} (h : pc < code.size) :
    pc < Item.next code.size pc (decodeAt code pc) := by
  cases hd : decodeAt code pc with
  | ok i => exact lt_next_of_decodeAt hd
  | error e =>
    cases e with
    | unknownOpcode => exact Nat.lt_succ_self pc
    | truncatedImmediate => exact h
    | outOfBounds => exact h

/-- The items from `pc` on, behind the ones in `earlier`, which come last first. -/
def layoutFrom (code : Code) (pc : Nat) (earlier : List Item) : List Item :=
  if _h : pc < code.size ∧ pc ≤ maxOffset then
    layoutFrom code (Item.next code.size pc (decodeAt code pc)) (decodeAt code pc :: earlier)
  else earlier.reverse
termination_by code.size - pc
decreasing_by
  have := Item.lt_next _h.1
  omega

def layout (code : Code) : List Item := layoutFrom code 0 []

theorem layoutFrom_eq_append (code : Code) (pc : Nat) (earlier : List Item) :
    layoutFrom code pc earlier = earlier.reverse ++ layoutFrom code pc [] := by
  induction hn : code.size - pc using Nat.strongRecOn generalizing pc earlier with
  | ind n ih =>
    by_cases h : pc < code.size ∧ pc ≤ maxOffset
    · have hlt := Item.lt_next h.1
      have hmeasure : code.size - Item.next code.size pc (decodeAt code pc) < n := by omega
      have hnil : layoutFrom code pc [] = layoutFrom code
          (Item.next code.size pc (decodeAt code pc)) [decodeAt code pc] := by
        rw [layoutFrom, dif_pos h]
      rw [hnil, ih _ hmeasure _ [_] rfl, layoutFrom, dif_pos h, ih _ hmeasure _ _ rfl]
      simp
    · rw [layoutFrom, dif_neg h, layoutFrom, dif_neg h]
      simp

theorem layoutFrom_cons {code : Code} {pc : Nat} (h : pc < code.size) (hpc : pc ≤ maxOffset) :
    layoutFrom code pc [] = decodeAt code pc ::
      layoutFrom code (Item.next code.size pc (decodeAt code pc)) [] := by
  rw [layoutFrom, dif_pos ⟨h, hpc⟩, layoutFrom_eq_append]
  simp

end StackMachine
