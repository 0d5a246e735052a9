import StackMachine.Verification.DepthMemo

namespace StackMachine.DepthMemo

variable {m : DepthMemo} {pc depth : Nat}

theorem get?_of_size_le (h : m.cells.size ≤ pc) : m.get? pc = none := by
  rw [get?, Array.getElem?_eq_none h]

theorem get?_new (codeLength pc : Nat) : (new codeLength).get? pc = none := by
  by_cases h : pc < codeLength
  · simp [get?, new, h]
  · exact get?_of_size_le (by simpa [new] using Nat.le_of_not_lt h)

theorem visit_eq_first_iff : m.visit pc depth = .first ↔ pc < m.cells.size ∧ m.get? pc = none := by
  by_cases h : pc < m.cells.size
  · by_cases hcell : m.cells[pc] = unvisited
    · simp [visit, get?, h, hcell]
    · by_cases hdepth : m.cells[pc].toNat = depth <;> simp [visit, get?, h, hcell, hdepth]
  · simp [visit, h]

/-- What a visit comes to is decided by the depth at its offset. -/
theorem visit_of_lt (hlt : pc < m.cells.size) (depth : Nat) : m.visit pc depth =
    match m.get? pc with
    | none => .first
    | some recorded => if recorded = depth then .again else .conflict recorded := by
  by_cases hcell : m.cells[pc] = unvisited
  · simp [visit, get?, hlt, hcell]
  · simp [visit, get?, hlt, hcell]

theorem get?_of_visit_again (hlt : pc < m.cells.size) (h : m.visit pc depth = .again) :
    m.get? pc = some depth := by
  by_cases hcell : m.cells[pc] = unvisited
  · simp [visit, hlt, hcell] at h
  · by_cases hdepth : m.cells[pc].toNat = depth
    · simp [get?, hlt, hcell, hdepth]
    · simp [visit, hlt, hcell, hdepth] at h

theorem get?_of_visit_conflict {recorded : Nat} (h : m.visit pc depth = .conflict recorded) :
    m.get? pc = some recorded ∧ recorded ≠ depth := by
  by_cases hlt : pc < m.cells.size
  · by_cases hcell : m.cells[pc] = unvisited
    · simp [visit, hlt, hcell] at h
    · by_cases hdepth : m.cells[pc].toNat = depth
      · simp [visit, hlt, hcell, hdepth] at h
      · simp only [visit, hlt, getElem?_pos, hcell, hdepth, ↓reduceIte, Visit.conflict.injEq] at h
        subst h
        simp [get?, hlt, hcell, hdepth]
  · simp [visit, hlt] at h

theorem size_record (m : DepthMemo) (pc depth : Nat) :
    (m.record pc depth).cells.size = m.cells.size :=
  Array.size_setIfInBounds

theorem get?_record_of_lt (hlt : pc < m.cells.size) (depth : Nat) :
    (m.record pc depth).get? pc = some (cellOf depth).toNat := by
  have hcell : (m.record pc depth).cells[pc]? = some (cellOf depth) := by
    simp [record, hlt]
  rw [get?, hcell]
  exact if_neg (cellOf_ne_unvisited depth)

theorem cellOf_of_le (hdepth : depth ≤ 0xFFFE) : cellOf depth = UInt16.ofNat depth := by
  rw [cellOf, Nat.min_eq_left hdepth]

theorem get?_record_self (hlt : pc < m.cells.size) (hdepth : depth ≤ 0xFFFE) :
    (m.record pc depth).get? pc = some depth := by
  rw [get?_record_of_lt hlt, cellOf_of_le hdepth, UInt16.toNat_ofNat', Nat.mod_eq_of_lt (by omega)]

theorem get?_record_of_ne {q : Nat} (h : q ≠ pc) : (m.record pc depth).get? q = m.get? q := by
  have hcell : (m.record pc depth).cells[q]? = m.cells[q]? :=
    Array.getElem?_setIfInBounds_ne (Ne.symm h)
  rw [get?, hcell, get?]

def Holds (m : DepthMemo) (pc : Nat) : Prop := m.get? pc ≠ none

theorem holds_record_self (depth : Nat) (hlt : pc < m.cells.size) :
    (m.record pc depth).Holds pc := by
  rw [Holds, get?_record_of_lt hlt]
  exact Option.some_ne_none _

theorem Holds.record {q : Nat} (h : m.Holds q) (pc depth : Nat) : (m.record pc depth).Holds q := by
  by_cases hq : q = pc
  · subst hq
    refine holds_record_self depth (Nat.lt_of_not_le fun hle => h (get?_of_size_le hle))
  · rw [Holds, get?_record_of_ne hq]
    exact h

/-- A memo is determined by its size and the depths in it. -/
theorem eq_of_get?_eq {m' : DepthMemo} (hsize : m.cells.size = m'.cells.size)
    (h : ∀ pc, m.get? pc = m'.get? pc) : m = m' := by
  have hcells : m.cells = m'.cells := by
    refine Array.ext hsize fun pc hpc hpc' => ?_
    have hget := h pc
    rw [get?, get?, Array.getElem?_eq_getElem hpc, Array.getElem?_eq_getElem hpc'] at hget
    dsimp only at hget
    by_cases hcell : m.cells[pc] = unvisited
    · by_cases hcell' : m'.cells[pc] = unvisited
      · rw [hcell, hcell']
      · rw [if_pos hcell, if_neg hcell'] at hget
        cases hget
    · by_cases hcell' : m'.cells[pc] = unvisited
      · rw [if_neg hcell, if_pos hcell'] at hget
        cases hget
      · rw [if_neg hcell, if_neg hcell'] at hget
        exact UInt16.toNat_inj.mp (Option.some.inj hget)
  cases m
  cases m'
  exact congrArg DepthMemo.mk hcells

end StackMachine.DepthMemo
