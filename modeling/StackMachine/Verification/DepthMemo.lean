namespace StackMachine

structure DepthMemo where
  cells : Array UInt16
  deriving DecidableEq

inductive Visit where
  | first
  | again
  | conflict (recorded : Nat)
  deriving DecidableEq

namespace DepthMemo

def unvisited : UInt16 := 0xFFFF

def new (codeLength : Nat) : DepthMemo := ⟨Array.replicate codeLength unvisited⟩

/-- A depth in 16 bits, of which the largest number stands for "not visited". -/
def cellOf (depth : Nat) : UInt16 := UInt16.ofNat (min depth 0xFFFE)

def get? (m : DepthMemo) (pc : Nat) : Option Nat :=
  match m.cells[pc]? with
  | some cell => if cell = unvisited then none else some cell.toNat
  | none => none

/-- An offset outside the memo has nothing to visit. -/
def visit (m : DepthMemo) (pc depth : Nat) : Visit :=
  match m.cells[pc]? with
  | none => .again
  | some cell =>
    if cell = unvisited then .first
    else if cell.toNat = depth then .again
    else .conflict cell.toNat

def record (m : DepthMemo) (pc depth : Nat) : DepthMemo :=
  ⟨m.cells.setIfInBounds pc (cellOf depth)⟩

def remaining (m : DepthMemo) : Nat := m.cells.count unvisited

theorem cellOf_ne_unvisited (depth : Nat) : cellOf depth ≠ unvisited := by
  intro h
  have hle : min depth 0xFFFE ≤ 0xFFFE := Nat.min_le_right _ _
  have hcell := congrArg UInt16.toNat h
  rw [cellOf, UInt16.toNat_ofNat', Nat.mod_eq_of_lt (by omega)] at hcell
  have : unvisited.toNat = 0xFFFF := rfl
  omega

theorem remaining_record_lt {m : DepthMemo} {pc depth : Nat} (h : m.visit pc depth = .first) :
    (m.record pc depth).remaining < m.remaining := by
  unfold visit at h
  split at h
  · simp at h
  next cell hc =>
    split at h
    next hu =>
      obtain ⟨hlt, hget⟩ := Array.getElem?_eq_some_iff.mp hc
      have hpos : 0 < m.cells.count unvisited :=
        Array.count_pos_iff.mpr (hu ▸ hget ▸ Array.getElem_mem hlt)
      rw [remaining, remaining, record, Array.setIfInBounds_def, dif_pos hlt,
        Array.count_set hlt, hget, hu]
      simp only [beq_self_eq_true, ↓reduceIte, beq_iff_eq, cellOf_ne_unvisited]
      omega
    · split at h <;> simp at h

end DepthMemo

end StackMachine
