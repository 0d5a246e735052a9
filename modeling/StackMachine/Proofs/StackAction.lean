import StackMachine.Opcode

namespace StackMachine

namespace StackAction

variable {α β : Type}

/-- Items that must be live, and items that are there instead of them afterwards. -/
def effect : StackAction → Nat × Nat
  | push => (0, 1)
  | dup n => (n, n + 1)
  | swap n => (n + 1, n + 1)
  | replace remove add => (remove, add)

/-- A duplication counts the top as the first item. -/
def CountsFromOne : StackAction → Prop
  | dup n => 0 < n
  | _ => True

theorem exchange_of_lt {n : Nat} {items : List α} (h : n < items.length) :
    exchange n items = (items.set 0 items[n]).set n items[0] := by
  rw [exchange, List.getElem?_eq_getElem h, List.getElem?_eq_getElem (by omega)]

theorem exchange_append (top other : α) (between below : List α) :
    exchange (between.length + 1) (top :: (between ++ other :: below)) =
      other :: (between ++ top :: below) := by
  simp [exchange]

theorem length_exchange (n : Nat) (items : List α) :
    (exchange n items).length = items.length := by
  unfold exchange
  split <;> simp

theorem map_exchange (f : α → β) (n : Nat) (items : List α) :
    (exchange n items).map f = exchange n (items.map f) := by
  by_cases h : n < items.length
  · rw [exchange_of_lt h, exchange_of_lt (by simpa using h)]
    simp [List.map_set]
  · have hnone : items[n]? = none := List.getElem?_eq_none (Nat.le_of_not_lt h)
    simp [exchange, hnone]

theorem length_onList {a : StackAction} (unknown literal : α) {items : List α}
    (h : a.effect.1 ≤ items.length) :
    (a.onList unknown literal items).length = items.length - a.effect.1 + a.effect.2 := by
  cases a with
  | push => simp [onList, effect]
  | dup n =>
    simp only [effect] at h
    simp only [onList, effect, List.length_cons]
    omega
  | swap n =>
    simp only [effect] at h
    simp only [onList, effect, length_exchange]
    omega
  | replace remove add =>
    simp only [onList, effect, List.length_append, List.length_replicate, List.length_drop]
    omega

theorem map_onList (f : α → β) (a : StackAction) (unknown literal : α) (items : List α) :
    (a.onList unknown literal items).map f = a.onList (f unknown) (f literal) (items.map f) := by
  cases a with
  | push => rfl
  | dup n => simp [onList, List.getD_eq_getElem?_getD, Option.getD_map]
  | swap n => exact map_exchange f n items
  | replace remove add => simp [onList, List.map_drop]

end StackAction

namespace Opcode

variable {op : Opcode} {a : StackAction}

theorem effect_of_role (h : op.role = .compute a) : a.effect = op.stackEffect := by
  cases op <;> cases h <;> rfl

theorem countsFromOne_of_role (h : op.role = .compute a) : a.CountsFromOne := by
  cases op with
  | dup i =>
    cases h
    exact Nat.succ_pos i.val
  | _ => cases h <;> exact trivial

theorem role_eq_jump_iff : op.role = .jump ↔ op = .jump := by
  cases op <;> simp [role]

theorem role_eq_branch_iff : op.role = .branch ↔ op = .jumpi := by
  cases op <;> simp [role]

theorem role_eq_mark_iff : op.role = .mark ↔ op = .jumpdest := by
  cases op <;> simp [role]

theorem stackOut_of_isTerminator (h : op.isTerminator = true) : op.stackOut = 0 := by
  cases op <;> first | rfl | cases h

end Opcode

end StackMachine
