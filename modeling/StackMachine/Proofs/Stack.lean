import StackMachine.Stack
import StackMachine.Proofs.StackAction

namespace StackMachine.SymbolicStack

variable {s : SymbolicStack}

/-- The live values, the top first. -/
def items (s : SymbolicStack) : List SlotValue := ((List.range s.depth).map s.read).reverse

structure WellFormed (s : SymbolicStack) : Prop where
  depth_le : s.depth ≤ s.limit
  stamp_le : ∀ slot ∈ s.slots, slot.epoch ≤ s.epoch
  epoch_pos : 0 < s.epoch

@[simp] theorem length_items (s : SymbolicStack) : s.items.length = s.depth := by
  simp [items]

theorem getElem_items {k : Nat} (h : k < s.items.length) :
    s.items[k] = s.read (s.depth - 1 - k) := by
  simp [items]

theorem topmost_eq_take (s : SymbolicStack) (n : Nat) : s.topmost n = s.items.take n := by
  apply List.ext_getElem
  · simp [topmost]
  · intro k hk hk'
    rw [List.getElem_take, getElem_items]
    simp [topmost]

theorem read_eq_unknown {j : Nat} (h : ∀ slot ∈ s.slots, slot.epoch ≠ s.epoch) :
    s.read j = .unknown := by
  rw [read]
  cases hget : s.slots[j]? with
  | none => rfl
  | some slot =>
    obtain ⟨hlt, hslot⟩ := Array.getElem?_eq_some_iff.mp hget
    have hmem : slot ∈ s.slots := hslot ▸ Array.getElem_mem hlt
    exact if_neg (h slot hmem)

theorem items_eq_replicate (h : ∀ slot ∈ s.slots, slot.epoch ≠ s.epoch) :
    s.items = List.replicate s.depth .unknown := by
  apply List.ext_getElem
  · simp
  · intro k hk _
    rw [getElem_items hk, read_eq_unknown h, List.getElem_replicate]

section New

variable (limit : Nat)

theorem limit_new : (new limit).limit = min limit stackCapacity := by
  simp [new, SymbolicStack.limit]

/-- Every depth of a stack has a cell of the memo. -/
theorem min_stackCapacity_le : min limit stackCapacity ≤ 0xFFFE :=
  Nat.le_trans (Nat.min_le_right _ _) (by decide)

theorem wellFormed_new : (new limit).WellFormed where
  depth_le := Nat.zero_le _
  stamp_le slot hslot := by
    obtain ⟨_, rfl⟩ := Array.mem_replicate.mp hslot
    exact Nat.zero_le _
  epoch_pos := Nat.zero_lt_one

end New

section Blocks

theorem depth_enterBlock (s : SymbolicStack) : s.enterBlock.depth = s.depth := by
  unfold enterBlock
  split <;> rfl

theorem limit_enterBlock (s : SymbolicStack) : s.enterBlock.limit = s.limit := by
  unfold enterBlock
  split
  · exact Array.size_replicate
  · rfl

theorem epoch_enterBlock_le (h : s.epoch ≤ lastEpoch) : s.enterBlock.epoch ≤ lastEpoch := by
  unfold enterBlock
  split
  · exact Nat.succ_le_of_lt (Nat.zero_lt_succ _)
  next hne => exact Nat.lt_of_le_of_ne h hne

/-- A block begins with stamps that are all older than its epoch. -/
theorem stamp_lt_enterBlock (hs : ∀ slot ∈ s.slots, slot.epoch ≤ s.epoch) :
    ∀ slot ∈ s.enterBlock.slots, slot.epoch < s.enterBlock.epoch := by
  intro slot hslot
  unfold enterBlock at hslot ⊢
  split at hslot
  next hlast =>
    rw [if_pos hlast]
    obtain ⟨_, rfl⟩ := Array.mem_replicate.mp hslot
    exact Nat.zero_lt_one
  next hlast =>
    rw [if_neg hlast]
    exact Nat.lt_succ_of_le (hs slot hslot)

theorem WellFormed.enterBlock (hs : s.WellFormed) : s.enterBlock.WellFormed where
  depth_le := by
    rw [depth_enterBlock, limit_enterBlock]
    exact hs.depth_le
  stamp_le slot hslot := Nat.le_of_lt (stamp_lt_enterBlock hs.stamp_le slot hslot)
  epoch_pos := by
    unfold SymbolicStack.enterBlock
    split
    · exact Nat.zero_lt_one
    · exact Nat.succ_pos _

theorem items_enterBlock (hs : s.WellFormed) :
    s.enterBlock.items = List.replicate s.depth .unknown := by
  rw [← depth_enterBlock]
  apply items_eq_replicate
  intro slot hslot
  exact Nat.ne_of_lt (stamp_lt_enterBlock hs.stamp_le slot hslot)

theorem reset_of_le {depth : Nat} (h : depth ≤ s.limit) :
    s.reset depth = .ok { s with depth := depth }.enterBlock :=
  if_neg (Nat.not_lt.mpr h)

theorem WellFormed.withDepth (hs : s.WellFormed) {depth : Nat} (h : depth ≤ s.limit) :
    { s with depth := depth }.WellFormed :=
  ⟨h, hs.stamp_le, hs.epoch_pos⟩

end Blocks

section Writes

theorem limit_write (s : SymbolicStack) (i : Nat) (v : SlotValue) :
    (s.write i v).limit = s.limit :=
  Array.size_setIfInBounds

theorem read_write (s : SymbolicStack) {i j : Nat} (v : SlotValue) (hi : i < s.limit) :
    (s.write i v).read j = if i = j then v else s.read j := by
  by_cases h : i = j
  · subst h
    have hi' : i < s.slots.size := hi
    simp [read, write, hi']
  · have hslot : (s.write i v).slots[j]? = s.slots[j]? := Array.getElem?_setIfInBounds_ne h
    rw [if_neg h, read, read, hslot]
    rfl

theorem WellFormed.write (hs : s.WellFormed) (i : Nat) (v : SlotValue) :
    (s.write i v).WellFormed where
  depth_le := by
    rw [limit_write]
    exact hs.depth_le
  stamp_le slot hslot := by
    obtain h | rfl := Array.mem_or_eq_of_mem_setIfInBounds hslot
    · exact hs.stamp_le slot h
    · exact Nat.le_refl _
  epoch_pos := hs.epoch_pos

theorem limit_put (s : SymbolicStack) (v : SlotValue) : (s.put v).limit = s.limit :=
  limit_write s s.depth v

theorem WellFormed.put (hs : s.WellFormed) (v : SlotValue) (h : s.depth < s.limit) :
    (s.put v).WellFormed where
  depth_le := by
    rw [limit_put]
    exact h
  stamp_le := (hs.write s.depth v).stamp_le
  epoch_pos := hs.epoch_pos

theorem items_put (v : SlotValue) (h : s.depth < s.limit) : (s.put v).items = v :: s.items := by
  have hread (j : Nat) : (s.put v).read j = if s.depth = j then v else s.read j :=
    read_write s v h
  have hbelow : (List.range s.depth).map (s.put v).read = (List.range s.depth).map s.read := by
    apply List.map_congr_left
    intro j hj
    rw [hread, if_neg (Nat.ne_of_gt (List.mem_range.mp hj))]
  have hdepth : (s.put v).depth = s.depth + 1 := rfl
  rw [items, hdepth, List.range_succ, List.map_append, hbelow, List.reverse_append, items]
  simp [hread]

theorem limit_putUnknowns (s : SymbolicStack) (n : Nat) : (s.putUnknowns n).limit = s.limit := by
  induction n generalizing s with
  | zero => rfl
  | succ n ih => rw [putUnknowns, ih, limit_put]

theorem depth_putUnknowns (s : SymbolicStack) (n : Nat) :
    (s.putUnknowns n).depth = s.depth + n := by
  induction n generalizing s with
  | zero => rfl
  | succ n ih =>
    rw [putUnknowns, ih]
    exact Nat.succ_add_eq_add_succ s.depth n

theorem epoch_putUnknowns (s : SymbolicStack) (n : Nat) : (s.putUnknowns n).epoch = s.epoch := by
  induction n generalizing s with
  | zero => rfl
  | succ n ih => exact ih (s.put .unknown)

theorem WellFormed.putUnknowns (hs : s.WellFormed) {n : Nat} (h : s.depth + n ≤ s.limit) :
    (s.putUnknowns n).WellFormed := by
  induction n generalizing s with
  | zero => exact hs
  | succ n ih =>
    refine ih (hs.put .unknown (by omega)) ?_
    rw [limit_put]
    change s.depth + 1 + n ≤ s.limit
    omega

theorem items_putUnknowns {n : Nat} (h : s.depth + n ≤ s.limit) :
    (s.putUnknowns n).items = List.replicate n .unknown ++ s.items := by
  induction n generalizing s with
  | zero => rfl
  | succ n ih =>
    have hroom : (s.put .unknown).depth + n ≤ (s.put .unknown).limit := by
      rw [limit_put]
      change s.depth + 1 + n ≤ s.limit
      omega
    rw [putUnknowns, ih hroom, items_put _ (by omega), List.replicate_succ', List.append_assoc,
      List.singleton_append]

theorem WellFormed.drop (hs : s.WellFormed) (n : Nat) : (s.drop n).WellFormed :=
  ⟨Nat.le_trans (Nat.sub_le _ _) hs.depth_le, hs.stamp_le, hs.epoch_pos⟩

theorem items_drop (s : SymbolicStack) (n : Nat) : (s.drop n).items = s.items.drop n := by
  apply List.ext_getElem
  · simp [drop]
  · intro k hk hk'
    rw [getElem_items hk, List.getElem_drop, getElem_items]
    change s.read (s.depth - n - 1 - k) = _
    congr 1
    omega

theorem head?_items (h : 0 < s.depth) : s.items.head? = some (s.read (s.depth - 1)) := by
  rw [List.head?_eq_getElem?, List.getElem?_eq_getElem (by simpa using h), getElem_items]
  rfl

theorem headD_items (h : 0 < s.depth) : s.items.headD .unknown = s.read (s.depth - 1) := by
  rw [List.headD_eq_head?_getD, head?_items h]
  rfl

theorem WellFormed.exchange (hs : s.WellFormed) (n : Nat) : (s.exchange n).WellFormed :=
  (hs.write _ _).write _ _

theorem limit_exchange (s : SymbolicStack) (n : Nat) : (s.exchange n).limit = s.limit := by
  rw [exchange, limit_write, limit_write]

theorem items_exchange (hs : s.WellFormed) {n : Nat} (h : n < s.depth) :
    (s.exchange n).items = StackAction.exchange n s.items := by
  have hle := hs.depth_le
  have hread (j : Nat) : (s.exchange n).read j =
      if s.depth - 1 - n = j then s.read (s.depth - 1)
      else if s.depth - 1 = j then s.read (s.depth - 1 - n) else s.read j := by
    rw [exchange, read_write _ _ (by rw [limit_write]; omega), read_write _ _ (by omega)]
  have hdepth : (s.exchange n).depth = s.depth := rfl
  rw [StackAction.exchange_of_lt (by simpa using h)]
  apply List.ext_getElem
  · simp [hdepth]
  · intro k hk _
    have hk' : k < s.depth := by simpa [hdepth] using hk
    rw [getElem_items hk, hdepth, hread, List.getElem_set, List.getElem_set]
    simp only [getElem_items]
    by_cases hn : n = k
    · rw [if_pos (by omega), if_pos hn]
      rfl
    · rw [if_neg (by omega), if_neg hn]
      by_cases h0 : 0 = k
      · rw [if_pos (by omega), if_pos h0]
      · rw [if_neg (by omega), if_neg h0]

end Writes

section Actions

variable {a : StackAction}

theorem shortage?_eq (s : SymbolicStack) (n : Nat) :
    s.shortage? n = if s.depth < n then some (.underflow s.depth n) else none := rfl

theorem refused?_eq (s : SymbolicStack) (remove add : Nat) : s.refused? remove add =
    if s.depth < remove then some (.underflow s.depth remove)
    else if s.limit < s.depth - remove + add then some (.overflow s.depth s.limit)
    else none := by
  rw [refused?, shortage?_eq]
  by_cases h : s.depth < remove <;> simp [h]

/-- An action is refused for want of items, and else for want of room. -/
theorem obstacle?_eq (hs : s.WellFormed) : s.obstacle? a =
    if s.depth < a.effect.1 then some (.underflow s.depth a.effect.1)
    else if s.limit < s.depth - a.effect.1 + a.effect.2 then some (.overflow s.depth s.limit)
    else none := by
  cases a with
  | swap n =>
    have hle := hs.depth_le
    by_cases h : s.depth < n + 1
    · exact (if_pos h).trans (if_pos h).symm
    · have hroom : ¬ s.limit < s.depth - (n + 1) + (n + 1) := by omega
      exact (if_neg h).trans ((if_neg h).trans (if_neg hroom)).symm
  | push => exact refused?_eq s 0 1
  | dup n => exact refused?_eq s n (n + 1)
  | replace remove add => exact refused?_eq s remove add

theorem WellFormed.admits_of_obstacle? (hs : s.WellFormed) (h : s.obstacle? a = none) :
    a.effect.1 ≤ s.depth ∧ s.depth - a.effect.1 + a.effect.2 ≤ s.limit := by
  rw [obstacle?_eq hs] at h
  split at h
  · cases h
  next hneeds =>
    split at h
    · cases h
    next hroom => exact ⟨Nat.le_of_not_lt hneeds, Nat.le_of_not_lt hroom⟩

theorem depth_act (h : a.effect.1 ≤ s.depth) (v : SlotValue) :
    (s.act v a).depth = s.depth - a.effect.1 + a.effect.2 := by
  cases a with
  | push => rfl
  | dup n =>
    change s.depth + 1 = s.depth - n + n + 1
    rw [Nat.sub_add_cancel (show n ≤ s.depth from h)]
  | swap n => exact (Nat.sub_add_cancel h).symm
  | replace remove add => exact depth_putUnknowns _ _

theorem epoch_act (s : SymbolicStack) (v : SlotValue) (a : StackAction) :
    (s.act v a).epoch = s.epoch := by
  cases a with
  | push | dup | swap => rfl
  | replace remove add => exact epoch_putUnknowns _ _

theorem limit_act (s : SymbolicStack) (v : SlotValue) (a : StackAction) :
    (s.act v a).limit = s.limit := by
  cases a with
  | push => exact limit_put _ _
  | dup n => exact limit_put _ _
  | swap n => exact limit_exchange _ _
  | replace remove add => exact limit_putUnknowns _ _

variable (hs : s.WellFormed) (hneeds : a.effect.1 ≤ s.depth)
  (hroom : s.depth - a.effect.1 + a.effect.2 ≤ s.limit)

include hs hneeds hroom

theorem WellFormed.act (v : SlotValue) : (s.act v a).WellFormed := by
  cases a with
  | push =>
    simp only [StackAction.effect] at hroom
    exact hs.put v (by omega)
  | dup n =>
    simp only [StackAction.effect] at hneeds hroom
    exact hs.put _ (by omega)
  | swap n => exact hs.exchange n
  | replace remove add => exact (hs.drop remove).putUnknowns hroom

theorem items_act (v : SlotValue) (hone : a.CountsFromOne) :
    (s.act v a).items = a.onList .unknown v s.items := by
  cases a with
  | push =>
    simp only [StackAction.effect] at hroom
    exact items_put v (by omega)
  | dup n =>
    simp only [StackAction.effect] at hneeds hroom
    simp only [StackAction.CountsFromOne] at hone
    rw [act, items_put _ (by omega), StackAction.onList, List.getD_eq_getElem?_getD,
      List.getElem?_eq_getElem (by simp; omega), getElem_items, Option.getD_some]
    congr 2
    omega
  | swap n => exact items_exchange hs hneeds
  | replace remove add =>
    rw [act, items_putUnknowns hroom, items_drop, StackAction.onList]

end Actions

end StackMachine.SymbolicStack
