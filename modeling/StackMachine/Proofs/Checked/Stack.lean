import StackMachine.Proofs.Checked.Code
import StackMachine.Proofs.DepthMemo
import StackMachine.Proofs.Stack

namespace StackMachine.Checked

variable {s : SymbolicStack}

section Slots

def read? (s : SymbolicStack) (index : Nat) : Option SlotValue := do
  let slot ← s.slots[index]?
  return if slot.epoch = s.epoch then slot.value else .unknown

def write? (s : SymbolicStack) (index : Nat) (v : SlotValue) : Option SymbolicStack := do
  let slots ← set? s.slots index ⟨v, s.epoch⟩
  return { s with slots }

/-- Epochs have 32 bits. -/
def enterBlock? (s : SymbolicStack) : Option SymbolicStack :=
  let s := if s.epoch = SymbolicStack.lastEpoch then
    { s with slots := Array.replicate s.slots.size Slot.stale, epoch := 0 } else s
  if s.epoch < SymbolicStack.lastEpoch then some { s with epoch := s.epoch + 1 } else none

def drop? (s : SymbolicStack) (n : Nat) : Option SymbolicStack := do
  let depth ← sub? s.depth n
  return { s with depth }

def put? (s : SymbolicStack) (v : SlotValue) : Option SymbolicStack := do
  let s' ← write? s s.depth v
  return { s' with depth := s.depth + 1 }

def putUnknowns? (s : SymbolicStack) : Nat → Option SymbolicStack
  | 0 => some s
  | n + 1 => do
    let s ← put? s .unknown
    putUnknowns? s n

def exchange? (s : SymbolicStack) (n : Nat) : Option SymbolicStack := do
  let top ← sub? s.depth 1
  let other ← sub? top n
  let upper ← read? s top
  let lower ← read? s other
  let s ← write? s top lower
  write? s other upper

theorem read?_of_lt {index : Nat} (h : index < s.limit) : read? s index = some (s.read index) := by
  have hslot : s.slots[index]? = some s.slots[index] := Array.getElem?_eq_getElem h
  rw [read?, SymbolicStack.read, hslot]
  rfl

theorem write?_of_lt {index : Nat} (h : index < s.limit) (v : SlotValue) :
    write? s index v = some (s.write index v) := by
  rw [write?, set?_of_lt h]
  rfl

theorem enterBlock?_eq (h : s.epoch ≤ SymbolicStack.lastEpoch) :
    enterBlock? s = some s.enterBlock := by
  unfold enterBlock? SymbolicStack.enterBlock
  split
  · exact if_pos (Nat.zero_lt_succ _)
  next hne => exact if_pos (Nat.lt_of_le_of_ne h hne)

theorem drop?_of_le {n : Nat} (h : n ≤ s.depth) : drop? s n = some (s.drop n) := by
  rw [drop?, sub?_of_le h]
  rfl

theorem put?_of_lt (h : s.depth < s.limit) (v : SlotValue) : put? s v = some (s.put v) := by
  rw [put?, write?_of_lt h]
  rfl

theorem putUnknowns?_of_le {n : Nat} (h : s.depth + n ≤ s.limit) :
    putUnknowns? s n = some (s.putUnknowns n) := by
  induction n generalizing s with
  | zero => rfl
  | succ n ih =>
    rw [putUnknowns?, put?_of_lt (by omega), Option.bind_eq_bind, Option.bind_some]
    refine ih ?_
    rw [SymbolicStack.limit_put]
    change s.depth + 1 + n ≤ s.limit
    omega

theorem exchange?_of_lt {n : Nat} (hs : s.depth ≤ s.limit) (h : n < s.depth) :
    exchange? s n = some (s.exchange n) := by
  have htop : s.depth - 1 < s.limit := by omega
  have hother : s.depth - 1 - n < s.limit := by omega
  have hpos : 1 ≤ s.depth := by omega
  have hbelow : n ≤ s.depth - 1 := by omega
  simp only [exchange?, sub?_of_le hpos, sub?_of_le hbelow, read?_of_lt htop, read?_of_lt hother,
    write?_of_lt htop, Option.bind_eq_bind, Option.bind_some]
  refine write?_of_lt ?_ _
  rw [SymbolicStack.limit_write]
  exact hother

end Slots

section Actions

def refusal? (s : SymbolicStack) (remove add : Nat) : Option (Option StackError) :=
  match s.shortage? remove with
  | some e => some (some e)
  | none => do
    let rest ← sub? s.depth remove
    return if s.limit < rest + add then some (.overflow s.depth s.limit) else none

def obstacle? (s : SymbolicStack) : StackAction → Option (Option StackError)
  | .push => refusal? s 0 1
  | .dup n => refusal? s n (n + 1)
  | .swap n => some (s.shortage? (n + 1))
  | .replace remove add => refusal? s remove add

def act? (s : SymbolicStack) (literal : SlotValue) : StackAction → Option SymbolicStack
  | .push => put? s literal
  | .dup n => do
    let index ← sub? s.depth n
    let v ← read? s index
    put? s v
  | .swap n => exchange? s n
  | .replace remove add => do
    let s ← drop? s remove
    putUnknowns? s add

def pop? (s : SymbolicStack) : Option (Except StackError (SlotValue × SymbolicStack)) :=
  match s.shortage? 1 with
  | some e => some (.error e)
  | none => do
    let s ← drop? s 1
    let v ← read? s s.depth
    return .ok (v, s)

def reset? (s : SymbolicStack) (depth : Nat) : Option (Except StackError SymbolicStack) :=
  if s.limit < depth then some (.error (.overflow depth s.limit))
  else do
    let s ← enterBlock? { s with depth := depth }
    return .ok s

theorem refusal?_eq (s : SymbolicStack) (remove add : Nat) :
    refusal? s remove add = some (s.refused? remove add) := by
  rw [refusal?, SymbolicStack.refused?, SymbolicStack.shortage?_eq]
  by_cases h : s.depth < remove
  · rw [if_pos h]
  · rw [if_neg h]
    simp only [sub?_of_le (Nat.le_of_not_lt h)]
    rfl

theorem obstacle?_eq (s : SymbolicStack) (a : StackAction) :
    obstacle? s a = some (s.obstacle? a) := by
  cases a with
  | push => exact refusal?_eq s 0 1
  | dup n => exact refusal?_eq s n (n + 1)
  | swap n => rfl
  | replace remove add => exact refusal?_eq s remove add

theorem pop?_of_pos (hs : s.depth ≤ s.limit) (h : 1 ≤ s.depth) :
    pop? s = some (.ok (s.read (s.depth - 1), s.drop 1)) := by
  have htop : (s.drop 1).depth < (s.drop 1).limit := by
    change s.depth - 1 < s.limit
    omega
  rw [pop?, SymbolicStack.shortage?_eq, if_neg (Nat.not_lt.mpr h)]
  simp only [drop?_of_le h, Option.bind_eq_bind, Option.bind_some, read?_of_lt htop]
  rfl

theorem pop?_eq (hs : s.depth ≤ s.limit) : pop? s = some s.pop := by
  by_cases h : s.depth < 1
  · rw [pop?, SymbolicStack.pop, SymbolicStack.shortage?_eq, if_pos h]
  · rw [pop?_of_pos hs (Nat.le_of_not_lt h), SymbolicStack.pop, SymbolicStack.shortage?_eq,
      if_neg h]

theorem reset?_eq (h : s.epoch ≤ SymbolicStack.lastEpoch) (depth : Nat) :
    reset? s depth = some (s.reset depth) := by
  have henter : enterBlock? { s with depth := depth } = some { s with depth := depth }.enterBlock :=
    enterBlock?_eq h
  unfold reset? SymbolicStack.reset
  split
  · rfl
  · simp only [henter]
    rfl

/-- An action that meets no obstacle stays within the slots. -/
theorem act?_eq {a : StackAction} (hs : s.WellFormed) (v : SlotValue)
    (h : s.obstacle? a = none) : act? s v a = some (s.act v a) := by
  have hle := hs.depth_le
  obtain ⟨hneeds, hroom⟩ := hs.admits_of_obstacle? h
  cases a with
  | push =>
    simp only [StackAction.effect] at hroom
    exact put?_of_lt (by omega) v
  | dup n =>
    simp only [StackAction.effect] at hneeds hroom
    have hindex : s.depth - n < s.limit := by omega
    simp only [act?, sub?_of_le hneeds, read?_of_lt hindex, Option.bind_eq_bind, Option.bind_some]
    exact put?_of_lt (by omega) _
  | swap n => exact exchange?_of_lt hle hneeds
  | replace remove add =>
    have hdrop : drop? s remove = some (s.drop remove) := drop?_of_le hneeds
    simp only [act?, hdrop, Option.bind_eq_bind, Option.bind_some]
    exact putUnknowns?_of_le hroom

end Actions

section Memo

variable {m : DepthMemo} {pc : Nat}

def visit? (m : DepthMemo) (pc depth : Nat) : Option Visit := do
  let cell ← m.cells[pc]?
  return if cell = DepthMemo.unvisited then .first
    else if cell.toNat = depth then .again
    else .conflict cell.toNat

/-- The depth itself is kept: it has 16 bits and does not stand for "not visited". -/
def record? (m : DepthMemo) (pc depth : Nat) : Option DepthMemo :=
  if depth < DepthMemo.unvisited.toNat then do
    let cells ← set? m.cells pc (UInt16.ofNat depth)
    return ⟨cells⟩
  else none

theorem visit?_eq (h : pc < m.cells.size) (depth : Nat) :
    visit? m pc depth = some (m.visit pc depth) := by
  rw [visit?, DepthMemo.visit, Array.getElem?_eq_getElem h]
  rfl

theorem record?_eq (h : pc < m.cells.size) {depth : Nat} (hdepth : depth ≤ 0xFFFE) :
    record? m pc depth = some (m.record pc depth) := by
  have hlt : depth < DepthMemo.unvisited.toNat := Nat.lt_succ_of_le hdepth
  rw [record?, if_pos hlt, set?_of_lt h, DepthMemo.record, DepthMemo.cellOf_of_le hdepth]
  rfl

end Memo

end StackMachine.Checked
