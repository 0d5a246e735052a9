import StackMachine.Proofs.Stack.InPlace

namespace StackMachine

namespace StackOperation

variable {s : SymbolicStack} {limit : Nat} {items : List SlotValue} {op : StackOperation}

/-- Leave other items, unless too few are there, or too many would be. -/
def guarded (limit needs leaves : Nat) (items : List SlotValue) (answer : Option SlotValue)
    (items' : List SlotValue) : Answer × List SlotValue :=
  if items.length < needs then (.error (.underflow items.length needs), items)
  else if limit < items.length - needs + leaves then (.error (.overflow items.length limit), items)
  else (.ok answer, items')

def onList (limit : Nat) (items : List SlotValue) : StackOperation → Answer × List SlotValue
  | push v => guarded limit 0 1 items none (v :: items)
  | pop => guarded limit 1 0 items items.head? items.tail
  | dup n => guarded limit n (n + 1) items none (items.getD (n - 1) .unknown :: items)
  | swap n => guarded limit (n + 1) (n + 1) items none (StackAction.exchange n items)
  | replace remove add =>
    guarded limit remove add items none (List.replicate add .unknown ++ items.drop remove)
  | require n => guarded limit n n items none items
  | reset depth =>
    if limit < depth then (.error (.overflow depth limit), items)
    else (.ok none, List.replicate depth .unknown)
  | enterBlock => (.ok none, items.map fun _ => .unknown)

def CountsFromOne : StackOperation → Prop
  | dup n => 0 < n
  | _ => True

section Step

structure Represents (s : SymbolicStack) (limit : Nat) (items : List SlotValue) : Prop where
  wellFormed : s.WellFormed
  limit_eq : s.limit = limit
  items_eq : s.items = items

theorem Represents.depth_eq (h : Represents s limit items) : s.depth = items.length := by
  rw [← h.items_eq, SymbolicStack.length_items]

theorem represents_new (limit : Nat) :
    Represents (SymbolicStack.new limit) (min limit stackCapacity) [] where
  wellFormed := SymbolicStack.wellFormed_new limit
  limit_eq := SymbolicStack.limit_new limit
  items_eq := rfl

def Agrees (limit : Nat) (r : Answer × SymbolicStack) (r' : Answer × List SlotValue) : Prop :=
  r.1 = r'.1 ∧ Represents r.2 limit r'.2

theorem agrees_action (h : Represents s limit items) {a : StackAction} (hone : a.CountsFromOne)
    (v : SlotValue) : Agrees limit (InPlace.kept s ((s.perform v a).map (Prod.mk none)))
      (guarded limit a.effect.1 a.effect.2 items none (a.onList .unknown v items)) := by
  obtain ⟨hs, rfl, rfl⟩ := h
  rw [SymbolicStack.perform, SymbolicStack.obstacle?_eq hs, guarded, SymbolicStack.length_items]
  by_cases hneeds : s.depth < a.effect.1
  · rw [if_pos hneeds, if_pos hneeds]
    exact ⟨rfl, hs, rfl, rfl⟩
  rw [if_neg hneeds, if_neg hneeds]
  by_cases hroom : s.limit < s.depth - a.effect.1 + a.effect.2
  · rw [if_pos hroom, if_pos hroom]
    exact ⟨rfl, hs, rfl, rfl⟩
  rw [if_neg hroom, if_neg hroom]
  have hneeds := Nat.le_of_not_lt hneeds
  have hroom := Nat.le_of_not_lt hroom
  exact ⟨rfl, hs.act hneeds hroom v, SymbolicStack.limit_act s v a,
    SymbolicStack.items_act hs hneeds hroom v hone⟩

theorem agrees_pop (h : Represents s limit items) :
    Agrees limit (InPlace.kept s (s.pop.map (Prod.map some id)))
      (guarded limit 1 0 items items.head? items.tail) := by
  obtain ⟨hs, rfl, rfl⟩ := h
  have hle := hs.depth_le
  rw [SymbolicStack.pop, SymbolicStack.shortage?_eq, guarded, SymbolicStack.length_items]
  by_cases hneeds : s.depth < 1
  · rw [if_pos hneeds, if_pos hneeds]
    exact ⟨rfl, hs, rfl, rfl⟩
  -- With an item less there is always room, since the stack was within its limit.
  rw [if_neg hneeds, if_neg hneeds, if_neg (by omega)]
  have htop := SymbolicStack.head?_items (Nat.le_of_not_lt hneeds)
  exact ⟨congrArg Except.ok htop.symm, hs.drop 1, rfl,
    (SymbolicStack.items_drop s 1).trans List.drop_one⟩

theorem agrees_require (h : Represents s limit items) (n : Nat) :
    Agrees limit (InPlace.kept s ((s.require n).map fun _ => (none, s)))
      (guarded limit n n items none items) := by
  obtain ⟨hs, rfl, rfl⟩ := h
  have hle := hs.depth_le
  rw [SymbolicStack.require, SymbolicStack.shortage?_eq, guarded, SymbolicStack.length_items]
  by_cases hneeds : s.depth < n
  · rw [if_pos hneeds, if_pos hneeds]
    exact ⟨rfl, hs, rfl, rfl⟩
  · rw [if_neg hneeds, if_neg hneeds, if_neg (by omega)]
    exact ⟨rfl, hs, rfl, rfl⟩

theorem agrees_reset (h : Represents s limit items) (depth : Nat) :
    Agrees limit (InPlace.kept s ((s.reset depth).map (Prod.mk none)))
      (onList limit items (.reset depth)) := by
  obtain ⟨hs, rfl, rfl⟩ := h
  by_cases hlimit : s.limit < depth
  · rw [SymbolicStack.reset, onList, if_pos hlimit, if_pos hlimit]
    exact ⟨rfl, hs, rfl, rfl⟩
  · have hdepth := hs.withDepth (Nat.le_of_not_lt hlimit)
    rw [SymbolicStack.reset, onList, if_neg hlimit, if_neg hlimit]
    exact ⟨rfl, hdepth.enterBlock, SymbolicStack.limit_enterBlock _,
      SymbolicStack.items_enterBlock hdepth⟩

theorem agrees_enterBlock (h : Represents s limit items) :
    Agrees limit (InPlace.kept s (.ok (none, s.enterBlock)))
      (onList limit items .enterBlock) := by
  obtain ⟨hs, rfl, rfl⟩ := h
  have hforget : s.items.map (fun _ => SlotValue.unknown) = List.replicate s.depth .unknown := by
    rw [List.map_const', SymbolicStack.length_items]
  exact ⟨rfl, hs.enterBlock, SymbolicStack.limit_enterBlock s,
    (SymbolicStack.items_enterBlock hs).trans hforget.symm⟩

theorem agrees_exec (h : Represents s limit items) (hone : op.CountsFromOne) :
    Agrees limit (op.inPlace.exec s) (op.onList limit items) := by
  rw [exec_inPlace]
  cases op with
  | push v => exact agrees_action h (a := .push) trivial v
  | pop => exact agrees_pop h
  | dup n => exact agrees_action h (a := .dup n) hone .unknown
  | swap n => exact agrees_action h (a := .swap n) trivial .unknown
  | replace remove add => exact agrees_action h (a := .replace remove add) trivial .unknown
  | require n => exact agrees_require h n
  | reset depth => exact agrees_reset h depth
  | enterBlock => exact agrees_enterBlock h

end Step

section Sequences

/-- Perform operations one after the other, whether they fail or not: the answer to each of them
with the depth after it, and what is left in the end. -/
def performAll {σ : Type} (step : σ → StackOperation → Answer × σ) (depth : σ → Nat) :
    σ → List StackOperation → List (Answer × Nat) × σ
  | s, [] => ([], s)
  | s, op :: ops =>
    let r := step s op
    let rest := performAll step depth r.2 ops
    ((r.1, depth r.2) :: rest.1, rest.2)

def performInPlace : SymbolicStack → List StackOperation → List (Answer × Nat) × SymbolicStack :=
  performAll (fun s op => op.inPlace.exec s) SymbolicStack.depth

def performOnList (limit : Nat) :
    List SlotValue → List StackOperation → List (Answer × Nat) × List SlotValue :=
  performAll (onList limit) List.length

theorem performInPlace_agrees {ops : List StackOperation} (h : Represents s limit items)
    (hone : ∀ op ∈ ops, op.CountsFromOne) :
    (performInPlace s ops).1 = (performOnList limit items ops).1 ∧
      Represents (performInPlace s ops).2 limit (performOnList limit items ops).2 := by
  induction ops generalizing s items with
  | nil => exact ⟨rfl, h⟩
  | cons op ops ih =>
    obtain ⟨hop, hrest⟩ := List.forall_mem_cons.mp hone
    obtain ⟨hanswer, hleft⟩ := agrees_exec h hop
    obtain ⟨hanswers, hlast⟩ := ih hleft hrest
    refine ⟨?_, hlast⟩
    have hdepth := hleft.depth_eq
    exact congr (congrArg _ (Prod.ext hanswer hdepth)) hanswers

end Sequences

/-- The symbolic stack is a plain list with a limit: whatever operations are performed, the answers,
the depths and the items left are those of the list. In place each operation does what the function
on stacks does, and one that fails leaves the stack as it was. -/
theorem refines_plain_list (limit : Nat) :
    (∀ ops : List StackOperation, (∀ op ∈ ops, op.CountsFromOne) →
      (performInPlace (SymbolicStack.new limit) ops).1 =
        (performOnList (min limit stackCapacity) [] ops).1 ∧
      ∀ n, (performInPlace (SymbolicStack.new limit) ops).2.topmost n =
        (performOnList (min limit stackCapacity) [] ops).2.take n) ∧
    ∀ (op : StackOperation) (s : SymbolicStack),
      op.inPlace.exec s = InPlace.kept s (op.perform s) ∧
      ∀ e s', op.inPlace.exec s = (.error e, s') → s' = s := by
  refine ⟨fun ops hone => ?_, fun op s => ⟨exec_inPlace op, fun e s' => eq_of_exec_error⟩⟩
  obtain ⟨hanswers, hlast⟩ := performInPlace_agrees (represents_new limit) hone
  refine ⟨hanswers, fun n => ?_⟩
  rw [SymbolicStack.topmost_eq_take, hlast.items_eq]

theorem refines_plain_list_two_items :
    (performInPlace (SymbolicStack.new 2)
        [.push (.constant ⟨.push 0, some 7⟩), .dup 1, .dup 1, .enterBlock, .pop]).1 =
      [(.ok none, 1), (.ok none, 2), (.error (.overflow 2 2), 2), (.ok none, 2),
        (.ok (some .unknown), 1)] := by
  have hone : ∀ op ∈ [StackOperation.push (.constant ⟨.push 0, some 7⟩), .dup 1, .dup 1,
      .enterBlock, .pop], op.CountsFromOne := by simp [CountsFromOne]
  exact ((refines_plain_list 2).1 _ hone).1

end StackOperation

end StackMachine
