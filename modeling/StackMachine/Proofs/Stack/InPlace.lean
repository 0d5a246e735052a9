import StackMachine.Proofs.Stack

namespace StackMachine

abbrev InPlace : Type → Type := ExceptT StackError (StateM SymbolicStack)

namespace InPlace

variable {α β : Type} {s s' : SymbolicStack}

/-- The result and the stack that is left, be it after a failure. -/
def exec (x : InPlace α) (s : SymbolicStack) : Except StackError α × SymbolicStack :=
  Id.run (StateT.run (ExceptT.run x) s)

def require (n : Nat) : InPlace Unit := do
  let s ← get
  if s.depth < n then throw (.underflow s.depth n)

def requireRoom (remove add : Nat) : InPlace Unit := do
  require remove
  let s ← get
  if s.limit < s.depth - remove + add then throw (.overflow s.depth s.limit)

def requireLimit (depth : Nat) : InPlace Unit := do
  let s ← get
  if s.limit < depth then throw (.overflow depth s.limit)

def push (v : SlotValue) : InPlace Unit := do
  requireRoom 0 1
  modify fun s => s.put v

def pop : InPlace SlotValue := do
  require 1
  modify fun s => s.drop 1
  let s ← get
  return s.read s.depth

def dup (n : Nat) : InPlace Unit := do
  requireRoom n (n + 1)
  modify fun s => s.put (s.read (s.depth - n))

def swap (n : Nat) : InPlace Unit := do
  require (n + 1)
  modify fun s => s.exchange n

def putUnknowns : Nat → InPlace Unit
  | 0 => pure ()
  | n + 1 => do
    modify fun s => s.put .unknown
    putUnknowns n

def replace (remove add : Nat) : InPlace Unit := do
  requireRoom remove add
  modify fun s => s.drop remove
  putUnknowns add

def reset (depth : Nat) : InPlace Unit := do
  requireLimit depth
  modify fun s => { s with depth := depth }
  modify fun s => s.enterBlock

section Exec

variable {x : InPlace α} {f : α → InPlace β}

theorem exec_bind_of_ok {a : α} (h : x.exec s = (.ok a, s')) :
    (x >>= f).exec s = (f a).exec s' := by
  have hrun : StateT.run (ExceptT.run x) s = (.ok a, s') := h
  rw [exec, ExceptT.run_bind, StateT.run_bind, hrun]
  rfl

theorem exec_bind_of_error {e : StackError} (h : x.exec s = (.error e, s')) :
    (x >>= f).exec s = (.error e, s') := by
  have hrun : StateT.run (ExceptT.run x) s = (.error e, s') := h
  rw [exec, ExceptT.run_bind, StateT.run_bind, hrun]
  rfl

/-- What a function on stacks comes to in place: if it fails, the stack is kept. -/
def kept (s : SymbolicStack) :
    Except StackError (α × SymbolicStack) → Except StackError α × SymbolicStack
  | .ok (a, s') => (.ok a, s')
  | .error e => (.error e, s)

theorem exec_bind_none {x : InPlace Unit} {r : Except StackError SymbolicStack}
    (h : x.exec s = kept s (r.map (Prod.mk ()))) :
    (x >>= fun _ => pure (none : Option β)).exec s = kept s (r.map (Prod.mk none)) := by
  cases r with
  | ok s' => exact exec_bind_of_ok h
  | error e => exact exec_bind_of_error h

theorem exec_bind_some {r : Except StackError (α × SymbolicStack)} (h : x.exec s = kept s r) :
    (x >>= fun a => pure (some a)).exec s = kept s (r.map (Prod.map some id)) := by
  cases r with
  | ok p => exact exec_bind_of_ok h
  | error e => exact exec_bind_of_error h

end Exec

section Checks

def checked (s : SymbolicStack) : Option StackError → Except StackError Unit × SymbolicStack
  | none => (.ok (), s)
  | some e => (.error e, s)

theorem exec_throw_if {p : Prop} [Decidable p] (e : StackError) :
    exec (if p then throw e else pure ()) s = checked s (if p then some e else none) := by
  by_cases h : p
  · rw [if_pos h, if_pos h]
    rfl
  · rw [if_neg h, if_neg h]
    rfl

theorem exec_require (n : Nat) : (require n).exec s = checked s (s.shortage? n) :=
  exec_throw_if _

theorem exec_requireLimit (depth : Nat) : (requireLimit depth).exec s =
    checked s (if s.limit < depth then some (.overflow depth s.limit) else none) :=
  exec_throw_if _

theorem exec_check_bind {check : InPlace Unit} {refusal : Option StackError}
    (h : check.exec s = checked s refusal) (x : InPlace α) :
    (check >>= fun _ => x).exec s = refusal.elim (x.exec s) fun e => (.error e, s) := by
  cases refusal with
  | none => exact exec_bind_of_ok h
  | some e => exact exec_bind_of_error h

theorem exec_requireRoom (remove add : Nat) :
    (requireRoom remove add).exec s = checked s (s.refused? remove add) := by
  refine (exec_check_bind (exec_require remove) _).trans ?_
  rw [SymbolicStack.refused?]
  cases s.shortage? remove with
  | some e => rfl
  | none => exact exec_throw_if _

/-- An action in place: the check comes first, and the stack is written only after it. -/
theorem exec_action {check x : InPlace Unit} {a : StackAction} {v : SlotValue}
    (hcheck : check.exec s = checked s (s.obstacle? a)) (hact : x.exec s = (.ok (), s.act v a)) :
    (check >>= fun _ => x).exec s = kept s ((s.perform v a).map (Prod.mk ())) := by
  rw [exec_check_bind hcheck, hact, SymbolicStack.perform]
  cases s.obstacle? a <;> rfl

end Checks

section Operations

theorem exec_push (v : SlotValue) : (push v).exec s = kept s ((s.push v).map (Prod.mk ())) :=
  exec_action (exec_requireRoom 0 1) rfl

theorem exec_dup (n : Nat) : (dup n).exec s = kept s ((s.dup n).map (Prod.mk ())) :=
  exec_action (exec_requireRoom n (n + 1)) rfl

theorem exec_swap (n : Nat) : (swap n).exec s = kept s ((s.swap n).map (Prod.mk ())) :=
  exec_action (exec_require (n + 1)) rfl

theorem exec_putUnknowns (n : Nat) : (putUnknowns n).exec s = (.ok (), s.putUnknowns n) := by
  induction n generalizing s with
  | zero => rfl
  | succ n ih => exact ih

theorem exec_replace (remove add : Nat) :
    (replace remove add).exec s = kept s ((s.replace remove add).map (Prod.mk ())) :=
  exec_action (exec_requireRoom remove add) (exec_putUnknowns (s := s.drop remove) add)

theorem exec_pop : pop.exec s = kept s s.pop := by
  refine (exec_check_bind (exec_require 1) _).trans ?_
  rw [SymbolicStack.pop]
  cases s.shortage? 1 <;> rfl

theorem exec_reset (depth : Nat) :
    (reset depth).exec s = kept s ((s.reset depth).map (Prod.mk ())) := by
  refine (exec_check_bind (exec_requireLimit depth) _).trans ?_
  rw [SymbolicStack.reset]
  split <;> rfl

end Operations

end InPlace

inductive StackOperation where
  | push (v : SlotValue)
  | pop
  | dup (n : Nat)
  | swap (n : Nat)
  | replace (remove add : Nat)
  | require (n : Nat)
  | reset (depth : Nat)
  | enterBlock
  deriving DecidableEq

namespace StackOperation

variable {s : SymbolicStack}

/-- A pop answers with the item. -/
abbrev Answer : Type := Except StackError (Option SlotValue)

def perform (s : SymbolicStack) :
    StackOperation → Except StackError (Option SlotValue × SymbolicStack)
  | push v => (s.push v).map (Prod.mk none)
  | pop => s.pop.map (Prod.map some id)
  | dup n => (s.dup n).map (Prod.mk none)
  | swap n => (s.swap n).map (Prod.mk none)
  | replace remove add => (s.replace remove add).map (Prod.mk none)
  | require n => (s.require n).map fun _ => (none, s)
  | reset depth => (s.reset depth).map (Prod.mk none)
  | enterBlock => .ok (none, s.enterBlock)

def inPlace : StackOperation → InPlace (Option SlotValue)
  | push v => do
    InPlace.push v
    return none
  | pop => return some (← InPlace.pop)
  | dup n => do
    InPlace.dup n
    return none
  | swap n => do
    InPlace.swap n
    return none
  | replace remove add => do
    InPlace.replace remove add
    return none
  | require n => do
    InPlace.require n
    return none
  | reset depth => do
    InPlace.reset depth
    return none
  | enterBlock => do
    modify fun s => s.enterBlock
    return none

/-- In place an operation does what it does as a function, and when it fails it keeps the stack. -/
theorem exec_inPlace (op : StackOperation) :
    op.inPlace.exec s = InPlace.kept s (op.perform s) := by
  cases op with
  | push v => exact InPlace.exec_bind_none (InPlace.exec_push v)
  | pop => exact InPlace.exec_bind_some InPlace.exec_pop
  | dup n => exact InPlace.exec_bind_none (InPlace.exec_dup n)
  | swap n => exact InPlace.exec_bind_none (InPlace.exec_swap n)
  | replace remove add => exact InPlace.exec_bind_none (InPlace.exec_replace remove add)
  | require n =>
    refine (InPlace.exec_check_bind (InPlace.exec_require n) _).trans ?_
    rw [perform, SymbolicStack.require]
    cases s.shortage? n <;> rfl
  | reset depth => exact InPlace.exec_bind_none (InPlace.exec_reset depth)
  | enterBlock => rfl

theorem eq_of_exec_error {op : StackOperation} {e : StackError} {s' : SymbolicStack}
    (h : op.inPlace.exec s = (.error e, s')) : s' = s := by
  rw [exec_inPlace] at h
  cases hperform : op.perform s with
  | ok p =>
    rw [hperform] at h
    cases h
  | error e' =>
    rw [hperform] at h
    exact (Prod.mk.inj h).2.symm

end StackOperation

end StackMachine
