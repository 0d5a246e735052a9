import StackMachine.Signature

namespace StackMachine

def stackCapacity : Nat := 1024

inductive Origin where
  | push (pc : Nat)
  | pc (pc : Nat)
  deriving DecidableEq

structure Constant where
  origin : Origin
  value : Option Nat
  deriving DecidableEq

inductive SlotValue where
  | unknown
  | constant (c : Constant)
  deriving DecidableEq

inductive StackError where
  | underflow (depth required : Nat)
  | overflow (depth limit : Nat)
  deriving DecidableEq

structure Slot where
  value : SlotValue
  epoch : Nat
  deriving DecidableEq

/-- A slot that was never written; no block has epoch zero. -/
def Slot.stale : Slot := ⟨.unknown, 0⟩

/-- Each slot is stamped with the epoch of its last write. Only stamps of the current epoch count,
so that entering a block, which constants do not outlive, costs no pass over the slots. -/
structure SymbolicStack where
  slots : Array Slot
  depth : Nat
  epoch : Nat
  deriving DecidableEq

namespace SymbolicStack

def lastEpoch : Nat := 0xFFFFFFFF

/-- An empty stack for at most `limit` items, and never more than the machine holds. -/
def new (limit : Nat) : SymbolicStack :=
  ⟨Array.replicate (min limit stackCapacity) Slot.stale, 0, 1⟩

def limit (s : SymbolicStack) : Nat := s.slots.size

def read (s : SymbolicStack) (index : Nat) : SlotValue :=
  match s.slots[index]? with
  | some slot => if slot.epoch = s.epoch then slot.value else .unknown
  | none => .unknown

def write (s : SymbolicStack) (index : Nat) (v : SlotValue) : SymbolicStack :=
  { s with slots := s.slots.setIfInBounds index ⟨v, s.epoch⟩ }

def enterBlock (s : SymbolicStack) : SymbolicStack :=
  if s.epoch = lastEpoch then
    -- The epochs start over, and no old stamp may pass for a new one.
    { s with slots := Array.replicate s.slots.size Slot.stale, epoch := 1 }
  else { s with epoch := s.epoch + 1 }

def shortage? (s : SymbolicStack) (required : Nat) : Option StackError :=
  if s.depth < required then some (.underflow s.depth required) else none

def refused? (s : SymbolicStack) (remove add : Nat) : Option StackError :=
  match s.shortage? remove with
  | some e => some e
  | none => if s.limit < s.depth - remove + add then some (.overflow s.depth s.limit) else none

def put (s : SymbolicStack) (v : SlotValue) : SymbolicStack :=
  { s.write s.depth v with depth := s.depth + 1 }

def putUnknowns (s : SymbolicStack) : Nat → SymbolicStack
  | 0 => s
  | n + 1 => (s.put .unknown).putUnknowns n

def drop (s : SymbolicStack) (n : Nat) : SymbolicStack := { s with depth := s.depth - n }

def exchange (s : SymbolicStack) (n : Nat) : SymbolicStack :=
  let top := s.depth - 1
  let other := top - n
  let upper := s.read top
  let lower := s.read other
  (s.write top lower).write other upper

def obstacle? (s : SymbolicStack) : StackAction → Option StackError
  | .push => s.refused? 0 1
  | .dup n => s.refused? n (n + 1)
  | .swap n => s.shortage? (n + 1)
  | .replace remove add => s.refused? remove add

/-- The stack after an action that it admits; a push adds `literal`. -/
def act (s : SymbolicStack) (literal : SlotValue) : StackAction → SymbolicStack
  | .push => s.put literal
  | .dup n => s.put (s.read (s.depth - n))
  | .swap n => s.exchange n
  | .replace remove add => (s.drop remove).putUnknowns add

def perform (s : SymbolicStack) (literal : SlotValue) (action : StackAction) :
    Except StackError SymbolicStack :=
  match s.obstacle? action with
  | some e => .error e
  | none => .ok (s.act literal action)

def push (s : SymbolicStack) (v : SlotValue) : Except StackError SymbolicStack :=
  s.perform v .push

/-- Add a copy of the `n`th item from the top, where the top is the first. -/
def dup (s : SymbolicStack) (n : Nat) : Except StackError SymbolicStack :=
  s.perform .unknown (.dup n)

def swap (s : SymbolicStack) (n : Nat) : Except StackError SymbolicStack :=
  s.perform .unknown (.swap n)

def replace (s : SymbolicStack) (remove add : Nat) : Except StackError SymbolicStack :=
  s.perform .unknown (.replace remove add)

def require (s : SymbolicStack) (n : Nat) : Except StackError Unit :=
  match s.shortage? n with
  | some e => .error e
  | none => .ok ()

def pop (s : SymbolicStack) : Except StackError (SlotValue × SymbolicStack) :=
  match s.shortage? 1 with
  | some e => .error e
  | none => .ok (s.read (s.depth - 1), s.drop 1)

def reset (s : SymbolicStack) (depth : Nat) : Except StackError SymbolicStack :=
  if s.limit < depth then .error (.overflow depth s.limit)
  else .ok { s with depth := depth }.enterBlock

def topmost (s : SymbolicStack) (n : Nat) : List SlotValue :=
  (List.range (min n s.depth)).map fun k => s.read (s.depth - 1 - k)

end SymbolicStack

end StackMachine
