import StackMachine.StackAction
import StackMachine.Trait

namespace StackMachine

structure Signature where
  /-- Items that must be live. For `DUPn` and `SWAPn` this is the whole window they read. -/
  stackIn : Nat
  stackOut : Nat
  immediate : Nat := 0
  terminator : Bool := false
  traits : TraitSet := {}
  deriving DecidableEq

namespace Signature

def dupDepth? (s : Signature) : Option Nat :=
  if s.traits.dup then some s.stackIn else none

def swapDepth? (s : Signature) : Option Nat :=
  if s.traits.swap then some (s.stackIn - 1) else none

def action (s : Signature) : StackAction :=
  if s.traits.push then .push
  else if s.traits.dup then .dup s.stackIn
  else if s.traits.swap then .swap (s.stackIn - 1)
  else .replace s.stackIn s.stackOut

end Signature

end StackMachine
