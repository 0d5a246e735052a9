namespace StackMachine

/-- What sets an opcode apart from the ones that only remove and add items. -/
inductive Trait where
  | push
  | dup
  | swap
  | pc
  | jump
  | jumpi
  | jumpdest
  deriving DecidableEq

namespace Trait

def all : List Trait := [push, dup, swap, pc, jump, jumpi, jumpdest]

def name : Trait → String
  | push => "push"
  | dup => "dup"
  | swap => "swap"
  | pc => "pc"
  | jump => "jump"
  | jumpi => "jumpi"
  | jumpdest => "jumpdest"

def ofName? (s : String) : Option Trait := all.find? (·.name == s)

theorem mem_all (t : Trait) : t ∈ all := by
  cases t <;> decide

end Trait

structure TraitSet where
  push : Bool := false
  dup : Bool := false
  swap : Bool := false
  pc : Bool := false
  jump : Bool := false
  jumpi : Bool := false
  jumpdest : Bool := false
  deriving DecidableEq

namespace TraitSet

def none : TraitSet := {}

def has (s : TraitSet) : Trait → Bool
  | .push => s.push
  | .dup => s.dup
  | .swap => s.swap
  | .pc => s.pc
  | .jump => s.jump
  | .jumpi => s.jumpi
  | .jumpdest => s.jumpdest

def ofList (ts : List Trait) : TraitSet :=
  ⟨ts.contains .push, ts.contains .dup, ts.contains .swap, ts.contains .pc, ts.contains .jump,
    ts.contains .jumpi, ts.contains .jumpdest⟩

def toList (s : TraitSet) : List Trait := Trait.all.filter s.has

def union (s t : TraitSet) : TraitSet :=
  ⟨s.push || t.push, s.dup || t.dup, s.swap || t.swap, s.pc || t.pc, s.jump || t.jump,
    s.jumpi || t.jumpi, s.jumpdest || t.jumpdest⟩

def contains (s t : TraitSet) : Bool := s.union t == s

@[simp] theorem has_ofList (ts : List Trait) (t : Trait) :
    (ofList ts).has t = ts.contains t := by
  cases t <;> rfl

@[simp] theorem has_union (s t : TraitSet) (x : Trait) :
    (s.union t).has x = (s.has x || t.has x) := by
  cases x <;> rfl

theorem ext_has {s t : TraitSet} (h : ∀ x, s.has x = t.has x) : s = t := by
  cases s
  cases t
  have h1 := h .push
  have h2 := h .dup
  have h3 := h .swap
  have h4 := h .pc
  have h5 := h .jump
  have h6 := h .jumpi
  have h7 := h .jumpdest
  simp only [has] at h1 h2 h3 h4 h5 h6 h7
  simp only [mk.injEq]
  exact ⟨h1, h2, h3, h4, h5, h6, h7⟩

end TraitSet

end StackMachine
