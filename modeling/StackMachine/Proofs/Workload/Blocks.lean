import Mathlib
import StackMachine.Proofs.Assembler.Outline
import StackMachine.Workload

namespace StackMachine

open Assembler

namespace Assembler

theorem labels_push (a : Assembler) (value : List UInt8) : (a.push value).labels = a.labels := by
  dsimp only [push]
  rw [wordDigits_eq, pushOfWidth?_eq (length_digits_lt _)]
  rfl

theorem size_labels_perform (a : Assembler) (c : Call) :
    (c.perform a).labels.size = a.labels.size + if c.allocates then 1 else 0 := by
  cases c with
  | newLabel | dynamicJump | dynamicJumpi => exact Array.size_push _
  | place label =>
    rw [Call.perform, place]
    split
    · exact Array.size_setIfInBounds
    · rfl
  | jumpdest label =>
    rw [Call.perform, jumpdest, place]
    split
    · exact Array.size_setIfInBounds
    · rfl
  | push value => exact congrArg Array.size (labels_push a value)
  | pushNumber value => exact congrArg Array.size (labels_push a _)
  | op | raw | pushLabel | jumpTo | jumpiTo => rfl

theorem size_labels_foldl (a : Assembler) (calls : List Call) :
    (calls.foldl Call.perform a).labels.size = a.labels.size + calls.countP Call.allocates := by
  induction calls generalizing a with
  | nil => rfl
  | cons c calls ih =>
    rw [List.foldl_cons, ih, size_labels_perform, List.countP_cons]
    omega

end Assembler

namespace Workload

section Blocks

variable {block : Nat → List Call} {written : Nat → List Piece} {count n : Nat} {a : Assembler}
  {d : Draft} {label : Label}

theorem bind_of_eq_ok {ε α β : Type} {x : Except ε α} {y : α} (h : x = .ok y)
    (f : α → Except ε β) : (x >>= f) = f y := by
  rw [h]
  rfl

/-- A label that is there before the calls, or allocated by them, can be placed behind them. -/
theorem liftLabel_jumpdest (a : Assembler) (calls : List Call) (slot : Nat)
    (h : slot < a.labels.size + calls.countP Call.allocates) :
    liftLabel ((calls.foldl Call.perform a).jumpdest (.ofSlot slot)) =
      .ok (Call.perform (calls.foldl Call.perform a) (.jumpdest (.ofSlot slot))) := by
  have hlabel : (Label.ofSlot slot).id < (calls.foldl Call.perform a).labels.size := by
    rw [size_labels_foldl]
    exact Label.id_ofSlot_lt h
  rw [Call.perform, jumpdest, place, if_pos hlabel]
  rfl

def blocks (block : Nat → List Call) (n : Nat) : List Call := (List.range n).flatMap block

theorem blocks_succ (block : Nat → List Call) (n : Nat) :
    blocks block (n + 1) = blocks block n ++ block n := by
  rw [blocks, List.range_succ, List.flatMap_append, List.flatMap_singleton, ← blocks]

theorem countP_blocks (hcount : ∀ k, (block k).countP Call.allocates = count) (n : Nat) :
    (blocks block n).countP Call.allocates = count * n := by
  induction n with
  | zero => rfl
  | succ n ih => rw [blocks_succ, List.countP_append, ih, hcount, Nat.mul_succ]

theorem repeated_succ {α : Type} {step : α → Nat → Except AssemblyError α} {x y : α}
    (h : repeated n step x = .ok y) : repeated (n + 1) step x = step y n := by
  rw [repeated] at h
  rw [repeated, List.range_succ, List.foldlM_append, h]
  exact bind_pure (step y n)

theorem repeated_eq (step : Assembler → Nat → Except AssemblyError Assembler)
    (hcount : ∀ k, (block k).countP Call.allocates = count)
    (hstep : ∀ (a' : Assembler) k, a'.labels.size = a.labels.size + count * k →
      step a' k = .ok ((block k).foldl Call.perform a')) (n : Nat) :
    repeated n step a = .ok ((blocks block n).foldl Call.perform a) := by
  induction n with
  | zero => rfl
  | succ n ih =>
    have hsize : ((blocks block n).foldl Call.perform a).labels.size =
        a.labels.size + count * n := by
      rw [size_labels_foldl, countP_blocks hcount]
    rw [repeated_succ ih, hstep _ n hsize, blocks_succ, List.foldl_append]

theorem piecesOf_blocks (hcount : ∀ k, (block k).countP Call.allocates = count) (base n : Nat) :
    piecesOf base (blocks block n) =
      (List.range n).flatMap fun k => piecesOf (base + count * k) (block k) := by
  induction n with
  | zero => rfl
  | succ n ih =>
    rw [blocks_succ, piecesOf_append, ih, countP_blocks hcount, List.range_succ,
      List.flatMap_append, List.flatMap_singleton]

theorem foldl_blocks (block : Nat → List Call) (n : Nat) (a : Assembler) :
    (blocks block n).foldl Call.perform a =
      (List.range n).foldl (fun a k => (block k).foldl Call.perform a) a := List.foldl_flatMap

theorem forall_mem_blocks {P : Call → Prop} (h : ∀ k, ∀ c ∈ block k, P c) (n : Nat) :
    ∀ c ∈ blocks block n, P c :=
  List.forall_mem_flatMap.mpr fun k _ => h k

end Blocks

end Workload

end StackMachine
