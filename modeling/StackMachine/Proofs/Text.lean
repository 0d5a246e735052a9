import Mathlib
import StackMachine.Hex

namespace StackMachine

section Separators

variable {α : Type} {sep : α} {xs ys rest rest' : List α} {words words' : List (List α)}

/-- Nothing, or a separator with anything behind it. -/
def Led (sep : α) (rest : List α) : Prop := ∀ a ∈ rest.head?, a = sep

theorem led_nil : Led sep [] := nofun

theorem led_cons : Led sep (sep :: rest) := fun _ ha => (Option.some.inj ha).symm

theorem led_flatMap_cons (words : List (List α)) : Led sep (words.flatMap (sep :: ·)) := by
  cases words with
  | nil => exact led_nil
  | cons word words => exact led_cons

/-- A word ends where its separator is. -/
theorem append_inj_of_led (hx : sep ∉ xs) (hy : sep ∉ ys) (hrest : Led sep rest)
    (hrest' : Led sep rest') : xs ++ rest = ys ++ rest' ↔ xs = ys ∧ rest = rest' := by
  refine ⟨fun h => ?_, fun ⟨hword, hbehind⟩ => by rw [hword, hbehind]⟩
  induction xs generalizing ys with
  | nil =>
    cases ys with
    | nil => exact ⟨rfl, h⟩
    | cons y ys =>
      obtain rfl : y = sep := hrest y (by rw [← List.nil_append rest, h]; rfl)
      exact absurd List.mem_cons_self hy
  | cons x xs ih =>
    cases ys with
    | nil =>
      obtain rfl : x = sep := hrest' x (by rw [← List.nil_append rest', ← h]; rfl)
      exact absurd List.mem_cons_self hx
    | cons y ys =>
      obtain ⟨rfl, htail⟩ := List.cons.inj h
      obtain ⟨rfl, hbehind⟩ :=
        ih (fun hmem => hx (.tail _ hmem)) (fun hmem => hy (.tail _ hmem)) htail
      exact ⟨rfl, hbehind⟩

theorem flatMap_cons_inj (h : ∀ word ∈ words, sep ∉ word) (h' : ∀ word ∈ words', sep ∉ word) :
    words.flatMap (sep :: ·) = words'.flatMap (sep :: ·) ↔ words = words' := by
  refine ⟨fun heq => ?_, fun heq => heq ▸ rfl⟩
  induction words generalizing words' with
  | nil =>
    cases words' with
    | nil => rfl
    | cons word' words' => cases heq
  | cons word words ih =>
    cases words' with
    | nil => cases heq
    | cons word' words' =>
      obtain ⟨hword, hwords⟩ := List.forall_mem_cons.mp h
      obtain ⟨hword', hwords'⟩ := List.forall_mem_cons.mp h'
      obtain ⟨rfl, hbehind⟩ := (append_inj_of_led hword hword' (led_flatMap_cons words)
        (led_flatMap_cons words')).mp (List.cons.inj heq).2
      rw [ih hwords hwords' hbehind]

theorem flatMap_concat_inj (h : ∀ word ∈ words, sep ∉ word) (h' : ∀ word ∈ words', sep ∉ word) :
    words.flatMap (· ++ [sep]) = words'.flatMap (· ++ [sep]) ↔ words = words' := by
  have hshift (words : List (List α)) :
      sep :: words.flatMap (· ++ [sep]) = words.flatMap (sep :: ·) ++ [sep] := by
    induction words with
    | nil => rfl
    | cons word words ih => simp [← ih]
  rw [← List.cons_inj_right sep, hshift, hshift, List.append_left_inj, flatMap_cons_inj h h']

end Separators

namespace Hex

theorem digit?_digitChar {n : Nat} (h : n < 16) : digit? (Nat.digitChar n) = some n := by
  interval_cases n <;> decide

theorem digit?_toUpper_digitChar {n : Nat} (h : n < 16) :
    digit? (Nat.digitChar n).toUpper = some n := by
  interval_cases n <;> decide

theorem isAlphanum_digitChar {n : Nat} (h : n < 16) : (Nat.digitChar n).isAlphanum = true := by
  interval_cases n <;> decide

theorem isAlphanum_of_mem_lower {b : UInt8} {c : Char} (h : c ∈ lower b) :
    c.isAlphanum = true := by
  have hb := b.toNat_lt
  rw [lower, List.mem_pair] at h
  obtain rfl | rfl := h
  · exact isAlphanum_digitChar (by omega)
  · exact isAlphanum_digitChar (by omega)

theorem eq_of_map_lower {f : Char → Char} (hf : ∀ n < 16, digit? (f (Nat.digitChar n)) = some n)
    {a b : UInt8} (h : (lower a).map f = (lower b).map f) : a = b := by
  have ha := a.toNat_lt
  have hb := b.toNat_lt
  obtain ⟨hhigh, hlow⟩ := List.cons.inj h
  have hlow := congrArg digit? (List.cons.inj hlow).1
  have hhigh := congrArg digit? hhigh
  rw [hf _ (by omega), hf _ (by omega), Option.some_inj] at hhigh hlow
  exact UInt8.toNat_inj.mp (by omega)

theorem lower_injective : Function.Injective lower := by
  intro a b h
  apply eq_of_map_lower (f := id) (fun n hn => digit?_digitChar hn)
  rw [List.map_id, List.map_id, h]

theorem upper_injective : Function.Injective upper :=
  fun _ _ => eq_of_map_lower fun _ hn => digit?_toUpper_digitChar hn

theorem flatMap_lower_injective {bytes bytes' : List UInt8}
    (h : bytes.flatMap lower = bytes'.flatMap lower) : bytes = bytes' := by
  induction bytes generalizing bytes' with
  | nil =>
    cases bytes' with
    | nil => rfl
    | cons b' bytes' => cases h
  | cons b bytes ih =>
    cases bytes' with
    | nil => cases h
    | cons b' bytes' =>
      obtain ⟨hhead, hrest⟩ := List.append_inj h rfl
      rw [lower_injective hhead, ih hrest]

end Hex

end StackMachine
