import Mathlib
import StackMachine.Instr

namespace StackMachine

namespace BigEndian

theorem foldl_toNat (bytes : List UInt8) (n : Nat) :
    bytes.foldl (fun n b => n * 256 + b.toNat) n = n * 256 ^ bytes.length + toNat bytes := by
  induction bytes generalizing n with
  | nil => simp [toNat]
  | cons b bytes ih =>
    have hcons : toNat (b :: bytes) = b.toNat * 256 ^ bytes.length + toNat bytes := by
      rw [toNat, List.foldl_cons, ih]
      simp
    rw [List.foldl_cons, ih, hcons, List.length_cons, Nat.pow_succ, Nat.add_mul, Nat.mul_assoc,
      Nat.mul_comm 256, Nat.add_assoc]

theorem toNat_cons (b : UInt8) (bytes : List UInt8) :
    toNat (b :: bytes) = b.toNat * 256 ^ bytes.length + toNat bytes := by
  rw [toNat, List.foldl_cons, foldl_toNat]
  simp

theorem toNat_lt (bytes : List UInt8) : toNat bytes < 256 ^ bytes.length := by
  induction bytes with
  | nil => simp [toNat]
  | cons b bytes ih =>
    have hb : b.toNat + 1 ≤ 256 := b.toNat_lt
    have hmul := Nat.mul_le_mul_right (256 ^ bytes.length) hb
    rw [Nat.add_mul, Nat.one_mul] at hmul
    rw [toNat_cons, List.length_cons, Nat.pow_succ]
    omega

theorem toNat_significant (bytes : List UInt8) : toNat (significant bytes) = toNat bytes := by
  induction bytes with
  | nil => rfl
  | cons b bytes ih =>
    rw [significant, List.dropWhile_cons]
    split
    next h =>
      have hb : b = 0 := eq_of_beq h
      rw [← significant, ih, toNat_cons, hb]
      simp
    · rfl

theorem head?_significant_ne_zero (bytes : List UInt8) : (significant bytes).head? ≠ some 0 := by
  intro hhead
  have hnot := List.head?_dropWhile_not (fun b : UInt8 => b == 0) bytes
  rw [significant] at hhead
  simp [hhead] at hnot

theorem le_toNat_of_significant {bytes : List UInt8} (h : 4 < (significant bytes).length) :
    2 ^ 32 ≤ toNat bytes := by
  rw [← toNat_significant]
  cases hs : significant bytes with
  | nil => simp [hs] at h
  | cons b rest =>
    have hb : b ≠ 0 := by
      rintro rfl
      exact head?_significant_ne_zero bytes (by rw [hs, List.head?_cons])
    have hpos : 1 ≤ b.toNat := Nat.pos_of_ne_zero fun h0 => hb (UInt8.toNat_inj.mp h0)
    have hlen : 4 ≤ rest.length := by simpa [hs, Nat.lt_succ_iff] using h
    have hpow : 256 ^ 4 ≤ 256 ^ rest.length := Nat.pow_le_pow_right (by decide) hlen
    have hmul := Nat.mul_le_mul_right (256 ^ rest.length) hpos
    rw [toNat_cons]
    omega

theorem toNat_shiftIn {word : UInt32} (b : UInt8) (h : word.toNat < 2 ^ 24) :
    (shiftIn word b).toNat = word.toNat * 256 + b.toNat := by
  have hb : b.toNat < 2 ^ 8 := b.toNat_lt
  have hshift : (word <<< 8).toNat = word.toNat <<< 8 := by
    rw [UInt32.toNat_shiftLeft]
    refine Nat.mod_eq_of_lt ?_
    change word.toNat <<< 8 < 2 ^ 32
    rw [Nat.shiftLeft_eq]
    omega
  rw [shiftIn, UInt32.toNat_or, hshift, UInt8.toNat_toUInt32, ← Nat.shiftLeft_add_eq_or_of_lt hb,
    Nat.shiftLeft_eq]

theorem toNat_foldl_shiftIn {bytes : List UInt8} {word : UInt32} {k : Nat}
    (hword : word.toNat < 256 ^ k) (hk : k + bytes.length ≤ 4) :
    (bytes.foldl shiftIn word).toNat = word.toNat * 256 ^ bytes.length + toNat bytes := by
  induction bytes generalizing word k with
  | nil => simp [toNat]
  | cons b bytes ih =>
    have hb : b.toNat < 256 := b.toNat_lt
    rw [List.length_cons] at hk
    have hpow : 256 ^ k ≤ 256 ^ 3 := Nat.pow_le_pow_right (by decide) (by omega)
    have hstep := toNat_shiftIn b (Nat.lt_of_lt_of_le hword hpow)
    have hnext : (shiftIn word b).toNat < 256 ^ (k + 1) := by
      rw [hstep, Nat.pow_succ]
      omega
    rw [List.foldl_cons, ih hnext (by omega), hstep, toNat_cons, List.length_cons, Nat.pow_succ,
      Nat.add_mul, Nat.mul_assoc, Nat.mul_comm 256, Nat.add_assoc]

theorem word32?_eq (bytes : List UInt8) :
    word32? bytes = if toNat bytes < 2 ^ 32 then some (toNat bytes) else none := by
  rw [word32?]
  by_cases h : 4 < (significant bytes).length
  · have hle := le_toNat_of_significant h
    rw [if_pos h, if_neg (by omega)]
  · have hlt := toNat_lt (significant bytes)
    -- There are at most four bytes, and no shift loses a bit.
    have hpow : 256 ^ (significant bytes).length ≤ 256 ^ 4 :=
      Nat.pow_le_pow_right (by decide) (by omega)
    rw [toNat_significant] at hlt
    rw [if_neg h, if_pos (by omega), toNat_foldl_shiftIn (k := 0) (by decide) (by omega),
      toNat_significant]
    simp

section Words

theorem toNat_ofWord16 {n : Nat} (h : n ≤ 0xFFFF) : toNat (ofWord16 n) = n := by
  simp [toNat, ofWord16]
  omega

theorem ofWord16_toNat (a b : UInt8) : ofWord16 (toNat [a, b]) = [a, b] := by
  have ha := a.toNat_lt
  have hb := b.toNat_lt
  have hhigh : (a.toNat * 256 + b.toNat) / 256 = a.toNat := by omega
  have hlow : (a.toNat * 256 + b.toNat) % 256 = b.toNat := by omega
  simp [toNat, ofWord16, hhigh, hlow]

theorem toNat_ofWord64 (n : Nat) : toNat (ofWord64 n) = n % 2 ^ 64 := by
  simp [toNat, ofWord64, Nat.shiftRight_eq_div_pow]
  omega

end Words

theorem toNat_append (high low : List UInt8) :
    toNat (high ++ low) = toNat high * 256 ^ low.length + toNat low := by
  rw [toNat, List.foldl_append, foldl_toNat, ← toNat]

theorem toNat_replicate_append (zeros : Nat) (bytes : List UInt8) :
    toNat (List.replicate zeros 0 ++ bytes) = toNat bytes := by
  induction zeros with
  | zero => rfl
  | succ zeros ih =>
    rw [List.replicate_succ, List.cons_append, toNat_cons, ih, UInt8.toNat_zero, Nat.zero_mul,
      Nat.zero_add]

theorem toNat_drop (bytes : List UInt8) (k : Nat) :
    toNat (bytes.drop k) = toNat bytes % 256 ^ (bytes.drop k).length := by
  have hsplit := toNat_append (bytes.take k) (bytes.drop k)
  rw [List.take_append_drop, Nat.add_comm, Nat.mul_comm] at hsplit
  rw [hsplit, Nat.add_mul_mod_self_left, Nat.mod_eq_of_lt (toNat_lt _)]

section Digits

/-- The bytes of a number, the first of which is not zero. -/
def digits (n : Nat) : List UInt8 := ((Nat.digits 256 n).map UInt8.ofNat).reverse

theorem toNat_eq_ofDigits (bytes : List UInt8) :
    toNat bytes = Nat.ofDigits 256 (bytes.map UInt8.toNat).reverse := by
  induction bytes with
  | nil => rfl
  | cons b bytes ih =>
    rw [toNat_cons, ih, List.map_cons, List.reverse_cons, Nat.ofDigits_append, List.length_reverse,
      List.length_map, Nat.ofDigits_singleton, Nat.add_comm, Nat.mul_comm]

theorem map_toNat_digits (n : Nat) : (digits n).map UInt8.toNat = (Nat.digits 256 n).reverse := by
  rw [digits, List.map_reverse, List.map_map]
  congr 1
  refine (List.map_congr_left fun k hk => ?_).trans (List.map_id _)
  exact Nat.mod_eq_of_lt (Nat.digits_lt_base (by decide) hk)

theorem toNat_digits (n : Nat) : toNat (digits n) = n := by
  rw [toNat_eq_ofDigits, map_toNat_digits, List.reverse_reverse, Nat.ofDigits_digits]

theorem length_digits_le {n k : Nat} (h : n < 256 ^ k) : (digits n).length ≤ k := by
  rw [digits, List.length_reverse, List.length_map]
  exact (Nat.digits_length_le_iff (by decide) n).mpr h

/-- Without its leading zeros a number is written in one way. -/
theorem significant_eq_digits (bytes : List UInt8) : significant bytes = digits (toNat bytes) := by
  have hdigits : Nat.digits 256 (toNat bytes) = ((significant bytes).map UInt8.toNat).reverse := by
    rw [← toNat_significant, toNat_eq_ofDigits]
    refine Nat.digits_ofDigits 256 (by decide) _ (fun k hk => ?_) fun hne hzero => ?_
    · rw [List.mem_reverse] at hk
      obtain ⟨b, _, rfl⟩ := List.mem_map.mp hk
      exact b.toNat_lt
    · have hlast := List.getLast?_eq_some_getLast hne
      rw [hzero, List.getLast?_reverse, List.head?_map] at hlast
      obtain ⟨b, hhead, hb⟩ := Option.map_eq_some_iff.mp hlast
      obtain rfl : b = 0 := UInt8.toNat_inj.mp hb
      exact head?_significant_ne_zero bytes hhead
  rw [digits, hdigits, List.map_reverse, List.reverse_reverse, List.map_map]
  refine (List.map_id _).symm.trans (List.map_congr_left fun b _ => ?_)
  exact UInt8.ofNat_toNat.symm

theorem head?_digits_ne_zero (n : Nat) : (digits n).head? ≠ some 0 := by
  have hdigits := significant_eq_digits (digits n)
  rw [toNat_digits] at hdigits
  exact hdigits ▸ head?_significant_ne_zero (digits n)

end Digits

end BigEndian

open BigEndian in
/-- Whatever the width of an immediate, it is read as the number that it writes or not at all, and
zeros in front of it change nothing. -/
theorem wide_immediate_exact (i : Instr) :
    (i.immediate32? =
      if Nat.ofDigits 256 (i.immediate.map UInt8.toNat).reverse < 2 ^ 32 then
        some (Nat.ofDigits 256 (i.immediate.map UInt8.toNat).reverse)
      else none) ∧
    ∀ zeros, Instr.immediate32? { i with immediate := List.replicate zeros 0 ++ i.immediate } =
      i.immediate32? := by
  constructor
  · rw [Instr.immediate32?, word32?_eq, toNat_eq_ofDigits]
  · intro zeros
    rw [Instr.immediate32?, Instr.immediate32?, word32?_eq, word32?_eq, toNat_replicate_append]

end StackMachine
