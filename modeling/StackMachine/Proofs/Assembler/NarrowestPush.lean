import StackMachine.Proofs.Assembler.Decoded

namespace StackMachine

theorem BigEndian.isLeast_length_digits (n : Nat) :
    IsLeast {k | n < 256 ^ k} (digits n).length := by
  have hlength : (digits n).length = (Nat.digits 256 n).length := by simp [digits]
  rw [hlength]
  constructor
  · exact Nat.lt_base_pow_length_digits (by decide)
  · intro k hk
    exact (Nat.digits_length_le_iff (by decide) n).mpr hk

theorem Opcode.toByte_push {k : Nat} (h : k < 33) :
    (push ⟨k, h⟩).toByte = 0x5F + UInt8.ofNat k := rfl

theorem exists_append_of_extract {code : Code} {p : Nat} {bytes : List UInt8} (hne : bytes ≠ [])
    (h : (code.extract p (p + bytes.length)).toList = bytes) :
    ∃ pre rest, code.toList = pre ++ (bytes ++ rest) ∧ pre.length = p := by
  rw [Array.toList_extract, List.extract_eq_take_drop, Nat.add_sub_cancel_left] at h
  have hdrop : code.toList.drop p = bytes ++ (code.toList.drop p).drop bytes.length := by
    conv_lhs => rw [← List.take_append_drop bytes.length (code.toList.drop p), h]
  refine ⟨code.toList.take p, (code.toList.drop p).drop bytes.length, ?_, ?_⟩
  · rw [← hdrop, List.take_append_drop]
  · have hp : p < code.toList.length := by
      by_contra hge
      rw [List.drop_of_length_le (Nat.le_of_not_lt hge), List.take_nil] at h
      exact hne h.symm
    exact List.length_take_of_le (Nat.le_of_lt hp)

namespace Assembler

open BigEndian hiding toNat

variable {a : Assembler}

/-- The narrowest push of `v` is written behind `a`. It has the fewest bytes that hold `v`, and it
decodes to `v` in whatever code it stands. -/
def PushesNarrowest (v : Nat) (a a' : Assembler) : Prop :=
  ∃ k bytes, IsLeast {k | v < 256 ^ k} k ∧ bytes.length = k ∧ BigEndian.toNat bytes = v ∧
    a' = a.raw ((0x5F + UInt8.ofNat k) :: bytes) ∧
    ∀ (code : Code) (p : Nat), code.size ≤ maxOffset →
      (code.extract p (p + (1 + k))).toList = (0x5F + UInt8.ofNat k) :: bytes →
      ∃ i, decodeAt code p = .ok i ∧ i.IsPush k ∧ i.immediate = bytes ∧ i.next = p + 1 + k ∧
        i.immediate32? = if v < 2 ^ 32 then some v else none

theorem decodeAt_digits (v : BitVec 256) {code : Code} {p : Nat} (hcode : code.size ≤ maxOffset)
    (h : (code.extract p (p + (1 + (digits v.toNat).length))).toList =
      (0x5F + UInt8.ofNat (digits v.toNat).length) :: digits v.toNat) :
    ∃ i, decodeAt code p = .ok i ∧ i.IsPush (digits v.toNat).length ∧
      i.immediate = digits v.toNat ∧ i.next = p + 1 + (digits v.toNat).length ∧
      i.immediate32? = if v.toNat < 2 ^ 32 then some v.toNat else none := by
  have hwidth := length_digits_lt v
  rw [← Opcode.toByte_push hwidth, Nat.add_comm 1, ← List.length_cons] at h
  obtain ⟨pre, rest, hsplit, rfl⟩ := exists_append_of_extract (List.cons_ne_nil _ _) h
  refine ⟨_, decodeAt_of_toList_eq hcode hsplit rfl, ⟨hwidth, rfl⟩, rfl, rfl, ?_⟩
  rw [Instr.immediate32?, word32?_eq, toNat_digits]

theorem push_eq_raw (value : List UInt8) (a : Assembler) {v : BitVec 256}
    (hv : v = .ofNat 256 (BigEndian.toNat value)) :
    a.push value = a.raw ((0x5F + UInt8.ofNat (digits v.toNat).length) :: digits v.toNat) := by
  dsimp only [push]
  rw [wordDigits_eq, ← hv, pushOfWidth?_eq (length_digits_lt v),
    ← Opcode.toByte_push (length_digits_lt v)]

theorem pushesNarrowest_push (value : List UInt8) (a : Assembler) :
    PushesNarrowest (BitVec.ofNat 256 (BigEndian.toNat value)).toNat a (a.push value) :=
  ⟨_, _, isLeast_length_digits _, rfl, toNat_digits _, push_eq_raw value a rfl,
    fun _ _ => decodeAt_digits _⟩

/-- Pushes of byte strings of any length and of 64-bit numbers are the narrowest. -/
theorem push_narrowest (a : Assembler) :
    (∀ value, PushesNarrowest (BigEndian.toNat value % 2 ^ 256) a (a.push value)) ∧
    ∀ x : UInt64, PushesNarrowest x.toNat a (a.pushNumber x.toNat) := by
  have hword (n : Nat) : (BitVec.ofNat 256 n).toNat = n % 2 ^ 256 := BitVec.toNat_ofNat n 256
  refine ⟨fun value => ?_, fun x => ?_⟩
  · rw [← hword]
    exact pushesNarrowest_push value a
  · have hlt : x.toNat < 2 ^ 64 := x.toNat_lt
    have hx : (BitVec.ofNat 256 (BigEndian.toNat (ofWord64 x.toNat))).toNat = x.toNat := by
      rw [toNat_ofWord64, Nat.mod_eq_of_lt hlt, hword]
      exact Nat.mod_eq_of_lt (Nat.lt_trans hlt (by decide))
    have hpush := pushesNarrowest_push (ofWord64 x.toNat) a
    rwa [hx] at hpush

theorem push_narrowest_long_value :
    ∃ bytes, empty.push (0x11 :: List.replicate 30 0 ++ [1, 0]) = empty.raw (0x61 :: bytes) ∧
      ((#[0x5B, 0x61, 1, 0] : Code).extract 1 4).toList = 0x61 :: bytes ∧
      ∃ i, decodeAt #[0x5B, 0x61, 1, 0] 1 = .ok i ∧ i.IsPush 2 ∧ i.immediate32? = some 256 := by
  have hvalue : BigEndian.toNat (0x11 :: List.replicate 30 0 ++ [1, 0]) % 2 ^ 256 = 256 := by decide
  have hbytes : empty.push (0x11 :: List.replicate 30 0 ++ [1, 0]) = empty.raw [0x61, 1, 0] := by
    decide +kernel
  have htwo : IsLeast {k | 256 < 256 ^ k} 2 := by
    refine ⟨by decide, fun j hj => ?_⟩
    by_contra hlt
    have hpow : 256 ^ j ≤ 256 ^ 1 := Nat.pow_le_pow_right (by decide) (by omega)
    exact absurd (Nat.lt_of_lt_of_le hj hpow) (by decide)
  obtain ⟨k, bytes, hk, _, _, hwritten, hdecodes⟩ :=
    (push_narrowest empty).1 (0x11 :: List.replicate 30 0 ++ [1, 0])
  rw [hvalue] at hk hdecodes
  obtain rfl : k = 2 := hk.unique htwo
  obtain rfl : bytes = [1, 0] := by
    rw [hbytes] at hwritten
    simpa [raw, empty] using hwritten.symm
  obtain ⟨i, hi, hpush, _, _, himmediate⟩ := hdecodes #[0x5B, 0x61, 1, 0] 1 (by decide) (by decide)
  exact ⟨_, hbytes, by decide, i, hi, hpush, himmediate⟩

end Assembler

end StackMachine
