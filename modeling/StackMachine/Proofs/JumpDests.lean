import Mathlib.Data.Set.Card
import StackMachine.Proofs.Checked.Code
import StackMachine.Proofs.CodeEnd

namespace StackMachine

variable {code : Code}

namespace JumpDests

theorem isValid_iff_boundary {o : Nat} (hcode : code.size ≤ maxOffset) :
    (ofCode code).isValid o = true ↔ o < code.size ∧ Boundary code o ∧ code[o]? = some 0x5B := by
  rw [isValid_iff hcode]
  exact ⟨fun h => ⟨h.lt_size, h⟩, And.right⟩

theorem isValid_iff_exists_mem_layout {o : Nat} (hcode : code.size ≤ maxOffset) :
    (ofCode code).isValid o = true ↔
      ∃ i, .ok i ∈ layout code ∧ i.opcode = .jumpdest ∧ i.offset = o := by
  rw [isValid_iff hcode, IsJumpDest, ← opcodeAt?_eq_jumpdest_iff]
  constructor
  · rintro ⟨hb, hop⟩
    obtain ⟨i, hd, hi⟩ := decodeAt_of_jumpdest hcode hop
    have hlt := lt_size_of_opcodeAt? hop
    exact ⟨i, (mem_layout_iff hcode).mpr ⟨o, hlt, hb, hd⟩, hi, decodeAt_offset hd⟩
  · rintro ⟨i, hmem, hi, rfl⟩
    obtain ⟨q, _, hb, hd⟩ := (mem_layout_iff hcode).mp hmem
    rw [decodeAt_offset hd, opcodeAt?_of_decodeAt hd, hi]
    exact ⟨hb, rfl⟩

/-- What is appended has no influence on an offset, even if it makes the code longer than the
offsets reach. -/
theorem isValid_append_of_lt {o : Nat} (hcode : code.size ≤ maxOffset) (tail : Code)
    (h : o < code.size) : (ofCode (code ++ tail)).isValid o = (ofCode code).isValid o := by
  rw [Bool.eq_iff_iff, isValid_iff_of_lt (by omega), isValid_iff_of_lt (by omega)]
  exact isJumpDest_append_iff tail h

theorem count_eq_countP (d : JumpDests) : d.count = (List.range d.codeLength).countP d.isValid := by
  have hmarks : d.marks.toList = (List.range d.codeLength).map d.isValid := by
    refine List.ext_getElem ?_ fun k hk hk' => ?_
    · rw [Array.length_toList, List.length_map, List.length_range, codeLength]
    · rw [Array.length_toList] at hk
      simp [isValid, Array.getD_eq_getD_getElem?, hk]
  rw [count, ← Array.count_toList, hmarks, List.count, List.countP_map]
  exact List.countP_congr fun k _ => by simp

theorem lt_codeLength_of_isValid {d : JumpDests} {o : Nat} (h : d.isValid o = true) :
    o < d.codeLength := by
  by_contra hlt
  have hnone := Array.getElem?_eq_none (Nat.le_of_not_lt hlt)
  simp [isValid, Array.getD_eq_getD_getElem?, hnone] at h

theorem count_eq_ncard (d : JumpDests) : d.count = {o | d.isValid o = true}.ncard := by
  have hset : {o | d.isValid o = true} = ((List.range d.codeLength).filter d.isValid).toFinset := by
    ext o
    simp only [Set.mem_ofPred_eq, List.coe_toFinset, List.mem_filter, List.mem_range]
    exact ⟨fun h => ⟨lt_codeLength_of_isValid h, h⟩, And.right⟩
  rw [hset, Set.ncard_coe_finset, List.toFinset_card_of_nodup (List.nodup_range.filter _),
    count_eq_countP, List.countP_eq_length_filter]

end JumpDests

namespace Checked

namespace BitWords

variable {b b' : BitWords} {k : Nat}

def ones (b : BitWords) : Nat := (b.words.toList.map fun word => word.cpop.toNat).sum

theorem cpopNatRec_eq_countP (word : BitVec 64) (n : Nat) :
    word.cpopNatRec n 0 = (List.range n).countP word.getLsbD := by
  induction n with
  | zero => rfl
  | succ n ih =>
    rw [BitVec.cpopNatRec_succ, BitVec.cpopNatRec_add, ih, List.range_succ, List.countP_append,
      List.countP_singleton]
    cases word.getLsbD n <;> rfl

theorem toNat_cpop_eq_countP (word : BitVec 64) :
    word.cpop.toNat = (List.range 64).countP word.getLsbD := by
  rw [BitVec.toNat_cpop, cpopNatRec_eq_countP]

theorem sum_cpop_eq_countP (words : List (BitVec 64)) :
    (words.map fun word => word.cpop.toNat).sum =
      (List.range (64 * words.length)).countP (bitAt words.toArray) := by
  induction words with
  | nil => rfl
  | cons word words ih =>
    have hfirst : (List.range 64).countP (bitAt (word :: words).toArray) =
        (List.range 64).countP word.getLsbD := by
      refine List.countP_congr fun k hk => ?_
      have hlt := List.mem_range.mp hk
      rw [bitAt, Nat.div_eq_of_lt hlt, Nat.mod_eq_of_lt hlt]
      rfl
    have hrest (k : Nat) : bitAt (word :: words).toArray (64 + k) = bitAt words.toArray k := by
      rw [bitAt, bitAt, Nat.add_div_left k (by decide), Nat.add_mod_left]
      simp [Array.getD_eq_getD_getElem?]
    rw [List.map_cons, List.sum_cons, ih, List.length_cons, Nat.mul_succ, Nat.add_comm (64 * _),
      List.range_add, List.countP_append, List.countP_map, hfirst, toNat_cpop_eq_countP]
    exact congrArg _ (List.countP_congr fun k _ => by rw [Function.comp_apply, hrest])

/-- No bit is set behind the last number. -/
def Tight (b : BitWords) : Prop := ∀ k, b.length ≤ k → bitAt b.words k = false

theorem tight_empty (length : Nat) : (empty length).Tight := by
  intro k _
  by_cases hword : k / 64 < (length + 63) / 64 <;>
    simp [bitAt, empty, Array.getD_eq_getD_getElem?, hword]

theorem Tight.mark (h : b.Tight) (hmark : b.mark? k = some b') : b'.Tight := by
  unfold mark? at hmark
  split at hmark
  · exact Option.some.inj hmark ▸ h
  next hk =>
    obtain ⟨word, hget, hset⟩ := Option.bind_eq_some_iff.mp hmark
    obtain ⟨hword, rfl⟩ := Array.getElem?_eq_some_iff.mp hget
    rw [set?_of_lt hword] at hset
    obtain rfl := Option.some.inj hset
    intro q hq
    rw [bitAt_set hword, if_neg (fun heq : k = q => hk (heq ▸ hq))]
    exact h q hq

theorem Represents.ones_eq_count {d : JumpDests} (h : b.Represents d.marks) (htight : b.Tight) :
    b.ones = d.count := by
  have hlength :
      64 * b.words.toList.length = d.codeLength + (64 * b.words.size - d.codeLength) := by
    rw [Array.length_toList, h.size_eq, h.length_eq, JumpDests.codeLength]
    omega
  have hmarks : (List.range d.codeLength).countP (bitAt b.words) = d.count := by
    rw [d.count_eq_countP]
    refine List.countP_congr fun k hk => ?_
    have hbit : bitAt b.words k = d.isValid k := h.bit_eq k (List.mem_range.mp hk)
    rw [hbit]
  have hbehind : ((List.range (64 * b.words.size - d.codeLength)).map (d.codeLength + ·)).countP
      (bitAt b.words) = 0 := by
    refine List.countP_eq_zero.mpr fun k hk => ?_
    obtain ⟨j, _, rfl⟩ := List.mem_map.mp hk
    rw [htight _ (h.length_eq ▸ Nat.le_add_right _ j)]
    exact Bool.false_ne_true
  rw [ones, sum_cpop_eq_countP, Array.toArray_toList, hlength, List.range_add, List.countP_append,
    hmarks, hbehind, Nat.add_zero]

end BitWords

open BitWords

theorem tight_foldlM_note? {items : List Item} {b b' : BitWords} (h : b.Tight)
    (hfold : items.foldlM note? b = some b') : b'.Tight := by
  induction items generalizing b with
  | nil => exact Option.some.inj hfold ▸ h
  | cons item items ih =>
    rw [List.foldlM_cons] at hfold
    obtain ⟨c, hnote, hrest⟩ := Option.bind_eq_some_iff.mp hfold
    refine ih ?_ hrest
    cases item with
    | error e => exact Option.some.inj hnote ▸ h
    | ok i =>
      rw [note?] at hnote
      split at hnote
      · exact h.mark hnote
      · exact Option.some.inj hnote ▸ h

theorem tight_jumpDests? {code : Code} {b : BitWords} (h : jumpDests? code = some b) : b.Tight := by
  rw [jumpDests?, layoutFrom?_eq] at h
  exact tight_foldlM_note? (tight_empty code.size) h

end Checked

/-- The valid destinations are the boundaries that hold a `JUMPDEST`. They are counted, they do not
depend on what follows, and the words of bits agree with them. -/
theorem jumpDests_exact (code : Code) (hcode : code.size ≤ maxOffset) :
    (∀ o, (JumpDests.ofCode code).isValid o = true ↔
        o < code.size ∧ Boundary code o ∧ code[o]? = some 0x5B) ∧
      (JumpDests.ofCode code).count =
        {o | o < code.size ∧ Boundary code o ∧ code[o]? = some 0x5B}.ncard ∧
      (JumpDests.ofCode code).codeLength = code.size ∧
      (∀ tail o, o < code.size →
        (JumpDests.ofCode (code ++ tail)).isValid o = (JumpDests.ofCode code).isValid o) ∧
      ∃ b, Checked.jumpDests? code = some b ∧ b.length = code.size ∧
        b.ones = (JumpDests.ofCode code).count ∧
        ∀ o, b.test? o = some ((JumpDests.ofCode code).isValid o) := by
  have hvalid (o : Nat) := JumpDests.isValid_iff_boundary (o := o) hcode
  have hlength := JumpDests.codeLength_ofCode code
  obtain ⟨b, hb, hrep⟩ := Checked.exists_jumpDests? code
  refine ⟨hvalid, ?_, hlength, fun tail o => JumpDests.isValid_append_of_lt hcode tail,
    b, hb, hrep.length_eq.trans hlength, hrep.ones_eq_count (Checked.tight_jumpDests? hb),
    hrep.test?_eq⟩
  rw [JumpDests.count_eq_ncard]
  exact congrArg Set.ncard (Set.ext hvalid)

theorem jumpDests_exact_cut_off :
    Array.size #[0x5B, 0x62, 0x5B] ≤ maxOffset ∧
      (JumpDests.ofCode #[0x5B, 0x62, 0x5B]).codeLength = 3 ∧
      (JumpDests.ofCode (#[0x5B, 0x62, 0x5B] ++ #[0x5B])).isValid 2 =
        (JumpDests.ofCode #[0x5B, 0x62, 0x5B]).isValid 2 := by
  obtain ⟨_, _, hlength, happend, _⟩ := jumpDests_exact #[0x5B, 0x62, 0x5B] (by decide)
  exact ⟨by decide, hlength, happend #[0x5B] 2 (by decide)⟩

end StackMachine
