import StackMachine.Proofs.Boundary

namespace StackMachine.Checked

variable {α : Type} {items : Array α} {code : Code} {pc : Nat}

section Primitives

/-- A subtraction below zero has no result. -/
def sub? (a b : Nat) : Option Nat := if b ≤ a then some (a - b) else none

def set? (items : Array α) (index : Nat) (a : α) : Option (Array α) :=
  if index < items.size then some (items.setIfInBounds index a) else none

def slice? (items : Array α) (lo hi : Nat) : Option (Array α) :=
  if lo ≤ hi ∧ hi ≤ items.size then some (items.extract lo hi) else none

theorem sub?_of_le {a b : Nat} (h : b ≤ a) : sub? a b = some (a - b) := if_pos h

theorem set?_of_lt {index : Nat} (h : index < items.size) (a : α) :
    set? items index a = some (items.setIfInBounds index a) := if_pos h

theorem slice?_of_le {lo hi : Nat} (h : lo ≤ hi) (hle : hi ≤ items.size) :
    slice? items lo hi = some (items.extract lo hi) := if_pos ⟨h, hle⟩

end Primitives

section Decoding

def decodeAt? (code : Code) (pc : Nat) : Option (Except DecodeError Instr) :=
  match code[pc]? with
  | none => some (.error (.outOfBounds pc))
  | some byte =>
    match Opcode.ofByte? byte with
    | none => some (.error (.unknownOpcode pc byte))
    | some opcode => do
      let start := pc + 1
      let needed := opcode.immediateWidth
      let available ← sub? code.size start
      if available < needed then
        return .error (.truncatedImmediate pc opcode needed available)
      else
        let immediate ← slice? code start (start + needed)
        if maxOffset < start + needed then return .error (.outOfBounds pc)
        else return .ok ⟨pc, opcode, immediate.toList, start + needed⟩

theorem decodeAt?_eq (code : Code) (pc : Nat) : decodeAt? code pc = some (decodeAt code pc) := by
  unfold decodeAt? decodeAt
  cases hb : code[pc]? with
  | none => rfl
  | some byte =>
    have hlt : pc < code.size := (Array.getElem?_eq_some_iff.mp hb).1
    dsimp only
    cases Opcode.ofByte? byte with
    | none => rfl
    | some op =>
      simp only [sub?_of_le hlt, Option.bind_eq_bind, Option.bind_some]
      by_cases hcut : code.size - (pc + 1) < op.immediateWidth
      · rw [if_pos hcut, if_pos hcut]
        rfl
      · rw [if_neg hcut, if_neg hcut, slice?_of_le (by omega) (by omega), Option.bind_some]
        split <;> rfl

/-- Code with 32-bit offsets is never read out of its bounds. -/
theorem decodeAt_ne_outOfBounds (hcode : code.size ≤ maxOffset) (hlt : pc < code.size) (q : Nat) :
    decodeAt code pc ≠ .error (.outOfBounds q) := by
  intro hd
  rw [decodeAt, Array.getElem?_eq_getElem hlt] at hd
  dsimp only at hd
  split at hd
  · cases hd
  · split at hd
    · cases hd
    · split at hd
      · omega
      · cases hd

def layoutFrom? (code : Code) (pc : Nat) (earlier : List Item) : Option (List Item) :=
  if _h : pc < code.size ∧ pc ≤ maxOffset then
    match _hd : decodeAt? code pc with
    | none => none
    | some item => layoutFrom? code (Item.next code.size pc item) (item :: earlier)
  else some earlier.reverse
termination_by code.size - pc
decreasing_by
  obtain rfl : decodeAt code pc = item :=
    Option.some.inj ((decodeAt?_eq code pc).symm.trans _hd)
  have := Item.lt_next _h.1
  omega

theorem layoutFrom?_eq (code : Code) (pc : Nat) (earlier : List Item) :
    layoutFrom? code pc earlier = some (layoutFrom code pc earlier) := by
  fun_induction layoutFrom code pc earlier with
  | case1 pc earlier h ih =>
    rw [layoutFrom?, dif_pos h]
    split
    next hnone =>
      rw [decodeAt?_eq] at hnone
      cases hnone
    next item hsome =>
      rw [decodeAt?_eq] at hsome
      obtain rfl := Option.some.inj hsome
      exact ih
  | case2 pc earlier h => rw [layoutFrom?, dif_neg h]

end Decoding

section Bits

/-- A set of numbers below `length`, one bit for each. -/
structure BitWords where
  words : Array (BitVec 64)
  length : Nat

namespace BitWords

def empty (length : Nat) : BitWords := ⟨Array.replicate ((length + 63) / 64) 0#64, length⟩

def test? (b : BitWords) (k : Nat) : Option Bool :=
  if b.length ≤ k then some false
  else do
    let word ← b.words[k / 64]?
    return word >>> (k % 64) &&& 1#64 == 1#64

def mark? (b : BitWords) (k : Nat) : Option BitWords :=
  if b.length ≤ k then some b
  else do
    let word ← b.words[k / 64]?
    let words ← set? b.words (k / 64) (word ||| 1#64 <<< (k % 64))
    return { b with words }

/-- The bits are the marks, and there is a word for each of them. -/
structure Represents (b : BitWords) (marks : Array Bool) : Prop where
  length_eq : b.length = marks.size
  size_eq : b.words.size = (b.length + 63) / 64
  bit_eq : ∀ k < marks.size,
    (b.words.getD (k / 64) 0#64).getLsbD (k % 64) = marks.getD k false

theorem represents_empty (length : Nat) :
    (empty length).Represents (Array.replicate length false) where
  length_eq := Array.size_replicate.symm
  size_eq := Array.size_replicate
  bit_eq k hk := by
    rw [Array.size_replicate] at hk
    have hword : k / 64 < (length + 63) / 64 := by omega
    simp [empty, Array.getD_eq_getD_getElem?, hk, hword]

theorem getLsbD_or_bit (word : BitVec 64) {i j : Nat} (hi : i < 64) :
    (word ||| 1#64 <<< j).getLsbD i = if j = i then true else word.getLsbD i := by
  rw [BitVec.getLsbD_or, BitVec.getLsbD_shiftLeft, BitVec.getLsbD_one]
  by_cases hij : j = i
  · subst hij
    simp [hi]
  · rw [if_neg hij]
    obtain hlt | hgt := Nat.lt_or_gt_of_ne hij
    · have hsub : i - j ≠ 0 := by omega
      simp [hsub]
    · simp [hgt]

def bitAt (words : Array (BitVec 64)) (k : Nat) : Bool :=
  (words.getD (k / 64) 0#64).getLsbD (k % 64)

theorem bitAt_set {words : Array (BitVec 64)} {k : Nat} (h : k / 64 < words.size) (q : Nat) :
    bitAt (words.setIfInBounds (k / 64) (words[k / 64] ||| 1#64 <<< (k % 64))) q =
      if k = q then true else bitAt words q := by
  simp only [bitAt, Array.getD_eq_getD_getElem?, Array.getElem?_setIfInBounds]
  by_cases hsame : k / 64 = q / 64
  · have hiff : k % 64 = q % 64 ↔ k = q := by omega
    have hword : words[q / 64]? = some words[k / 64] := hsame ▸ Array.getElem?_eq_getElem h
    rw [if_pos hsame, if_pos h, Option.getD_some, getLsbD_or_bit _ (Nat.mod_lt _ (by decide)),
      hword, Option.getD_some]
    simp only [hiff]
  · have hne : k ≠ q := fun heq => hsame (congrArg (· / 64) heq)
    rw [if_neg hsame, if_neg hne]

namespace Represents

variable {b : BitWords} {marks : Array Bool} {k : Nat}

theorem div_lt (h : b.Represents marks) (hk : k < marks.size) : k / 64 < b.words.size := by
  rw [h.size_eq, h.length_eq]
  omega

theorem test?_eq (h : b.Represents marks) (k : Nat) : b.test? k = some (marks.getD k false) := by
  unfold test?
  rw [h.length_eq]
  by_cases hk : k < marks.size
  · have hword := h.div_lt hk
    have hbit := h.bit_eq k hk
    rw [Array.getD_eq_getD_getElem?, Array.getElem?_eq_getElem hword, Option.getD_some] at hbit
    rw [if_neg (Nat.not_le.mpr hk), Array.getElem?_eq_getElem hword, ← hbit]
    simp only [Option.bind_eq_bind, Option.bind_some, BitVec.and_one_eq_setWidth_ofBool_getLsbD,
      BitVec.getLsbD_ushiftRight, Nat.add_zero]
    cases b.words[k / 64].getLsbD (k % 64) <;> rfl
  · rw [if_pos (Nat.le_of_not_lt hk), Array.getD_eq_getD_getElem?,
      Array.getElem?_eq_none (Nat.le_of_not_lt hk)]
    rfl

theorem exists_mark? (h : b.Represents marks) (k : Nat) :
    ∃ b', b.mark? k = some b' ∧ b'.Represents (marks.setIfInBounds k true) := by
  unfold mark?
  by_cases hk : k < marks.size
  · have hword := h.div_lt hk
    have hlen : ¬ b.length ≤ k := by
      rw [h.length_eq]
      omega
    rw [if_neg hlen, Array.getElem?_eq_getElem hword, Option.bind_eq_bind, Option.bind_some,
      set?_of_lt hword]
    refine ⟨_, rfl, ?_, ?_, fun q hq => ?_⟩
    · rw [Array.size_setIfInBounds]
      exact h.length_eq
    · rw [Array.size_setIfInBounds]
      exact h.size_eq
    · rw [Array.size_setIfInBounds] at hq
      have hold : bitAt b.words q = marks.getD q false := h.bit_eq q hq
      refine (bitAt_set hword q).trans ?_
      rw [hold, Array.getD_eq_getD_getElem?, Array.getD_eq_getD_getElem?,
        Array.getElem?_setIfInBounds]
      by_cases hkq : k = q
      · rw [if_pos hkq, if_pos hkq, if_pos hk, Option.getD_some]
      · rw [if_neg hkq, if_neg hkq]
  · have hlen : b.length ≤ k := by
      rw [h.length_eq]
      omega
    refine ⟨b, if_pos hlen, ?_⟩
    rw [Array.setIfInBounds_eq_of_size_le (Nat.le_of_not_lt hk)]
    exact h

end Represents

end BitWords

end Bits

section Destinations

def note? (b : BitWords) : Item → Option BitWords
  | .ok i => if i.opcode = .jumpdest then b.mark? i.offset else some b
  | .error _ => some b

def jumpDests? (code : Code) : Option BitWords := do
  let items ← layoutFrom? code 0 []
  items.foldlM note? (BitWords.empty code.size)

theorem exists_note? {b : BitWords} {marks : Array Bool} (h : b.Represents marks) (item : Item) :
    ∃ b', note? b item = some b' ∧ b'.Represents (JumpDests.note marks item) := by
  cases item with
  | error e => exact ⟨b, rfl, h⟩
  | ok i =>
    rw [note?, JumpDests.note]
    split
    · exact h.exists_mark? i.offset
    · exact ⟨b, rfl, h⟩

theorem exists_foldlM_note? (items : List Item) {b : BitWords} {marks : Array Bool}
    (h : b.Represents marks) :
    ∃ b', items.foldlM note? b = some b' ∧ b'.Represents (items.foldl JumpDests.note marks) := by
  induction items generalizing b marks with
  | nil => exact ⟨b, rfl, h⟩
  | cons item items ih =>
    obtain ⟨b', hnote, hb'⟩ := exists_note? h item
    rw [List.foldlM_cons, hnote]
    exact ih hb'

theorem exists_jumpDests? (code : Code) :
    ∃ b, jumpDests? code = some b ∧ b.Represents (JumpDests.ofCode code).marks := by
  rw [jumpDests?, layoutFrom?_eq]
  exact exists_foldlM_note? (layout code) (BitWords.represents_empty code.size)

end Destinations

end StackMachine.Checked
