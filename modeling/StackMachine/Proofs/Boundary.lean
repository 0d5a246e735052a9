import StackMachine.JumpDests

namespace StackMachine

variable {code : Code} {pc q : Nat}

/-- The opcode written at an offset, whether or not its immediate is complete. -/
def opcodeAt? (code : Code) (pc : Nat) : Option Opcode := code[pc]?.bind Opcode.ofByte?

def widthAt (code : Code) (pc : Nat) : Nat := ((opcodeAt? code pc).map Opcode.immediateWidth).getD 0

def follow (code : Code) (pc : Nat) : Nat := pc + 1 + widthAt code pc

/-- Instruction boundaries, by the widths of opcodes alone. -/
inductive Boundary (code : Code) : Nat → Prop where
  | zero : Boundary code 0
  | step {pc : Nat} : Boundary code pc → pc < code.size → Boundary code (follow code pc)

def IsJumpDest (code : Code) (offset : Nat) : Prop :=
  Boundary code offset ∧ code[offset]? = some 0x5B

theorem lt_follow (code : Code) (pc : Nat) : pc < follow code pc := by
  unfold follow
  omega

theorem follow_of_lt (h : pc < code.size) : follow code pc =
    pc + 1 + ((Opcode.ofByte? code[pc]).map Opcode.immediateWidth).getD 0 := by
  rw [follow, widthAt, opcodeAt?, Array.getElem?_eq_getElem h, Option.bind_some]

theorem opcodeAt?_eq_jumpdest_iff :
    opcodeAt? code pc = some .jumpdest ↔ code[pc]? = some 0x5B := by
  unfold opcodeAt?
  cases hb : code[pc]? with
  | none => simp
  | some b =>
    rw [Option.bind_some, Opcode.ofByte?_eq_some_iff, Option.some.injEq]
    exact eq_comm

theorem lt_size_of_opcodeAt? {op : Opcode} (h : opcodeAt? code pc = some op) : pc < code.size := by
  obtain ⟨b, hb, _⟩ := Option.bind_eq_some_iff.mp h
  exact (Array.getElem?_eq_some_iff.mp hb).1

theorem IsJumpDest.lt_size (h : IsJumpDest code pc) : pc < code.size :=
  lt_size_of_opcodeAt? (opcodeAt?_eq_jumpdest_iff.mpr h.2)

namespace Boundary

theorem follow_le (hp : Boundary code pc) (hq : Boundary code q) (h : pc < q) :
    follow code pc ≤ q := by
  induction q using Nat.strongRecOn generalizing pc with
  | ind q ih =>
    cases hq with
    | zero => omega
    | @step r hr hsize =>
      obtain hlt | heq | hgt := Nat.lt_trichotomy pc r
      · have hle := ih r (lt_follow code r) hp hr hlt
        have hr' := lt_follow code r
        omega
      · exact Nat.le_of_eq (congrArg (follow code) heq)
      · have hle := ih pc h hr hp hgt
        omega

theorem eq_of_follow_eq (hp : Boundary code pc) (hq : Boundary code q)
    (h : follow code pc = follow code q) : pc = q := by
  obtain hlt | heq | hgt := Nat.lt_trichotomy pc q
  · have hle := follow_le hp hq hlt
    have hq' := lt_follow code q
    omega
  · exact heq
  · have hle := follow_le hq hp hgt
    have hp' := lt_follow code pc
    omega

end Boundary

section Decoding

variable {i : Instr}

theorem opcodeAt?_of_decodeAt (h : decodeAt code pc = .ok i) :
    opcodeAt? code pc = some i.opcode := by
  obtain ⟨b, hb, hop, _⟩ := decodeAt_eq_ok_iff.mp h
  rw [opcodeAt?, hb, Option.bind_some, hop]

theorem follow_of_decodeAt (h : decodeAt code pc = .ok i) : follow code pc = i.next := by
  rw [decodeAt_next h, follow, widthAt, opcodeAt?_of_decodeAt h, Option.map_some, Option.getD_some]

theorem decodeAt_unique {j : Instr} (hi : decodeAt code pc = .ok i)
    (hj : decodeAt code pc = .ok j) : i = j :=
  Except.ok.inj (hi.symm.trans hj)

theorem decodeAt_ne_ok {e : DecodeError} (h : decodeAt code pc = .error e) (i : Instr) :
    decodeAt code pc ≠ .ok i := by
  rw [h]
  nofun

theorem decodeAt_error_pc {e : DecodeError} (h : decodeAt code pc = .error e) : e.pc = pc := by
  unfold decodeAt at h
  cases hb : code[pc]? with
  | none =>
    simp only [hb] at h
    cases h
    rfl
  | some byte =>
    cases hop : Opcode.ofByte? byte with
    | none =>
      simp only [hb, hop] at h
      cases h
      rfl
    | some op =>
      simp only [hb, hop] at h
      split at h
      · cases h
        rfl
      · split at h
        · cases h
          rfl
        · cases h

theorem opcodeAt?_eq_iff (h : decodeAt code pc = .ok i) {op : Opcode} :
    opcodeAt? code pc = some op ↔ i.opcode = op := by
  rw [opcodeAt?_of_decodeAt h, Option.some.injEq]

theorem lt_size_of_decodeAt (h : decodeAt code pc = .ok i) : pc < code.size :=
  lt_size_of_opcodeAt? (opcodeAt?_of_decodeAt h)

theorem decodeAt_of_end (h : code.size ≤ pc) : decodeAt code pc = .error (.outOfBounds pc) := by
  rw [decodeAt, Array.getElem?_eq_none h]

theorem Boundary.next (hb : Boundary code pc) (h : decodeAt code pc = .ok i) :
    Boundary code i.next := by
  rw [← follow_of_decodeAt h]
  exact hb.step (lt_size_of_decodeAt h)

theorem decodeAt_jumpdest_of_lt (hpc : pc < maxOffset) (h : opcodeAt? code pc = some .jumpdest) :
    ∃ i, decodeAt code pc = .ok i ∧ i.opcode = .jumpdest := by
  obtain ⟨b, hb, hop⟩ := Option.bind_eq_some_iff.mp h
  refine ⟨⟨pc, .jumpdest, (code.extract (pc + 1) (pc + 1)).toList, pc + 1⟩, ?_, rfl⟩
  exact decodeAt_eq_ok_iff.mpr ⟨b, hb, hop, rfl, rfl, lt_size_of_opcodeAt? h, hpc, rfl⟩

theorem decodeAt_of_jumpdest (hcode : code.size ≤ maxOffset)
    (h : opcodeAt? code pc = some .jumpdest) :
    ∃ i, decodeAt code pc = .ok i ∧ i.opcode = .jumpdest :=
  decodeAt_jumpdest_of_lt (Nat.lt_of_lt_of_le (lt_size_of_opcodeAt? h) hcode) h

/-- Behind an item there is the next boundary, unless the code or the offsets end before it. -/
theorem next_decodeAt (h : pc < code.size) :
    follow code pc ≤ code.size ∧ Item.next code.size pc (decodeAt code pc) = follow code pc ∨
      min code.size maxOffset < follow code pc ∧
        Item.next code.size pc (decodeAt code pc) = code.size := by
  unfold decodeAt
  simp only [Array.getElem?_eq_getElem h, follow_of_lt h]
  cases Opcode.ofByte? code[pc] with
  | none => exact .inl ⟨h, rfl⟩
  | some op =>
    rw [Option.map_some, Option.getD_some]
    dsimp only
    split
    · exact .inr ⟨by omega, rfl⟩
    split
    · exact .inr ⟨by omega, rfl⟩
    · exact .inl ⟨by omega, rfl⟩

theorem next_eq_min (hcode : code.size ≤ maxOffset) (h : pc < code.size) :
    Item.next code.size pc (decodeAt code pc) = min (follow code pc) code.size := by
  obtain ⟨hle, hnext⟩ | ⟨hlt, hnext⟩ := next_decodeAt h
  · rw [hnext, Nat.min_eq_left hle]
  · rw [Nat.min_eq_left hcode] at hlt
    rw [hnext, Nat.min_eq_right (Nat.le_of_lt hlt)]

end Decoding

/-- The layout has an item at each boundary that is a possible offset. -/
theorem mem_layoutFrom_iff {item : Item} (hp : Boundary code pc) :
    item ∈ layoutFrom code pc [] ↔
      ∃ q, pc ≤ q ∧ q < code.size ∧ q ≤ maxOffset ∧ Boundary code q ∧ decodeAt code q = item := by
  -- There is no boundary between one and the next, so the rest of the layout has all the others.
  induction hn : code.size - pc using Nat.strongRecOn generalizing pc with
  | ind n ih =>
    by_cases h : pc < code.size ∧ pc ≤ maxOffset
    · have hrest : item ∈ layoutFrom code (Item.next code.size pc (decodeAt code pc)) [] ↔
          ∃ q, pc < q ∧ q < code.size ∧ q ≤ maxOffset ∧ Boundary code q ∧
            decodeAt code q = item := by
        obtain ⟨_, hnext⟩ | ⟨hend, hnext⟩ := next_decodeAt h.1
        · have hlt := lt_follow code pc
          rw [hnext, ih _ (by omega) (hp.step h.1) rfl]
          constructor
          · rintro ⟨q, hle, hq⟩
            exact ⟨q, by omega, hq⟩
          · rintro ⟨q, hpq, hq⟩
            exact ⟨q, hp.follow_le hq.2.2.1 hpq, hq⟩
        · rw [hnext, layoutFrom, dif_neg (by omega)]
          constructor
          · intro hm
            cases hm
          · rintro ⟨q, hpq, hq⟩
            have hle := hp.follow_le hq.2.2.1 hpq
            omega
      rw [layoutFrom_cons h.1 h.2, List.mem_cons, hrest]
      constructor
      · rintro (rfl | ⟨q, hpq, hq⟩)
        · exact ⟨pc, Nat.le_refl pc, h.1, h.2, hp, rfl⟩
        · exact ⟨q, Nat.le_of_lt hpq, hq⟩
      · rintro ⟨q, hpq, hq⟩
        obtain hlt | rfl := Nat.lt_or_eq_of_le hpq
        · exact .inr ⟨q, hlt, hq⟩
        · exact .inl hq.2.2.2.symm
    · rw [layoutFrom, dif_neg h]
      constructor
      · intro hm
        cases hm
      · rintro ⟨q, hpq, hq⟩
        omega

theorem mem_layout_iff {item : Item} (hcode : code.size ≤ maxOffset) :
    item ∈ layout code ↔ ∃ q, q < code.size ∧ Boundary code q ∧ decodeAt code q = item := by
  rw [layout, mem_layoutFrom_iff .zero]
  constructor
  · rintro ⟨q, _, hlt, _, hq⟩
    exact ⟨q, hlt, hq⟩
  · rintro ⟨q, hlt, hq⟩
    exact ⟨q, Nat.zero_le q, hlt, by omega, hq⟩

namespace JumpDests

theorem size_note (marks : Array Bool) (item : Item) : (note marks item).size = marks.size := by
  cases item with
  | error e => rfl
  | ok i =>
    rw [note]
    split
    · exact Array.size_setIfInBounds
    · rfl

theorem size_foldl_note (items : List Item) (marks : Array Bool) :
    (items.foldl note marks).size = marks.size := by
  induction items generalizing marks with
  | nil => rfl
  | cons item items ih => rw [List.foldl_cons, ih, size_note]

theorem getD_note (marks : Array Bool) (item : Item) (o : Nat) :
    (note marks item).getD o false = true ↔ marks.getD o false = true ∨
      ∃ i, item = .ok i ∧ i.opcode = .jumpdest ∧ i.offset = o ∧ o < marks.size := by
  cases item with
  | error e => simp [note]
  | ok i =>
    rw [note]
    by_cases hop : i.opcode = .jumpdest
    · rw [if_pos hop]
      by_cases ho : i.offset = o
      · subst ho
        by_cases hlt : i.offset < marks.size
        · simp [hlt, hop, Array.getD_eq_getD_getElem?]
        · simp [hlt, Array.getD_eq_getD_getElem?]
      · simp [ho, Array.getD_eq_getD_getElem?]
    · simp [hop]

theorem getD_foldl_note (items : List Item) (marks : Array Bool) (o : Nat) :
    (items.foldl note marks).getD o false = true ↔ marks.getD o false = true ∨
      ∃ i, .ok i ∈ items ∧ i.opcode = .jumpdest ∧ i.offset = o ∧ o < marks.size := by
  induction items generalizing marks with
  | nil => simp
  | cons item items ih =>
    rw [List.foldl_cons, ih, getD_note, size_note, or_assoc]
    constructor
    · rintro (h | ⟨i, rfl, h⟩ | ⟨i, hmem, h⟩)
      · exact .inl h
      · exact .inr ⟨i, List.mem_cons_self, h⟩
      · exact .inr ⟨i, List.mem_cons_of_mem _ hmem, h⟩
    · rintro (h | ⟨i, hmem, h⟩)
      · exact .inl h
      · obtain rfl | hmem := List.mem_cons.mp hmem
        · exact .inr (.inl ⟨i, rfl, h⟩)
        · exact .inr (.inr ⟨i, hmem, h⟩)

theorem codeLength_ofCode (code : Code) : (ofCode code).codeLength = code.size := by
  rw [codeLength, ofCode, size_foldl_note, Array.size_replicate]

theorem lt_size_of_isValid {o : Nat} (h : (ofCode code).isValid o = true) : o < code.size := by
  rw [← codeLength_ofCode, codeLength]
  by_cases hlt : o < (ofCode code).marks.size
  · exact hlt
  · have hnone := Array.getElem?_eq_none (Nat.le_of_not_lt hlt)
    simp [isValid, Array.getD_eq_getD_getElem?, hnone] at h

/-- Code of any size: an offset in front of the largest one is valid if it is a boundary that holds
a `JUMPDEST`. -/
theorem isValid_iff_of_lt {o : Nat} (ho : o < maxOffset) :
    (ofCode code).isValid o = true ↔ IsJumpDest code o := by
  rw [isValid, ofCode, getD_foldl_note, IsJumpDest, ← opcodeAt?_eq_jumpdest_iff, layout]
  constructor
  · rintro (h | ⟨i, hmem, hop, rfl, _⟩)
    · by_cases hlt : o < code.size <;> simp [Array.getD_eq_getD_getElem?, hlt] at h
    · obtain ⟨q, _, _, _, hb, hd⟩ := (mem_layoutFrom_iff .zero).mp hmem
      rw [decodeAt_offset hd, opcodeAt?_of_decodeAt hd, hop]
      exact ⟨hb, rfl⟩
  · rintro ⟨hb, hop⟩
    obtain ⟨i, hd, hi⟩ := decodeAt_jumpdest_of_lt ho hop
    have hlt := lt_size_of_opcodeAt? hop
    refine .inr ⟨i, (mem_layoutFrom_iff .zero).mpr ?_, hi, decodeAt_offset hd, ?_⟩
    · exact ⟨o, Nat.zero_le o, hlt, Nat.le_of_lt ho, hb, hd⟩
    · rwa [Array.size_replicate]

theorem isValid_iff {o : Nat} (hcode : code.size ≤ maxOffset) :
    (ofCode code).isValid o = true ↔ IsJumpDest code o := by
  by_cases ho : o < code.size
  · exact isValid_iff_of_lt (Nat.lt_of_lt_of_le ho hcode)
  · exact iff_of_false (fun h => ho (lt_size_of_isValid h)) fun h => ho h.lt_size

end JumpDests

end StackMachine
