import Mathlib
import StackMachine.Listing
import StackMachine.Proofs.JumpTable
import StackMachine.Proofs.Text
import StackMachine.Proofs.Tiling

namespace StackMachine

section Digits

theorem toList_fourDigits (n : Nat) : (fourDigits n).toList =
    List.replicate (4 - (Nat.toDigits 10 n).length) '0' ++ Nat.toDigits 10 n := by
  simp only [fourDigits, Nat.toString_eq_ofList_toDigits]
  simp

theorem isAlphanum_of_mem_fourDigits {n : Nat} {c : Char} (h : c ∈ (fourDigits n).toList) :
    c.isAlphanum = true := by
  rw [toList_fourDigits, List.mem_append] at h
  obtain h | h := h
  · rw [List.eq_of_mem_replicate h]
    rfl
  · simp [Char.isAlphanum, Nat.isDigit_of_mem_toDigits (by decide) (by decide) h]

theorem fourDigits_injective : Function.Injective fourDigits := by
  have hread (n : Nat) : Nat.ofDigitChars 10 (fourDigits n).toList 0 = n := by
    rw [toList_fourDigits, Nat.ofDigitChars_append, Nat.ofDigitChars_replicate_zero, Nat.mul_zero,
      Nat.ofDigitChars_ten_toDigits]
  intro a b h
  rw [← hread a, h, hread b]

end Digits

namespace Opcode

theorem isAlphanum_of_mem_mnemonic {op : Opcode} {c : Char} (h : c ∈ op.mnemonic.toList) :
    c.isAlphanum = true := by
  have hall : all.all (fun op => op.mnemonic.toList.all Char.isAlphanum) = true := by
    decide +kernel
  exact List.all_eq_true.mp (List.all_eq_true.mp hall op op.mem_all) c h

theorem blank_notMem_mnemonic (op : Opcode) : ' ' ∉ op.mnemonic.toList := fun hmem =>
  absurd (isAlphanum_of_mem_mnemonic hmem) (by decide)

/-- The bytes of a text as one number, for a comparison without texts. -/
def codeNumber (s : String) : Nat :=
  s.toByteArray.data.toList.foldl (fun n b => n * 256 + b.toNat) 0

theorem mnemonic_injective : Function.Injective mnemonic := by
  have hnodup : (all.map fun op => codeNumber op.mnemonic).Nodup := by decide +kernel
  intro a b h
  exact List.inj_on_of_nodup_map hnodup a.mem_all b.mem_all (congrArg codeNumber h)

end Opcode

namespace TableKind

theorem isAlphanum_of_mem_tag (kind : TableKind) {c : Char} (h : c ∈ kind.tag.toList) :
    c.isAlphanum = true := by
  have hall : kind.tag.toList.all Char.isAlphanum = true := by cases kind <;> decide +kernel
  exact List.all_eq_true.mp hall c h

theorem toList_tag_injective : Function.Injective fun kind : TableKind => kind.tag.toList := by
  intro a b h
  cases a <;> cases b <;> first | rfl | exact absurd h (by decide +kernel)

end TableKind

namespace Lookup

variable {l l' : Lookup}

def word (d : TableKind × Nat) : List Char :=
  d.1.tag.toList ++ '-' :: '>' :: (fourDigits d.2).toList

theorem mem_word {d : TableKind × Nat} {c : Char} (h : c ∈ word d) :
    c.isAlphanum = true ∨ c = '-' ∨ c = '>' := by
  simp only [word, List.mem_append, List.mem_cons] at h
  obtain h | h | h | h := h
  · exact .inl (d.1.isAlphanum_of_mem_tag h)
  · exact .inr (.inl h)
  · exact .inr (.inr h)
  · exact .inl (isAlphanum_of_mem_fourDigits h)

theorem blank_notMem_word (d : TableKind × Nat) : ' ' ∉ word d := by
  intro hmem
  obtain h | h | h := mem_word hmem <;> exact absurd h (by decide)

theorem word_injective : Function.Injective word := by
  intro d d' h
  have hdash (kind : TableKind) : '-' ∉ kind.tag.toList := fun hmem =>
    absurd (kind.isAlphanum_of_mem_tag hmem) (by decide)
  obtain ⟨htag, hdst⟩ := (append_inj_of_led (hdash d.1) (hdash d'.1) led_cons led_cons).mp h
  obtain ⟨_, hdigits⟩ := List.cons.inj (List.cons.inj hdst).2
  exact Prod.ext (TableKind.toList_tag_injective htag)
    (fourDigits_injective (String.toList_inj.mp hdigits))

/-- What a listing shows at a jump. -/
def remark (l : Lookup) : String := if l.isListed then l.annotation else ""

theorem isListed_eq (l : Lookup) : l.isListed = !l.destinations.isEmpty := by
  cases hj : l.jumps <;> cases ht : l.traps <;> simp [isListed, destinations, hj, ht]

theorem toList_remark (l : Lookup) : l.remark.toList = if l.destinations = [] then [] else
    ' ' :: ';' :: (l.destinations.map word).flatMap (' ' :: ·) := by
  rw [remark, isListed_eq]
  by_cases h : l.destinations = []
  · simp [h]
  · simp [h, Lookup.annotation, word, List.flatMap_map]

theorem led_remark (l : Lookup) : Led ' ' l.remark.toList := by
  rw [toList_remark]
  split
  · exact led_nil
  · exact led_cons

theorem newline_notMem_remark (l : Lookup) : '\n' ∉ l.remark.toList := by
  rw [toList_remark]
  split
  · exact List.not_mem_nil
  · intro hmem
    simp only [List.mem_cons, List.mem_flatMap, List.mem_map] at hmem
    obtain h | h | ⟨_, ⟨d, _, rfl⟩, h | h⟩ := hmem
    · exact absurd h (by decide)
    · exact absurd h (by decide)
    · exact absurd h (by decide)
    · obtain h | h | h := mem_word h <;> exact absurd h (by decide)

theorem remark_eq_iff : l.remark = l'.remark ↔ l.destinations = l'.destinations := by
  rw [← String.toList_inj, toList_remark, toList_remark]
  constructor
  · intro h
    have hblank (l : Lookup) : ∀ w ∈ l.destinations.map word, ' ' ∉ w :=
      List.forall_mem_map.mpr fun d _ => blank_notMem_word d
    by_cases hl : l.destinations = [] <;> by_cases hl' : l'.destinations = []
    · rw [hl, hl']
    · simp [hl, hl'] at h
    · simp [hl, hl'] at h
    · rw [if_neg hl, if_neg hl'] at h
      have hwords := (flatMap_cons_inj (hblank l) (hblank l')).mp
        (List.cons.inj (List.cons.inj h).2).2
      exact List.map_injective_iff.mpr word_injective hwords
  · intro h
    rw [h]

theorem destinations_eq_iff : l.destinations = l'.destinations ↔
    l.jumps.map JumpEntry.dst = l'.jumps.map JumpEntry.dst ∧
      l.traps.map JumpEntry.dst = l'.traps.map JumpEntry.dst := by
  have hjumps (l : Lookup) : (l.destinations.filter (·.1 = .jump)).map Prod.snd =
      l.jumps.map JumpEntry.dst := by
    simp [destinations, List.filter_map, Function.comp_def]
  have htraps (l : Lookup) : (l.destinations.filter (·.1 = .trap)).map Prod.snd =
      l.traps.map JumpEntry.dst := by
    simp [destinations, List.filter_map, Function.comp_def]
  constructor
  · intro h
    exact ⟨by rw [← hjumps, h, hjumps], by rw [← htraps, h, htraps]⟩
  · rintro ⟨hjumps, htraps⟩
    have hsplit (l : Lookup) : l.destinations = (l.jumps.map JumpEntry.dst).map (Prod.mk .jump) ++
        (l.traps.map JumpEntry.dst).map (Prod.mk .trap) := by
      simp [destinations, Function.comp_def]
    rw [hsplit, hjumps, htraps, ← hsplit]

end Lookup

def Instr.operand (i : Instr) : List Char :=
  if i.immediate = [] then [] else ' ' :: '0' :: 'x' :: i.immediate.flatMap Hex.lower

namespace Instr

variable {i j : Instr}

theorem led_operand_append {rest : List Char} (h : Led ' ' rest) :
    Led ' ' (i.operand ++ rest) := by
  rw [operand]
  split
  · exact h
  · exact led_cons

theorem operand_append_inj {rest rest' : List Char}
    (hlength : i.immediate.length = j.immediate.length)
    (h : i.operand ++ rest = j.operand ++ rest') : i.immediate = j.immediate ∧ rest = rest' := by
  by_cases hi : i.immediate = []
  · have hj : j.immediate = [] := by
      rwa [← List.length_eq_zero_iff, ← hlength, List.length_eq_zero_iff]
    rw [operand, operand, if_pos hi, if_pos hj] at h
    exact ⟨hi.trans hj.symm, h⟩
  · have hj : j.immediate ≠ [] := by
      rwa [ne_eq, ← List.length_eq_zero_iff, ← hlength, List.length_eq_zero_iff]
    have hdigits (bytes : List UInt8) : (bytes.flatMap Hex.lower).length = 2 * bytes.length := by
      simp [List.length_flatMap, Hex.lower, mul_comm]
    rw [operand, operand, if_neg hi, if_neg hj] at h
    obtain ⟨hoperand, hrest⟩ := List.append_inj h (by simp [hdigits, hlength])
    simp only [List.cons.injEq, true_and] at hoperand
    exact ⟨Hex.flatMap_lower_injective hoperand, hrest⟩

theorem newline_notMem_operand (i : Instr) : '\n' ∉ i.operand := by
  rw [operand]
  split
  · exact List.not_mem_nil
  · intro hmem
    simp only [List.mem_cons, List.mem_flatMap] at hmem
    obtain h | h | h | ⟨b, _, h⟩ := hmem
    · exact absurd h (by decide)
    · exact absurd h (by decide)
    · exact absurd h (by decide)
    · exact absurd (Hex.isAlphanum_of_mem_lower h) (by decide)

end Instr

namespace Item

variable {code : Code} {item item' : Item}

/-- An instruction with its whole immediate, or an unassigned byte. -/
inductive Whole : Item → Prop where
  | instr (i : Instr) (hlength : i.immediate.length = i.opcode.immediateWidth)
      (hnext : i.next = i.offset + 1 + i.opcode.immediateWidth) : Whole (.ok i)
  | unassigned (pc : Nat) (byte : UInt8) : Whole (.error (.unknownOpcode pc byte))

theorem whole_of_mem_layout (hcode : code.size ≤ maxOffset) (hwhole : ¬ CutOff code)
    (h : item ∈ layout code) : item.Whole := by
  obtain ⟨pc, hlt, _, rfl⟩ := (mem_layout_iff hcode).mp h
  obtain ⟨i, hd⟩ | ⟨_, hd⟩ | ⟨op, _, _, hd⟩ := decodeAt_cases hcode hlt
  · obtain ⟨_, _, _, rfl, hnext, hle, _, himm⟩ := decodeAt_eq_ok_iff.mp hd
    rw [hd]
    refine .instr i ?_ hnext
    rw [himm, Array.length_toList, Array.size_extract]
    omega
  · rw [hd]
    exact .unassigned _ _
  · rw [hd] at h
    exact absurd ⟨_, _, _, _, (truncatedImmediate_mem_layout hcode h).1⟩ hwhole

theorem Whole.bytes_eq (h : item.Whole) (code code' : Code) :
    item.bytes code = item.bytes code' := by
  cases h <;> rfl

theorem toList_line (item : Item) :
    item.line.toList = (fourDigits item.offset).toList ++ ':' :: ' ' :: item.text.toList := by
  simp [line]

theorem toList_text_ok (i : Instr) :
    (text (.ok i)).toList = i.opcode.mnemonic.toList ++ i.operand := by
  by_cases h : i.immediate = []
  · simp [text, Instr.operand, h]
  · simp [text, Instr.operand, h, Hex.ofBytes]

theorem toList_text_unassigned (pc : Nat) (byte : UInt8) :
    (text (.error (.unknownOpcode pc byte))).toList =
      "<unassigned".toList ++ ' ' :: '0' :: 'x' :: (Hex.lower byte ++ ['>']) := by
  simp [text, Hex.ofByte]

theorem Whole.newline_notMem_text (h : item.Whole) : '\n' ∉ item.text.toList := by
  cases h with
  | instr i =>
    rw [toList_text_ok, List.mem_append, not_or]
    refine ⟨fun hmem => ?_, i.newline_notMem_operand⟩
    exact absurd (Opcode.isAlphanum_of_mem_mnemonic hmem) (by decide)
  | unassigned pc byte =>
    rw [toList_text_unassigned]
    intro hmem
    have hbyte : '\n' ∉ Hex.lower byte := fun hmem =>
      absurd (Hex.isAlphanum_of_mem_lower hmem) (by decide)
    simp [hbyte] at hmem

theorem Whole.newline_notMem_line (h : item.Whole) : '\n' ∉ item.line.toList := by
  rw [toList_line]
  simp only [List.mem_append, List.mem_cons, not_or]
  refine ⟨fun hmem => ?_, by decide, by decide, h.newline_notMem_text⟩
  exact absurd (isAlphanum_of_mem_fourDigits hmem) (by decide)

section Separable

variable {rest rest' : List Char}

theorem text_ok_append_inj {i j : Instr} (hi : Whole (.ok i)) (hj : Whole (.ok j))
    (hoffset : i.offset = j.offset) (hrest : Led ' ' rest) (hrest' : Led ' ' rest')
    (h : (text (.ok i)).toList ++ rest = (text (.ok j)).toList ++ rest') :
    i = j ∧ rest = rest' := by
  obtain ⟨_, hlength, hnext⟩ := hi
  obtain ⟨_, hlength', hnext'⟩ := hj
  rw [toList_text_ok, toList_text_ok, List.append_assoc, List.append_assoc] at h
  obtain ⟨hname, hbehind⟩ := (append_inj_of_led (Opcode.blank_notMem_mnemonic _)
    (Opcode.blank_notMem_mnemonic _) (Instr.led_operand_append hrest)
    (Instr.led_operand_append hrest')).mp h
  have hopcode := Opcode.mnemonic_injective (String.toList_inj.mp hname)
  obtain ⟨himm, hrest⟩ :=
    Instr.operand_append_inj (by rw [hlength, hlength', hopcode]) hbehind
  refine ⟨?_, hrest⟩
  cases i
  cases j
  simp_all only

theorem text_unassigned_append_inj {pc pc' : Nat} {byte byte' : UInt8}
    (h : (text (.error (.unknownOpcode pc byte))).toList ++ rest =
      (text (.error (.unknownOpcode pc' byte'))).toList ++ rest') :
    byte = byte' ∧ rest = rest' := by
  rw [toList_text_unassigned, toList_text_unassigned] at h
  obtain ⟨htext, hrest⟩ := List.append_inj h (by simp [Hex.lower])
  refine ⟨Hex.lower_injective ?_, hrest⟩
  simpa using htext

theorem text_ok_append_ne (i : Instr) (pc : Nat) (byte : UInt8) (hrest : Led ' ' rest) :
    (text (.ok i)).toList ++ rest ≠
      (text (.error (.unknownOpcode pc byte))).toList ++ rest' := by
  intro h
  rw [toList_text_ok, toList_text_unassigned, List.append_assoc, List.append_assoc] at h
  obtain ⟨hname, _⟩ := (append_inj_of_led (Opcode.blank_notMem_mnemonic _) (by decide +kernel)
    (Instr.led_operand_append hrest) led_cons).mp h
  have hmark : '<' ∈ i.opcode.mnemonic.toList := by
    rw [hname]
    decide +kernel
  exact absurd (Opcode.isAlphanum_of_mem_mnemonic hmark) (by decide)

/-- Lines of different items are different, whatever is written behind them. -/
theorem Whole.line_append_inj (h : item.Whole) (h' : item'.Whole) (hrest : Led ' ' rest)
    (hrest' : Led ' ' rest') (heq : item.line.toList ++ rest = item'.line.toList ++ rest') :
    item = item' ∧ rest = rest' := by
  have hcolon (n : Nat) : ':' ∉ (fourDigits n).toList := fun hmem =>
    absurd (isAlphanum_of_mem_fourDigits hmem) (by decide)
  rw [toList_line, toList_line, List.append_assoc, List.append_assoc] at heq
  -- A colon ends the offset, and no digit is a colon.
  obtain ⟨hoffset, htext⟩ :=
    (append_inj_of_led (hcolon _) (hcolon _) led_cons led_cons).mp heq
  have hoffset := fourDigits_injective (String.toList_inj.mp hoffset)
  have htext := (List.cons.inj (List.cons.inj htext).2).2
  cases h with
  | instr i hlength hnext =>
    cases h' with
    | instr j hlength' hnext' =>
      obtain ⟨rfl, hrest⟩ := text_ok_append_inj (.instr i hlength hnext)
        (.instr j hlength' hnext') hoffset hrest hrest' htext
      exact ⟨rfl, hrest⟩
    | unassigned pc byte => exact absurd htext (text_ok_append_ne i pc byte hrest)
  | unassigned pc byte =>
    cases h' with
    | instr j => exact absurd htext.symm (text_ok_append_ne j pc byte hrest')
    | unassigned pc' byte' =>
      obtain rfl : pc = pc' := hoffset
      obtain ⟨rfl, hrest⟩ := text_unassigned_append_inj htext
      exact ⟨rfl, hrest⟩

end Separable

end Item

namespace Listing

variable {code code' c₁ c₂ : Code} {tables tables' t₁ t₂ : JumpTables} {item : Item}

theorem annotation_withTables (code : Code) (tables : JumpTables) (item : Item) :
    annotation (withTables code tables) item =
      if item.opcode? = some .jump ∨ item.opcode? = some .jumpi then
        (tables.lookup item.offset).remark
      else "" := rfl

theorem led_annotation_withTables (code : Code) (tables : JumpTables) (item : Item) :
    Led ' ' ( annotation (withTables code tables) item).toList := by
  rw [annotation_withTables]
  split
  · exact Lookup.led_remark _
  · exact led_nil

theorem newline_notMem_annotation_withTables (code : Code) (tables : JumpTables) (item : Item) :
    '\n' ∉ ( annotation (withTables code tables) item).toList := by
  rw [annotation_withTables]
  split
  · exact Lookup.newline_notMem_remark _
  · exact List.not_mem_nil

theorem toList_text (l : Listing) :
    l.text.toList = (l.lines.map String.toList).flatMap (· ++ ['\n']) := by
  simp [text, List.flatMap_map]

theorem newline_notMem_lines (hcode : code.size ≤ maxOffset) (hwhole : ¬ CutOff code) :
    ∀ row ∈ (withTables code tables).lines.map String.toList, '\n' ∉ row := by
  refine List.forall_mem_map.mpr (List.forall_mem_map.mpr fun item hmem => ?_)
  rw [String.toList_append, List.mem_append, not_or]
  exact ⟨(Item.whole_of_mem_layout hcode hwhole hmem).newline_notMem_line,
    newline_notMem_annotation_withTables code tables item⟩

theorem text_eq_text_iff (hcode : code.size ≤ maxOffset) (hcode' : code'.size ≤ maxOffset)
    (hwhole : ¬ CutOff code) (hwhole' : ¬ CutOff code') :
    (withTables code tables).text = (withTables code' tables').text ↔
      (withTables code tables).lines = (withTables code' tables').lines := by
  rw [← String.toList_inj, toList_text, toList_text,
    flatMap_concat_inj (newline_notMem_lines hcode hwhole) (newline_notMem_lines hcode' hwhole')]
  exact (List.map_injective_iff.mpr fun _ _ => String.toList_inj.mp).eq_iff

theorem layout_injective (hcode : code.size ≤ maxOffset) (hcode' : code'.size ≤ maxOffset)
    (hwhole : ¬ CutOff code) (h : layout code = layout code') : code = code' := by
  rw [← Array.toList_inj, ← (tiling_layout code hcode).2.2.bytes_eq,
    ← (tiling_layout code' hcode').2.2.bytes_eq, ← h]
  exact List.flatMap_congr fun item hmem =>
    (Item.whole_of_mem_layout hcode hwhole hmem).bytes_eq code code'

/-- The lines show which items there are, and with what behind them. -/
theorem lines_eq_lines_iff (hcode : code.size ≤ maxOffset) (hcode' : code'.size ≤ maxOffset)
    (hwhole : ¬ CutOff code) (hwhole' : ¬ CutOff code') :
    (withTables code tables).lines = (withTables code' tables').lines ↔
      code = code' ∧ ∀ item ∈ layout code,
        annotation (withTables code tables) item = annotation (withTables code tables') item := by
  constructor
  · intro h
    have hlength : (layout code).length = (layout code').length := by
      simpa [lines, withTables] using congrArg List.length h
    have hitem (n : Nat) (hn : n < (layout code).length) (hn' : n < (layout code').length) :
        (layout code)[n] = (layout code')[n] ∧
          annotation (withTables code tables) (layout code)[n] =
            annotation (withTables code' tables') (layout code')[n] := by
      -- An item is read off its line, and what is left of the line is the annotation.
      have hline := List.getElem_of_eq h (i := n) (by simpa [lines, withTables] using hn)
      simp only [lines, withTables, List.getElem_map] at hline
      have hchars := congrArg String.toList hline
      rw [String.toList_append, String.toList_append] at hchars
      obtain ⟨hsame, hbehind⟩ :=
        (Item.whole_of_mem_layout hcode hwhole (List.getElem_mem hn)).line_append_inj
          (Item.whole_of_mem_layout hcode' hwhole' (List.getElem_mem hn'))
          (led_annotation_withTables code tables _) (led_annotation_withTables code' tables' _)
          hchars
      exact ⟨hsame, String.toList_inj.mp hbehind⟩
    obtain rfl : code = code' := layout_injective hcode hcode' hwhole
      (List.ext_getElem hlength fun n hn hn' => (hitem n hn hn').1)
    refine ⟨rfl, fun item hmem => ?_⟩
    obtain ⟨n, hn, rfl⟩ := List.getElem_of_mem hmem
    exact (hitem n hn hn).2
  · rintro ⟨rfl, hshown⟩
    exact List.map_congr_left fun item hmem => by rw [hshown item hmem]

/-- A line shows what is listed exactly where there is a jump. -/
theorem annotation_eq_annotation_iff (h : item.Whole) :
    annotation (withTables code tables) item = annotation (withTables code tables') item ↔
      ∀ i, item = .ok i → i.opcode = .jump ∨ i.opcode = .jumpi →
        (tables.lookup i.offset).jumps.map JumpEntry.dst =
            (tables'.lookup i.offset).jumps.map JumpEntry.dst ∧
          (tables.lookup i.offset).traps.map JumpEntry.dst =
            (tables'.lookup i.offset).traps.map JumpEntry.dst := by
  rw [annotation_withTables, annotation_withTables]
  cases h with
  | instr i =>
    by_cases hjump : i.opcode = .jump ∨ i.opcode = .jumpi
    · have hopcode : Item.opcode? (.ok i) = some .jump ∨ Item.opcode? (.ok i) = some .jumpi :=
        hjump.imp (congrArg some) (congrArg some)
      rw [if_pos hopcode, if_pos hopcode, Lookup.remark_eq_iff, Lookup.destinations_eq_iff]
      constructor
      · rintro hlists _ ⟨⟩ _
        exact hlists
      · intro hlists
        exact hlists i rfl hjump
    · have hopcode : ¬ (Item.opcode? (.ok i) = some .jump ∨ Item.opcode? (.ok i) = some .jumpi) :=
        fun hopcode => hjump (hopcode.imp Option.some.inj Option.some.inj)
      rw [if_neg hopcode, if_neg hopcode]
      refine ⟨?_, fun _ => rfl⟩
      rintro _ _ ⟨⟩ hjump'
      exact absurd hjump' hjump
  | unassigned pc byte => simp [Item.opcode?]

theorem remark_lookup_empty (pc : Nat) : (JumpTables.empty.lookup pc).remark = "" := by
  have hnone : JumpTable.empty.entriesFrom pc = [] := by
    simp [JumpTable.entriesFrom, JumpTable.empty]
  simp [Lookup.remark, Lookup.isListed, JumpTables.lookup, JumpTables.empty, hnone]

theorem text_ofCode (code : Code) :
    (ofCode code).text = (withTables code JumpTables.empty).text := by
  have hshown (item : Item) :
      annotation (ofCode code) item = annotation (withTables code JumpTables.empty) item := by
    rw [annotation_withTables, remark_lookup_empty, ite_self]
    exact ite_self _
  rw [text, text, lines, lines]
  simp only [hshown]
  rfl

/-- The text of a listing tells the code, and for each of its jumps what is listed in either
table. -/
theorem text_determines (hcode₁ : c₁.size ≤ maxOffset) (hcode₂ : c₂.size ≤ maxOffset)
    (hwhole₁ : ¬ CutOff c₁) (hwhole₂ : ¬ CutOff c₂) :
    ((withTables c₁ t₁).text = (withTables c₂ t₂).text ↔
      c₁ = c₂ ∧ ∀ i, .ok i ∈ layout c₁ → i.opcode = .jump ∨ i.opcode = .jumpi →
        (t₁.lookup i.offset).jumps.map JumpEntry.dst =
            (t₂.lookup i.offset).jumps.map JumpEntry.dst ∧
          (t₁.lookup i.offset).traps.map JumpEntry.dst =
            (t₂.lookup i.offset).traps.map JumpEntry.dst) ∧
      (ofCode c₁).text = (withTables c₁ JumpTables.empty).text := by
  refine ⟨?_, text_ofCode c₁⟩
  rw [text_eq_text_iff hcode₁ hcode₂ hwhole₁ hwhole₂,
    lines_eq_lines_iff hcode₁ hcode₂ hwhole₁ hwhole₂]
  refine and_congr_right fun _ => ⟨?_, ?_⟩
  · intro h i hmem
    exact (annotation_eq_annotation_iff (Item.whole_of_mem_layout hcode₁ hwhole₁ hmem)).mp
      (h _ hmem) i rfl
  · rintro h item hmem
    refine (annotation_eq_annotation_iff (Item.whole_of_mem_layout hcode₁ hwhole₁ hmem)).mpr ?_
    rintro i rfl
    exact h i hmem

theorem text_determines_entry_of_jump :
    ¬ CutOff #[0x5F, 0x35, 0x56, 0x5B, 0x00] ∧
      (withTables #[0x5F, 0x35, 0x56, 0x5B, 0x00]
          ⟨⟨#[⟨2, 3⟩], by decide⟩, JumpTable.empty⟩).text =
        (withTables #[0x5F, 0x35, 0x56, 0x5B, 0x00]
          ⟨⟨#[⟨2, 3⟩, ⟨4, 3⟩], by decide⟩, JumpTable.empty⟩).text ∧
      (withTables #[0x5F, 0x35, 0x56, 0x5B, 0x00]
          ⟨⟨#[⟨2, 3⟩], by decide⟩, JumpTable.empty⟩).text ≠
        (ofCode #[0x5F, 0x35, 0x56, 0x5B, 0x00]).text := by
  have hlayout : layout #[0x5F, 0x35, 0x56, 0x5B, 0x00] =
      [.ok ⟨0, .push 0, [], 1⟩, .ok ⟨1, .calldataload, [], 2⟩, .ok ⟨2, .jump, [], 3⟩,
        .ok ⟨3, .jumpdest, [], 4⟩, .ok ⟨4, .stop, [], 5⟩] := by decide +kernel
  have hwhole : ¬ CutOff #[0x5F, 0x35, 0x56, 0x5B, 0x00] := by
    rintro ⟨_, _, _, _, hlast⟩
    rw [hlayout] at hlast
    cases hlast
  have hjump (i : Instr) (hmem : .ok i ∈ layout #[0x5F, 0x35, 0x56, 0x5B, 0x00])
      (hop : i.opcode = .jump ∨ i.opcode = .jumpi) : i.offset = 2 := by
    rw [hlayout] at hmem
    revert hop
    simp only [List.mem_cons, Except.ok.injEq, List.not_mem_nil, or_false] at hmem
    obtain rfl | rfl | rfl | rfl | rfl := hmem <;> decide
  have hmem : .ok ⟨2, .jump, [], 3⟩ ∈ layout #[0x5F, 0x35, 0x56, 0x5B, 0x00] := by
    rw [hlayout]
    decide
  refine ⟨hwhole, ?_, fun htext => ?_⟩
  · refine (text_determines (by decide) (by decide) hwhole hwhole).1.mpr ⟨rfl, ?_⟩
    intro i hi hop
    rw [hjump i hi hop]
    simp [JumpTables.lookup, JumpTable.entriesFrom_eq_filter, JumpTable.toList]
  · obtain ⟨htexts, hempty⟩ := text_determines (by decide) (by decide) hwhole hwhole
    rw [hempty] at htext
    have hsame := ((htexts.mp htext).2 _ hmem (.inl rfl)).1
    simp [JumpTables.lookup, JumpTable.entriesFrom_eq_filter, JumpTable.toList,
      JumpTables.empty, JumpTable.empty] at hsame

end Listing

end StackMachine
