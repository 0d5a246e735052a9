import Mathlib.Data.List.Chain
import Mathlib.Logic.Function.Iterate
import StackMachine.Proofs.Checked.Code
import StackMachine.Proofs.CodeEnd

namespace StackMachine

variable {code : Code} {pc size : Nat} {item : Item} {items : List Item}

namespace Item

def stop (size : Nat) (item : Item) : Nat := item.next size item.offset

/-- The bytes of an item. Those behind a push that is cut off are the last ones of the code. -/
def bytes (code : Code) : Item → List UInt8
  | .ok i => i.opcode.toByte :: i.immediate
  | .error (.unknownOpcode _ byte) => [byte]
  | .error (.truncatedImmediate _ opcode _ available) =>
    opcode.toByte :: code.toList.drop (code.size - available)
  | .error (.outOfBounds _) => []

theorem offset_decodeAt (code : Code) (pc : Nat) : offset (decodeAt code pc) = pc := by
  cases hd : decodeAt code pc with
  | ok i => exact decodeAt_offset hd
  | error e => exact decodeAt_error_pc hd

theorem stop_decodeAt (code : Code) (pc size : Nat) :
    stop size (decodeAt code pc) = next size pc (decodeAt code pc) := by
  rw [stop, offset_decodeAt]

end Item

theorem decodeAt_cases (hcode : code.size ≤ maxOffset) (h : pc < code.size) :
    (∃ i, decodeAt code pc = .ok i) ∨
      (opcodeAt? code pc = none ∧ decodeAt code pc = .error (.unknownOpcode pc code[pc])) ∨
      ∃ op, opcodeAt? code pc = some op ∧ code.size < follow code pc ∧ decodeAt code pc =
        .error (.truncatedImmediate pc op op.immediateWidth (code.size - (pc + 1))) := by
  unfold decodeAt opcodeAt?
  simp only [Array.getElem?_eq_getElem h, Option.bind_some, follow_of_lt h]
  cases hop : Opcode.ofByte? code[pc] with
  | none => exact .inr (.inl ⟨rfl, rfl⟩)
  | some op =>
    dsimp only
    rw [Option.map_some, Option.getD_some]
    by_cases hcut : code.size - (pc + 1) < op.immediateWidth
    · exact .inr (.inr ⟨op, rfl, by omega, if_pos hcut⟩)
    · rw [if_neg hcut, if_neg (by omega)]
      exact .inl ⟨_, rfl⟩

section Walk

/-- The item at which a walk over the layout stands, unless it is at its end. -/
def itemAt? (code : Code) (pc : Nat) : Option Item :=
  if pc < code.size ∧ pc ≤ maxOffset then some (decodeAt code pc) else none

def skip (code : Code) (pc : Nat) : Nat :=
  if pc < code.size ∧ pc ≤ maxOffset then Item.next code.size pc (decodeAt code pc) else pc

theorem getElem?_layoutFrom (code : Code) (pc n : Nat) :
    (layoutFrom code pc [])[n]? = itemAt? code ((skip code)^[n] pc) := by
  induction n generalizing pc with
  | zero =>
    rw [Function.iterate_zero_apply, itemAt?]
    by_cases h : pc < code.size ∧ pc ≤ maxOffset
    · rw [layoutFrom_cons h.1 h.2, if_pos h]
      rfl
    · rw [layoutFrom, dif_neg h, if_neg h]
      rfl
  | succ n ih =>
    rw [Function.iterate_succ_apply, ← ih, skip]
    by_cases h : pc < code.size ∧ pc ≤ maxOffset
    · rw [layoutFrom_cons h.1 h.2, if_pos h, List.getElem?_cons_succ]
    · rw [if_neg h, layoutFrom, dif_neg h]
      rfl

end Walk

section Adjacent

/-- The items lie one behind the other, from `pc` to the end of the code. -/
def Adjacent (size : Nat) : Nat → List Item → Prop
  | pc, [] => pc = size
  | pc, item :: items =>
    item.offset = pc ∧ pc < item.stop size ∧ Adjacent size (item.stop size) items

namespace Adjacent

theorem le_offset (h : Adjacent size pc items) : ∀ item ∈ items, pc ≤ item.offset := by
  induction items generalizing pc with
  | nil => exact nofun
  | cons head items ih =>
    obtain ⟨hoffset, hlt, hrest⟩ := h
    refine List.forall_mem_cons.mpr ⟨Nat.le_of_eq hoffset.symm, fun item hmem => ?_⟩
    exact Nat.le_trans (Nat.le_of_lt hlt) (ih hrest item hmem)

theorem pairwise_offset (h : Adjacent size pc items) :
    (items.map Item.offset).Pairwise (· < ·) := by
  induction items generalizing pc with
  | nil => exact .nil
  | cons head items ih =>
    obtain ⟨rfl, hlt, hrest⟩ := h
    refine List.pairwise_cons.mpr ⟨fun offset hmem => ?_, ih hrest⟩
    obtain ⟨item, hitem, rfl⟩ := List.mem_map.mp hmem
    exact Nat.lt_of_lt_of_le hlt (hrest.le_offset item hitem)

theorem isChain (h : Adjacent size pc items) :
    items.IsChain fun a b => b.offset = a.stop size := by
  induction items generalizing pc with
  | nil => exact .nil
  | cons head items ih =>
    obtain ⟨_, _, hrest⟩ := h
    cases items with
    | nil => exact .singleton head
    | cons next items => exact List.isChain_cons_cons.mpr ⟨hrest.1, ih hrest⟩

theorem stop_of_getLast? (h : Adjacent size pc items) (hlast : items.getLast? = some item) :
    item.stop size = size := by
  induction items generalizing pc with
  | nil => cases hlast
  | cons head items ih =>
    obtain ⟨_, _, hrest⟩ := h
    cases items with
    | nil =>
      obtain rfl := Option.some.inj hlast
      exact hrest
    | cons next items => exact ih hrest (by rwa [List.getLast?_cons_cons] at hlast)

theorem length_le (h : Adjacent size pc items) : pc + items.length ≤ size := by
  induction items generalizing pc with
  | nil => exact Nat.le_of_eq h
  | cons head items ih =>
    obtain ⟨_, hlt, hrest⟩ := h
    have hlength := ih hrest
    rw [List.length_cons]
    omega

end Adjacent

theorem adjacent_layoutFrom (hcode : code.size ≤ maxOffset) (hpc : pc ≤ code.size) :
    Adjacent code.size pc (layoutFrom code pc []) := by
  induction hn : code.size - pc using Nat.strongRecOn generalizing pc with
  | ind n ih =>
    by_cases h : pc < code.size
    · have hlt := Item.lt_next h
      have hle : Item.next code.size pc (decodeAt code pc) ≤ code.size := by
        rw [next_eq_min hcode h]
        exact Nat.min_le_right _ _
      rw [layoutFrom_cons h (by omega), Adjacent, Item.stop_decodeAt]
      exact ⟨Item.offset_decodeAt code pc, hlt, ih _ (by omega) hle rfl⟩
    · rw [layoutFrom, dif_neg (by omega)]
      exact Nat.le_antisymm hpc (Nat.le_of_not_lt h)

end Adjacent

section Bytes

theorem drop_eq_cons (h : pc < code.size) :
    code.toList.drop pc = code[pc] :: code.toList.drop (pc + 1) := by
  rw [List.drop_eq_getElem_cons (by rwa [Array.length_toList]), Array.getElem_toList]

theorem bytes_append_drop (hcode : code.size ≤ maxOffset) (h : pc < code.size) :
    Item.bytes code (decodeAt code pc) ++
      code.toList.drop (Item.next code.size pc (decodeAt code pc)) = code.toList.drop pc := by
  rw [drop_eq_cons h]
  obtain ⟨i, hd⟩ | ⟨_, hd⟩ | ⟨op, hop, _, hd⟩ := decodeAt_cases hcode h
  · obtain ⟨byte, hb, hop, _, hnext, _, _, himm⟩ := decodeAt_eq_ok_iff.mp hd
    obtain ⟨_, rfl⟩ := Array.getElem?_eq_some_iff.mp hb
    rw [hd, Item.bytes, Item.next, Opcode.ofByte?_eq_some_iff.mp hop, himm, Array.toList_extract,
      List.extract_eq_take_drop, List.cons_append]
    have hsplit := List.take_append_drop (i.next - (pc + 1)) (code.toList.drop (pc + 1))
    rw [List.drop_drop, Nat.add_sub_cancel' (by omega)] at hsplit
    rw [hsplit]
  · rw [hd]
    rfl
  · have hbyte : op.toByte = code[pc] := by
      rw [opcodeAt?, Array.getElem?_eq_getElem h, Option.bind_some] at hop
      exact Opcode.ofByte?_eq_some_iff.mp hop
    rw [hd, Item.bytes, Item.next, hbyte, Nat.sub_sub_self h]
    · simp
    · intro _ _ hne
      cases hne

theorem flatMap_bytes_layoutFrom (hcode : code.size ≤ maxOffset) :
    (layoutFrom code pc []).flatMap (Item.bytes code) = code.toList.drop pc := by
  induction hn : code.size - pc using Nat.strongRecOn generalizing pc with
  | ind n ih =>
    by_cases h : pc < code.size
    · have hlt := Item.lt_next h
      rw [layoutFrom_cons h (by omega), List.flatMap_cons, ih _ (by omega) rfl]
      exact bytes_append_drop hcode h
    · rw [layoutFrom, dif_neg (by omega), List.drop_eq_nil_of_le]
      · rfl
      · rw [Array.length_toList]
        exact Nat.le_of_not_lt h

end Bytes

section Errors

variable {byte : UInt8} {opcode : Opcode} {needed available : Nat}

theorem unknownOpcode_mem_layout_iff (hcode : code.size ≤ maxOffset) :
    .error (.unknownOpcode pc byte) ∈ layout code ↔
      Boundary code pc ∧ code[pc]? = some byte ∧ Opcode.ofByte? byte = none := by
  rw [mem_layout_iff hcode]
  constructor
  · rintro ⟨q, hlt, hb, hd⟩
    obtain ⟨i, hi⟩ | ⟨hop, hunknown⟩ | ⟨op, _, _, hcut⟩ := decodeAt_cases hcode hlt
    · rw [hi] at hd
      cases hd
    · rw [hunknown] at hd
      cases hd
      rw [opcodeAt?, Array.getElem?_eq_getElem hlt, Option.bind_some] at hop
      exact ⟨hb, Array.getElem?_eq_getElem hlt, hop⟩
    · rw [hcut] at hd
      cases hd
  · rintro ⟨hb, hbyte, hop⟩
    refine ⟨pc, (Array.getElem?_eq_some_iff.mp hbyte).1, hb, ?_⟩
    simp only [decodeAt, hbyte, hop]

theorem truncatedImmediate_mem_layout (hcode : code.size ≤ maxOffset)
    (h : .error (.truncatedImmediate pc opcode needed available) ∈ layout code) :
    (layout code).getLast? = some (.error (.truncatedImmediate pc opcode needed available)) ∧
      opcodeAt? code pc = some opcode ∧ needed = opcode.immediateWidth ∧
      available < needed := by
  obtain ⟨q, hlt, hb, hd⟩ := (mem_layout_iff hcode).mp h
  obtain ⟨i, hi⟩ | ⟨_, hunknown⟩ | ⟨op, hop, hend, hcut⟩ := decodeAt_cases hcode hlt
  · rw [hi] at hd
    cases hd
  · rw [hunknown] at hd
    cases hd
  · have hlast := (getLast?_layout_eq_some_iff hcode).mpr ⟨q, hlt, hb, Nat.le_of_lt hend, hd⟩
    rw [hcut] at hd
    cases hd
    refine ⟨hlast, hop, rfl, ?_⟩
    rw [follow, widthAt, hop, Option.map_some, Option.getD_some] at hend
    omega

theorem outOfBounds_notMem_layout (hcode : code.size ≤ maxOffset) :
    .error (.outOfBounds pc) ∉ layout code := by
  intro hmem
  obtain ⟨q, hlt, _, hd⟩ := (mem_layout_iff hcode).mp hmem
  exact Checked.decodeAt_ne_outOfBounds hcode hlt pc hd

end Errors

/-- The items are those of the code: in order, without gap or overlap, and with every byte. -/
structure Tiling (code : Code) (items : List Item) : Prop where
  head_offset : items.head?.map Item.offset = if 0 < code.size then some 0 else none
  increasing : (items.map Item.offset).Pairwise (· < ·)
  adjacent : items.IsChain fun a b => b.offset = a.stop code.size
  last_stop : ∀ item, items.getLast? = some item → item.stop code.size = code.size
  bytes_eq : items.flatMap (Item.bytes code) = code.toList
  unassigned_iff : ∀ pc byte, .error (.unknownOpcode pc byte) ∈ items ↔
    Boundary code pc ∧ code[pc]? = some byte ∧ Opcode.ofByte? byte = none
  cut_off : ∀ pc opcode needed available,
    .error (.truncatedImmediate pc opcode needed available) ∈ items →
      items.getLast? = some (.error (.truncatedImmediate pc opcode needed available)) ∧
        opcodeAt? code pc = some opcode ∧ needed = opcode.immediateWidth ∧ available < needed
  in_bounds : ∀ pc, .error (.outOfBounds pc) ∉ items

theorem head?_layout_offset (code : Code) :
    (layout code).head?.map Item.offset = if 0 < code.size then some 0 else none := by
  rw [List.head?_eq_getElem?, layout, getElem?_layoutFrom, Function.iterate_zero_apply, itemAt?]
  by_cases h : 0 < code.size
  · rw [if_pos ⟨h, Nat.zero_le _⟩, if_pos h, Option.map_some, Item.offset_decodeAt]
  · rw [if_neg (fun hpos => h hpos.1), if_neg h]
    rfl

/-- A walk over the code ends, and the items on its way tile the code. -/
theorem tiling_layout (code : Code) (hcode : code.size ≤ maxOffset) :
    (∀ n, (layout code)[n]? = itemAt? code ((skip code)^[n] 0)) ∧
      (layout code).length ≤ code.size ∧ Tiling code (layout code) := by
  have hadjacent : Adjacent code.size 0 (layout code) :=
    adjacent_layoutFrom hcode (Nat.zero_le _)
  refine ⟨getElem?_layoutFrom code 0, ?_, ?_⟩
  · have hlength := hadjacent.length_le
    rwa [Nat.zero_add] at hlength
  · exact {
      head_offset := head?_layout_offset code
      increasing := hadjacent.pairwise_offset
      adjacent := hadjacent.isChain
      last_stop := fun _ hlast => hadjacent.stop_of_getLast? hlast
      bytes_eq := flatMap_bytes_layoutFrom hcode
      unassigned_iff := fun _ _ => unknownOpcode_mem_layout_iff hcode
      cut_off := fun _ _ _ _ hmem => truncatedImmediate_mem_layout hcode hmem
      in_bounds := fun _ => outOfBounds_notMem_layout hcode }

theorem tiling_layout_three_items :
    Array.size #[0x60, 0x5B, 0xFE, 0x61, 0x00] ≤ maxOffset ∧
      (layout #[0x60, 0x5B, 0xFE, 0x61, 0x00]).map Item.offset = [0, 2, 3] ∧
      Tiling #[0x60, 0x5B, 0xFE, 0x61, 0x00] (layout #[0x60, 0x5B, 0xFE, 0x61, 0x00]) := by
  obtain ⟨_, _, htiling⟩ := tiling_layout #[0x60, 0x5B, 0xFE, 0x61, 0x00] (by decide)
  exact ⟨by decide, by decide +kernel, htiling⟩

end StackMachine
