import StackMachine.Proofs.Spec.Acceptance
import StackMachine.Proofs.Text

namespace StackMachine

def Trait.constant : Trait → String
  | push => "OpcodeFlags::PUSH"
  | dup => "OpcodeFlags::DUP"
  | swap => "OpcodeFlags::SWAP"
  | pc => "OpcodeFlags::PC"
  | jump => "OpcodeFlags::JUMP"
  | jumpi => "OpcodeFlags::JUMPI"
  | jumpdest => "OpcodeFlags::JUMPDEST"

namespace TraitSet

/-- What an expression of constants and their unions stands for. -/
inductive DenotedBy : TraitSet → String → Prop where
  | none : DenotedBy none "OpcodeFlags::NONE"
  | constant (t : Trait) : DenotedBy (ofList [t]) t.constant
  | union {s s' : TraitSet} {e e' : String} : DenotedBy s e → DenotedBy s' e' →
      DenotedBy (s.union s') (e ++ ".union(" ++ e' ++ ")")

theorem ofList_cons (t : Trait) (ts : List Trait) :
    ofList (t :: ts) = (ofList [t]).union (ofList ts) := by
  apply ext_has
  intro x
  simp

theorem denotedBy_intercalate (t : Trait) (ts : List Trait) :
    (ofList (t :: ts)).DenotedBy (String.intercalate ".union(" ((t :: ts).map Trait.constant)
      ++ String.ofList (List.replicate ts.length ')')) := by
  induction ts generalizing t with
  | nil =>
    have hone : String.intercalate ".union(" [t.constant] ++ String.ofList [] = t.constant := by
      simp
    exact hone.symm ▸ .constant t
  | cons t' ts ih =>
    have hclose : String.ofList (List.replicate (ts.length + 1) ')') =
        String.ofList (List.replicate ts.length ')') ++ ")" := by
      rw [List.replicate_succ', String.ofList_append]
    have hunion := DenotedBy.union (.constant t) (ih t')
    rw [ofList_cons, List.map_cons, List.map_cons, String.intercalate_cons_cons, List.length_cons,
      hclose]
    simpa only [List.map_cons, String.append_assoc] using hunion

end TraitSet

theorem OpcodeSpec.denotedBy_flagExpression (op : OpcodeSpec) :
    op.traits.DenotedBy (flagExpression op.flags) := by
  have hconstant (ts : List Trait) :
      ts.map (fun t => "OpcodeFlags::" ++ t.name.toUpper) = ts.map Trait.constant := by
    apply List.map_congr_left
    intro t _
    cases t <;> cbv
  have hfilter : (Trait.all.filter fun t => op.flags.contains t.name) =
      Trait.all.filter op.hasTrait := rfl
  rw [flagExpression, hfilter, hconstant, OpcodeSpec.traits]
  cases Trait.all.filter op.hasTrait with
  | nil => exact .none
  | cons t ts =>
    have hdenoted := TraitSet.denotedBy_intercalate t ts
    simpa using hdenoted

theorem Assignment.eq_of_byte_eq {as : List Assignment} {a b : Assignment}
    (hdistinct : as.Pairwise fun a b => a.byte ≠ b.byte) (ha : a ∈ as) (hb : b ∈ as)
    (h : a.byte = b.byte) : a = b := by
  have : Std.Symm fun a b : Assignment => a.byte ≠ b.byte := ⟨fun _ _ => Ne.symm⟩
  by_contra hne
  exact hdistinct.forall ha hb hne h

theorem Assignment.pairwise_lt_mergeSort {as : List Assignment}
    (hdistinct : as.Pairwise fun a b => a.byte ≠ b.byte) :
    (as.mergeSort Assignment.le).Pairwise fun a b => a.byte < b.byte := by
  have hsorted := List.pairwise_mergeSort Assignment.le_transitive Assignment.le_or_le as
  have hne := ((List.mergeSort_perm as Assignment.le).pairwise_iff Ne.symm).mpr hdistinct
  refine (hsorted.and hne).imp fun ⟨hle, hne⟩ => ?_
  obtain hlt | ⟨heq, _⟩ := Assignment.le_iff.mp hle
  · exact hlt
  · exact absurd heq hne

namespace Spec

section Checked

variable {spec : Spec} {ordered : List Assignment}

theorem ascending_of_check (h : spec.check = .ok ordered) :
    ordered.Pairwise fun a b => a.byte < b.byte := by
  obtain ⟨-, as, -, hdistinct, -, -, rfl⟩ := check_eq_ok_iff.mp h
  exact Assignment.pairwise_lt_mergeSort hdistinct

theorem distinct_of_check (h : spec.check = .ok ordered) :
    ordered.Pairwise fun a b => a.byte ≠ b.byte :=
  (ascending_of_check h).imp UInt8.ne_of_lt

end Checked

namespace Source

variable {ops : List Assignment} {a : Assignment} {op : OpcodeSpec} {byte byte' : UInt8}

section Table

theorem byByte_concat (ops : List Assignment) (a : Assignment) :
    byByte (ops ++ [a]) = (byByte ops).setIfInBounds a.byte.toNat (some a.op) :=
  List.foldl_append

theorem size_byByte (ops : List Assignment) : (byByte ops).size = 256 := by
  induction ops using List.reverseRecOn with
  | nil => exact Array.size_replicate
  | append_singleton ops a ih => rw [byByte_concat, Array.size_setIfInBounds, ih]

/-- A cell holds the last opcode that was written into it. -/
theorem getD_byByte (ops : List Assignment) (byte : UInt8) :
    (byByte ops).getD byte.toNat none = (ops.reverse.find? (·.byte = byte)).map (·.op) := by
  have hbyte := byte.toNat_lt
  induction ops using List.reverseRecOn with
  | nil =>
    rw [byByte, List.foldl_nil, Array.getD_eq_getD_getElem?, Array.getElem?_replicate, if_pos hbyte]
    rfl
  | append_singleton ops a ih =>
    rw [Array.getD_eq_getD_getElem?] at ih ⊢
    rw [byByte_concat, Array.getElem?_setIfInBounds, size_byByte, List.reverse_append,
      List.reverse_singleton, List.singleton_append, List.find?_cons]
    by_cases h : a.byte = byte
    · simp [h, hbyte]
    · rw [if_neg (fun heq => h (UInt8.toNat_inj.mp heq)), ih]
      simp [h]

theorem getD_byByte_eq_some (hdistinct : ops.Pairwise fun a b => a.byte ≠ b.byte) (ha : a ∈ ops) :
    (byByte ops).getD a.byte.toNat none = some a.op := by
  rw [getD_byByte]
  cases hfind : ops.reverse.find? (·.byte = a.byte) with
  | none =>
    have hnone := List.find?_eq_none.mp hfind a (List.mem_reverse.mpr ha)
    simp at hnone
  | some b =>
    have hb := List.mem_reverse.mp (List.mem_of_find?_eq_some hfind)
    have hbyte : b.byte = a.byte := by simpa using List.find?_some hfind
    rw [Option.map_some, Assignment.eq_of_byte_eq hdistinct hb ha hbyte]

theorem getD_byByte_eq_none (h : ∀ a ∈ ops, a.byte ≠ byte) :
    (byByte ops).getD byte.toNat none = none := by
  rw [getD_byByte, Option.map_eq_none_iff, List.find?_eq_none]
  intro a ha
  simpa using h a (List.mem_reverse.mp ha)

theorem length_rows (ops : List Assignment) : (rows ops).length = 256 := by
  simp [rows]

theorem getElem?_rows (ops : List Assignment) (byte : UInt8) : (rows ops)[byte.toNat]? =
    some (((byByte ops).getD byte.toNat none).elim (unassignedRow byte) (assignedRow · byte)) := by
  rw [rows, List.getElem?_map, List.getElem?_range byte.toNat_lt, Option.map_some,
    UInt8.ofNat_toNat]
  cases (byByte ops).getD byte.toNat none <;> rfl

theorem getElem?_rows_of_mem (hdistinct : ops.Pairwise fun a b => a.byte ≠ b.byte) (ha : a ∈ ops) :
    (rows ops)[a.byte.toNat]? = some (assignedRow a.op a.byte) := by
  rw [getElem?_rows, getD_byByte_eq_some hdistinct ha]
  rfl

theorem getElem?_rows_of_ne (h : ∀ a ∈ ops, a.byte ≠ byte) :
    (rows ops)[byte.toNat]? = some (unassignedRow byte) := by
  rw [getElem?_rows, getD_byByte_eq_none h]
  rfl

end Table

section Lines

def IsAssigned (row : String) : Prop := "is_assigned: true".toList <:+: row.toList

theorem toList_hexLiteral (byte : UInt8) :
    (hexLiteral byte).toList = ['0', 'x'] ++ Hex.upper byte := by
  simp [hexLiteral, Hex.ofByteUpper]

theorem ne_of_mem_hexLiteral {c : Char} (h : c ∈ (hexLiteral byte).toList) : c ≠ 'u' := by
  have hbyte := byte.toNat_lt
  have hdigit (n : Nat) (hn : n < 16) : (Nat.digitChar n).toUpper ≠ 'u' := by
    interval_cases n <;> decide
  rw [toList_hexLiteral, List.mem_append, Hex.upper, Hex.lower, List.map_cons, List.map_singleton,
    List.mem_pair, List.mem_pair] at h
  obtain (rfl | rfl) | (rfl | rfl) := h
  · decide
  · decide
  · exact hdigit _ (by omega)
  · exact hdigit _ (by omega)

theorem exists_toList_row (mnemonic assigned stackIn stackOut immediate terminator flags : String)
    (byte : UInt8) : ∃ rest,
      (row mnemonic assigned stackIn stackOut immediate terminator flags byte).toList =
        ("    OpcodeInfo \x7b mnemonic: \"" ++ mnemonic).toList
          ++ ("\", is_assigned: " ++ assigned).toList ++ rest := by
  delta row
  simp only [String.toList_append, List.append_assoc]
  exact ⟨_, rfl⟩

theorem isAssigned_assignedRow (op : OpcodeSpec) (byte : UInt8) :
    IsAssigned (assignedRow op byte) := by
  have hfield : "is_assigned: true".toList <:+: ("\", is_assigned: " ++ "true").toList := by
    decide +kernel
  obtain ⟨rest, hrest⟩ := exists_toList_row op.mnemonic "true" (toString op.stackIn)
    (toString op.stackOut) (toString op.immediate) (boolText op.terminator)
    (flagExpression op.flags) byte
  exact hfield.trans ⟨_, rest, hrest.symm⟩

theorem not_isAssigned_unassignedRow (byte : UInt8) : ¬ IsAssigned (unassignedRow byte) := by
  intro hfield
  -- No `u` follows an `r` in such a row, as it does in `true`.
  have hclear : (unassignedRow byte).toList.IsChain fun c d => c = 'r' → d ≠ 'u' := by
    have hhex : (hexLiteral byte).toList.Pairwise fun _ d => d ≠ 'u' :=
      List.pairwise_of_forall_mem_list fun _ _ _ hd => ne_of_mem_hexLiteral hd
    delta unassignedRow row
    rw [String.toList_append, List.isChain_append]
    refine ⟨by decide +kernel, hhex.isChain.imp fun _ _ hd _ => hd, fun c _ d hd _ => ?_⟩
    exact ne_of_mem_hexLiteral (List.mem_of_mem_head? hd)
  have hchain := List.IsChain.infix hclear hfield
  exact absurd hchain (by decide)

theorem exists_isAssigned_iff (hdistinct : ops.Pairwise fun a b => a.byte ≠ b.byte) :
    (∃ row, (rows ops)[byte.toNat]? = some row ∧ IsAssigned row) ↔ ∃ a ∈ ops, a.byte = byte := by
  constructor
  · rintro ⟨row, hrow, hassigned⟩
    by_contra hnone
    push Not at hnone
    rw [getElem?_rows_of_ne hnone, Option.some_inj] at hrow
    exact not_isAssigned_unassignedRow byte (hrow ▸ hassigned)
  · rintro ⟨a, ha, rfl⟩
    exact ⟨_, getElem?_rows_of_mem hdistinct ha, isAssigned_assignedRow a.op a.byte⟩

/-- The lines that declare an opcode with its byte, behind comments. -/
def Declares (a : Assignment) (lines : List String) : Prop :=
  ∃ comments, (∀ line ∈ comments, ∃ comment, line = "    /// " ++ comment) ∧
    lines = comments ++ ["    " ++ a.op.name ++ " = " ++ ("0x" ++ Hex.ofByteUpper a.byte) ++ ","]

theorem declares_of_variantLines {lines : List String} (h : variantLines a = .ok lines) :
    Declares a lines := by
  rw [variantLines] at h
  split at h
  · cases h
  next doc _ =>
    refine ⟨(linesOf [] doc.toList).map ("    /// " ++ ·), fun line hline => ?_, ?_⟩
    · obtain ⟨comment, _, rfl⟩ := List.mem_map.mp hline
      exact ⟨comment, rfl⟩
    · exact (Except.ok.inj h).symm

def arm (byte : UInt8) (name : String) : String :=
  "            " ++ ("0x" ++ Hex.ofByteUpper byte) ++ " => Self::" ++ name ++ ","

theorem byte_eq_of_arm_eq {name name' : String} (h : arm byte name = arm byte' name') :
    byte = byte' := by
  have hchars := congrArg String.toList h
  change ("            " ++ hexLiteral byte ++ " => Self::" ++ name ++ ",").toList =
    ("            " ++ hexLiteral byte' ++ " => Self::" ++ name' ++ ",").toList at hchars
  simp only [String.toList_append, toList_hexLiteral, List.append_assoc] at hchars
  have hdigits := List.append_cancel_left (List.append_cancel_left hchars)
  exact Hex.upper_injective (List.append_inj_left hdigits rfl)

theorem exists_arm_iff :
    (∃ name, arm byte name ∈ ops.map decoderArm) ↔ ∃ a ∈ ops, a.byte = byte := by
  constructor
  · rintro ⟨name, hmem⟩
    obtain ⟨a, ha, harm⟩ := List.mem_map.mp hmem
    exact ⟨a, ha, byte_eq_of_arm_eq harm⟩
  · rintro ⟨a, ha, rfl⟩
    exact ⟨a.op.name, List.mem_map_of_mem ha⟩

end Lines

/-- A text whose sections speak of the opcodes of a specification and of no others: the opcodes in
the order of their bytes, the rows of the table, the lines of each variant, and the arms of the
decoder. -/
structure Sections (spec : Spec) (text : String) (ordered : List Assignment) (rows : List String)
    (variants : List (List String)) (arms : List String) : Prop where
  text_eq : text = ofLines (headerSection ++ flagsSection ++ rowTypeSection
    ++ (["/// Metadata indexed by opcode byte (all 256 byte values).",
        "pub static OPCODE_INFO_BY_BYTE: [OpcodeInfo; 256] = ["]
      ++ rows ++ ["];", ""])
    ++ (["/// Assigned opcode bytes of the instruction set.",
        "#[derive(Copy, Clone, Debug, PartialEq, Eq, Hash)]",
        "#[repr(u8)]",
        "pub enum Opcode \x7b"]
      ++ variants.flatten ++ ["\x7d", ""])
    ++ (["impl Opcode \x7b",
        "    /// Decodes an opcode byte; `None` for unassigned bytes.",
        "    #[must_use]",
        "    pub fn from_u8(b: u8) -> Option<Self> \x7b",
        "        Some(match b \x7b"]
      ++ arms ++ ["            _ => return None,", "        \x7d)", "    \x7d", ""])
    ++ accessorSection)
  perm : (ordered.map (·.op)).Perm spec.opcodes
  parse_eq : ∀ a ∈ ordered, HexByte.parse a.op.byte = .ok a.byte
  ascending : ordered.Pairwise fun a b => a.byte < b.byte
  length_rows : rows.length = 256
  row_of_mem : ∀ op ∈ spec.opcodes, ∀ byte, HexByte.parse op.byte = .ok byte →
    rows[byte.toNat]? = some ("    OpcodeInfo \x7b mnemonic: \"" ++ op.mnemonic
      ++ "\", is_assigned: " ++ "true" ++ ", stack_in: " ++ toString op.stackIn
      ++ ", stack_out: " ++ toString op.stackOut ++ ", immediate: " ++ toString op.immediate
      ++ ", is_terminator: " ++ (if op.terminator then "true" else "false")
      ++ ", flags: " ++ flagExpression op.flags ++ " \x7d, // " ++ ("0x" ++ Hex.ofByteUpper byte))
  row_of_ne : ∀ byte, (∀ op ∈ spec.opcodes, HexByte.parse op.byte ≠ .ok byte) →
    rows[byte.toNat]? = some ("    OpcodeInfo \x7b mnemonic: \"" ++ "<invalid>"
      ++ "\", is_assigned: " ++ "false" ++ ", stack_in: " ++ "0" ++ ", stack_out: " ++ "0"
      ++ ", immediate: " ++ "0" ++ ", is_terminator: " ++ "false"
      ++ ", flags: " ++ "OpcodeFlags::NONE" ++ " \x7d, // " ++ ("0x" ++ Hex.ofByteUpper byte))
  flags_denoted : ∀ op ∈ spec.opcodes, op.traits.DenotedBy (flagExpression op.flags)
  declares : List.Forall₂ Declares ordered variants
  arms_eq : arms = ordered.map fun a => arm a.byte a.op.name
  decoded_iff : ∀ byte, (∃ name, arm byte name ∈ arms) ↔
    ∃ row, rows[byte.toNat]? = some row ∧ IsAssigned row

end Source

open Source

/-- The table, the opcode type and the decoder of every generated text agree. -/
theorem sections_agree {spec : Spec} {text : String} (h : spec.generate = .ok text) :
    ∃ ordered rows variants arms, Sections spec text ordered rows variants arms := by
  obtain ⟨ordered, hcheck, h⟩ := bind_eq_ok_iff.mp h
  obtain ⟨opcodeType, henum, h⟩ := bind_eq_ok_iff.mp h
  obtain ⟨variants, hvariants, henum⟩ := bind_eq_ok_iff.mp henum
  obtain ⟨-, as, hreads, -, -, -, hordered⟩ := check_eq_ok_iff.mp hcheck
  -- The text is written from the assignments in order, which are those of the specification.
  have hperm : ordered.Perm as := hordered ▸ List.mergeSort_perm as Assignment.le
  have hdistinct := distinct_of_check hcheck
  exact ⟨ordered, rows ordered, variants, ordered.map decoderArm, {
    text_eq := by
      obtain rfl := Except.ok.inj henum
      exact (Except.ok.inj h).symm
    perm := by
      rw [← hreads.map_op]
      exact hperm.map _
    parse_eq := fun a ha => hreads.parse_eq a (hperm.mem_iff.mp ha)
    ascending := ascending_of_check hcheck
    length_rows := length_rows _
    row_of_mem := by
      intro op hop byte hbyte
      rw [← hreads.map_op] at hop
      obtain ⟨a, ha, rfl⟩ := List.mem_map.mp hop
      obtain rfl := Except.ok.inj ((hreads.parse_eq a ha).symm.trans hbyte)
      exact getElem?_rows_of_mem hdistinct (hperm.mem_iff.mpr ha)
    row_of_ne := by
      intro byte hne
      refine getElem?_rows_of_ne fun a ha heq => ?_
      have ha := hperm.mem_iff.mp ha
      have hop : a.op ∈ spec.opcodes := hreads.map_op ▸ List.mem_map_of_mem ha
      exact hne a.op hop (heq ▸ hreads.parse_eq a ha)
    flags_denoted := fun op _ => op.denotedBy_flagExpression
    declares := (mapM_eq_ok_iff.mp hvariants).imp fun _ _ => declares_of_variantLines
    arms_eq := rfl
    decoded_iff := fun byte => exists_arm_iff.trans (exists_isAssigned_iff hdistinct).symm }⟩

def jumpAdd : Spec := ⟨1, [⟨"Jump", "JUMP", "0x56", 1, 0, 0, false, ["jump"], some "Jumps."⟩,
  ⟨"Add", "ADD", " 1", 2, 1, 0, false, [], some ""⟩]⟩

theorem exists_generate_jumpAdd : ∃ text, jumpAdd.generate = .ok text :=
  exists_generate_iff_check.mpr
    ⟨List.zipWith Assignment.mk [1, 0x56] jumpAdd.opcodes.reverse, by cbv, by decide⟩

theorem sections_agree_jumpAdd : ∃ text ordered rows variants arms,
    jumpAdd.generate = .ok text ∧ Sections jumpAdd text ordered rows variants arms ∧
      rows[0x56]? = some ("    OpcodeInfo \x7b mnemonic: \"JUMP\", is_assigned: true, stack_in: 1, "
        ++ "stack_out: 0, immediate: 0, is_terminator: false, flags: OpcodeFlags::JUMP \x7d, "
        ++ "// 0x56") := by
  obtain ⟨text, htext⟩ := exists_generate_jumpAdd
  obtain ⟨ordered, rows, variants, arms, h⟩ := sections_agree htext
  refine ⟨text, ordered, rows, variants, arms, htext, h, ?_⟩
  have hrow := h.row_of_mem _ List.mem_cons_self 0x56 (by cbv)
  refine hrow.trans (congrArg some ?_)
  decide +kernel

end Spec

end StackMachine
