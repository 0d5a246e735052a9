import StackMachine.Proofs.Assembler.Draft
import StackMachine.Proofs.FirstError
import StackMachine.Proofs.JumpDests

namespace StackMachine

section Decoding

variable {code : Code} {opcode : Opcode} {pre immediate rest : List UInt8}

theorem decodeAt_of_toList_eq (hcode : code.size ≤ maxOffset)
    (h : code.toList = pre ++ (opcode.toByte :: immediate ++ rest))
    (hwidth : immediate.length = opcode.immediateWidth) :
    decodeAt code pre.length =
      .ok ⟨pre.length, opcode, immediate, pre.length + 1 + immediate.length⟩ := by
  have hsize : code.size = pre.length + 1 + immediate.length + rest.length := by
    rw [← Array.length_toList, h]
    simp
    omega
  have hbyte : code[pre.length]? = some opcode.toByte := by
    rw [← Array.getElem?_toList, h]
    simp
  have himmediate : (code.extract (pre.length + 1) (pre.length + 1 + immediate.length)).toList =
      immediate := by
    have hdrop : (pre ++ (opcode.toByte :: immediate ++ rest)).drop (pre.length + 1) =
        immediate ++ rest := by
      rw [← List.drop_drop, List.drop_left]
      rfl
    rw [Array.toList_extract, List.extract_eq_take_drop, h, hdrop, Nat.add_sub_cancel_left,
      List.take_left]
  refine decodeAt_eq_ok_iff.mpr ⟨opcode.toByte, hbyte, Opcode.ofByte?_toByte opcode, rfl, ?_, ?_,
    ?_, himmediate.symm⟩
  · exact congrArg (pre.length + 1 + ·) hwidth
  · dsimp only
    omega
  · dsimp only
    omega

def Instr.IsPush (i : Instr) (width : Nat) : Prop :=
  ∃ h : width < 33, i.opcode = .push ⟨width, h⟩

end Decoding

namespace Assembler

def Call.IsStructured : Call → Prop
  | raw _ => False
  | op opcode => opcode.immediateWidth = 0
  | _ => True

def Call.reference? : Call → Option Label
  | pushLabel label | jumpTo label | jumpiTo label => some label
  | _ => none

namespace Piece

def IsInstr : Piece → Prop
  | bare opcode => opcode.immediateWidth = 0
  | raw _ => False
  | _ => True

def label? : Piece → Option Label
  | reference label => some label
  | _ => none

/-- The instruction says what the piece says. -/
def Reads (placed? : Label → Option Nat) : Piece → Instr → Prop
  | bare opcode, i => i.opcode = opcode ∧ i.immediate = []
  | number value, i => i.IsPush i.immediate.length ∧
      BigEndian.toNat i.immediate = value.toNat ∧ i.immediate.head? ≠ some 0
  | reference label, i => i.IsPush 2 ∧ i.immediate.length = 2 ∧
      ∃ pc, placed? label = some pc ∧ i.immediate32? = some pc
  | raw _, _ => False

variable {placed? : Label → Option Nat} {p : Piece} {bytes : List UInt8}

theorem exists_of_encode (hinstr : p.IsInstr) (h : p.encode placed? = .ok bytes) :
    ∃ opcode immediate, bytes = opcode.toByte :: immediate ∧
      immediate.length = opcode.immediateWidth ∧
      ∀ offset next, p.Reads placed? ⟨offset, opcode, immediate, next⟩ := by
  cases p with
  | bare opcode => exact ⟨opcode, [], (Except.ok.inj h).symm, hinstr.symm, fun _ _ => ⟨rfl, rfl⟩⟩
  | number value =>
    refine ⟨_, _, (Except.ok.inj h).symm, rfl, fun _ _ => ⟨⟨length_digits_lt value, rfl⟩, ?_, ?_⟩⟩
    · exact BigEndian.toNat_digits _
    · exact BigEndian.head?_digits_ne_zero _
  | reference label =>
    obtain ⟨pc, hpc, hfits, rfl⟩ := encode_reference_eq_ok_iff.mp h
    refine ⟨.push 2, _, rfl, rfl, fun _ _ => ⟨⟨by decide, rfl⟩, rfl, pc, hpc, ?_⟩⟩
    rw [Instr.immediate32?, BigEndian.word32?_eq, BigEndian.toNat_ofWord16 hfits, if_pos (by omega)]
  | raw bytes => exact hinstr.elim

theorem eq_of_reads_jumpdest {i : Instr} (h : p.Reads placed? i) (hop : i.opcode = .jumpdest) :
    p = .bare .jumpdest := by
  cases p with
  | bare opcode => rw [← h.1, hop]
  | number value =>
    obtain ⟨⟨_, hpush⟩, _⟩ := h
    cases hop.symm.trans hpush
  | reference label =>
    obtain ⟨⟨_, hpush⟩, _⟩ := h
    cases hop.symm.trans hpush
  | raw bytes => exact h.elim

end Piece

section Layout

variable {code : Code} {placed? : Label → Option Nat} {pieces : List Piece}

def Listed (placed? : Label → Option Nat) (entry : Nat × Piece) (i : Instr) : Prop :=
  i.offset = entry.1 ∧ entry.2.Reads placed? i

theorem exists_instrs_of_encode (hcode : code.size ≤ maxOffset) (pre : List UInt8)
    {parts : List (List UInt8)} (hinstr : ∀ p ∈ pieces, p.IsInstr)
    (hparts : pieces.mapM (Piece.encode placed?) = .ok parts)
    (h : code.toList = pre ++ parts.flatten) :
    ∃ instrs, layoutFrom code pre.length [] = instrs.map .ok ∧
      List.Forall₂ (Listed placed?) (listingFrom pre.length pieces) instrs := by
  -- No piece is wider or narrower than its instruction, so the next one starts where it ends.
  induction pieces generalizing pre parts with
  | nil =>
    obtain rfl := Except.ok.inj hparts
    have hsize : code.size = pre.length := by
      rw [← Array.length_toList, h]
      simp
    refine ⟨[], ?_, .nil⟩
    rw [layoutFrom, dif_neg (by omega)]
    rfl
  | cons p pieces ih =>
    obtain ⟨hp, hpieces⟩ := List.forall_mem_cons.mp hinstr
    obtain ⟨part, rest, hpart, hrest, rfl⟩ := exists_of_mapM_cons hparts
    obtain ⟨opcode, immediate, rfl, hwidth, hreads⟩ := Piece.exists_of_encode hp hpart
    have hstart : code.toList = pre ++ (opcode.toByte :: immediate ++ rest.flatten) := h
    have hstop :
        pre.length + 1 + immediate.length = (pre ++ opcode.toByte :: immediate).length := by
      rw [List.length_append, List.length_cons]
      omega
    have hlength : pre.length + p.width = (pre ++ opcode.toByte :: immediate).length := by
      rw [List.length_append, Piece.length_encode hpart]
    have hlt : pre.length < code.size := by
      rw [← Array.length_toList, hstart]
      simp
    obtain ⟨instrs, hlayout, hlisted⟩ := ih _ hpieces hrest (by rw [hstart, List.append_assoc])
    refine ⟨⟨_, opcode, immediate, pre.length + 1 + immediate.length⟩ :: instrs, ?_,
      .cons ⟨rfl, hreads _ _⟩ (hlength ▸ hlisted)⟩
    rw [layoutFrom_cons hlt (by omega), decodeAt_of_toList_eq hcode hstart hwidth, Item.next, hstop,
      hlayout]
    rfl

end Layout

section Drafts

variable {d d' : Draft}

theorem Draft.exists_pieces_after (d : Draft) (c : Call) : ∃ rest,
    (d.after c).pieces = d.pieces ++ ((c.reference?.map Piece.reference).toList ++ rest) ∧
      ∀ p ∈ rest, p.label? = none ∧ (c.IsStructured → p.IsInstr) := by
  -- A call writes its reference first, and what it writes besides has no label.
  cases c with
  | newLabel => exact ⟨[], (List.append_nil _).symm, List.forall_mem_nil _⟩
  | place label =>
    rw [after, pieces_place]
    exact ⟨[], (List.append_nil _).symm, List.forall_mem_nil _⟩
  | jumpdest label =>
    rw [after, jumpdest]
    split
    · rw [write, pieces_place]
      exact ⟨_, rfl, List.forall_mem_singleton.mpr ⟨rfl, fun _ => rfl⟩⟩
    · exact ⟨[], (List.append_nil _).symm, List.forall_mem_nil _⟩
  | op | raw => exact ⟨_, rfl, List.forall_mem_singleton.mpr ⟨rfl, id⟩⟩
  | push | pushNumber => exact ⟨_, rfl, List.forall_mem_singleton.mpr ⟨rfl, fun _ => trivial⟩⟩
  | pushLabel => exact ⟨[], rfl, List.forall_mem_nil _⟩
  | jumpTo | jumpiTo =>
    refine ⟨_, List.append_assoc _ _ _, ?_⟩
    exact List.forall_mem_singleton.mpr ⟨rfl, fun _ => rfl⟩
  | dynamicJump | dynamicJumpi =>
    exact ⟨_, pieces_dynamic _ d, List.forall_mem_singleton.mpr ⟨rfl, fun _ => rfl⟩⟩

theorem Draft.exists_pieces_foldl (d : Draft) (calls : List Call) : ∃ written,
    (calls.foldl after d).pieces = d.pieces ++ written ∧
      ((∀ c ∈ calls, c.IsStructured) → ∀ p ∈ written, p.IsInstr) := by
  induction calls generalizing d with
  | nil => exact ⟨[], (List.append_nil _).symm, fun _ => List.forall_mem_nil _⟩
  | cons c calls ih =>
    obtain ⟨first, hfirst, hinstr⟩ := d.exists_pieces_after c
    obtain ⟨rest, hrest, hinstrs⟩ := ih (d.after c)
    refine ⟨(c.reference?.map Piece.reference).toList ++ first ++ rest, ?_, fun h => ?_⟩
    · rw [List.foldl_cons, hrest, hfirst, List.append_assoc]
    · obtain ⟨hc, hcalls⟩ := List.forall_mem_cons.mp h
      have href : ∀ p ∈ (c.reference?.map Piece.reference).toList, p.IsInstr := by
        simp [Piece.IsInstr]
      have hfirst : ∀ p ∈ first, p.IsInstr := fun p hp => (hinstr p hp).2 hc
      exact List.forall_mem_append.mpr
        ⟨List.forall_mem_append.mpr ⟨href, hfirst⟩, hinstrs hcalls⟩

theorem Draft.mem_listing {p : Piece} (hd : d'.pieces = d.pieces ++ [p]) (calls : List Call) :
    (totalWidth d.pieces, p) ∈ (calls.foldl after d').listing := by
  obtain ⟨rest, hrest, _⟩ := d'.exists_pieces_foldl calls
  rw [listing, hrest, hd, List.append_assoc, listingFrom_append, Nat.zero_add]
  exact List.mem_append_right _ List.mem_cons_self

end Drafts

section Finished

variable {calls : List Call} {code : Code}

theorem exists_parts (hfinish : (assemble calls).finish = .ok code) : ∃ parts,
    (draft calls).pieces.mapM (Piece.encode (draft calls).placedAt?) = .ok parts ∧
      code = parts.flatten.toArray := by
  rw [(describes_draft calls).finish_eq, map_eq_ok_iff] at hfinish
  obtain ⟨parts, hparts, hcode⟩ := hfinish
  exact ⟨parts, hparts, hcode.symm⟩

theorem exists_instrs (hcalls : ∀ c ∈ calls, c.IsStructured)
    (hfinish : (assemble calls).finish = .ok code) (hcode : code.size ≤ maxOffset) :
    ∃ instrs, layout code = instrs.map .ok ∧
      List.Forall₂ (Listed (draft calls).placedAt?) (draft calls).listing instrs := by
  obtain ⟨pieces, hpieces, hinstr⟩ := Draft.exists_pieces_foldl {} calls
  obtain ⟨parts, hparts, rfl⟩ := exists_parts hfinish
  refine exists_instrs_of_encode hcode [] ?_ hparts rfl
  rw [draft, hpieces]
  exact hinstr hcalls

variable {before after : List Call} {c : Call} {label : Label} {opcode : Opcode}

theorem isValid_iff_mem_listing (hcalls : ∀ c ∈ calls, c.IsStructured)
    (hfinish : (assemble calls).finish = .ok code) (hcode : code.size ≤ maxOffset) (o : Nat) :
    (JumpDests.ofCode code).isValid o = true ↔ (o, .bare .jumpdest) ∈ (draft calls).listing := by
  obtain ⟨instrs, hlayout, hlisted⟩ := exists_instrs hcalls hfinish hcode
  rw [JumpDests.isValid_iff_exists_mem_layout hcode, hlayout]
  constructor
  · rintro ⟨i, hmem, hop, rfl⟩
    obtain ⟨j, hj, heq⟩ := List.mem_map.mp hmem
    obtain rfl := Except.ok.inj heq
    obtain ⟨⟨offset, p⟩, hentry, hoffset, hreads⟩ := exists_mem_of_forall₂ hlisted.flip hj
    rw [hoffset, ← Piece.eq_of_reads_jumpdest hreads hop]
    exact hentry
  · intro hentry
    obtain ⟨i, hi, hoffset, hop, _⟩ := exists_mem_of_forall₂ hlisted hentry
    exact ⟨i, List.mem_map_of_mem hi, hop, hoffset⟩

end Finished

end Assembler

end StackMachine
