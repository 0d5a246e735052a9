import StackMachine.Proofs.Spec.Sections
import StackMachine.Spec.Command

namespace StackMachine

theorem forall₂_mergeSort {α : Type} {R : α → α → Prop} {le : α → α → Bool} {as as' : List α}
    (hle : ∀ {a a' b b'}, R a a' → R b b' → le a b = le a' b') (h : List.Forall₂ R as as') :
    List.Forall₂ R (as.mergeSort le) (as'.mergeSort le) := by
  -- Both are projections of one sorted list of pairs.
  obtain ⟨pairs, rfl, rfl, hpairs⟩ : ∃ pairs : List (α × α),
      pairs.map Prod.fst = as ∧ pairs.map Prod.snd = as' ∧ ∀ p ∈ pairs, R p.1 p.2 := by
    induction h with
    | nil => exact ⟨[], rfl, rfl, List.forall_mem_nil _⟩
    | @cons a a' _ _ ha _ ih =>
      obtain ⟨pairs, rfl, rfl, hpairs⟩ := ih
      exact ⟨(a, a') :: pairs, rfl, rfl, List.forall_mem_cons.mpr ⟨ha, hpairs⟩⟩
  have hfst : (pairs.mergeSort fun p q => le p.1 q.1).map Prod.fst =
      (pairs.map Prod.fst).mergeSort le :=
    List.map_mergeSort fun _ _ _ _ => rfl
  have hsnd : (pairs.mergeSort fun p q => le p.1 q.1).map Prod.snd =
      (pairs.map Prod.snd).mergeSort le :=
    List.map_mergeSort fun p hp q hq => hle (hpairs p hp) (hpairs q hq)
  rw [← hfst, ← hsnd, List.forall₂_map_left_iff, List.forall₂_map_right_iff, List.forall₂_same]
  exact fun p hp => hpairs p (List.mem_mergeSort.mp hp)

namespace Assignment

variable {a b : Assignment} {as as' : List Assignment}

/-- What the order of assignments looks at. -/
def key (a : Assignment) : Nat ×ₗ String := toLex (a.byte.toNat, a.op.name)

theorem le_iff_key_le : a.le b = true ↔ a.key ≤ b.key := by
  rw [le_iff, UInt8.lt_iff_toNat_lt, ← UInt8.toNat_inj]
  exact (Prod.Lex.le_iff (x := a.key) (y := b.key)).symm

theorem key_eq_iff : a.key = b.key ↔ a.byte = b.byte ∧ a.op.name = b.op.name := by
  rw [← UInt8.toNat_inj]
  exact toLex_inj.trans Prod.mk_inj

theorem perm_mergeSort (h : as.Perm as') : (as.mergeSort le).Perm (as'.mergeSort le) :=
  (List.mergeSort_perm as le).trans (h.trans (List.mergeSort_perm as' le).symm)

/-- Assignments can change places with others of the same key only. -/
theorem map_key_mergeSort_of_perm (h : as.Perm as') :
    (as.mergeSort le).map key = (as'.mergeSort le).map key := by
  have hsorted (as : List Assignment) : ((as.mergeSort le).map key).Pairwise (· ≤ ·) := by
    rw [List.pairwise_map]
    exact (List.pairwise_mergeSort le_transitive le_or_le as).imp le_iff_key_le.mp
  exact ((perm_mergeSort h).map key).eq_of_pairwise' (hsorted as) (hsorted as')

theorem mergeSort_eq_of_perm (h : as.Perm as')
    (hdistinct : as.Pairwise fun a b => a.byte ≠ b.byte) : as.mergeSort le = as'.mergeSort le := by
  have hdistinct' := (h.pairwise_iff Ne.symm).mp hdistinct
  refine List.Perm.eq_of_pairwise (fun a b _ _ hab hba => ?_) (pairwise_lt_mergeSort hdistinct)
    (pairwise_lt_mergeSort hdistinct') (perm_mergeSort h)
  exact absurd hba (UInt8.lt_asymm hab)

theorem repeatedByte?_congr (h : as.map key = as'.map key) :
    repeatedByte? as = repeatedByte? as' := by
  rw [← List.forall₂_eq_eq_eq, List.forall₂_map_left_iff, List.forall₂_map_right_iff] at h
  induction h with
  | nil => rfl
  | cons ha h ih =>
    cases h with
    | nil => rfl
    | cons hb h =>
      rw [repeatedByte?, repeatedByte?, ih, (key_eq_iff.mp ha).1, (key_eq_iff.mp ha).2,
        (key_eq_iff.mp hb).1, (key_eq_iff.mp hb).2]

end Assignment

/-- Another spelling of an opcode: its flags in another list, its byte in another text. -/
structure OpcodeSpec.Respells (op op' : OpcodeSpec) : Prop where
  mem_flags_iff : ∀ flag, flag ∈ op'.flags ↔ flag ∈ op.flags
  parse_eq : HexByte.parse op'.byte = HexByte.parse op.byte
  eq_others : op' = { op with flags := op'.flags, byte := op'.byte }

namespace OpcodeSpec.Respells

variable {op op' : OpcodeSpec}

theorem contains_flags_eq (h : op.Respells op') (flag : String) :
    op'.flags.contains flag = op.flags.contains flag := by
  rw [Bool.eq_iff_iff, List.contains_iff_mem, List.contains_iff_mem]
  exact h.mem_flags_iff flag

theorem hasTrait_eq (h : op.Respells op') (t : Trait) : op'.hasTrait t = op.hasTrait t :=
  h.contains_flags_eq t.name

theorem flagExpression_eq (h : op.Respells op') :
    flagExpression op'.flags = flagExpression op.flags := by
  rw [flagExpression, flagExpression]
  simp only [h.contains_flags_eq]

theorem coherent (h : op.Respells op') (hop : op.Coherent) : op'.Coherent := by
  have htrait := h.hasTrait_eq
  obtain ⟨hflags, -, heq⟩ := h
  rw [heq] at htrait ⊢
  exact {
    flags_known := fun flag hflag => hop.flags_known flag ((hflags flag).mp hflag)
    immediate_le := hop.immediate_le
    push_of_immediate := by simpa only [htrait] using hop.push_of_immediate
    push_effect := by simpa only [htrait] using hop.push_effect
    dup_effect := by simpa only [htrait] using hop.dup_effect
    swap_effect := by simpa only [htrait] using hop.swap_effect
    terminator := by simpa only [htrait] using hop.terminator }

theorem assignedRow_eq (h : op.Respells op') (byte : UInt8) :
    Spec.Source.assignedRow op' byte = Spec.Source.assignedRow op byte := by
  have hflags := h.flagExpression_eq
  rw [Spec.Source.assignedRow, Spec.Source.assignedRow, hflags, h.eq_others]

end OpcodeSpec.Respells

structure Assignment.Respells (a a' : Assignment) : Prop where
  byte_eq : a'.byte = a.byte
  op : a.op.Respells a'.op

namespace Assignment.Respells

variable {a a' : Assignment}

theorem name_eq (h : a.Respells a') : a'.op.name = a.op.name := by
  rw [h.op.eq_others]

theorem variantLines_eq (h : a.Respells a') :
    Spec.Source.variantLines a' = Spec.Source.variantLines a := by
  have hdoc : a'.op.doc = a.op.doc := by rw [h.op.eq_others]
  rw [Spec.Source.variantLines, Spec.Source.variantLines, hdoc, h.name_eq, h.byte_eq]

theorem decoderArm_eq (h : a.Respells a') :
    Spec.Source.decoderArm a' = Spec.Source.decoderArm a := by
  change Spec.Source.arm a'.byte a'.op.name = Spec.Source.arm a.byte a.op.name
  rw [h.byte_eq, h.name_eq]

theorem le_eq {b b' : Assignment} (ha : a.Respells a') (hb : b.Respells b') :
    a.le b = a'.le b' := by
  rw [Assignment.le, Assignment.le, ha.byte_eq, hb.byte_eq, ha.name_eq, hb.name_eq]

end Assignment.Respells

namespace Spec

variable {spec : Spec} {ops : List OpcodeSpec} {as as' ordered ordered' : List Assignment}

/-- Opcodes with the same byte are refused before anything else of them can be seen. -/
theorem check_eq_of_perm (hbytes : ∀ op ∈ spec.opcodes, ∃ byte, HexByte.parse op.byte = .ok byte)
    (hperm : spec.opcodes.Perm ops) : ({ spec with opcodes := ops } : Spec).check = spec.check := by
  obtain ⟨as, hreads⟩ := exists_reads_iff.mpr hbytes
  have has := mapM_ofSpec_iff_reads.mpr hreads
  obtain ⟨as', has', hperm⟩ := exists_mapM_of_perm hperm has
  have hrepeated : Assignment.repeatedByte? (as'.mergeSort Assignment.le) =
      Assignment.repeatedByte? (as.mergeSort Assignment.le) :=
    Assignment.repeatedByte?_congr (Assignment.map_key_mergeSort_of_perm hperm).symm
  rw [check, check]
  simp only [has, has']
  refine congrArg _ (funext fun _ => ?_)
  change (do refuse (Assignment.repeatedByte? (as'.mergeSort Assignment.le)); _) =
    (do refuse (Assignment.repeatedByte? (as.mergeSort Assignment.le)); _)
  rw [hrepeated]
  -- Assignments that can change places have the same byte, and then that byte is refused.
  cases hbyte : Assignment.repeatedByte? (as.mergeSort Assignment.le) with
  | some e => rfl
  | none =>
    have hdistinct := Assignment.repeatedByte?_mergeSort_eq_none_iff.mp hbyte
    rw [Assignment.mergeSort_eq_of_perm hperm hdistinct]

theorem Reads.exists_of_respells (hreads : spec.Reads as)
    (h : List.Forall₂ OpcodeSpec.Respells spec.opcodes ops) :
    ∃ as', ({ spec with opcodes := ops } : Spec).Reads as' ∧
      List.Forall₂ Assignment.Respells as as' := by
  simp only [← mapM_ofSpec_iff_reads, mapM_eq_ok_iff] at hreads ⊢
  generalize spec.opcodes = given at hreads h
  induction h generalizing as with
  | nil =>
    cases hreads
    exact ⟨[], .nil, .nil⟩
  | @cons op op' _ _ hop _ ih =>
    cases hreads with
    | @cons _ a _ _ ha has =>
      obtain ⟨as', has', hall⟩ := ih has
      obtain ⟨rfl, hbyte⟩ := Assignment.ofSpec_eq_ok_iff.mp ha
      have ha' : Assignment.ofSpec op' = .ok ⟨a.byte, op'⟩ :=
        Assignment.ofSpec_eq_ok_iff.mpr ⟨rfl, hop.parse_eq.trans hbyte⟩
      exact ⟨⟨a.byte, op'⟩ :: as', .cons ha' has', .cons ⟨rfl, hop⟩ hall⟩

theorem map_eq_of_respells {β : Type} {f : Assignment → β}
    (hf : ∀ {a a'}, a.Respells a' → f a' = f a) (h : List.Forall₂ Assignment.Respells as as') :
    as'.map f = as.map f := by
  induction h with
  | nil => rfl
  | cons ha _ ih => rw [List.map_cons, List.map_cons, hf ha, ih]

theorem pairwise_of_respells (h : List.Forall₂ Assignment.Respells as as')
    (hdistinct : as.Pairwise fun a b => a.byte ≠ b.byte) :
    as'.Pairwise fun a b => a.byte ≠ b.byte := by
  have hbytes := map_eq_of_respells (f := Assignment.byte) (fun ha => ha.byte_eq) h
  rw [← List.pairwise_map (R := (· ≠ ·)), hbytes, List.pairwise_map]
  exact hdistinct

theorem exists_check_of_respells (h : List.Forall₂ OpcodeSpec.Respells spec.opcodes ops)
    (hcheck : spec.check = .ok ordered) :
    ∃ ordered', ({ spec with opcodes := ops } : Spec).check = .ok ordered' ∧
      List.Forall₂ Assignment.Respells ordered ordered' := by
  obtain ⟨hversion, as, hreads, hdistinct, hnames, hcoherent, rfl⟩ := check_eq_ok_iff.mp hcheck
  obtain ⟨as', hreads', hall⟩ := hreads.exists_of_respells h
  refine ⟨as'.mergeSort Assignment.le, check_eq_ok_iff.mpr ⟨hversion, as', hreads',
    pairwise_of_respells hall hdistinct, ?_, fun a' ha' => ?_, rfl⟩,
    forall₂_mergeSort Assignment.Respells.le_eq hall⟩
  · rw [map_eq_of_respells (fun ha => ha.name_eq) hall]
    exact hnames
  · obtain ⟨a, ha, hrespells⟩ := exists_mem_of_forall₂ hall.flip ha'
    exact hrespells.op.coherent (hcoherent a ha)

theorem rows_ext
    (h : ∀ byte : UInt8, (Source.rows as)[byte.toNat]? = (Source.rows as')[byte.toNat]?) :
    Source.rows as = Source.rows as' := by
  apply List.ext_getElem?
  intro n
  obtain hn | hn := Nat.lt_or_ge n 256
  · have hbyte : (UInt8.ofNat n).toNat = n := UInt8.toNat_ofNat_of_lt' hn
    exact hbyte ▸ h (UInt8.ofNat n)
  · rw [List.getElem?_eq_none (by rwa [Source.length_rows]),
      List.getElem?_eq_none (by rwa [Source.length_rows])]

theorem rows_eq_of_respells (h : List.Forall₂ Assignment.Respells as as')
    (hdistinct : as.Pairwise fun a b => a.byte ≠ b.byte) : Source.rows as' = Source.rows as := by
  have hdistinct' := pairwise_of_respells h hdistinct
  have hbytes := map_eq_of_respells (f := Assignment.byte) (fun ha => ha.byte_eq) h
  apply rows_ext
  intro byte
  by_cases hbyte : byte ∈ as'.map Assignment.byte
  · obtain ⟨a', ha', rfl⟩ := List.mem_map.mp hbyte
    obtain ⟨a, ha, hrespells⟩ := exists_mem_of_forall₂ h.flip ha'
    rw [Source.getElem?_rows_of_mem hdistinct' ha', hrespells.byte_eq,
      Source.getElem?_rows_of_mem hdistinct ha, hrespells.op.assignedRow_eq]
  · have hbyte' : byte ∉ as.map Assignment.byte := hbytes ▸ hbyte
    rw [Source.getElem?_rows_of_ne fun a ha heq => hbyte (List.mem_map.mpr ⟨a, ha, heq⟩),
      Source.getElem?_rows_of_ne fun a ha heq => hbyte' (List.mem_map.mpr ⟨a, ha, heq⟩)]

theorem generate_eq_of_respells (h : List.Forall₂ OpcodeSpec.Respells spec.opcodes ops)
    {text : String} (hgenerate : spec.generate = .ok text) :
    ({ spec with opcodes := ops } : Spec).generate = .ok text := by
  obtain ⟨ordered, hcheck, htext⟩ := bind_eq_ok_iff.mp hgenerate
  obtain ⟨ordered', hcheck', hall⟩ := exists_check_of_respells h hcheck
  have hrows := rows_eq_of_respells hall (distinct_of_check hcheck)
  have harms := map_eq_of_respells (fun ha => ha.decoderArm_eq) hall
  have hvariants := map_eq_of_respells (fun ha => ha.variantLines_eq) hall
  have htable : Source.tableSection ordered' = Source.tableSection ordered := by
    rw [Source.tableSection, Source.tableSection, hrows]
  have henum : Source.enumSection ordered' = Source.enumSection ordered := by
    have hmapM (as : List Assignment) :
        as.mapM Source.variantLines = (as.map Source.variantLines).mapM id := by
      rw [List.mapM_map]
      rfl
    rw [Source.enumSection, Source.enumSection, hmapM, hmapM, hvariants]
  have hdecoder : Source.decoderSection ordered' = Source.decoderSection ordered := by
    rw [Source.decoderSection, Source.decoderSection, harms]
  refine bind_eq_ok_iff.mpr ⟨ordered', hcheck', ?_⟩
  rw [htable, henum, hdecoder]
  exact htext

/-- What is generated depends on the set of opcodes, the sets of their flags and the values of their
bytes only. -/
theorem generate_canonical :
    (∀ (spec : Spec) (ops : List OpcodeSpec),
      (∀ op ∈ spec.opcodes, ∃ byte, HexByte.parse op.byte = .ok byte) → spec.opcodes.Perm ops →
        ({ spec with opcodes := ops } : Spec).generate = spec.generate) ∧
    (∀ (spec : Spec) (ops : List OpcodeSpec) (text : String), spec.generate = .ok text →
      List.Forall₂ OpcodeSpec.Respells spec.opcodes ops →
        ({ spec with opcodes := ops } : Spec).generate = .ok text) ∧
    ∀ path path' input text, Command.outputFor path input = .ok text →
      Command.outputFor path' input = .ok text := by
  refine ⟨fun spec ops hbytes hperm => ?_, fun spec ops text htext h => ?_, ?_⟩
  · rw [generate, generate, check_eq_of_perm hbytes hperm]
  · exact generate_eq_of_respells h htext
  · intro path path' input text h
    cases hspec : Spec.ofText? input with
    | none =>
      rw [Command.outputFor, hspec] at h
      cases h
    | some spec =>
      rw [Command.outputFor, hspec] at h ⊢
      exact h

def jumpAddRespelled : Spec :=
  ⟨1, [⟨"Jump", "JUMP", " 0X56", 1, 0, 0, false, ["jump", "jump"], some "Jumps."⟩,
    ⟨"Add", "ADD", "0x01", 2, 1, 0, false, [], some ""⟩]⟩

theorem generate_canonical_jumpAdd :
    (⟨1, jumpAdd.opcodes.reverse⟩ : Spec).generate = jumpAdd.generate ∧
    (∃ text, jumpAdd.generate = .ok text ∧ jumpAddRespelled.generate = .ok text) ∧
    ∃ text, Command.outputFor "old.json" "\x7b\"version\":1,\"opcodes\":[]\x7d" = .ok text ∧
      Command.outputFor "new.json" "\x7b\"version\":1,\"opcodes\":[]\x7d" = .ok text := by
  obtain ⟨hperm, hrespells, hpath⟩ := generate_canonical
  refine ⟨hperm jumpAdd _ ?_ (List.reverse_perm _).symm, ?_, ?_⟩
  · exact List.forall_mem_cons.mpr ⟨⟨0x56, by cbv⟩, List.forall_mem_singleton.mpr ⟨1, by cbv⟩⟩
  · obtain ⟨text, htext⟩ := exists_generate_jumpAdd
    refine ⟨text, htext, hrespells jumpAdd jumpAddRespelled.opcodes text htext ?_⟩
    exact .cons ⟨by simp, by cbv, rfl⟩ (.cons ⟨by simp, by cbv, rfl⟩ .nil)
  · have hspec : Spec.ofText? "\x7b\"version\":1,\"opcodes\":[]\x7d" = some ⟨1, []⟩ := by cbv
    obtain ⟨text, htext⟩ : ∃ text, (⟨1, []⟩ : Spec).generate = .ok text :=
      exists_generate_iff_check.mpr ⟨[], by cbv, List.forall_mem_nil _⟩
    have hold : Command.outputFor "old.json" "\x7b\"version\":1,\"opcodes\":[]\x7d" = .ok text := by
      rw [Command.outputFor, hspec]
      exact congrArg (Except.mapError CommandError.spec) htext
    exact ⟨text, hold, hpath _ _ _ _ hold⟩

end Spec

end StackMachine
