import Mathlib
import StackMachine.Proofs.FirstError
import StackMachine.Spec.Source

namespace StackMachine

section Neighbours

variable {α β : Type} {items : List α}

theorem isChain_of_ne_cons_cons {R : α → α → Prop} (h : ∀ a b rest, items ≠ a :: b :: rest) :
    items.IsChain R := by
  cases items with
  | nil => exact .nil
  | cons a items =>
    cases items with
    | nil => exact .singleton a
    | cons b rest => exact absurd rfl (h a b rest)

theorem repeated?_eq_none_iff [DecidableEq α] : repeated? items = none ↔ items.IsChain (· ≠ ·) := by
  fun_induction repeated? items with
  | case1 a rest => simp
  | case2 a b rest hne ih => rw [ih, List.isChain_cons_cons, and_iff_right hne]
  | case3 items hshort => exact iff_of_true rfl (isChain_of_ne_cons_cons hshort)

theorem Assignment.repeatedByte?_eq_none_iff {as : List Assignment} :
    repeatedByte? as = none ↔ as.IsChain fun a b => a.byte ≠ b.byte := by
  fun_induction repeatedByte? as with
  | case1 a b rest heq => simp [heq]
  | case2 a b rest hne ih => rw [ih, List.isChain_cons_cons, and_iff_right hne]
  | case3 as hshort => exact iff_of_true rfl (isChain_of_ne_cons_cons hshort)

theorem isChain_ne_iff_pairwise_ne [PartialOrder β] {f : α → β}
    (h : items.Pairwise fun a b => f a ≤ f b) :
    items.IsChain (fun a b => f a ≠ f b) ↔ items.Pairwise fun a b => f a ≠ f b := by
  refine ⟨fun hchain => ?_, List.Pairwise.isChain⟩
  -- Neighbours in ascending order that differ ascend strictly, and `<` is transitive.
  have : Trans (fun a b => f a < f b) (fun a b => f a < f b) fun a b => f a < f b := ⟨lt_trans⟩
  have hlt : items.IsChain fun a b => f a < f b :=
    List.isChain_iff_getElem.mpr fun n hn =>
      lt_of_le_of_ne (h.isChain.getElem n hn) (hchain.getElem n hn)
  exact (List.isChain_iff_pairwise.mp hlt).imp ne_of_lt

end Neighbours

namespace Assignment

variable {a b c : Assignment} {as : List Assignment} {op : OpcodeSpec} {ops : List OpcodeSpec}

theorem le_iff : a.le b = true ↔ a.byte < b.byte ∨ a.byte = b.byte ∧ a.op.name ≤ b.op.name := by
  simp [le]

theorem le_transitive (a b c : Assignment) (hab : a.le b = true) (hbc : b.le c = true) :
    a.le c = true := by
  rw [le_iff, UInt8.lt_iff_toNat_lt] at *
  obtain hab | ⟨hab, hname⟩ := hab
  · obtain hbc | ⟨hbc, _⟩ := hbc
    · exact .inl (hab.trans hbc)
    · exact .inl (hbc ▸ hab)
  · obtain hbc | ⟨hbc, hname'⟩ := hbc
    · exact .inl (hab ▸ hbc)
    · exact .inr ⟨hab.trans hbc, hname.trans hname'⟩

theorem le_or_le (a b : Assignment) : (a.le b || b.le a) = true := by
  rw [Bool.or_eq_true, le_iff, le_iff]
  obtain hlt | heq | hgt := lt_trichotomy a.byte.toNat b.byte.toNat
  · exact .inl (.inl (UInt8.lt_iff_toNat_lt.mpr hlt))
  · have heq := UInt8.toNat_inj.mp heq
    exact (le_total a.op.name b.op.name).imp (fun h => .inr ⟨heq, h⟩) fun h => .inr ⟨heq.symm, h⟩
  · exact .inr (.inl (UInt8.lt_iff_toNat_lt.mpr hgt))

theorem byte_le_of_le (h : a.le b = true) : a.byte.toNat ≤ b.byte.toNat := by
  obtain hlt | ⟨heq, _⟩ := le_iff.mp h
  · exact Nat.le_of_lt (UInt8.lt_iff_toNat_lt.mp hlt)
  · rw [heq]

/-- Sorting brings equal bytes together wherever they were. -/
theorem repeatedByte?_mergeSort_eq_none_iff :
    repeatedByte? (as.mergeSort le) = none ↔ as.Pairwise fun a b => a.byte ≠ b.byte := by
  have hsorted := List.pairwise_mergeSort le_transitive le_or_le as
  have hbytes := isChain_ne_iff_pairwise_ne (f := fun a : Assignment => a.byte.toNat)
    (hsorted.imp byte_le_of_le)
  simp only [ne_eq, UInt8.toNat_inj] at hbytes
  rw [repeatedByte?_eq_none_iff]
  exact hbytes.trans ((List.mergeSort_perm as le).pairwise_iff Ne.symm)

theorem ofSpec_eq_ok_iff : ofSpec op = .ok a ↔ a.op = op ∧ HexByte.parse op.byte = .ok a.byte := by
  rw [ofSpec, Spec.byteOfText, map_eq_ok_iff]
  cases HexByte.parse op.byte with
  | error fault => simp
  | ok byte =>
    cases a
    simp [and_comm, eq_comm]

theorem mapM_ofSpec_eq_ok_iff : ops.mapM ofSpec = .ok as ↔
    as.map (·.op) = ops ∧ ∀ a ∈ as, HexByte.parse a.op.byte = .ok a.byte := by
  rw [mapM_eq_ok_iff]
  constructor
  · intro h
    induction h with
    | nil => exact ⟨rfl, List.forall_mem_nil _⟩
    | cons hhead _ ih =>
      obtain ⟨rfl, hbyte⟩ := ofSpec_eq_ok_iff.mp hhead
      exact ⟨congrArg _ ih.1, List.forall_mem_cons.mpr ⟨hbyte, ih.2⟩⟩
  · rintro ⟨rfl, hbytes⟩
    rw [List.forall₂_map_left_iff, List.forall₂_same]
    exact fun a ha => ofSpec_eq_ok_iff.mpr ⟨rfl, hbytes a ha⟩

end Assignment

theorem repeated?_mergeSort_eq_none_iff {names : List String} :
    repeated? (names.mergeSort fun a b => decide (a ≤ b)) = none ↔ names.Nodup := by
  have hsorted : (names.mergeSort fun a b => decide (a ≤ b)).Pairwise
      fun a b => decide (a ≤ b) = true :=
    List.pairwise_mergeSort (fun a b c => by simpa using le_trans)
      (fun a b => by simpa using le_total a b) names
  simp only [decide_eq_true_eq] at hsorted
  rw [repeated?_eq_none_iff, isChain_ne_iff_pairwise_ne hsorted]
  exact (List.mergeSort_perm names _).nodup_iff

structure OpcodeSpec.Coherent (op : OpcodeSpec) : Prop where
  flags_known : ∀ flag ∈ op.flags, ∃ t : Trait, t.name = flag
  immediate_le : op.immediate ≤ 32
  push_of_immediate : op.immediate ≠ 0 → op.hasTrait .push
  push_effect : op.hasTrait .push → (op.stackIn, op.stackOut) = (0, 1)
  dup_effect : op.hasTrait .dup → op.stackOut = op.stackIn + 1
  swap_effect : op.hasTrait .swap → op.stackIn = op.stackOut ∧ 2 ≤ op.stackIn
  terminator : op.terminator → ¬ op.hasTrait .jump ∧ ¬ op.hasTrait .jumpi

theorem ite_some_eq_none_iff {α : Type} {p : Prop} [Decidable p] {a : α} {x : Option α} :
    (if p then some a else x) = none ↔ ¬ p ∧ x = none := by
  split <;> simp [*]

theorem Trait.ofName?_eq_none_iff {s : String} : ofName? s = none ↔ ∀ t : Trait, t.name ≠ s := by
  simp [ofName?, Trait.mem_all]

theorem OpcodeSpec.fault?_eq_none_iff {op : OpcodeSpec} : op.fault? = none ↔ op.Coherent := by
  unfold fault?
  split
  next flag hfind =>
    have hmem := List.mem_of_find?_eq_some hfind
    have hunknown := List.find?_some hfind
    rw [Option.isNone_iff_eq_none, Trait.ofName?_eq_none_iff] at hunknown
    refine iff_of_false nofun fun h => ?_
    obtain ⟨t, ht⟩ := h.flags_known flag hmem
    exact hunknown t ht
  next hfind =>
    have hflags : ∀ flag ∈ op.flags, ∃ t : Trait, t.name = flag := by
      intro flag hmem
      have hknown := List.find?_eq_none.mp hfind flag hmem
      rw [Option.isNone_iff_eq_none, Trait.ofName?_eq_none_iff] at hknown
      simpa using hknown
    -- With known flags, what is left is one check after the other.
    simp only [ite_some_eq_none_iff]
    rw [SpecError.maxImmediate]
    constructor
    · rintro ⟨himmediate, hpush, heffect, hdup, hswap, hjump, -⟩
      exact {
        flags_known := hflags
        immediate_le := by omega
        push_of_immediate := by tauto
        push_effect := by simpa using heffect
        dup_effect := by tauto
        swap_effect := by grind
        terminator := by tauto }
    · rintro ⟨-, himmediate, hpush, heffect, hdup, hswap, hjump⟩
      refine ⟨by omega, by tauto, by simpa using heffect, by tauto, by grind, by tauto, trivial⟩

namespace Spec

variable {spec : Spec} {as ordered : List Assignment}

theorem exists_refuse_iff {found : Option SpecError} {α : Type} {x : Except SpecError α} {a : α} :
    (do refuse found; x) = .ok a ↔ found = none ∧ x = .ok a := by
  cases found <;> simp [refuse, bind, Except.bind]

structure Reads (spec : Spec) (as : List Assignment) : Prop where
  map_op : as.map (·.op) = spec.opcodes
  parse_eq : ∀ a ∈ as, HexByte.parse a.op.byte = .ok a.byte

theorem mapM_ofSpec_iff_reads : spec.opcodes.mapM Assignment.ofSpec = .ok as ↔ spec.Reads as :=
  Assignment.mapM_ofSpec_eq_ok_iff.trans ⟨fun h => ⟨h.1, h.2⟩, fun h => ⟨h.map_op, h.parse_eq⟩⟩

theorem exists_reads_iff :
    (∃ as, spec.Reads as) ↔ ∀ op ∈ spec.opcodes, ∃ byte, HexByte.parse op.byte = .ok byte := by
  simp only [← mapM_ofSpec_iff_reads, exists_mapM_eq_ok_iff, Assignment.ofSpec_eq_ok_iff]
  refine forall₂_congr fun op _ => ⟨?_, ?_⟩
  · rintro ⟨a, rfl, hbyte⟩
    exact ⟨_, hbyte⟩
  · rintro ⟨byte, hbyte⟩
    exact ⟨⟨byte, op⟩, rfl, hbyte⟩

namespace Reads

theorem forall_mem_iff (h : spec.Reads as) (p : OpcodeSpec → Prop) :
    (∀ op ∈ spec.opcodes, p op) ↔ ∀ a ∈ as, p a.op := by
  rw [← h.map_op, List.forall_mem_map]

theorem bytes_distinct_iff (h : spec.Reads as) :
    (spec.opcodes.Pairwise fun a b => HexByte.parse a.byte ≠ HexByte.parse b.byte) ↔
      as.Pairwise fun a b => a.byte ≠ b.byte := by
  rw [← h.map_op, List.pairwise_map]
  refine List.Pairwise.iff_of_mem fun ha hb => ?_
  rw [h.parse_eq _ ha, h.parse_eq _ hb, ne_eq, Except.ok.injEq]

theorem names_distinct_iff (h : spec.Reads as) :
    (spec.opcodes.map OpcodeSpec.name).Nodup ↔ (as.map (·.op.name)).Nodup := by
  rw [← h.map_op, List.map_map]
  rfl

end Reads

theorem check_eq_ok_iff : spec.check = .ok ordered ↔ spec.version = 1 ∧ ∃ as, spec.Reads as ∧
    as.Pairwise (fun a b => a.byte ≠ b.byte) ∧ (as.map (·.op.name)).Nodup ∧
      (∀ a ∈ as, a.op.Coherent) ∧ as.mergeSort Assignment.le = ordered := by
  have hversion : (if spec.version ≠ 1 then some (SpecError.unsupportedVersion spec.version)
      else none) = none ↔ spec.version = 1 := by
    simp
  have hpure (as : List Assignment) :
      (pure as : Except SpecError (List Assignment)) = .ok ordered ↔ as = ordered :=
    Except.ok.injEq as ordered ▸ Iff.rfl
  rw [check, exists_refuse_iff, hversion, bind_eq_ok_iff]
  refine and_congr_right fun _ => exists_congr fun as => ?_
  have hperm := List.mergeSort_perm as Assignment.le
  have hnames := (hperm.map (·.op.name)).nodup_iff
  simp only [exists_refuse_iff, mapM_ofSpec_iff_reads,
    Assignment.repeatedByte?_mergeSort_eq_none_iff, Option.map_eq_none_iff,
    repeated?_mergeSort_eq_none_iff, hnames, List.findSome?_eq_none_iff, hperm.mem_iff,
    OpcodeSpec.fault?_eq_none_iff, hpure]

theorem exists_generate_iff_check : (∃ text, spec.generate = .ok text) ↔
    ∃ ordered, spec.check = .ok ordered ∧ ∀ a ∈ ordered, a.op.doc ≠ none := by
  have hvariant (a : Assignment) :
      (∃ lines, Source.variantLines a = .ok lines) ↔ a.op.doc ≠ none := by
    rw [Source.variantLines]
    cases a.op.doc <;> simp
  have henum (ordered : List Assignment) :
      (∃ lines, Source.enumSection ordered = .ok lines) ↔ ∀ a ∈ ordered, a.op.doc ≠ none := by
    simp only [Source.enumSection, bind_eq_ok_iff, ← hvariant, ← exists_mapM_eq_ok_iff]
    exact ⟨fun ⟨_, variants, h, _⟩ => ⟨variants, h⟩, fun ⟨variants, h⟩ => ⟨_, variants, h, rfl⟩⟩
  simp only [generate, bind_eq_ok_iff, ← henum]
  constructor
  · rintro ⟨_, ordered, hcheck, lines, hlines, _⟩
    exact ⟨ordered, hcheck, lines, hlines⟩
  · rintro ⟨ordered, hcheck, lines, hlines⟩
    exact ⟨_, ordered, hcheck, lines, hlines, rfl⟩

/-- A specification of opcodes with bytes, names and docs of their own. -/
structure WellFormed (spec : Spec) : Prop where
  version_eq : spec.version = 1
  bytes_parse : ∀ op ∈ spec.opcodes, ∃ byte, HexByte.parse op.byte = .ok byte
  /-- However they are spelled, no two bytes are the same. -/
  bytes_distinct : spec.opcodes.Pairwise fun a b => HexByte.parse a.byte ≠ HexByte.parse b.byte
  names_distinct : (spec.opcodes.map OpcodeSpec.name).Nodup
  documented : ∀ op ∈ spec.opcodes, op.doc ≠ none
  coherent : ∀ op ∈ spec.opcodes, op.Coherent

/-- Source text is generated for the well-formed specifications and for no others. -/
theorem exists_generate_iff (spec : Spec) :
    (∃ text, spec.generate = .ok text) ↔ spec.WellFormed := by
  rw [exists_generate_iff_check]
  constructor
  · rintro ⟨ordered, hcheck, hdocs⟩
    obtain ⟨hversion, as, hreads, hbytes, hnames, hcoherent, rfl⟩ := check_eq_ok_iff.mp hcheck
    simp only [List.mem_mergeSort] at hdocs
    exact {
      version_eq := hversion
      bytes_parse := exists_reads_iff.mp ⟨as, hreads⟩
      bytes_distinct := hreads.bytes_distinct_iff.mpr hbytes
      names_distinct := hreads.names_distinct_iff.mpr hnames
      documented := (hreads.forall_mem_iff _).mpr hdocs
      coherent := (hreads.forall_mem_iff _).mpr hcoherent }
  · intro h
    obtain ⟨as, hreads⟩ := exists_reads_iff.mpr h.bytes_parse
    refine ⟨_, check_eq_ok_iff.mpr ⟨h.version_eq, as, hreads, ?_, ?_, ?_, rfl⟩, fun a ha => ?_⟩
    · exact hreads.bytes_distinct_iff.mp h.bytes_distinct
    · exact hreads.names_distinct_iff.mp h.names_distinct
    · exact (hreads.forall_mem_iff _).mp h.coherent
    · exact (hreads.forall_mem_iff _).mp h.documented a (List.mem_mergeSort.mp ha)

/-- One byte in two spellings, with another byte between them. -/
example : Spec.generate ⟨1, [⟨"Add", "ADD", "0x0A", 2, 1, 0, false, [], some ""⟩,
    ⟨"Mul", "MUL", "02", 2, 1, 0, false, [], some ""⟩,
    ⟨"Sub", "SUB", " 00a", 2, 1, 0, false, [], some ""⟩]⟩ =
      .error (.duplicateByte 0x0A "Add" "Sub") := by
  cbv

end Spec

end StackMachine
