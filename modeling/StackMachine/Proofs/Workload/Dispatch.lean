import StackMachine.Proofs.Exploration.Closure
import StackMachine.Proofs.JumpTable.Canonical
import StackMachine.Proofs.WiderLimits
import StackMachine.Proofs.Workload.Blocks

namespace StackMachine.Workload

open Assembler Exploration

section Arms

variable {n k : Nat}

def entryCalls : List Call := [.pushNumber 0, .op .calldataload, .dynamicJump]

def armCalls (k : Nat) : List Call :=
  [.newLabel, .jumpdest (.ofSlot (k + 1)), .pushNumber k, .op .pop, .op .stop]

def dispatchCalls (n : Nat) : List Call := entryCalls ++ blocks armCalls n

def armPieces (k : Nat) : List Piece :=
  [.bare .jumpdest, .number (.ofNat 256 (k % 2 ^ 64)), .bare .pop, .bare .stop]

/-- Where an arm starts. The pushes of the arms in front of it are as narrow as their numbers
allow. -/
def armStart : Nat → Nat
  | 0 => 3
  | k + 1 => armStart k + (BigEndian.digits (k % 2 ^ 64)).length + 4

def armTable (k : Nat) : TableKind := if k % 4 = 3 then .trap else .jump

def armsIn (kind : TableKind) (n : Nat) : List Nat :=
  (List.range n).filter fun k => armTable k = kind

def armPairs (kind : TableKind) (n : Nat) : List (Label × Label) :=
  (armsIn kind n).map fun k => (⟨0⟩, .ofSlot (k + 1))

theorem armsIn_succ (kind : TableKind) (n : Nat) :
    armsIn kind (n + 1) = armsIn kind n ++ if armTable n = kind then [n] else [] := by
  rw [armsIn, List.range_succ, List.filter_append, ← armsIn]
  by_cases h : armTable n = kind <;> simp [h]

theorem length_armsIn (n : Nat) :
    (armsIn .jump n).length = n - n / 4 ∧ (armsIn .trap n).length = n / 4 := by
  induction n with
  | zero => exact ⟨rfl, rfl⟩
  | succ n ih =>
    obtain ⟨hjumps, htraps⟩ := ih
    rw [armsIn_succ, armsIn_succ, List.length_append, List.length_append, hjumps, htraps]
    by_cases h : n % 4 = 3
    · simp [armTable, h]
      omega
    · simp [armTable, h]
      omega

theorem armStart_lt_succ (k : Nat) : armStart k < armStart (k + 1) := by
  rw [armStart]
  omega

theorem armStart_strictMono : StrictMono armStart := strictMono_nat_of_lt_succ armStart_lt_succ

theorem toNat_number (k : Nat) : (BitVec.ofNat 256 (k % 2 ^ 64)).toNat = k % 2 ^ 64 := by
  rw [BitVec.toNat_ofNat, Nat.mod_eq_of_lt]
  exact Nat.lt_trans (Nat.mod_lt k (by decide)) (by decide)

theorem totalWidth_armPieces (k : Nat) :
    totalWidth (armPieces k) = (BigEndian.digits (k % 2 ^ 64)).length + 4 := by
  simp only [totalWidth, armPieces, Piece.width, Piece.blank, toNat_number, List.map_cons,
    List.map_nil, List.sum_cons, List.sum_nil, List.length_cons, List.length_nil]
  omega

end Arms

/-- Where the labels of the arms are, as far as there are numbers for them, and what is written
there. -/
structure Laid (n : Nat) (d : Draft) : Prop where
  labelCount_eq : d.labelCount = n + 1
  width_eq : totalWidth d.pieces = armStart n
  site : d.placedAt? ⟨0⟩ = some 2
  placed : n ≤ Label.maxId → ∀ k < n,
    d.placedAt? (.ofSlot (k + 1)) = some (min (armStart k) maxOffset)
  written : ∀ k < n, listingFrom (armStart k) (armPieces k) ⊆ d.listing

theorem laid_zero : Laid 0 (draft entryCalls) where
  labelCount_eq := rfl
  width_eq := by decide
  site := by decide
  placed := nofun
  written := nofun

theorem Laid.succ {n : Nat} {d : Draft} (h : Laid n d) :
    Laid (n + 1) ((armCalls n).foldl Draft.after d) := by
  have hpieces : ((armCalls n).foldl Draft.after d).pieces = d.pieces ++ armPieces n := by
    rw [Draft.pieces_foldl, h.labelCount_eq]
    simp [armCalls, armPieces, piecesOf, Call.pieces, Call.allocates, Label.id_ofSlot_le]
  have hplaced (l : Label) : ((armCalls n).foldl Draft.after d).placedAt? l =
      if l = .ofSlot (n + 1) then some (min (armStart n) maxOffset) else d.placedAt? l := by
    have hlabel : (Label.ofSlot (n + 1)).id < d.newLabel.labelCount :=
      Label.id_ofSlot_lt (Nat.lt_succ_of_le (Nat.le_of_eq h.labelCount_eq.symm))
    have hplace := Draft.placedAt?_place (.ofSlot (n + 1)) l d.newLabel hlabel
    rw [Draft.pc, show d.newLabel.pieces = d.pieces from rfl, h.width_eq] at hplace
    change (d.newLabel.jumpdest (.ofSlot (n + 1))).placedAt? l = _
    rw [Draft.jumpdest, if_pos hlabel]
    exact hplace
  -- Old arms keep their labels and what is written there, the new one is behind all of them.
  refine ⟨?_, ?_, ?_, ?_, ?_⟩
  · simp only [armCalls, List.foldl_cons, List.foldl_nil, Draft.labelCount_after, h.labelCount_eq]
    rfl
  · rw [hpieces, totalWidth, List.map_append, List.sum_append, ← totalWidth, ← totalWidth,
      h.width_eq, totalWidth_armPieces]
    rfl
  · rw [hplaced, if_neg (Label.ofSlot_succ_ne_zero n).symm, h.site]
  · intro hn k hk
    rw [hplaced]
    obtain hlt | rfl := Nat.lt_succ_iff_lt_or_eq.mp hk
    · have hne : Label.ofSlot (k + 1) ≠ .ofSlot (n + 1) := by
        rw [Label.ofSlot_of_le hn, Label.ofSlot_of_le (by omega)]
        simp
        omega
      rw [if_neg hne, h.placed (Nat.le_of_succ_le hn) k hlt]
    · rw [if_pos rfl]
  · intro k hk
    rw [Draft.listing, hpieces, listingFrom_append, Nat.zero_add, h.width_eq]
    obtain hlt | rfl := Nat.lt_succ_iff_lt_or_eq.mp hk
    · exact List.subset_append_of_subset_left _ (h.written k hlt)
    · exact List.subset_append_right _ _

theorem laid_draft (n : Nat) : Laid n (draft (dispatchCalls n)) := by
  induction n with
  | zero => exact laid_zero
  | succ n ih =>
    rw [dispatchCalls, blocks_succ, ← List.append_assoc, draft, List.foldl_append]
    exact ih.succ

section Builders

variable {n : Nat}

def dispatchAfter (n : Nat) : Dispatch where
  assembler := assemble (dispatchCalls n)
  jumps := ⟨(armPairs .jump n).reverse⟩
  traps := ⟨(armPairs .trap n).reverse⟩

theorem reverse_armPairs_succ (kind : TableKind) (n : Nat) : (armPairs kind (n + 1)).reverse =
    if armTable n = kind then (⟨0⟩, .ofSlot (n + 1)) :: (armPairs kind n).reverse
    else (armPairs kind n).reverse := by
  rw [armPairs, armsIn_succ, List.map_append, ← armPairs]
  split <;> simp

theorem addArm_dispatchAfter (n : Nat) :
    Dispatch.addArm ⟨0⟩ (dispatchAfter n) n = .ok (dispatchAfter (n + 1)) := by
  have hsize : (assemble (dispatchCalls n)).labels.size = n + 1 := by
    rw [(describes_draft _).size_labels, (laid_draft n).labelCount_eq]
  have harm := liftLabel_jumpdest (assemble (dispatchCalls n)) [.newLabel]
    (assemble (dispatchCalls n)).labels.size (Nat.lt_succ_self _)
  have hcalls : assemble (dispatchCalls (n + 1)) =
      (armCalls n).foldl Call.perform (assemble (dispatchCalls n)) := by
    rw [dispatchCalls, blocks_succ, ← List.append_assoc, assemble, List.foldl_append]
    rfl
  rw [dispatchAfter, dispatchAfter, hcalls, reverse_armPairs_succ, reverse_armPairs_succ, armTable]
  refine (bind_of_eq_ok harm _).trans ?_
  by_cases h : n % 4 = 3
  · simp only [if_pos h, reduceCtorEq, if_false, if_true, hsize]
    rfl
  · simp only [if_neg h, reduceCtorEq, if_false, if_true, hsize]
    rfl

theorem repeated_addArm (n : Nat) :
    repeated n (Dispatch.addArm ⟨0⟩) (dispatchAfter 0) = .ok (dispatchAfter n) := by
  induction n with
  | zero => rfl
  | succ n ih => rw [repeated_succ ih, addArm_dispatchAfter]

theorem liftLabel_eq_ok_iff {α : Type} {r : Except UnresolvedLabel α} {x : α} :
    liftLabel r = .ok x ↔ r = .ok x := by
  cases r <;> simp [liftLabel, Except.mapError]

theorem dispatch_eq_ok_iff {w : Workload} : dispatch n = .ok w ↔
    (dispatchAfter n).jumps.build (assemble (dispatchCalls n)) = .ok w.tables.jumps ∧
      (dispatchAfter n).traps.build (assemble (dispatchCalls n)) = .ok w.tables.traps ∧
      (assemble (dispatchCalls n)).finish = .ok w.code := by
  constructor
  · intro h
    obtain ⟨d, hd, h⟩ := bind_eq_ok_iff.mp h
    have hd : repeated n (Dispatch.addArm ⟨0⟩) (dispatchAfter 0) = .ok d := hd
    rw [repeated_addArm] at hd
    obtain rfl := Except.ok.inj hd
    obtain ⟨jumps, hjumps, h⟩ := bind_eq_ok_iff.mp h
    obtain ⟨traps, htraps, h⟩ := bind_eq_ok_iff.mp h
    obtain ⟨code, hfinish, h⟩ := bind_eq_ok_iff.mp h
    obtain rfl := Except.ok.inj h
    exact ⟨liftLabel_eq_ok_iff.mp hjumps, liftLabel_eq_ok_iff.mp htraps, hfinish⟩
  · rintro ⟨hjumps, htraps, hfinish⟩
    refine (bind_of_eq_ok (repeated_addArm n) _).trans ?_
    refine (bind_of_eq_ok (liftLabel_eq_ok_iff.mpr hjumps) _).trans ?_
    refine (bind_of_eq_ok (liftLabel_eq_ok_iff.mpr htraps) _).trans ?_
    exact bind_of_eq_ok hfinish _

end Builders

section Tables

variable {n : Nat} {kind : TableKind} {t : JumpTable}

theorem toList_ofEntries_of_pairwise {entries : List JumpEntry}
    (h : entries.Pairwise JumpEntry.Lt) : (JumpTable.ofEntries entries).toList = entries := by
  rw [JumpTable.toList, JumpTable.ofEntries, List.toList_toArray]
  exact Ascending.ofList_of_pairwise JumpEntry.le_totalOrder (h.imp JumpEntry.lt_iff.mp)

def armEntries (kind : TableKind) (n : Nat) : List JumpEntry :=
  (armsIn kind n).map fun k => ⟨2, armStart k⟩

theorem pairwise_armEntries (kind : TableKind) (n : Nat) :
    (armEntries kind n).Pairwise JumpEntry.Lt := by
  refine List.pairwise_map.mpr ?_
  exact (List.pairwise_lt_range.filter _).imp fun hlt => .inr ⟨rfl, armStart_strictMono hlt⟩

theorem resolve_arm (hsize : armStart n ≤ maxOffset) {k : Nat} (hk : k < n) :
    TableBuilder.resolve (assemble (dispatchCalls n)) (⟨0⟩, .ofSlot (k + 1)) =
      .ok ⟨2, armStart k⟩ := by
  have hle : armStart k ≤ maxOffset := (armStart_strictMono.monotone (Nat.le_of_lt hk)).trans hsize
  -- An arm takes more than one byte, so that numbers for labels do not run out before offsets do.
  have hnumbers : n ≤ Label.maxId := armStart_strictMono.le_apply.trans hsize
  rw [TableBuilder.resolve_eq_ok_iff, (describes_draft _).labelPc?_eq,
    (describes_draft _).labelPc?_eq, (laid_draft n).site, (laid_draft n).placed hnumbers k hk,
    Nat.min_eq_left hle]
  exact ⟨rfl, rfl⟩

theorem build_armPairs (hsize : armStart n ≤ maxOffset) (kind : TableKind) :
    TableBuilder.build ⟨(armPairs kind n).reverse⟩ (assemble (dispatchCalls n)) =
      .ok (JumpTable.ofEntries (armEntries kind n)) := by
  have hresolved : (armPairs kind n).mapM (TableBuilder.resolve (assemble (dispatchCalls n))) =
      .ok (armEntries kind n) := by
    rw [mapM_eq_ok_iff, armPairs, armEntries, List.forall₂_map_left_iff, List.forall₂_map_right_iff,
      List.forall₂_same]
    exact fun k hk => resolve_arm hsize (List.mem_range.mp (List.mem_filter.mp hk).1)
  rw [TableBuilder.build, List.reverse_reverse, hresolved]
  rfl

theorem exists_dispatch (hsize : armStart n ≤ maxOffset) : ∃ w, dispatch n = .ok w := by
  have hemitted : (emitted (dispatchCalls n)).length ≤ maxOffset := by
    rwa [emitted, length_flatMap_blank, (laid_draft n).width_eq]
  have hreferences : references (dispatchCalls n) = [] := by
    refine List.filterMap_eq_nil_iff.mpr ?_
    refine List.forall_mem_append.mpr ⟨?_, forall_mem_blocks (fun k => ?_) n⟩
    · simp [entryCalls, Call.reference?]
    · simp [armCalls, Call.reference?]
  obtain ⟨code, hfinish⟩ := (exists_finish_iff hemitted).mpr (by simp [hreferences])
  exact ⟨⟨code, _, _⟩, dispatch_eq_ok_iff.mpr
    ⟨build_armPairs hsize .jump, build_armPairs hsize .trap, hfinish⟩⟩

end Tables

section Accepted

variable {n : Nat} {code : Code} {tables : JumpTables} {cfg : Config}

theorem isStructured_dispatchCalls (n : Nat) : ∀ c ∈ dispatchCalls n, c.IsStructured := by
  refine List.forall_mem_append.mpr ⟨?_, forall_mem_blocks (fun k => ?_) n⟩
  · simp [entryCalls, Call.IsStructured, Opcode.immediateWidth]
  · simp [armCalls, Call.IsStructured, Opcode.immediateWidth]

theorem pieces_dispatch (n : Nat) : (draft (dispatchCalls n)).pieces =
    [.number 0, .bare .calldataload, .bare .jump] ++ (List.range n).flatMap armPieces := by
  have hcount (k : Nat) : (armCalls k).countP Call.allocates = 1 := rfl
  have harm (k : Nat) : piecesOf (1 + 1 * k) (armCalls k) = armPieces k := by
    simp [armCalls, armPieces, piecesOf, Call.pieces, Call.allocates, Nat.add_comm 1 k,
      Label.id_ofSlot_le]
  rw [pieces_draft, dispatchCalls, piecesOf_append, piecesOf_blocks hcount]
  exact congrArg _ (List.flatMap_congr fun k _ => harm k)

theorem passes_dispatch {s : Subject} {placed? : Label → Option Nat} (hroom : 1 ≤ s.limit)
    (hleads : Leads s (fun _ => 0) 2 .unknown 0) (n : Nat) :
    PiecesPass s (fun _ => 0) placed? (some []) 0
      ([.number 0, .bare .calldataload, .bare .jump] ++ (List.range n).flatMap armPieces) := by
  refine .number hroom fun _ => ?_
  refine .op (.replace 1 1) [.unknown] rfl rfl (by simp [StackAction.effect]) (fun _ => rfl)
    hroom ?_
  refine .jump hleads (Nat.zero_le _) ?_
  rw [← List.append_nil ((List.range n).flatMap armPieces)]
  refine PiecesPass.flatMap (· = none) ?_ (fun _ _ _ => .nil) _ _ _ rfl
  rintro k rest hrest _ offset rfl
  refine .mark (Nat.zero_le _) (by simp) ?_
  refine .number hroom fun _ => ?_
  refine .op (.replace 1 0) [] rfl rfl (by simp [StackAction.effect]) (fun _ => rfl)
    (Nat.zero_le _) ?_
  refine .halt rfl (Nat.zero_le _) ?_
  exact hrest _ _ rfl

variable (hfinish : (assemble (dispatchCalls n)).finish = .ok code) (hcode : code.size ≤ maxOffset)

include hfinish hcode

theorem exists_decodeAt_of_mem_listing {o : Nat} {p : Piece}
    (h : (o, p) ∈ (draft (dispatchCalls n)).listing) :
    ∃ i, decodeAt code o = .ok i ∧ p.Reads (draft (dispatchCalls n)).placedAt? i := by
  obtain ⟨instrs, hlayout, hlisted⟩ := exists_instrs (isStructured_dispatchCalls n) hfinish hcode
  obtain ⟨i, hi, hoffset, hreads⟩ := exists_mem_of_forall₂ hlisted h
  have hitem : .ok i ∈ layout code := hlayout ▸ List.mem_map_of_mem hi
  obtain ⟨pc, _, _, hd⟩ := (mem_layout_iff hcode).mp hitem
  refine ⟨i, ?_, hreads⟩
  rwa [show o = pc from hoffset.symm.trans (decodeAt_offset hd)]

theorem isValid_armStart {k : Nat} (hk : k < n) :
    (JumpDests.ofCode code).isValid (armStart k) = true := by
  rw [isValid_iff_mem_listing (isStructured_dispatchCalls n) hfinish hcode]
  exact (laid_draft n).written k hk List.mem_cons_self

omit hcode in
theorem size_dispatch : code.size = armStart n := by
  rw [size_eq_of_finish hfinish, (laid_draft n).width_eq]

end Accepted

/-- At an offset there is a destination, and behind it a push of a number. -/
def ArmAt (code : Code) (number start : Nat) : Prop :=
  (JumpDests.ofCode code).isValid start = true ∧
    ∃ i, decodeAt code (start + 1) = .ok i ∧ i.IsPush i.immediate.length ∧
      BigEndian.toNat i.immediate = number

/-- There is one jump with a destination that is not known, and every arm is listed for it, every
fourth one in the trap table. -/
structure ListsArms (n : Nat) (w : Workload) : Prop where
  jump : opcodeAt? w.code 2 = some .jump
  arm : ∀ i < n, ArmAt w.code i (armStart i)
  jumps_eq : w.tables.jumps.toList =
    ((List.range n).filter fun i => i % 4 ≠ 3).map fun i => ⟨2, armStart i⟩
  traps_eq : w.tables.traps.toList =
    ((List.range n).filter fun i => i % 4 = 3).map fun i => ⟨2, armStart i⟩
  size_jumps : w.tables.jumps.size = n - n / 4
  size_traps : w.tables.traps.size = n / 4

section Finished

variable {n : Nat} {w : Workload} (hw : dispatch n = .ok w) (hcode : w.code.size ≤ maxOffset)

include hw hcode

theorem armStart_le : armStart n ≤ maxOffset := by
  rwa [← size_dispatch (dispatch_eq_ok_iff.mp hw).2.2]

theorem armAt_armStart {k : Nat} (hk : k < n) : ArmAt w.code k (armStart k) := by
  obtain ⟨_, _, hfinish⟩ := dispatch_eq_ok_iff.mp hw
  have hwritten : (armStart k + 1, .number (.ofNat 256 (k % 2 ^ 64))) ∈
      (draft (dispatchCalls n)).listing :=
    (laid_draft n).written k hk (List.mem_cons_of_mem _ List.mem_cons_self)
  obtain ⟨i, hd, hpush, hvalue, _⟩ := exists_decodeAt_of_mem_listing hfinish hcode hwritten
  refine ⟨isValid_armStart hfinish hcode hk, i, hd, hpush, ?_⟩
  have hlt : k < 2 ^ 64 := by
    have hle := armStart_le hw hcode
    have hstart := armStart_strictMono.le_apply (x := n)
    rw [maxOffset] at hle
    omega
  rw [hvalue, toNat_number, Nat.mod_eq_of_lt hlt]

theorem jump_dispatch : opcodeAt? w.code 2 = some .jump := by
  obtain ⟨_, _, hfinish⟩ := dispatch_eq_ok_iff.mp hw
  have hwritten : (2, .bare .jump) ∈ (draft (dispatchCalls n)).listing := by
    rw [Draft.listing, pieces_dispatch]
    exact .tail _ (.tail _ (.head _))
  obtain ⟨i, hd, hop, _⟩ := exists_decodeAt_of_mem_listing hfinish hcode hwritten
  exact (opcodeAt?_eq_iff hd).mpr hop

theorem table_dispatch (kind : TableKind) : (w.tables.table kind).toList = armEntries kind n := by
  obtain ⟨hjumps, htraps, _⟩ := dispatch_eq_ok_iff.mp hw
  have hbuild := build_armPairs (armStart_le hw hcode) kind
  have htable : w.tables.table kind = JumpTable.ofEntries (armEntries kind n) := by
    cases kind with
    | jump => exact Except.ok.inj (hjumps.symm.trans hbuild)
    | trap => exact Except.ok.inj (htraps.symm.trans hbuild)
  rw [htable]
  exact toList_ofEntries_of_pairwise (pairwise_armEntries kind n)

theorem listsArms : ListsArms n w := by
  have hjumps : w.tables.jumps.toList = armEntries .jump n := table_dispatch hw hcode .jump
  have htraps : w.tables.traps.toList = armEntries .trap n := table_dispatch hw hcode .trap
  have hsize (t : JumpTable) : t.size = t.toList.length := Array.length_toList.symm
  exact {
    jump := jump_dispatch hw hcode
    arm := fun _ => armAt_armStart hw hcode
    jumps_eq := by rw [hjumps]; simp [armEntries, armsIn, armTable]
    traps_eq := by rw [htraps]; simp [armEntries, armsIn, armTable]
    size_jumps := by rw [hsize, hjumps, armEntries, List.length_map, (length_armsIn n).1]
    size_traps := by rw [hsize, htraps, armEntries, List.length_map, (length_armsIn n).2] }

theorem lists_iff {dst : Nat} : w.tables.Lists 2 dst ↔ ∃ k < n, armStart k = dst := by
  have hjumps : w.tables.jumps.toList = armEntries .jump n := table_dispatch hw hcode .jump
  have htraps : w.tables.traps.toList = armEntries .trap n := table_dispatch hw hcode .trap
  rw [JumpTables.Lists, hjumps, htraps]
  simp only [armEntries, armsIn, List.mem_map, List.mem_filter, List.mem_range, decide_eq_true_eq,
    JumpEntry.mk.injEq, true_and]
  constructor
  · rintro (⟨k, ⟨hk, _⟩, hdst⟩ | ⟨k, ⟨hk, _⟩, hdst⟩) <;> exact ⟨k, hk, hdst⟩
  · rintro ⟨k, hk, hdst⟩
    cases htable : armTable k with
    | jump => exact .inl ⟨k, ⟨hk, htable⟩, hdst⟩
    | trap => exact .inr ⟨k, ⟨hk, htable⟩, hdst⟩

theorem leads_dispatch {limit : Nat} (hn : 1 ≤ n) :
    Leads (subject w.code w.tables limit) (fun _ => 0) 2 .unknown 0 := by
  have hvalid (dst : Nat) (h : w.tables.Lists 2 dst) :
      (JumpDests.ofCode w.code).isValid dst = true := by
    obtain ⟨k, hk, rfl⟩ := (lists_iff hw hcode).mp h
    exact isValid_armStart (dispatch_eq_ok_iff.mp hw).2.2 hcode hk
  have hfirst : armStart 0 ∈ (subject w.code w.tables limit).targets 2 .unknown :=
    mem_targets_unknown_iff.mpr ⟨(lists_iff hw hcode).mpr ⟨0, hn, rfl⟩, hvalid⟩
  exact ⟨List.ne_nil_of_mem hfirst, fun _ _ => rfl⟩

theorem verify_dispatch {cfg : Config} (hlength : w.code.size ≤ cfg.maxCodeLength)
    (hlimit : 1 ≤ cfg.stackLimit) (hn : 1 ≤ n) : verify w.code w.tables cfg = .ok () := by
  have hpass : PiecesPass (subjectOf w.code w.tables cfg) (fun _ => 0)
      (draft (dispatchCalls n)).placedAt? (some []) 0 (draft (dispatchCalls n)).pieces := by
    rw [pieces_dispatch]
    exact passes_dispatch (Nat.le_min.mpr ⟨hlimit, by decide⟩) (leads_dispatch hw hcode hn) n
  exact verify_eq_ok_iff.mpr (exists_verifyOwned_of_piecesPass (isStructured_dispatchCalls n)
    (dispatch_eq_ok_iff.mp hw).2.2 (Nat.le_min.mpr ⟨hlength, hcode⟩) hpass)

end Finished

theorem verify_dispatch_zero {w : Workload} (hw : dispatch 0 = .ok w) {cfg : Config}
    (hlength : w.code.size ≤ cfg.maxCodeLength) (hlimit : 1 ≤ cfg.stackLimit) :
    verify w.code w.tables cfg = .error (.unreachableJumpTarget 2 .unlisted) := by
  have hempty : dispatch 0 = .ok { code := #[0x5F, 0x35, 0x56] } := by decide +kernel
  obtain rfl := Except.ok.inj (hempty.symm.trans hw)
  have hrejected : (stepsFromStart #[0x5F, 0x35, 0x56] {} ⟨3, 1⟩ 4).cursor =
      .rejected (.unreachableJumpTarget 2 .unlisted) := by decide +kernel
  have hdone : (stepsFromStart #[0x5F, 0x35, 0x56] {} ⟨3, 1⟩ 4).isFinished = true := by
    rw [Traversal.isFinished, hrejected]
  have hnarrow : verify #[0x5F, 0x35, 0x56] {} ⟨3, 1⟩ =
      .error (.unreachableJumpTarget 2 .unlisted) := by
    rw [verify_eq_error_iff, verifyOwned_eq_iterate 4 (by decide) hdone, Traversal.verdict,
      hrejected]
    rfl
  have hwidens : cfg.Widens ⟨3, 1⟩ := ⟨hlength, Nat.le_min.mpr ⟨hlimit, by decide⟩⟩
  exact hwidens.verify_eq_error hnarrow (by simp) (by simp)

/-- The tables of a dispatch list each arm once and nothing else, and the code is accepted exactly
if there is an arm. -/
theorem dispatch_lists_arms {n : Nat} {w : Workload} (hw : dispatch n = .ok w)
    (hcode : w.code.size ≤ maxOffset) {cfg : Config} (hlength : w.code.size ≤ cfg.maxCodeLength)
    (hlimit : 1 ≤ cfg.stackLimit) :
    ListsArms n w ∧ (verify w.code w.tables cfg = .ok () ↔ 1 ≤ n) ∧
      (n = 0 → verify w.code w.tables cfg = .error (.unreachableJumpTarget 2 .unlisted)) := by
  have hzero (h : n = 0) :
      verify w.code w.tables cfg = .error (.unreachableJumpTarget 2 .unlisted) :=
    verify_dispatch_zero (h ▸ hw) hlength hlimit
  refine ⟨listsArms hw hcode, ⟨fun hok => ?_, verify_dispatch hw hcode hlength hlimit⟩, hzero⟩
  refine Nat.one_le_iff_ne_zero.mpr fun h => ?_
  rw [hzero h] at hok
  cases hok

theorem dispatch_lists_arms_four : ∃ w, dispatch 4 = .ok w ∧ w.code.size = 22 ∧
    w.tables.jumps.toList = [⟨2, 3⟩, ⟨2, 7⟩, ⟨2, 12⟩] ∧ w.tables.traps.toList = [⟨2, 17⟩] ∧
    verify w.code w.tables ⟨22, 1⟩ = .ok () := by
  have hstart : armStart 4 = 22 := by decide
  obtain ⟨w, hw⟩ := exists_dispatch (n := 4) (by rw [hstart]; decide)
  have hsize : w.code.size = 22 := by
    rw [size_dispatch (dispatch_eq_ok_iff.mp hw).2.2, hstart]
  have hlength : w.code.size ≤ Config.maxCodeLength ⟨22, 1⟩ := Nat.le_of_eq hsize
  obtain ⟨hlists, hverify, _⟩ :=
    dispatch_lists_arms hw (by rw [hsize]; decide) hlength (Nat.le_refl 1)
  refine ⟨w, hw, hsize, ?_, ?_, hverify.mpr (by decide)⟩
  · rw [hlists.jumps_eq]
    decide
  · rw [hlists.traps_eq]
    decide

end StackMachine.Workload
