import StackMachine.Proofs.Workload.Blocks

namespace StackMachine.Workload

open Assembler Exploration StackAction

/-- Every label is at a valid destination, and there is room for three items. -/
structure Supports (s : Subject) (placed? : Label → Option Nat) : Prop where
  isValid : ∀ label pc, placed? label = some pc → s.jumpDests.isValid pc = true
  room : 3 ≤ s.limit

/-- The calls write safe code, with the same number of items at every label. -/
structure WritesSafely (calls : List Call) : Prop where
  structured : ∀ c ∈ calls, c.IsStructured
  marksOnly : ∀ c ∈ calls, c.MarksOnly
  passes : ∃ depth, ∀ s placed?, Supports s placed? →
    PiecesPass s (fun _ => depth) placed? (some []) 0 (draft calls).pieces

variable {s : Subject} {placed? : Label → Option Nat} {pieces : List Piece}

theorem Supports.le (h : Supports s placed?) {n : Nat} (hn : n ≤ 3) : n ≤ s.limit :=
  Nat.le_trans hn h.room

theorem Supports.leads (h : Supports s placed?) {label : Label} {pc offset : Nat}
    (hpc : placed? label = some pc) (depth : Nat) :
    Leads s (fun _ => depth) offset (.const (some pc)) depth :=
  leads_of_isValid (h.isValid label pc hpc) rfl

/-- Blocks that keep an invariant are safe between a beginning that establishes it and an end that
relies on it. -/
theorem writesSafely_of_blocks {first last : List Call} {block : Nat → List Call} {count n : Nat}
    (depth : Nat) (Inv : Option (List AbstractValue) → Prop)
    (hstructured : ∀ k, ∀ c ∈ first ++ (block k ++ last), c.IsStructured)
    (hmarks : ∀ k, ∀ c ∈ first ++ (block k ++ last), c.MarksOnly)
    (hcount : ∀ k, (block k).countP Call.allocates = count)
    (hfirst : ∀ s placed? pieces, Supports s placed? →
      (∀ front offset, Inv front → PiecesPass s (fun _ => depth) placed? front offset pieces) →
      PiecesPass s (fun _ => depth) placed? (some []) 0 (piecesOf 0 first ++ pieces))
    (hblock : ∀ s placed? pieces k, Supports s placed? →
      (∀ front offset, Inv front → PiecesPass s (fun _ => depth) placed? front offset pieces) →
      ∀ front offset, Inv front → PiecesPass s (fun _ => depth) placed? front offset
        (piecesOf (first.countP Call.allocates + count * k) (block k) ++ pieces))
    (hlast : ∀ s placed?, Supports s placed? → ∀ front offset, Inv front →
      PiecesPass s (fun _ => depth) placed? front offset
        (piecesOf (first.countP Call.allocates + count * n) last)) :
    WritesSafely (first ++ (blocks block n ++ last)) where
  structured := by
    simp only [List.forall_mem_append] at hstructured ⊢
    exact ⟨(hstructured 0).1, forall_mem_blocks (fun k => (hstructured k).2.1) n,
      (hstructured 0).2.2⟩
  marksOnly := by
    simp only [List.forall_mem_append] at hmarks ⊢
    exact ⟨(hmarks 0).1, forall_mem_blocks (fun k => (hmarks k).2.1) n, (hmarks 0).2.2⟩
  passes := by
    refine ⟨depth, fun s placed? hs => ?_⟩
    rw [pieces_draft, piecesOf_append, piecesOf_append, piecesOf_blocks hcount,
      countP_blocks hcount, Nat.zero_add]
    refine hfirst s placed? _ hs ?_
    exact PiecesPass.flatMap Inv (fun k rest hrest => hblock s placed? rest k hs hrest)
      (hlast s placed? hs) _

theorem verify_of_writesSafely {calls : List Call} {w : Workload} {cfg : Config}
    (h : WritesSafely calls) (hw : static (assemble calls) = .ok w)
    (hle : w.code.size ≤ cfg.lengthBound) (hlimit : 3 ≤ cfg.stackLimit) :
    verify w.code w.tables cfg = .ok () := by
  obtain ⟨code, hfinish, hcode⟩ := bind_eq_ok_iff.mp hw
  obtain rfl := Except.ok.inj hcode
  obtain ⟨depth, hpass⟩ := h.passes
  rw [verify_eq_ok_iff]
  refine exists_verifyOwned_of_piecesPass h.structured hfinish hle (hpass _ _ ⟨?_, ?_⟩)
  · intro label pc hplaced
    exact isValid_of_placedAt? h.structured h.marksOnly hfinish (size_le_of_lengthBound hle) hplaced
  · exact Nat.le_min.mpr ⟨hlimit, by decide⟩

theorem exists_writesSafely_repeated {step : Assembler → Except AssemblyError Assembler}
    {written : Nat → List Call} (depth n : Nat)
    (hstep : ∀ a, step a = .ok ((written a.labels.size).foldl Call.perform a))
    (hcount : ∀ count, (written count).countP Call.allocates = 2)
    (hstructured : ∀ count, ∀ c ∈ written count, c.IsStructured)
    (hmarks : ∀ count, ∀ c ∈ written count, c.MarksOnly)
    (hpass : ∀ s placed? pieces count, Supports s placed? →
      (∀ offset, PiecesPass s (fun _ => depth) placed? (some []) offset pieces) →
      ∀ offset, PiecesPass s (fun _ => depth) placed? (some []) offset
        (piecesOf count (written count) ++ pieces)) :
    ∃ calls, (repeated n (fun a _ => step a) empty >>= fun a => static (a.op .stop)) =
      static (assemble calls) ∧ WritesSafely calls := by
  have hblocks := repeated_eq (a := empty) (fun a _ => step a) (fun k => hcount (2 * k))
    (fun a k hsize => by rw [hstep, hsize]; simp [empty]) n
  refine ⟨[] ++ (blocks (fun k => written (2 * k)) n ++ [.op .stop]), ?_, ?_⟩
  · rw [hblocks, assemble, List.nil_append, List.foldl_append]
    rfl
  · refine writesSafely_of_blocks depth (· = some []) (fun k => ?_) (fun k => ?_)
      (fun k => hcount (2 * k)) (fun _ _ _ _ hrest => hrest _ _ rfl) ?_ ?_
    · simpa [or_imp, forall_and, Call.IsStructured, Opcode.immediateWidth] using
        hstructured (2 * k)
    · simpa [or_imp, forall_and, Call.MarksOnly] using hmarks (2 * k)
    · rintro s placed? pieces k hs hrest _ offset rfl
      rw [List.countP_nil, Nat.zero_add]
      exact hpass s placed? pieces _ hs (fun offset => hrest _ offset rfl) offset
    · rintro s placed? _ _ offset rfl
      exact .halt rfl (Nat.zero_le _) .nil

section Diamonds

def diamondCalls (count : Nat) : List Call :=
  [.newLabel, .newLabel, .op .calldatasize, .jumpiTo (.ofSlot count), .pushNumber 1, .op .pop,
    .jumpTo (.ofSlot (count + 1)), .jumpdest (.ofSlot count), .pushNumber 2, .op .pop,
    .jumpdest (.ofSlot (count + 1))]

theorem diamond_eq (a : Assembler) :
    diamond a = .ok ((diamondCalls a.labels.size).foldl Call.perform a) := by
  have hother := liftLabel_jumpdest a ((diamondCalls a.labels.size).take 7) a.labels.size
    (by simp [diamondCalls, List.countP_cons, Call.allocates])
  have hjoin := liftLabel_jumpdest a ((diamondCalls a.labels.size).take 10) (a.labels.size + 1)
    (by simp [diamondCalls, List.countP_cons, Call.allocates])
  unfold diamond
  simp only [newLabel, Array.size_push]
  exact (bind_of_eq_ok hother _).trans hjoin

theorem piecesOf_diamond (count : Nat) : piecesOf count (diamondCalls count) =
    [.bare .calldatasize, .reference (.ofSlot count), .bare .jumpi, .number 1, .bare .pop,
      .reference (.ofSlot (count + 1)), .bare .jump, .bare .jumpdest, .number 2, .bare .pop,
      .bare .jumpdest] := by
  simp [diamondCalls, piecesOf, Call.pieces, Call.allocates, Label.id_ofSlot_le,
    Nat.le_succ_of_le (Label.id_ofSlot_le count)]

theorem passes_diamond (hs : Supports s placed?) (count : Nat)
    (hrest : ∀ offset, PiecesPass s (fun _ => 0) placed? (some []) offset pieces) (offset : Nat) :
    PiecesPass s (fun _ => 0) placed? (some []) offset
      (piecesOf count (diamondCalls count) ++ pieces) := by
  rw [piecesOf_diamond]
  refine .op (.replace 0 1) [.unknown] rfl rfl (by simp [effect]) (fun _ => rfl)
    (hs.le (by simp)) ?_
  refine .reference (hs.le (by simp)) fun other hother => ?_
  refine .branch (hs.leads hother 0) (Nat.zero_le _) ?_
  refine .number (hs.le (by simp)) fun _ => ?_
  refine .op (.replace 1 0) [] rfl rfl (by simp [effect]) (fun _ => rfl) (Nat.zero_le _) ?_
  refine .reference (hs.le (by simp)) fun join hjoin => ?_
  refine .jump (hs.leads hjoin 0) (Nat.zero_le _) ?_
  refine .mark (Nat.zero_le _) (by simp) ?_
  refine .number (hs.le (by simp)) fun _ => ?_
  refine .op (.replace 1 0) [] rfl rfl (by simp [effect]) (fun _ => rfl) (Nat.zero_le _) ?_
  refine .mark (Nat.zero_le _) (fun _ h => Option.some.inj h ▸ rfl) ?_
  exact hrest _

theorem diamonds_safe (n : Nat) :
    ∃ calls, diamonds n = static (assemble calls) ∧ WritesSafely calls := by
  refine exists_writesSafely_repeated 0 n diamond_eq (fun count => ?_) (fun count => ?_)
    (fun count => ?_) fun _ _ _ count hs hrest => passes_diamond hs count hrest
  · simp [diamondCalls, List.countP_cons, Call.allocates]
  · simp [diamondCalls, Call.IsStructured, Opcode.immediateWidth]
  · simp [diamondCalls, Call.MarksOnly]

end Diamonds

section Loops

def countdownCalls (count : Nat) : List Call :=
  [.newLabel, .newLabel, .pushNumber 0, .op .calldataload, .jumpdest (.ofSlot count),
    .op (.dup ⟨0, by decide⟩), .op .iszero, .jumpiTo (.ofSlot (count + 1)), .pushNumber 1,
    .op (.swap ⟨0, by decide⟩), .op .sub, .jumpTo (.ofSlot count),
    .jumpdest (.ofSlot (count + 1)), .op .pop]

theorem countdown_eq (a : Assembler) :
    countdown a = .ok ((countdownCalls a.labels.size).foldl Call.perform a) := by
  have htop := liftLabel_jumpdest a ((countdownCalls a.labels.size).take 4) a.labels.size
    (by simp [countdownCalls, List.countP_cons, Call.allocates])
  have hdone := liftLabel_jumpdest a ((countdownCalls a.labels.size).take 12) (a.labels.size + 1)
    (by simp [countdownCalls, List.countP_cons, Call.allocates])
  unfold countdown
  simp only [newLabel, Array.size_push]
  exact (bind_of_eq_ok htop _).trans (bind_of_eq_ok hdone _)

theorem piecesOf_countdown (count : Nat) : piecesOf count (countdownCalls count) =
    [.number 0, .bare .calldataload, .bare .jumpdest, .bare (.dup 0), .bare .iszero,
      .reference (.ofSlot (count + 1)), .bare .jumpi, .number 1, .bare (.swap 0), .bare .sub,
      .reference (.ofSlot count), .bare .jump, .bare .jumpdest, .bare .pop] := by
  simp [countdownCalls, piecesOf, Call.pieces, Call.allocates, Label.id_ofSlot_le,
    Nat.le_succ_of_le (Label.id_ofSlot_le count)]

theorem passes_countdown (hs : Supports s placed?) (count : Nat)
    (hrest : ∀ offset, PiecesPass s (fun _ => 1) placed? (some []) offset pieces) (offset : Nat) :
    PiecesPass s (fun _ => 1) placed? (some []) offset
      (piecesOf count (countdownCalls count) ++ pieces) := by
  rw [piecesOf_countdown]
  refine .number (hs.le (by simp)) fun _ => ?_
  refine .op (.replace 1 1) [.unknown] rfl rfl (by simp [effect]) (fun _ => rfl)
    (hs.le (by simp)) ?_
  refine .mark (hs.le (by simp)) (fun _ h => Option.some.inj h ▸ rfl) ?_
  refine .op (.dup 1) [.unknown, .unknown] rfl rfl (by simp [effect]) (fun _ => rfl)
    (hs.le (by simp)) ?_
  refine .op (.replace 1 1) [.unknown, .unknown] rfl rfl (by simp [effect]) (fun _ => rfl)
    (hs.le (by simp)) ?_
  refine .reference (hs.le (by simp)) fun done hdone => ?_
  refine .branch (hs.leads hdone 1) (hs.le (by simp)) ?_
  refine .number (hs.le (by simp)) fun v => ?_
  refine .op (.swap 1) [.unknown, v] rfl rfl (by simp [effect]) (fun _ => rfl)
    (hs.le (by simp)) ?_
  refine .op (.replace 2 1) [.unknown] rfl rfl (by simp [effect]) (fun _ => rfl)
    (hs.le (by simp)) ?_
  refine .reference (hs.le (by simp)) fun top htop => ?_
  refine .jump (hs.leads htop 1) (hs.le (by simp)) ?_
  refine .mark (hs.le (by simp)) (by simp) ?_
  refine .op (.replace 1 0) [] rfl rfl (by simp [effect]) (fun _ => rfl) (Nat.zero_le _) ?_
  exact hrest _

theorem loops_safe (n : Nat) :
    ∃ calls, loops n = static (assemble calls) ∧ WritesSafely calls := by
  refine exists_writesSafely_repeated 1 n countdown_eq (fun count => ?_) (fun count => ?_)
    (fun count => ?_) fun _ _ _ count hs hrest => passes_countdown hs count hrest
  · simp [countdownCalls, List.countP_cons, Call.allocates]
  · simp [countdownCalls, Call.IsStructured, Opcode.immediateWidth]
  · simp [countdownCalls, Call.MarksOnly]

end Loops

section StraightLine

theorem straightLine_safe (n : Nat) :
    ∃ calls, straightLine n = static (assemble calls) ∧ WritesSafely calls := by
  refine ⟨[.pushNumber 1] ++ (blocks (fun k => [.pushNumber k, .op .add]) n ++
    [.op .pop, .op .stop]), ?_, ?_⟩
  · rw [straightLine, assemble, List.foldl_append, List.foldl_append, foldl_blocks]
    rfl
  · refine writesSafely_of_blocks 0 (fun front => ∃ v, front = some [v]) ?_ ?_
      (fun _ => rfl) ?_ ?_ ?_
    · simp [Call.IsStructured, Opcode.immediateWidth]
    · simp [Call.MarksOnly]
    · intro s placed? pieces hs hrest
      exact .number (hs.le (by simp)) fun v => hrest _ _ ⟨v, rfl⟩
    · rintro s placed? pieces k hs hrest _ offset ⟨v, rfl⟩
      refine .number (hs.le (by simp)) fun _ => ?_
      refine .op (.replace 2 1) [.unknown] rfl rfl (by simp [effect]) (fun _ => rfl)
        (hs.le (by simp)) ?_
      exact hrest _ _ ⟨.unknown, rfl⟩
    · rintro s placed? _ _ offset ⟨v, rfl⟩
      refine .op (.replace 1 0) [] rfl rfl (by simp [effect]) (fun _ => rfl) (Nat.zero_le _) ?_
      exact .halt rfl (Nat.zero_le _) .nil

end StraightLine

section FanIn

theorem fanIn_safe (n : Nat) :
    ∃ calls, fanIn n = static (assemble calls) ∧ WritesSafely calls := by
  have hcount (_ : Nat) : [Call.op .calldatasize, .jumpiTo ⟨0⟩].countP Call.allocates = 0 := rfl
  have htarget := liftLabel_jumpdest empty.newLabel.2
    (blocks (fun _ => [.op .calldatasize, .jumpiTo ⟨0⟩]) n) 0 (Nat.lt_add_right _ Nat.one_pos)
  refine ⟨[.newLabel] ++ (blocks (fun _ => [.op .calldatasize, .jumpiTo ⟨0⟩]) n ++
    [.jumpdest ⟨0⟩, .op .stop]), ?_, ?_⟩
  · rw [assemble, List.foldl_append, List.foldl_append]
    rw [foldl_blocks] at htarget
    rw [foldl_blocks]
    exact bind_of_eq_ok htarget _
  · refine writesSafely_of_blocks 0 (· = some []) ?_ ?_ hcount
      (fun _ _ _ _ hrest => hrest _ _ rfl) ?_ ?_
    · simp [Call.IsStructured, Opcode.immediateWidth]
    · simp [Call.MarksOnly]
    · rintro s placed? pieces k hs hrest _ offset rfl
      refine .op (.replace 0 1) [.unknown] rfl rfl (by simp [effect]) (fun _ => rfl)
        (hs.le (by simp)) ?_
      refine .reference (hs.le (by simp)) fun target htarget => ?_
      refine .branch (hs.leads htarget 0) (Nat.zero_le _) ?_
      exact hrest _ _ rfl
    · rintro s placed? _ _ offset rfl
      have hend : piecesOf ([Call.newLabel].countP Call.allocates + 0 * n)
          [.jumpdest ⟨0⟩, .op .stop] = [.bare .jumpdest, .bare .stop] := by
        simp [piecesOf, Call.pieces, Call.allocates]
      rw [hend]
      refine .mark (Nat.zero_le _) (fun _ h => Option.some.inj h ▸ rfl) ?_
      exact .halt rfl (Nat.zero_le _) .nil

end FanIn

/-- Whatever its size, a workload without tables is accepted. -/
theorem verify_static {generate : Nat → Except AssemblyError Workload}
    (hgenerate : generate ∈ [straightLine, diamonds, loops, fanIn]) {n : Nat} {w : Workload}
    (hw : generate n = .ok w) {cfg : Config} (hlength : w.code.size ≤ cfg.maxCodeLength)
    (hcode : w.code.size ≤ maxOffset) (hlimit : 3 ≤ cfg.stackLimit) :
    verify w.code w.tables cfg = .ok () := by
  have hsafe : ∃ calls, generate n = static (assemble calls) ∧ WritesSafely calls := by
    simp only [List.mem_cons, List.not_mem_nil, or_false] at hgenerate
    obtain rfl | rfl | rfl | rfl := hgenerate
    · exact straightLine_safe n
    · exact diamonds_safe n
    · exact loops_safe n
    · exact fanIn_safe n
  obtain ⟨calls, hcalls, hsafe⟩ := hsafe
  rw [hcalls] at hw
  exact verify_of_writesSafely hsafe hw (Nat.le_min.mpr ⟨hlength, hcode⟩) hlimit

theorem verify_static_loop :
    loops ∈ [straightLine, diamonds, loops, fanIn] ∧
      loops 1 = .ok { code := #[0x5F, 0x35, 0x5B, 0x80, 0x15, 0x61, 0x00, 0x11, 0x57, 0x60, 0x01,
        0x90, 0x03, 0x61, 0x00, 0x02, 0x56, 0x5B, 0x50, 0x00] } ∧
      verify #[0x5F, 0x35, 0x5B, 0x80, 0x15, 0x61, 0x00, 0x11, 0x57, 0x60, 0x01,
        0x90, 0x03, 0x61, 0x00, 0x02, 0x56, 0x5B, 0x50, 0x00] {} ⟨20, 3⟩ = .ok () := by
  have hmem : loops ∈ [straightLine, diamonds, loops, fanIn] := by simp
  have hloop : loops 1 = .ok { code := #[0x5F, 0x35, 0x5B, 0x80, 0x15, 0x61, 0x00, 0x11, 0x57,
      0x60, 0x01, 0x90, 0x03, 0x61, 0x00, 0x02, 0x56, 0x5B, 0x50, 0x00] } := by decide +kernel
  exact ⟨hmem, hloop, verify_static hmem hloop (by decide) (by decide) (by decide)⟩

end StackMachine.Workload
