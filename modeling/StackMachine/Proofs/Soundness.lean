import StackMachine.Proofs.Agreement
import StackMachine.Proofs.BigEndian
import StackMachine.Proofs.Machine

namespace StackMachine.Machine

variable {p : Program} {σ τ : State} {i : Instr}

def Cell.abstract (c : Cell) : AbstractValue :=
  match c.tag with
  | .traced => .const (if c.word.toNat < 2 ^ 32 then some c.word.toNat else none)
  | .untraced => .unknown

def Program.subject (p : Program) : Exploration.Subject :=
  Exploration.subject p.code p.tables p.limit

def view (p : Program) (σ : State) : Exploration.State :=
  Exploration.arrive p.code σ.pc (σ.stack.map Cell.abstract)

section View

theorem pc_view (p : Program) (σ : State) : (view p σ).pc = σ.pc := Exploration.pc_arrive _ _ _

theorem depth_view (p : Program) (σ : State) : (view p σ).depth = σ.stack.length := by
  rw [view, Exploration.depth_arrive, List.length_map]

theorem items_view (hd : decodeAt p.code σ.pc = .ok i) (hop : i.opcode ≠ .jumpdest) :
    (view p σ).items = σ.stack.map Cell.abstract :=
  Exploration.items_arrive hd hop _

theorem map_abstract_untrace (cells : List Cell) :
    (cells.map Cell.untrace).map Cell.abstract = List.replicate cells.length .unknown := by
  rw [List.map_map]
  exact List.map_const' ..

theorem view_untraced (p : Program) (pc : Nat) (cells : List Cell) :
    view p ⟨pc, cells.map Cell.untrace⟩ = .blank pc cells.length := by
  rw [view, map_abstract_untrace]
  exact Exploration.arrive_replicate _ _ _

end View

section Literals

theorem abstract_word (himm : i.immediate.length ≤ 32) :
    Cell.abstract ⟨i.word, .traced⟩ = .const i.immediate32? := by
  have hlt : BigEndian.toNat i.immediate < 2 ^ 256 := by
    have hle : 256 ^ i.immediate.length ≤ 256 ^ 32 := Nat.pow_le_pow_right (by decide) himm
    exact Nat.lt_of_lt_of_le (BigEndian.toNat_lt i.immediate) hle
  have hnat : i.word.toNat = BigEndian.toNat i.immediate := by
    rw [Instr.word, BitVec.toNat_ofNat, Nat.mod_eq_of_lt hlt]
  rw [Cell.abstract, Instr.immediate32?, BigEndian.word32?_eq, hnat]

theorem abstract_pc {pc : Nat} (hpc : pc < 2 ^ 32) :
    Cell.abstract ⟨BitVec.ofNat 256 pc, .traced⟩ = .const (some pc) := by
  have hnat : (BitVec.ofNat 256 pc).toNat = pc := by
    rw [BitVec.toNat_ofNat, Nat.mod_eq_of_lt (by omega)]
  rw [Cell.abstract, hnat, if_pos hpc]

end Literals

section Simulation

theorem immediate_length_le {pc : Nat} (hd : decodeAt p.code pc = .ok i) :
    i.immediate.length ≤ 32 := by
  obtain ⟨_, _, _, _, hnext, hle, _, himm⟩ := decodeAt_eq_ok_iff.mp hd
  have hwidth : i.opcode.immediateWidth ≤ 32 := by
    cases i.opcode with
    | push width => exact Nat.le_of_lt_succ width.isLt
    | _ => exact Nat.zero_le _
  rw [himm, Array.length_toList, Array.size_extract]
  omega

theorem role_of_isOrdinary {op : Opcode} (h : op.IsOrdinary) :
    op.role = .compute (.replace op.stackIn op.stackOut) ∧ op.isTerminator = false := by
  cases op <;> first | exact ⟨rfl, h⟩ | exact h.elim

theorem exists_window {n : Nat} {cells : List Cell} (h : n + 2 ≤ cells.length) :
    ∃ top between other below, between.length = n ∧
      cells = top :: (between ++ other :: below) := by
  obtain ⟨top, rest, rfl⟩ := List.exists_cons_of_length_pos (show 0 < cells.length by omega)
  have hlt : n < rest.length := by
    rw [List.length_cons] at h
    omega
  have hlen : (rest.take n).length = n := List.length_take_of_le (Nat.le_of_lt hlt)
  refine ⟨top, rest.take n, rest[n], rest.drop (n + 1), hlen, ?_⟩
  rw [← List.drop_eq_getElem_cons hlt, List.take_append_drop]

/-- Where a jump may go is where verification lets it go. -/
theorem leads_iff {pc dst : Nat} {target : Cell}
    (hsafe : p.subject.targets pc target.abstract ≠ []) :
    Leads p pc target dst ↔ dst ∈ p.subject.targets pc target.abstract := by
  obtain ⟨w, tag⟩ := target
  cases tag with
  | traced =>
    rw [Cell.abstract] at hsafe ⊢
    -- A constant that is too wide, or no valid destination, has no targets.
    have hw : w.toNat < 2 ^ 32 := by
      apply Decidable.byContradiction
      intro hw
      rw [if_neg hw] at hsafe
      exact hsafe rfl
    rw [if_pos hw] at hsafe ⊢
    have hvalid : p.subject.jumpDests.isValid w.toNat = true := by
      apply Decidable.byContradiction
      intro hvalid
      exact hsafe (if_neg hvalid)
    have htargets : p.subject.targets pc (.const (some w.toNat)) = [w.toNat] := if_pos hvalid
    rw [htargets, List.mem_singleton]
    constructor
    · rintro (_ | _)
      rfl
    · rintro rfl
      exact .traced w
  | untraced =>
    have htargets : p.subject.targets pc .unknown =
        ((p.tables.lookup pc).destinations.map Prod.snd) := by
      apply Decidable.byContradiction
      intro hne
      exact hsafe (if_neg fun hall => hne (if_pos hall))
    change _ ↔ dst ∈ p.subject.targets pc .unknown
    rw [htargets, JumpTables.mem_destinations_iff]
    constructor
    · rintro (_ | hlists)
      exact hlists
    · exact .listed

theorem jumps_iff {op : Opcode} : Exploration.Jumps op ↔ op = .jump ∨ op = .jumpi :=
  or_congr Opcode.role_eq_jump_iff Opcode.role_eq_branch_iff

theorem targetsAt_view {target : Cell} (hd : decodeAt p.code σ.pc = .ok i)
    (hjumps : Exploration.Jumps i.opcode) (htop : σ.stack.head? = some target) :
    Exploration.targetsAt p.subject (view p σ) = p.subject.targets σ.pc target.abstract := by
  have hop : i.opcode ≠ .jumpdest := by
    obtain hop | hop := jumps_iff.mp hjumps <;> rw [hop] <;> decide
  rw [Exploration.targetsAt, pc_view, items_view hd hop, List.headD_eq_head?_getD, List.head?_map,
    htop]
  rfl

variable (hgood : ∀ kind, ¬ Exploration.Faults p.subject (view p σ) kind)

include hgood

theorem executes_view (hd : decodeAt p.code σ.pc = .ok i) (hterm : i.opcode.isTerminator = false) :
    Exploration.Executes p.subject (view p σ) i ∧
      (Exploration.Jumps i.opcode → Exploration.targetsAt p.subject (view p σ) ≠ []) :=
  Exploration.executes_of_faultless (by rwa [pc_view]) hterm hgood

theorem executes_jump (hd : decodeAt p.code σ.pc = .ok i) (hjumps : Exploration.Jumps i.opcode) :
    Exploration.Executes p.subject (view p σ) i ∧
      Exploration.targetsAt p.subject (view p σ) ≠ [] := by
  have hterm : i.opcode.isTerminator = false := by
    obtain hop | hop := jumps_iff.mp hjumps <;> rw [hop] <;> rfl
  obtain ⟨hexec, hsome⟩ := executes_view hgood hd hterm
  exact ⟨hexec, hsome hjumps⟩

theorem view_step_computed {a : StackAction} (hd : decodeAt p.code σ.pc = .ok i)
    (hrole : i.opcode.role = .compute a) (hterm : i.opcode.isTerminator = false)
    (hpc : τ.pc = i.next)
    (hstack : τ.stack.map Cell.abstract =
      a.onList .unknown (Exploration.literal i) (σ.stack.map Cell.abstract)) :
    Exploration.Step p.subject (view p σ) (view p τ) := by
  have hop : i.opcode ≠ .jumpdest := by
    intro hop
    rw [hop] at hrole
    cases hrole
  rw [Exploration.step_iff_of_not_jumps (executes_view hgood hd hterm).1
      (by simp [Exploration.Jumps, hrole]),
    Exploration.behind, hrole, items_view hd hop, view, hpc, hstack]
  rfl

theorem view_step_jumped {target : Cell} {dst : Nat} {cells : List Cell}
    (hd : decodeAt p.code σ.pc = .ok i) (hjumps : Exploration.Jumps i.opcode)
    (htop : σ.stack.head? = some target) (hleads : Leads p σ.pc target dst)
    (hcells : cells.length = σ.stack.length - i.opcode.stackIn) :
    Exploration.Step p.subject (view p σ) (view p ⟨dst, cells.map Cell.untrace⟩) := by
  obtain ⟨hexec, hsome⟩ := executes_jump hgood hd hjumps
  have htargets := targetsAt_view hd hjumps htop
  rw [htargets] at hsome
  rw [view_untraced, hcells, ← depth_view]
  refine .jump hexec hjumps ?_
  rw [htargets]
  exact (leads_iff hsome).mp hleads

theorem view_step_fallThrough {cells : List Cell} (hd : decodeAt p.code σ.pc = .ok i)
    (hop : i.opcode = .jumpi) (hcells : cells.length = σ.stack.length - i.opcode.stackIn) :
    Exploration.Step p.subject (view p σ) (view p ⟨i.next, cells.map Cell.untrace⟩) := by
  have hrole : i.opcode.role = .branch := Opcode.role_eq_branch_iff.mpr hop
  obtain ⟨hexec, hsome⟩ := executes_jump hgood hd (.inr hrole)
  rw [Exploration.step_iff_of_branch hexec hrole hsome, view_untraced, hcells, depth_view]
  exact .inl rfl

/-- A step of the machine is a step of the abstract run. -/
theorem view_step (hcode : p.code.size ≤ maxOffset) (hstep : Step p σ τ) :
    Exploration.Step p.subject (view p σ) (view p τ) := by
  cases hstep with
  | @push i width hd hop =>
    have hlit : Exploration.literal i = .const i.immediate32? := by
      simp [Exploration.literal, hop]
    refine view_step_computed hgood hd (a := .push) (by rw [hop]; rfl) (by rw [hop]; rfl) rfl ?_
    rw [List.map_cons, abstract_word (immediate_length_le hd), StackAction.onList, hlit]
  | @pc i hd hop =>
    have hlit : Exploration.literal i = .const (some σ.pc) := by
      simp [Exploration.literal, hop, decodeAt_offset hd]
    have hlt : σ.pc < 2 ^ 32 :=
      Nat.lt_of_lt_of_le (lt_size_of_decodeAt hd) (Nat.le_trans hcode (by decide))
    refine view_step_computed hgood hd (a := .push) (by rw [hop]; rfl) (by rw [hop]; rfl) rfl ?_
    rw [List.map_cons, abstract_pc hlt, StackAction.onList, hlit]
  | @dup i index c hd hop hget =>
    refine view_step_computed hgood hd (a := .dup (index.val + 1)) (by rw [hop]; rfl)
      (by rw [hop]; rfl) rfl ?_
    simp [StackAction.onList, List.getD_eq_getElem?_getD, hget]
  | @swap i index top other between below hd hop hlen hstack =>
    refine view_step_computed hgood hd (a := .swap (index.val + 1)) (by rw [hop]; rfl)
      (by rw [hop]; rfl) rfl ?_
    rw [StackAction.onList, ← StackAction.map_exchange, hstack, ← hlen, StackAction.exchange_append]
  | @jumpdest i hd hop =>
    -- The abstract run forgot the items when it arrived, the machine does so on its way out.
    have hmark : Exploration.marked p.code σ.pc := (Exploration.marked_iff hd).mpr hop
    have hrole : i.opcode.role = .mark := Opcode.role_eq_mark_iff.mpr hop
    have hexec := (executes_view hgood hd (by rw [hop]; rfl)).1
    have hview : view p σ = .blank σ.pc σ.stack.length := by
      rw [view, Exploration.arrive_of_marked hmark, List.length_map]
    rw [Exploration.step_iff_of_not_jumps hexec (by simp [Exploration.Jumps, hrole]),
      Exploration.behind, hrole, view_untraced, hview]
    exact (Exploration.arrive_replicate _ _ _).symm
  | @jump i target rest dst hd hop hstack hleads =>
    refine view_step_jumped hgood hd (jumps_iff.mpr (.inl hop)) (by rw [hstack]; rfl) hleads ?_
    rw [hstack, hop]
    rfl
  | @branch i target condition rest dst hd hop hstack hleads =>
    refine view_step_jumped hgood hd (jumps_iff.mpr (.inr hop)) (by rw [hstack]; rfl) hleads ?_
    rw [hstack, hop]
    rfl
  | @fallThrough i target condition rest hd hop hstack =>
    refine view_step_fallThrough hgood hd hop ?_
    rw [hstack, hop]
    rfl
  | @ordinary i results hd hord hlen =>
    obtain ⟨hrole, hterm⟩ := role_of_isOrdinary hord
    refine view_step_computed hgood hd hrole hterm rfl ?_
    have hresults : (results.map fun w => (⟨w, .untraced⟩ : Cell)).map Cell.abstract =
        List.replicate i.opcode.stackOut .unknown := by
      rw [List.map_map, ← hlen]
      exact List.map_const' ..
    rw [List.map_append, hresults, List.map_drop, StackAction.onList]

theorem exists_leads {target : Cell} (hd : decodeAt p.code σ.pc = .ok i)
    (hop : i.opcode = .jump ∨ i.opcode = .jumpi) (htop : σ.stack.head? = some target) :
    ∃ dst, Leads p σ.pc target dst := by
  have hjumps := jumps_iff.mpr hop
  have hsome := (executes_jump hgood hd hjumps).2
  rw [targetsAt_view hd hjumps htop] at hsome
  obtain ⟨dst, hdst⟩ := List.exists_mem_of_ne_nil _ hsome
  exact ⟨dst, (leads_iff hsome).mpr hdst⟩

theorem not_faults (hcode : p.code.size ≤ maxOffset) (hdepth : σ.stack.length ≤ p.limit) :
    ¬ Faults p σ := by
  have hunderflow {i : Instr} (hd : decodeAt p.code σ.pc = .ok i) :
      ¬ σ.stack.length < i.opcode.stackIn := by
    intro hlt
    exact hgood .underflow (.underflow (by rwa [pc_view]) (by rwa [depth_view]))
  rintro (⟨hlt, he⟩ | ⟨hd, hlt⟩ | @⟨i, hd, hlt⟩ | ⟨hd, hop, htop, hleads, hbad⟩ |
    ⟨hd, hop, htop, hnone⟩)
  · exact hgood .malformed (.malformed (by rwa [pc_view]) (by rwa [pc_view]))
  · exact hunderflow hd hlt
  · cases hterm : i.opcode.isTerminator with
    | true =>
      rw [Opcode.stackOut_of_isTerminator hterm] at hlt
      omega
    | false =>
      have hroom := (executes_view hgood hd hterm).1.room
      rw [depth_view] at hroom
      exact absurd hlt (Nat.not_lt.mpr hroom)
  · have hjumps := jumps_iff.mpr hop
    have hsome := (executes_jump hgood hd hjumps).2
    rw [targetsAt_view hd hjumps htop] at hsome
    have hvalid := Exploration.isValid_of_mem_targets ((leads_iff hsome).mp hleads)
    exact hbad ((JumpDests.isValid_iff hcode).mp hvalid)
  · obtain ⟨dst, hleads⟩ := exists_leads hgood hd hop htop
    exact hnone dst hleads

/-- A state that is not at fault has halted or goes on. -/
theorem progress : Halted p σ ∨ ∃ τ, Step p σ τ := by
  by_cases hend : p.code.size ≤ σ.pc
  · exact .inl (.atEnd hend)
  cases hd : decodeAt p.code σ.pc with
  | error e =>
    have hfault : Exploration.Faults p.subject (view p σ) .malformed :=
      .malformed (by rw [pc_view]; exact Nat.lt_of_not_le hend) (by rwa [pc_view])
    exact absurd hfault (hgood .malformed)
  | ok i =>
    cases hterm : i.opcode.isTerminator with
    | true => exact .inl (.terminator hd hterm)
    | false =>
      right
      have hneeds := (executes_view hgood hd hterm).1.needs
      rw [depth_view] at hneeds
      -- The items that an opcode needs are those that its step takes apart.
      cases hop : i.opcode with
      | push width => exact ⟨_, .push hd hop⟩
      | pc => exact ⟨_, .pc hd hop⟩
      | jumpdest => exact ⟨_, .jumpdest hd hop⟩
      | dup index =>
        rw [hop] at hneeds
        have hlt : index.val < σ.stack.length := hneeds
        exact ⟨_, .dup hd hop (List.getElem?_eq_getElem hlt)⟩
      | swap index =>
        rw [hop] at hneeds
        obtain ⟨top, between, other, below, hlen, hstack⟩ := exists_window hneeds
        exact ⟨_, .swap hd hop hlen hstack⟩
      | jump =>
        rw [hop] at hneeds
        obtain ⟨target, rest, hstack⟩ := List.exists_cons_of_length_pos hneeds
        obtain ⟨dst, hleads⟩ := exists_leads hgood hd (.inl hop) (by rw [hstack]; rfl)
        exact ⟨_, .jump hd hop hstack hleads⟩
      | jumpi =>
        rw [hop] at hneeds
        obtain ⟨target, between, condition, rest, hlen, hstack⟩ := exists_window (n := 0) hneeds
        rw [List.length_eq_zero_iff.mp hlen] at hstack
        exact ⟨_, .fallThrough hd hop hstack⟩
      | _ =>
        refine ⟨_, .ordinary hd ?_ (List.length_replicate (a := (0 : Word)))⟩
        rw [hop] at hterm ⊢
        exact hterm

end Simulation

theorem reachable_view (hcode : p.code.size ≤ maxOffset)
    (hgood : ∀ α kind, Exploration.Reachable p.subject α → ¬ Exploration.Faults p.subject α kind)
    (h : Reachable p σ) : Exploration.Reachable p.subject (view p σ) := by
  induction h with
  | start =>
    have hview : view p ⟨0, []⟩ = ⟨0, []⟩ := Exploration.arrive_replicate p.code 0 0
    rw [hview]
    exact .start
  | @step σ τ _ hstep ih => exact ih.step (view_step (fun kind => hgood _ kind ih) hcode hstep)

def Program.underConfig (code : Code) (tables : JumpTables) (cfg : Config) : Program :=
  ⟨code, tables, min cfg.stackLimit stackCapacity⟩

/-- No run of the machine on accepted code faults. It stays within the limit, each instruction is
reached with its one depth, and the machine goes on until it halts. -/
theorem sound_of_verifyOwned {code : Code} {tables : JumpTables} {cfg : Config} {v : VerifiedCode}
    (h : verifyOwned code tables cfg = .ok v) {σ : State}
    (hσ : Reachable (.underConfig code tables cfg) σ) :
    ¬ Faults (.underConfig code tables cfg) σ ∧
      σ.stack.length ≤ min cfg.stackLimit stackCapacity ∧
      (∀ i, decodeAt code σ.pc = .ok i → i.opcode.isTerminator = false →
        v.depthAt? σ.pc = some σ.stack.length) ∧
      (Halted (.underConfig code tables cfg) σ ∨ ∃ τ, Step (.underConfig code tables cfg) σ τ) := by
  obtain ⟨hle, haccounts⟩ := accounts_of_verifyOwned h
  have hcode := size_le_of_lengthBound hle
  have hview := reachable_view (p := .underConfig code tables cfg) hcode haccounts.faultless hσ
  have hgood := fun kind => haccounts.faultless _ kind hview
  have hdepth := hview.depth_le
  rw [depth_view] at hdepth
  refine ⟨not_faults hgood hcode hdepth, hdepth, fun i hd hterm => ?_, progress hgood⟩
  refine (haccounts.get?_iff σ.pc σ.stack.length).mpr ⟨⟨i, hd, hterm⟩, _, hview, pc_view _ _, ?_⟩
  exact depth_view _ _

theorem sound_static_jump : ∃ v,
    verifyOwned #[0x60, 0x03, 0x56, 0x5B, 0x00] JumpTables.empty {} = .ok v ∧
      Reachable (.underConfig #[0x60, 0x03, 0x56, 0x5B, 0x00] JumpTables.empty {})
        ⟨2, [⟨3, .traced⟩]⟩ ∧
      ¬ Faults (.underConfig #[0x60, 0x03, 0x56, 0x5B, 0x00] JumpTables.empty {})
        ⟨2, [⟨3, .traced⟩]⟩ ∧ v.depthAt? 2 = some 1 := by
  have hends : endsAccepted #[0x60, 0x03, 0x56, 0x5B, 0x00] JumpTables.empty {} 6 = true := by
    decide +kernel
  obtain ⟨v, hv⟩ := exists_ok_of_endsAccepted 6 (by decide) hends
  let push : Instr := ⟨0, .push 1, [0x03], 2⟩
  let jump : Instr := ⟨2, .jump, [], 3⟩
  have hpush : decodeAt #[0x60, 0x03, 0x56, 0x5B, 0x00] 0 = .ok push :=
    decodeAt_eq_ok_iff.mpr ⟨0x60, rfl, Opcode.ofByte?_eq_some_iff.mpr (by decide), rfl, rfl,
      by decide, by decide, rfl⟩
  have hjump : decodeAt #[0x60, 0x03, 0x56, 0x5B, 0x00] 2 = .ok jump :=
    decodeAt_eq_ok_iff.mpr ⟨0x56, rfl, Opcode.ofByte?_eq_some_iff.mpr (by decide), rfl, rfl,
      by decide, by decide, rfl⟩
  have hword : push.word = 3 := by decide
  have hstep := Step.push (p := .underConfig #[0x60, 0x03, 0x56, 0x5B, 0x00] JumpTables.empty {})
    (σ := ⟨0, []⟩) hpush (show push.opcode = .push 1 from rfl)
  rw [hword] at hstep
  obtain ⟨hfaults, _, hdepth, _⟩ := sound_of_verifyOwned hv (Reachable.start.step hstep)
  exact ⟨v, hv, Reachable.start.step hstep, hfaults, hdepth jump hjump rfl⟩

end StackMachine.Machine
