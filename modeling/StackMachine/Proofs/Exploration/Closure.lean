import Mathlib.Logic.Function.Iterate
import StackMachine.Proofs.Exploration.Frontier
import StackMachine.Proofs.Soundness

namespace StackMachine

namespace Exploration

section Targets

variable {code : Code} {tables : JumpTables} {limit pc dst : Nat}

theorem mem_targets_unknown_iff : dst ∈ (subject code tables limit).targets pc .unknown ↔
    tables.Lists pc dst ∧
      ∀ other, tables.Lists pc other → (JumpDests.ofCode code).isValid other = true := by
  have hmem (o : Nat) : o ∈ (tables.lookup pc).destinations.map Prod.snd ↔ tables.Lists pc o :=
    tables.mem_destinations_iff
  change dst ∈ (if ((tables.lookup pc).destinations.map Prod.snd).all
    (JumpDests.ofCode code).isValid then (tables.lookup pc).destinations.map Prod.snd else []) ↔ _
  by_cases hall : ((tables.lookup pc).destinations.map Prod.snd).all (JumpDests.ofCode code).isValid
  · rw [if_pos hall, hmem]
    rw [List.all_eq_true] at hall
    simp only [iff_self_and]
    exact fun _ other hother => hall other ((hmem other).mpr hother)
  · rw [if_neg hall]
    simp only [List.not_mem_nil, false_iff, not_and]
    intro _ hgood
    exact hall (List.all_eq_true.mpr fun o ho => hgood o ((hmem o).mp ho))

theorem mem_targets_const_iff {value : Option Nat} :
    dst ∈ (subject code tables limit).targets pc (.const value) ↔
      value = some dst ∧ (JumpDests.ofCode code).isValid dst = true := by
  cases value with
  | none => simp [Subject.targets]
  | some w =>
    change dst ∈ (if (JumpDests.ofCode code).isValid w then [w] else []) ↔ _
    split
    next hvalid =>
      simp only [List.mem_singleton, Option.some.injEq]
      constructor
      · rintro rfl
        exact ⟨rfl, hvalid⟩
      · exact fun h => h.1.symm
    next hinvalid =>
      simp only [List.not_mem_nil, Option.some.injEq, false_iff, not_and]
      rintro rfl
      exact hinvalid

end Targets

section Search

variable {s : Subject} {f : Frontier}

/-- The step of a search that walks every entry it has not seen, in range or not. -/
def Frontier.advance (s : Subject) (f : Frontier) : Frontier :=
  match f.work with
  | [] => f
  | e :: work => if f.seen.contains e then { f with work } else f.expand s e work

theorem step_eq_advance (hs : Analysed s) (h : Sound s f) : f.step s = f.advance s := by
  cases hw : f.work with
  | nil => simp only [Frontier.step, Frontier.advance, hw]
  | cons e work =>
    have hrange : Frontier.inRange s e = true :=
      inRange_of_reachable hs (h.work e (hw ▸ List.mem_cons_self))
    simp only [Frontier.step, Frontier.advance, hw, hrange, Bool.not_true, Bool.or_false]

theorem exists_run_eq_iterate (hs : Analysed s) (h : Sound s f ∧ Complete s f) :
    ∃ n, f.run s = (Frontier.advance s)^[n] f := by
  fun_induction Frontier.run s f with
  | case1 f hdone => exact ⟨0, rfl⟩
  | case2 f hmore ih =>
    obtain ⟨n, hn⟩ := ih (step_sound_complete hs h)
    refine ⟨n + 1, ?_⟩
    rw [Function.iterate_succ_apply, ← step_eq_advance hs h.1]
    exact hn

theorem exists_explore_eq_iterate {code : Code} (tables : JumpTables) (limit : Nat)
    (hcode : code.size ≤ maxOffset) :
    ∃ n, ((Frontier.advance (subject code tables limit))^[n] .start).work = [] ∧
      explore code tables limit =
        ofFrontier code.size ((Frontier.advance (subject code tables limit))^[n] .start) := by
  have hs : Analysed (subject code tables limit) := analysed_subject hcode
  have hdone := (run_sound_complete hs ⟨sound_start, complete_start⟩).2.2
  obtain ⟨n, hn⟩ := exists_run_eq_iterate hs ⟨sound_start, complete_start⟩
  refine ⟨n, ?_, ?_⟩
  · rw [← hn]
    exact hdone
  · rw [← hn]
    rfl

end Search

end Exploration

namespace AbstractMachine

open Exploration
open Machine (Program)

/-- A jump at `pc` that pops the value may go to `dst`. -/
inductive Leads (p : Program) (pc : Nat) : AbstractValue → Nat → Prop where
  | constant {dst : Nat} : IsJumpDest p.code dst → Leads p pc (.const (some dst)) dst
  | listed {dst : Nat} : p.tables.Lists pc dst →
      (∀ other, p.tables.Lists pc other → IsJumpDest p.code other) → Leads p pc .unknown dst

/-- A jump at `pc` that pops the value is not safe. -/
inductive Refused (p : Program) (pc : Nat) : AbstractValue → Prop where
  | wide : Refused p pc (.const none)
  | constant {dst : Nat} : ¬ IsJumpDest p.code dst → Refused p pc (.const (some dst))
  | unlisted : (∀ dst, ¬ p.tables.Lists pc dst) → Refused p pc .unknown
  | listed {dst : Nat} : p.tables.Lists pc dst → ¬ IsJumpDest p.code dst → Refused p pc .unknown

inductive Step (p : Program) (σ : State) : State → Prop where
  | jump {i : Instr} {v : AbstractValue} {rest : List AbstractValue} {dst : Nat} :
      Executes p.subject σ i → i.opcode = .jump → σ.items = v :: rest → Leads p σ.pc v dst →
      Step p σ (.blank dst rest.length)
  | branch {i : Instr} {v condition : AbstractValue} {rest : List AbstractValue} {dst : Nat} :
      Executes p.subject σ i → i.opcode = .jumpi → σ.items = v :: condition :: rest →
      Leads p σ.pc v dst → Step p σ (.blank dst rest.length)
  | fallThrough {i : Instr} {v condition : AbstractValue} {rest : List AbstractValue} {dst : Nat} :
      Executes p.subject σ i → i.opcode = .jumpi → σ.items = v :: condition :: rest →
      Leads p σ.pc v dst → Step p σ (.blank i.next rest.length)
  | advance {i : Instr} : Executes p.subject σ i → i.opcode ≠ .jump → i.opcode ≠ .jumpi →
      Step p σ (arrive p.code i.next (behind i σ.items))

inductive Halts (p : Program) (σ : State) : Prop where
  | atEnd : p.code.size ≤ σ.pc → Halts p σ
  | terminator {i : Instr} : decodeAt p.code σ.pc = .ok i → i.opcode.isTerminator = true →
      i.opcode.stackIn ≤ σ.depth → Halts p σ

inductive Faults (p : Program) (σ : State) : FaultKind → Prop where
  | malformed {e : DecodeError} : σ.pc < p.code.size → decodeAt p.code σ.pc = .error e →
      Faults p σ .malformed
  | underflow {i : Instr} : decodeAt p.code σ.pc = .ok i → σ.depth < i.opcode.stackIn →
      Faults p σ .underflow
  | overflow {i : Instr} : decodeAt p.code σ.pc = .ok i → i.opcode.stackIn ≤ σ.depth →
      p.limit < σ.depth - i.opcode.stackIn + i.opcode.stackOut → Faults p σ .overflow
  | badTarget {i : Instr} {v : AbstractValue} : Executes p.subject σ i →
      (i.opcode = .jump ∨ i.opcode = .jumpi) → σ.items.head? = some v → Refused p σ.pc v →
      Faults p σ .badTarget

inductive Reachable (p : Program) : State → Prop where
  | start : Reachable p ⟨0, []⟩
  | step {σ τ : State} : Reachable p σ → Step p σ τ → Reachable p τ

variable {p : Program} {σ τ : State} {i : Instr} {pc dst : Nat} {v : AbstractValue}
  {kind : FaultKind}

theorem refused_iff : Refused p pc v ↔ ∀ dst, ¬ Leads p pc v dst := by
  constructor
  · intro h dst hleads
    cases h with
    | wide => cases hleads
    | constant hbad =>
      cases hleads with
      | constant hgood => exact hbad hgood
    | unlisted hnone =>
      cases hleads with
      | listed hdst _ => exact hnone dst hdst
    | listed hother hbad =>
      cases hleads with
      | listed _ hgood => exact hbad (hgood _ hother)
  · intro h
    cases v with
    | const value =>
      cases value with
      | none => exact .wide
      | some dst => exact .constant fun hgood => h dst (.constant hgood)
    | unknown =>
      -- Either nothing is listed, or something that is listed is no destination.
      by_cases hnone : ∀ dst, ¬ p.tables.Lists pc dst
      · exact .unlisted hnone
      · obtain ⟨dst, hdst⟩ := not_forall_not.mp hnone
        have hbad : ¬ ∀ other, p.tables.Lists pc other → IsJumpDest p.code other :=
          fun hgood => h dst (.listed hdst hgood)
        obtain ⟨other, hother⟩ := not_forall.mp hbad
        obtain ⟨hlists, hnot⟩ := Classical.not_imp.mp hother
        exact .listed hlists hnot

section Operands

variable {s : Subject} {condition : AbstractValue} {rest : List AbstractValue}

theorem targetsAt_of_head (h : σ.items.head? = some v) : targetsAt s σ = s.targets σ.pc v := by
  rw [targetsAt, List.headD_eq_head?_getD, h]
  rfl

theorem length_of_jump (hop : i.opcode = .jump) (hitems : σ.items = v :: rest) :
    rest.length = σ.depth - i.opcode.stackIn := by
  rw [State.depth, hitems, hop]
  rfl

theorem length_of_branch (hop : i.opcode = .jumpi) (hitems : σ.items = v :: condition :: rest) :
    rest.length = σ.depth - i.opcode.stackIn := by
  rw [State.depth, hitems, hop]
  rfl

theorem exists_cons_of_jump (h : Executes s σ i) (hop : i.opcode = .jump) :
    ∃ v rest, σ.items = v :: rest := by
  have hneeds := h.needs
  rw [hop] at hneeds
  exact List.exists_cons_of_length_pos hneeds

theorem exists_cons_of_branch (h : Executes s σ i) (hop : i.opcode = .jumpi) :
    ∃ v condition rest, σ.items = v :: condition :: rest := by
  have hneeds : 2 ≤ σ.items.length := by
    have hneeds := h.needs
    rwa [hop] at hneeds
  match hitems : σ.items with
  | v :: condition :: rest => exact ⟨v, condition, rest, rfl⟩
  | [_] | [] => rw [hitems] at hneeds; simp at hneeds

theorem exists_head_of_jumps (h : Executes s σ i) (hop : i.opcode = .jump ∨ i.opcode = .jumpi) :
    ∃ v, σ.items.head? = some v := by
  obtain hop | hop := hop
  · obtain ⟨v, rest, hitems⟩ := exists_cons_of_jump h hop
    exact ⟨v, by rw [hitems]; rfl⟩
  · obtain ⟨v, condition, rest, hitems⟩ := exists_cons_of_branch h hop
    exact ⟨v, by rw [hitems]; rfl⟩

end Operands

section Progress

theorem Step.executes (h : Step p σ τ) : ∃ i, Executes p.subject σ i ∧
    (i.opcode = .jump ∨ i.opcode = .jumpi →
      ∃ v dst, σ.items.head? = some v ∧ Leads p σ.pc v dst) := by
  cases h with
  | jump hexec _ hitems hleads | branch hexec _ hitems hleads | fallThrough hexec _ hitems hleads =>
    exact ⟨_, hexec, fun _ => ⟨_, _, hitems ▸ rfl, hleads⟩⟩
  | advance hexec hjump hjumpi =>
    exact ⟨_, hexec, fun hop => absurd hop (not_or.mpr ⟨hjump, hjumpi⟩)⟩

theorem not_step_of_faults (h : Faults p σ kind) : ¬ Step p σ τ := by
  intro hstep
  obtain ⟨j, hexec, hleads⟩ := hstep.executes
  cases h with
  | malformed _ hd => exact decodeAt_ne_ok hd j hexec.decodes
  | underflow hd hlt =>
    obtain rfl := decodeAt_unique hd hexec.decodes
    exact absurd hexec.needs (Nat.not_le.mpr hlt)
  | overflow hd _ hlt =>
    obtain rfl := decodeAt_unique hd hexec.decodes
    exact absurd hexec.room (Nat.not_le.mpr hlt)
  | badTarget hj hop htop hrefused =>
    obtain rfl := decodeAt_unique hj.decodes hexec.decodes
    obtain ⟨w, dst, htop', hdst⟩ := hleads hop
    obtain rfl : _ = w := Option.some.inj (htop.symm.trans htop')
    exact refused_iff.mp hrefused dst hdst

theorem not_step_of_halts (h : Halts p σ) : ¬ Step p σ τ := by
  intro hstep
  obtain ⟨j, hexec, _⟩ := hstep.executes
  cases h with
  | atEnd hle => exact absurd (lt_size_of_decodeAt hexec.decodes) (Nat.not_lt.mpr hle)
  | terminator hd hterm _ =>
    obtain rfl := decodeAt_unique hd hexec.decodes
    exact Bool.eq_false_iff.mp hexec.not_terminator hterm

theorem exists_step_of_leads (h : Executes p.subject σ i)
    (hop : i.opcode = .jump ∨ i.opcode = .jumpi) (htop : σ.items.head? = some v)
    (hleads : Leads p σ.pc v dst) : ∃ τ, Step p σ τ := by
  obtain hop | hop := hop
  · obtain ⟨w, rest, hitems⟩ := exists_cons_of_jump h hop
    rw [hitems] at htop
    obtain rfl := Option.some.inj htop
    exact ⟨_, .jump h hop hitems hleads⟩
  · obtain ⟨w, condition, rest, hitems⟩ := exists_cons_of_branch h hop
    rw [hitems] at htop
    obtain rfl := Option.some.inj htop
    exact ⟨_, .branch h hop hitems hleads⟩

theorem halts_or_faults_or_steps (p : Program) (σ : State) :
    Halts p σ ∨ (∃ kind, Faults p σ kind) ∨ ∃ τ, Step p σ τ := by
  by_cases hend : p.code.size ≤ σ.pc
  · exact .inl (.atEnd hend)
  cases hd : decodeAt p.code σ.pc with
  | error e => exact .inr (.inl ⟨_, .malformed (Nat.lt_of_not_le hend) hd⟩)
  | ok i =>
    by_cases hneeds : σ.depth < i.opcode.stackIn
    · exact .inr (.inl ⟨_, .underflow hd hneeds⟩)
    rw [Nat.not_lt] at hneeds
    cases hterm : i.opcode.isTerminator with
    | true => exact .inl (.terminator hd hterm hneeds)
    | false =>
      by_cases hroom : p.limit < σ.depth - i.opcode.stackIn + i.opcode.stackOut
      · exact .inr (.inl ⟨_, .overflow hd hneeds hroom⟩)
      have hexec : Executes p.subject σ i := ⟨hd, hterm, hneeds, Nat.le_of_not_lt hroom⟩
      by_cases hop : i.opcode = .jump ∨ i.opcode = .jumpi
      · obtain ⟨v, htop⟩ := exists_head_of_jumps hexec hop
        by_cases hrefused : Refused p σ.pc v
        · exact .inr (.inl ⟨_, .badTarget hexec hop htop hrefused⟩)
        · obtain ⟨dst, hdst⟩ := not_forall_not.mp (mt refused_iff.mpr hrefused)
          exact .inr (.inr (exists_step_of_leads hexec hop htop hdst))
      · rw [not_or] at hop
        exact .inr (.inr ⟨_, .advance hexec hop.1 hop.2⟩)

end Progress

section Equivalence

variable (hcode : p.code.size ≤ maxOffset)

include hcode

theorem mem_targets_iff : dst ∈ p.subject.targets pc v ↔ Leads p pc v dst := by
  cases v with
  | const value =>
    rw [Machine.Program.subject, mem_targets_const_iff, JumpDests.isValid_iff hcode]
    constructor
    · rintro ⟨rfl, hgood⟩
      exact .constant hgood
    · rintro (_ | _)
      exact ⟨rfl, ‹_›⟩
  | unknown =>
    rw [Machine.Program.subject, mem_targets_unknown_iff]
    simp only [JumpDests.isValid_iff hcode]
    constructor
    · rintro ⟨hdst, hgood⟩
      exact .listed hdst hgood
    · rintro (_ | ⟨hdst, hgood⟩)
      exact ⟨hdst, hgood⟩

theorem targets_eq_nil_iff : p.subject.targets pc v = [] ↔ Refused p pc v := by
  rw [refused_iff, List.eq_nil_iff_forall_not_mem]
  simp only [mem_targets_iff hcode]

theorem mem_targetsAt_iff (htop : σ.items.head? = some v) :
    dst ∈ targetsAt p.subject σ ↔ Leads p σ.pc v dst := by
  rw [targetsAt_of_head htop, mem_targets_iff hcode]

theorem step_iff_explored : Step p σ τ ↔ Exploration.Step p.subject σ τ := by
  constructor
  · intro h
    cases h with
    | @jump i v rest dst hexec hop hitems hleads =>
      rw [length_of_jump hop hitems]
      refine .jump hexec (Machine.jumps_iff.mpr (.inl hop)) ?_
      exact (mem_targetsAt_iff hcode (hitems ▸ rfl)).mpr hleads
    | @branch i v condition rest dst hexec hop hitems hleads =>
      rw [length_of_branch hop hitems]
      refine .jump hexec (Machine.jumps_iff.mpr (.inr hop)) ?_
      exact (mem_targetsAt_iff hcode (hitems ▸ rfl)).mpr hleads
    | @fallThrough i v condition rest dst hexec hop hitems hleads =>
      have hdst := (mem_targetsAt_iff hcode (hitems ▸ rfl)).mpr hleads
      rw [length_of_branch hop hitems]
      exact (step_iff_of_branch hexec (Opcode.role_eq_branch_iff.mpr hop)
        (List.ne_nil_of_mem hdst)).mpr (.inl rfl)
    | @advance i hexec hjump hjumpi =>
      refine (step_iff_of_not_jumps hexec fun hjumps => ?_).mpr rfl
      exact (Machine.jumps_iff.mp hjumps).elim hjump hjumpi
  · intro h
    cases h with
    | @jump i dst hexec hjumps hdst =>
      obtain hop | hop := Machine.jumps_iff.mp hjumps
      · obtain ⟨v, rest, hitems⟩ := exists_cons_of_jump hexec hop
        rw [← length_of_jump hop hitems]
        exact .jump hexec hop hitems ((mem_targetsAt_iff hcode (hitems ▸ rfl)).mp hdst)
      · obtain ⟨v, condition, rest, hitems⟩ := exists_cons_of_branch hexec hop
        rw [← length_of_branch hop hitems]
        exact .branch hexec hop hitems ((mem_targetsAt_iff hcode (hitems ▸ rfl)).mp hdst)
    | @next i hexec hrole hgood =>
      -- All but branches have one successor; a branch goes on only if its other arm is safe.
      by_cases hop : i.opcode = .jumpi
      · have hbranch : i.opcode.role = .branch := Opcode.role_eq_branch_iff.mpr hop
        obtain ⟨v, condition, rest, hitems⟩ := exists_cons_of_branch hexec hop
        obtain ⟨dst, hdst⟩ := List.exists_mem_of_ne_nil _ (hgood hbranch)
        have harrive : arrive p.subject.code i.next (behind i σ.items) =
            .blank i.next rest.length := by
          rw [arrive_behind_of_branch _ hbranch, length_of_branch hop hitems]
          rfl
        rw [harrive]
        exact .fallThrough hexec hop hitems ((mem_targetsAt_iff hcode (hitems ▸ rfl)).mp hdst)
      · exact .advance hexec (fun h => hrole (Opcode.role_eq_jump_iff.mpr h)) hop

theorem reachable_iff : Reachable p σ ↔ Exploration.Reachable p.subject σ := by
  constructor
  · intro h
    induction h with
    | start => exact .start
    | step _ hstep ih => exact ih.step ((step_iff_explored hcode).mp hstep)
  · intro h
    induction h with
    | start => exact .start
    | step _ hstep ih => exact ih.step ((step_iff_explored hcode).mpr hstep)

/-- A terminator adds nothing, so it overflows no stack that is within its limit. -/
theorem faults_iff_explored (hdepth : σ.depth ≤ p.limit) :
    Faults p σ kind ↔ Exploration.Faults p.subject σ kind := by
  constructor
  · intro h
    cases h with
    | malformed hlt hd => exact .malformed hlt hd
    | underflow hd hlt => exact .underflow hd hlt
    | @overflow i hd hneeds hlt =>
      refine .overflow hd (Bool.eq_false_iff.mpr fun hterm => ?_) hneeds hlt
      rw [Opcode.stackOut_of_isTerminator hterm] at hlt
      omega
    | badTarget hexec hop htop hrefused =>
      refine .badTarget hexec (Machine.jumps_iff.mpr hop) ?_
      rw [targetsAt_of_head htop]
      exact (targets_eq_nil_iff hcode).mpr hrefused
  · intro h
    cases h with
    | malformed hlt hd => exact .malformed hlt hd
    | underflow hd hlt => exact .underflow hd hlt
    | overflow hd _ hneeds hlt => exact .overflow hd hneeds hlt
    | @badTarget i hexec hjumps hnone =>
      have hop := Machine.jumps_iff.mp hjumps
      obtain ⟨v, htop⟩ := exists_head_of_jumps hexec hop
      rw [targetsAt_of_head htop] at hnone
      exact .badTarget hexec hop htop ((targets_eq_nil_iff hcode).mp hnone)

end Equivalence

section Closure

/-- Exploration comes to an end, the depths it keeps for an instruction are the heights of the stack
in the reachable states there, and its faults are the faults of reachable states. -/
theorem explore_exact (p : Program) (hcode : p.code.size ≤ maxOffset) :
    (∃ n, ((Frontier.advance p.subject)^[n] .start).work = [] ∧
      explore p.code p.tables p.limit =
        ofFrontier p.code.size ((Frontier.advance p.subject)^[n] .start)) ∧
    (∀ pc depth, depth ∈ (explore p.code p.tables p.limit).depthsAt pc ↔
      Recorded p.code pc ∧ ∃ σ, Reachable p σ ∧ σ.pc = pc ∧ σ.items.length = depth) ∧
    ∀ x, x ∈ (explore p.code p.tables p.limit).faults ↔
      ∃ σ, Reachable p σ ∧ Faults p σ x.kind ∧ σ.pc = x.pc := by
  refine ⟨exists_explore_eq_iterate p.tables p.limit hcode, fun pc depth => ?_, fun x => ?_⟩
  · rw [mem_depthsAt_iff hcode]
    constructor
    · rintro ⟨σ, hσ, hrec, hpc, hdepth⟩
      exact ⟨hrec, σ, (reachable_iff hcode).mpr hσ, hpc, hdepth⟩
    · rintro ⟨hrec, σ, hσ, hpc, hdepth⟩
      exact ⟨σ, (reachable_iff hcode).mp hσ, hrec, hpc, hdepth⟩
  · rw [mem_faults_iff hcode]
    constructor
    · rintro ⟨σ, hσ, hfault, hpc⟩
      have hfault' := (faults_iff_explored hcode hσ.depth_le).mpr hfault
      exact ⟨σ, (reachable_iff hcode).mpr hσ, hfault', hpc⟩
    · rintro ⟨σ, hσ, hfault, hpc⟩
      have hσ' := (reachable_iff hcode).mp hσ
      exact ⟨σ, hσ', (faults_iff_explored hcode hσ'.depth_le).mp hfault, hpc⟩

theorem explore_exact_static_jump :
    let p : Program := ⟨#[0x60, 0x03, 0x56, 0x5B, 0x00], JumpTables.empty, 1024⟩
    p.code.size ≤ maxOffset ∧ 0 ∈ (explore p.code p.tables p.limit).depthsAt 3 := by
  intro p
  have hsize : p.code.size ≤ maxOffset := by decide
  let push : Instr := ⟨0, .push 1, [0x03], 2⟩
  let jump : Instr := ⟨2, .jump, [], 3⟩
  let mark : Instr := ⟨3, .jumpdest, [], 4⟩
  have hpush : decodeAt p.code 0 = .ok push :=
    decodeAt_eq_ok_iff.mpr ⟨0x60, rfl, Opcode.ofByte?_eq_some_iff.mpr (by decide), rfl, rfl,
      by decide, by decide, rfl⟩
  have hjump : decodeAt p.code 2 = .ok jump :=
    decodeAt_eq_ok_iff.mpr ⟨0x56, rfl, Opcode.ofByte?_eq_some_iff.mpr (by decide), rfl, rfl,
      by decide, by decide, rfl⟩
  have hmark : decodeAt p.code 3 = .ok mark :=
    decodeAt_eq_ok_iff.mpr ⟨0x5B, rfl, Opcode.ofByte?_eq_some_iff.mpr (by decide), rfl, rfl,
      by decide, by decide, rfl⟩
  have hdest : IsJumpDest p.code 3 := ⟨(Boundary.zero.next hpush).next hjump, rfl⟩
  have hpushed : Reachable p ⟨2, [.const (some 3)]⟩ := by
    have hexec : Executes p.subject ⟨0, []⟩ push := ⟨hpush, rfl, Nat.zero_le 0, by decide⟩
    have hstep : Step p ⟨0, []⟩ _ := .advance hexec nofun nofun
    rw [arrive_of_not_marked fun h => nomatch (marked_iff hjump).mp h] at hstep
    exact Reachable.start.step hstep
  have hjumped : Reachable p (.blank 3 0) := by
    have hexec : Executes p.subject ⟨2, [.const (some 3)]⟩ jump :=
      ⟨hjump, rfl, Nat.le_refl 1, Nat.zero_le 1024⟩
    exact hpushed.step (.jump hexec rfl rfl (.constant hdest))
  exact ⟨hsize, ((explore_exact p hsize).2.1 3 0).mpr ⟨⟨mark, hmark, rfl⟩, _, hjumped, rfl, rfl⟩⟩

end Closure

end AbstractMachine

end StackMachine
