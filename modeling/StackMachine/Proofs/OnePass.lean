import StackMachine.Proofs.Agreement
import StackMachine.Proofs.JumpDests
import StackMachine.Proofs.Tiling

namespace StackMachine

open Exploration

section Invariants

variable {code : Code} {tables : JumpTables} {cfg : Config}

/-- A property of states that steps keep, with no fault and one depth for each offset, is a reason
to accept. -/
theorem exists_verifyOwned_of_invariant {P : State → Prop} (hle : code.size ≤ cfg.lengthBound)
    (hstart : P ⟨0, []⟩)
    (hstep : ∀ σ τ, P σ → Step (subjectOf code tables cfg) σ τ → P τ)
    (hgood : ∀ σ kind, P σ → ¬ Faults (subjectOf code tables cfg) σ kind)
    (hone : ∀ σ ρ, P σ → P ρ → σ.pc = ρ.pc → Recorded code σ.pc → σ.depth = ρ.depth) :
    ∃ v, verifyOwned code tables cfg = .ok v := by
  have hreach {σ : State} (hσ : Reachable (subjectOf code tables cfg) σ) : P σ := by
    induction hσ with
    | start => exact hstart
    | step _ hnext ih => exact hstep _ _ ih hnext
  -- Code that is not too long is rejected for a reachable fault or for two reachable depths.
  cases hv : verifyOwned code tables cfg with
  | ok v => exact ⟨v, rfl⟩
  | error e =>
    obtain ⟨hlt, _⟩ | ⟨_, hexplained⟩ := explained_of_verifyOwned hv
    · exact absurd hle (Nat.not_le.mpr hlt)
    · obtain ⟨hσ, hblames⟩ | ⟨hσ, hρ, hpc, hrec, hne⟩ := hexplained
      · obtain ⟨kind, _, hfault⟩ := hblames.faults
        exact absurd hfault (hgood _ kind (hreach hσ))
      · exact absurd (hone _ _ (hreach hρ) (hreach hσ) hpc (hpc ▸ hrec)) hne

end Invariants

namespace Exploration

variable {s : Subject} {declared : Nat → Nat} {front : Option (List AbstractValue)} {i : Instr}
  {items : List AbstractValue} {instrs : List Instr} {σ τ : State}

/-- The items with which an instruction runs, if it does: behind the one in front of it or, at a
`JUMPDEST`, as many as declared. -/
def known (declared : Nat → Nat) (front : Option (List AbstractValue)) (i : Instr) :
    Option (List AbstractValue) :=
  if i.opcode = .jumpdest then some (List.replicate (declared i.offset) .unknown) else front

/-- The items behind an instruction, if the next one is reached from it. -/
def flow (declared : Nat → Nat) (front : Option (List AbstractValue)) (i : Instr) :
    Option (List AbstractValue) :=
  if i.opcode.isTerminator = true ∨ i.opcode = .jump then none
  else (known declared front i).map (behind i)

/-- A jump with a target goes somewhere, and everywhere so many items are declared. -/
def Leads (s : Subject) (declared : Nat → Nat) (pc : Nat) (target : AbstractValue) (depth : Nat) :
    Prop :=
  s.targets pc target ≠ [] ∧ ∀ dst ∈ s.targets pc target, declared dst = depth

structure Fits (s : Subject) (declared : Nat → Nat) (items : List AbstractValue) (i : Instr) :
    Prop where
  needs : i.opcode.stackIn ≤ items.length
  room : i.opcode.isTerminator = false →
    items.length - i.opcode.stackIn + i.opcode.stackOut ≤ s.limit
  leads : Jumps i.opcode →
    Leads s declared i.offset (items.headD .unknown) (items.length - i.opcode.stackIn)

structure Safe (s : Subject) (declared : Nat → Nat) (front : Option (List AbstractValue))
    (i : Instr) : Prop where
  fits : ∀ items, known declared front i = some items → Fits s declared items i
  meets : i.opcode = .jumpdest → ∀ items, front = some items → items.length = declared i.offset

def Passes (s : Subject) (declared : Nat → Nat) :
    Option (List AbstractValue) → List Instr → Prop
  | _, [] => True
  | front, i :: instrs => Safe s declared front i ∧ Passes s declared (flow declared front i) instrs

def frontAt (declared : Nat → Nat) (instrs : List Instr) (n : Nat) : Option (List AbstractValue) :=
  (instrs.take n).foldl (flow declared) (some [])

theorem frontAt_succ {n : Nat} (h : n < instrs.length) :
    frontAt declared instrs (n + 1) = flow declared (frontAt declared instrs n) instrs[n] := by
  rw [frontAt, List.take_succ_eq_append_getElem h, List.foldl_concat, ← frontAt]

theorem Passes.safe {n : Nat} (h : Passes s declared front instrs) (hn : n < instrs.length) :
    Safe s declared ((instrs.take n).foldl (flow declared) front) instrs[n] := by
  induction instrs generalizing front n with
  | nil => exact absurd hn (Nat.not_lt_zero n)
  | cons i instrs ih =>
    cases n with
    | zero => exact h.1
    | succ n => exact ih h.2 (Nat.lt_of_succ_lt_succ hn)

section Rules

variable {a : StackAction} {v condition : AbstractValue}

theorem known_of_jumpdest (h : i.opcode = .jumpdest) :
    known declared front i = some (List.replicate (declared i.offset) .unknown) := if_pos h

theorem known_of_ne_jumpdest (h : i.opcode ≠ .jumpdest) : known declared front i = front := if_neg h

theorem Fits.safe (h : Fits s declared items i) (hop : i.opcode ≠ .jumpdest) :
    Safe s declared (some items) i where
  fits items' hknown := by
    rw [known_of_ne_jumpdest hop] at hknown
    exact Option.some.inj hknown ▸ h
  meets hmark := absurd hmark hop

theorem Safe.of_compute (hrole : i.opcode.role = .compute a) (hneeds : a.effect.1 ≤ items.length)
    (hroom : items.length - a.effect.1 + a.effect.2 ≤ s.limit) :
    Safe s declared (some items) i := by
  rw [Opcode.effect_of_role hrole] at hneeds hroom
  refine Fits.safe ⟨hneeds, fun _ => hroom, fun hjumps => ?_⟩ fun hop => ?_
  · rw [Jumps, hrole] at hjumps
    simp at hjumps
  · rw [Opcode.role_eq_mark_iff.mpr hop] at hrole
    cases hrole

theorem flow_of_compute (hrole : i.opcode.role = .compute a)
    (hterm : i.opcode.isTerminator = false) :
    flow declared (some items) i = some (a.onList .unknown (literal i) items) := by
  have hjump : i.opcode ≠ .jump := fun hop => by
    rw [Opcode.role_eq_jump_iff.mpr hop] at hrole
    cases hrole
  have hmark : i.opcode ≠ .jumpdest := fun hop => by
    rw [Opcode.role_eq_mark_iff.mpr hop] at hrole
    cases hrole
  rw [flow, if_neg (by simp [hterm, hjump]), known_of_ne_jumpdest hmark, Option.map_some, behind,
    hrole]

theorem Safe.of_isTerminator (hterm : i.opcode.isTerminator = true)
    (hneeds : i.opcode.stackIn ≤ items.length) : Safe s declared (some items) i := by
  refine Fits.safe ⟨hneeds, fun hgoes => ?_, fun hjumps => ?_⟩ fun hop => ?_
  · exact absurd (hgoes.symm.trans hterm) Bool.false_ne_true
  · rw [Jumps, Opcode.role_eq_jump_iff, Opcode.role_eq_branch_iff] at hjumps
    obtain hop | hop := hjumps <;> rw [hop] at hterm <;> cases hterm
  · rw [hop] at hterm
    cases hterm

theorem flow_of_isTerminator (hterm : i.opcode.isTerminator = true) :
    flow declared front i = none := if_pos (.inl hterm)

theorem Safe.of_jumpdest (hop : i.opcode = .jumpdest) (hlimit : declared i.offset ≤ s.limit)
    (hmeets : ∀ items, front = some items → items.length = declared i.offset) :
    Safe s declared front i where
  fits items hknown := by
    rw [known_of_jumpdest hop] at hknown
    obtain rfl := Option.some.inj hknown
    refine ⟨hop ▸ Nat.zero_le _, fun _ => ?_, fun hjumps => ?_⟩
    · rw [hop, List.length_replicate]
      exact hlimit
    · rw [hop] at hjumps
      simp [Jumps, Opcode.role] at hjumps
  meets _ := hmeets

theorem flow_of_jumpdest (hop : i.opcode = .jumpdest) :
    flow declared front i = some (List.replicate (declared i.offset) .unknown) := by
  rw [flow, if_neg (by simp [hop, Opcode.isTerminator]), known_of_jumpdest hop, Option.map_some,
    behind, Opcode.role_eq_mark_iff.mpr hop]

theorem Safe.of_jump (hop : i.opcode = .jump) (hlimit : items.length ≤ s.limit)
    (hleads : Leads s declared i.offset v items.length) :
    Safe s declared (some (v :: items)) i := by
  refine Fits.safe ⟨?_, fun _ => ?_, fun _ => ?_⟩ (by simp [hop])
  · rw [hop]
    exact Nat.succ_pos _
  · rw [hop]
    exact hlimit
  · rw [hop]
    exact hleads

theorem flow_of_jump (hop : i.opcode = .jump) : flow declared front i = none := if_pos (.inr hop)

theorem Safe.of_branch (hop : i.opcode = .jumpi) (hlimit : items.length ≤ s.limit)
    (hleads : Leads s declared i.offset v items.length) :
    Safe s declared (some (v :: condition :: items)) i := by
  refine Fits.safe ⟨?_, fun _ => ?_, fun _ => ?_⟩ (by simp [hop])
  · rw [hop]
    exact Nat.succ_le_succ (Nat.succ_pos _)
  · rw [hop]
    exact hlimit
  · rw [hop]
    exact hleads

theorem flow_of_branch (hop : i.opcode = .jumpi) :
    flow declared (some (v :: condition :: items)) i =
      some (List.replicate items.length .unknown) := by
  rw [flow, if_neg (by simp [hop, Opcode.isTerminator]), known_of_ne_jumpdest (by simp [hop]),
    Option.map_some, behind, hop]
  rfl

end Rules

theorem Safe.known_of_arrive (h : Safe s declared (some items) i)
    (hd : decodeAt s.code i.offset = .ok i) :
    known declared (some items) i = some (arrive s.code i.offset items).items := by
  by_cases hop : i.opcode = .jumpdest
  · rw [known_of_jumpdest hop, arrive_of_marked ((marked_iff hd).mpr hop), State.blank,
      h.meets hop items rfl]
  · rw [known, if_neg hop, items_arrive hd hop]

/-- The pass has met the state, or it is at the end of the code. -/
def Met (declared : Nat → Nat) (size : Nat) (instrs : List Instr) (σ : State) : Prop :=
  σ.pc = size ∨ ∃ n, ∃ h : n < instrs.length, σ.pc = instrs[n].offset ∧
    known declared (frontAt declared instrs n) instrs[n] = some σ.items

section Pass

variable (hs : Analysed s) (hlayout : layout s.code = instrs.map .ok)
  (hpass : Passes s declared (some []) instrs)

include hs hlayout

theorem decodeAt_of_layout {n : Nat} (h : n < instrs.length) :
    decodeAt s.code instrs[n].offset = .ok instrs[n] := by
  have hmem : .ok instrs[n] ∈ layout s.code := hlayout ▸ List.mem_map_of_mem (List.getElem_mem h)
  obtain ⟨pc, _, _, hd⟩ := (mem_layout_iff hs.size_le).mp hmem
  rwa [decodeAt_offset hd]

theorem offset_succ {n : Nat} (h : n + 1 < instrs.length) :
    instrs[n + 1].offset = instrs[n].next := by
  have hchain := (tiling_layout s.code hs.size_le).2.2.adjacent
  rw [hlayout, List.isChain_iff_getElem] at hchain
  have hnext := hchain n (by rwa [List.length_map])
  rwa [List.getElem_map, List.getElem_map] at hnext

theorem next_of_last {n : Nat} (h : n < instrs.length) (hlast : ¬ n + 1 < instrs.length) :
    instrs[n].next = s.code.size := by
  have hstop := (tiling_layout s.code hs.size_le).2.2.last_stop (.ok instrs[n])
  rw [hlayout] at hstop
  refine hstop ?_
  rw [List.getLast?_eq_getElem?, List.length_map, List.getElem?_map,
    show instrs.length - 1 = n by omega, List.getElem?_eq_getElem h]
  rfl

theorem eq_of_offset_eq {n k : Nat} (hn : n < instrs.length) (hk : k < instrs.length)
    (h : instrs[n].offset = instrs[k].offset) : n = k := by
  have hincreasing := (tiling_layout s.code hs.size_le).2.2.increasing
  rw [hlayout, List.map_map] at hincreasing
  have hnodup : List.Nodup (instrs.map Instr.offset) := hincreasing.imp Nat.ne_of_lt
  have hn' : n < (instrs.map Instr.offset).length := by rwa [List.length_map]
  have hk' : k < (instrs.map Instr.offset).length := by rwa [List.length_map]
  have hget : (instrs.map Instr.offset)[n] = (instrs.map Instr.offset)[k] := by
    rw [List.getElem_map, List.getElem_map, h]
  exact hnodup.getElem_inj_iff.mp hget

include hpass

theorem met_next {n : Nat} (h : n < instrs.length)
    (hflow : flow declared (frontAt declared instrs n) instrs[n] = some items) :
    Met declared s.code.size instrs (arrive s.code instrs[n].next items) := by
  -- Another instruction follows, or the code ends here.
  by_cases hlast : n + 1 < instrs.length
  · have hoffset := offset_succ hs hlayout hlast
    have hsafe := hpass.safe hlast
    have hd := decodeAt_of_layout hs hlayout hlast
    rw [← frontAt, frontAt_succ h, hflow] at hsafe
    refine .inr ⟨n + 1, hlast, ?_, ?_⟩
    · rw [pc_arrive, hoffset]
    · rw [frontAt_succ h, hflow, hsafe.known_of_arrive hd, hoffset]
  · rw [Met, pc_arrive]
    exact .inl (next_of_last hs hlayout h hlast)

theorem met_start : Met declared s.code.size instrs ⟨0, []⟩ := by
  have hfirst := (tiling_layout s.code hs.size_le).2.2.head_offset
  rw [hlayout] at hfirst
  cases instrs with
  | nil =>
    refine .inl (Nat.eq_zero_of_not_pos fun hpos => ?_).symm
    rw [if_pos hpos] at hfirst
    cases hfirst
  | cons i instrs =>
    have hoffset : i.offset = 0 := by
      split at hfirst
      · exact Option.some.inj hfirst
      · cases hfirst
    have hknown := hpass.1.known_of_arrive (decodeAt_of_layout hs hlayout (Nat.succ_pos _))
    rw [show arrive s.code i.offset [] = ⟨i.offset, []⟩ from arrive_replicate _ _ 0] at hknown
    exact .inr ⟨0, Nat.succ_pos _, hoffset.symm, hknown⟩

omit hpass in
theorem met_jump {dst : Nat} (hvalid : s.jumpDests.isValid dst = true) :
    Met declared s.code.size instrs (.blank dst (declared dst)) := by
  rw [hs.jumpDests_eq, JumpDests.isValid_iff_exists_mem_layout hs.size_le, hlayout] at hvalid
  obtain ⟨i, hmem, hop, rfl⟩ := hvalid
  obtain ⟨n, hn, hget⟩ := List.getElem_of_mem hmem
  rw [List.getElem_map] at hget
  rw [List.length_map] at hn
  obtain rfl := Except.ok.inj hget
  exact .inr ⟨n, hn, rfl, known_of_jumpdest hop⟩

theorem Met.step (h : Met declared s.code.size instrs σ) (hstep : Step s σ τ) :
    Met declared s.code.size instrs τ := by
  obtain hend | ⟨n, hn, hpc, hknown⟩ := h
  · exact absurd hstep (not_step_of_error (decodeAt_of_end (Nat.le_of_eq hend.symm)))
  have hd := decodeAt_of_layout hs hlayout hn
  have hfits := (hpass.safe hn).fits _ hknown
  rw [← hpc] at hd
  rw [step_iff hd] at hstep
  -- Jumps land where their depth is declared; other steps go on as the pass does.
  obtain ⟨hexec, ⟨hjumps, dst, hdst, rfl⟩ | ⟨hrole, _, rfl⟩⟩ := hstep
  · have hdeclared := (hfits.leads hjumps).2 dst (hpc ▸ hdst)
    rw [State.depth, ← hdeclared]
    exact met_jump hs hlayout (isValid_of_mem_targets hdst)
  · refine met_next hs hlayout hpass hn ?_
    rw [flow, if_neg, hknown, Option.map_some]
    rintro (hterm | hop)
    · exact Bool.false_ne_true (hexec.not_terminator.symm.trans hterm)
    · exact hrole (Opcode.role_eq_jump_iff.mpr hop)

theorem Met.not_faults (h : Met declared s.code.size instrs σ) (kind : FaultKind) :
    ¬ Faults s σ kind := by
  obtain hend | ⟨n, hn, hpc, hknown⟩ := h
  · exact not_faults_of_end (Nat.le_of_eq hend.symm)
  have hd := decodeAt_of_layout hs hlayout hn
  have hfits := (hpass.safe hn).fits _ hknown
  rw [← hpc] at hd
  rw [faults_iff hd]
  rintro (⟨_, hlt⟩ | ⟨_, hterm, _, hlt⟩ | ⟨_, _, hjumps, hnone⟩)
  · exact absurd hfits.needs (Nat.not_le.mpr hlt)
  · exact absurd (hfits.room hterm) (Nat.not_le.mpr hlt)
  · exact (hfits.leads hjumps).1 (hpc ▸ hnone)

omit hpass in
theorem Met.depth_eq (hσ : Met declared s.code.size instrs σ)
    (hτ : Met declared s.code.size instrs τ) (hpc : σ.pc = τ.pc) (hlt : σ.pc < s.code.size) :
    σ.depth = τ.depth := by
  obtain hend | ⟨n, hn, hσpc, hσknown⟩ := hσ
  · exact absurd hend (Nat.ne_of_lt hlt)
  obtain hend | ⟨k, hk, hτpc, hτknown⟩ := hτ
  · exact absurd hend (Nat.ne_of_lt (hpc ▸ hlt))
  obtain rfl := eq_of_offset_eq hs hlayout hn hk (hσpc.symm.trans (hpc.trans hτpc))
  rw [hσknown] at hτknown
  exact congrArg List.length (Option.some.inj hτknown)

end Pass

end Exploration

/-- Code is accepted if a single pass over its layout, with the declared depths, finds it safe. -/
theorem exists_verifyOwned_of_passes {code : Code} {tables : JumpTables} {cfg : Config}
    {declared : Nat → Nat} {instrs : List Instr} (hle : code.size ≤ cfg.lengthBound)
    (hlayout : layout code = instrs.map .ok)
    (hpass : Passes (subjectOf code tables cfg) declared (some []) instrs) :
    ∃ v, verifyOwned code tables cfg = .ok v := by
  have hs : Analysed (subjectOf code tables cfg) := analysed_subject (size_le_of_lengthBound hle)
  refine exists_verifyOwned_of_invariant (P := Met declared code.size instrs) hle
    (met_start hs hlayout hpass) (fun _ _ hσ => hσ.step hs hlayout hpass)
    (fun _ kind hσ => hσ.not_faults hs hlayout hpass kind) fun σ ρ hσ hρ hpc hrec => ?_
  obtain ⟨i, hd, _⟩ := hrec
  exact hσ.depth_eq hs hlayout hρ hpc (lt_size_of_decodeAt hd)

end StackMachine
