import StackMachine.Proofs.AbstractRun

namespace StackMachine.Exploration

variable {s : Subject} {entry : Nat} {σ τ : State} {visits : List (Nat × Nat)}

section Walk

theorem walkBlock_of_end {pc : Nat} (h : s.code.size ≤ pc) (items : List AbstractValue) :
    walkBlock s entry pc items visits = ⟨visits, none, []⟩ := by
  rw [walkBlock, if_pos h]

theorem walkBlock_of_error {e : DecodeError} (h : σ.pc < s.code.size)
    (hd : decodeAt s.code σ.pc = .error e) :
    walkBlock s entry σ.pc σ.items visits = ⟨visits, some ⟨.malformed, σ.pc⟩, []⟩ := by
  rw [walkBlock, if_neg (Nat.not_le.mpr h)]
  split
  · rfl
  next i hi => exact absurd hi (decodeAt_ne_ok hd i)

theorem walkBlock_of_marked (hs : Analysed s) (hmark : marked s.code σ.pc) (hne : σ.pc ≠ entry) :
    walkBlock s entry σ.pc σ.items visits = ⟨visits, none, [⟨σ.pc, σ.depth⟩]⟩ := by
  obtain ⟨i, hd, hop⟩ := decodeAt_of_jumpdest hs.size_le hmark
  have hlt := lt_size_of_decodeAt hd
  rw [walkBlock, if_neg (Nat.not_le.mpr hlt)]
  split
  next e he => exact absurd hd (decodeAt_ne_ok he i)
  next j hj =>
    obtain rfl := decodeAt_unique hd hj
    exact if_pos ⟨hop, hne⟩

variable {i : Instr}

theorem walkBlock_of_ok (hd : decodeAt s.code σ.pc = .ok i)
    (hentry : marked s.code σ.pc → σ.pc = entry) :
    walkBlock s entry σ.pc σ.items visits =
      if i.opcode.isTerminator then
        ⟨visits, if σ.depth < i.opcode.stackIn then some ⟨.underflow, σ.pc⟩ else none, []⟩
      else if σ.depth < i.opcode.stackIn then
        ⟨(σ.pc, σ.depth) :: visits, some ⟨.underflow, σ.pc⟩, []⟩
      else if s.limit < σ.depth - i.opcode.stackIn + i.opcode.stackOut then
        ⟨(σ.pc, σ.depth) :: visits, some ⟨.overflow, σ.pc⟩, []⟩
      else match i.opcode.role with
        | .jump => leaveBlock s σ.pc (σ.items.headD .unknown) (σ.depth - 1) []
            ((σ.pc, σ.depth) :: visits)
        | .branch => leaveBlock s σ.pc (σ.items.headD .unknown) (σ.depth - 2) [i.next]
            ((σ.pc, σ.depth) :: visits)
        | _ => walkBlock s entry i.next (behind i σ.items) ((σ.pc, σ.depth) :: visits) := by
  have hlt := lt_size_of_decodeAt hd
  rw [walkBlock, if_neg (Nat.not_le.mpr hlt)]
  split
  next e he => exact absurd hd (decodeAt_ne_ok he i)
  next j hj =>
    obtain rfl := decodeAt_unique hd hj
    have hnot : ¬ (i.opcode = .jumpdest ∧ σ.pc ≠ entry) := by
      rintro ⟨hop, hne⟩
      exact hne (hentry ((marked_iff hd).mpr hop))
    dsimp only
    rw [if_neg hnot]
    unfold behind
    cases hrole : i.opcode.role <;> rfl

end Walk

section Block

/-- A step to another state of the same block. -/
def Straight (s : Subject) (σ τ : State) : Prop :=
  ∃ i, Executes s σ i ∧ ¬ Jumps i.opcode ∧ τ = ⟨i.next, behind i σ.items⟩ ∧ ¬ marked s.code i.next

inductive Within (s : Subject) : State → State → Prop where
  | refl (σ : State) : Within s σ σ
  | head {σ τ ρ : State} : Straight s σ τ → Within s τ ρ → Within s σ ρ

theorem Straight.step (h : Straight s σ τ) : Step s σ τ := by
  obtain ⟨i, hexec, hjumps, rfl, hmark⟩ := h
  have hnext := Step.next hexec (fun hrole => hjumps (.inl hrole)) fun hrole =>
    absurd (.inr hrole) hjumps
  rwa [arrive_of_not_marked hmark] at hnext

theorem Straight.unique {ρ : State} (h : Straight s σ τ) (h' : Straight s σ ρ) : τ = ρ := by
  obtain ⟨i, hi, _, rfl, _⟩ := h
  obtain ⟨j, hj, _, rfl, _⟩ := h'
  rw [decodeAt_unique hi.decodes hj.decodes]

theorem Within.tail {ρ : State} (h : Within s σ τ) (hstep : Straight s τ ρ) : Within s σ ρ := by
  induction h with
  | refl σ => exact .head hstep (.refl ρ)
  | head hfirst _ ih => exact .head hfirst (ih hstep)

theorem Within.reachable (h : Within s σ τ) (hσ : Reachable s σ) : Reachable s τ := by
  induction h with
  | refl => exact hσ
  | head hfirst _ ih => exact ih (hσ.step hfirst.step)

theorem within_of_stuck (hstuck : ∀ ρ, ¬ Straight s σ ρ) : Within s σ τ ↔ τ = σ := by
  constructor
  · rintro (_ | ⟨hfirst, _⟩)
    · rfl
    · exact absurd hfirst (hstuck _)
  · rintro rfl
    exact .refl _

theorem within_of_straight {ρ : State} (h : Straight s σ ρ) :
    Within s σ τ ↔ τ = σ ∨ Within s ρ τ := by
  constructor
  · rintro (_ | ⟨hfirst, hrest⟩)
    · exact .inl rfl
    · exact .inr (h.unique hfirst ▸ hrest)
  · rintro (rfl | hrest)
    · exact .refl _
    · exact .head h hrest

/-- A step that leaves a block knows nothing of the items any more. -/
theorem eq_ofEntry_of_not_straight (h : Step s σ τ) (hout : ¬ Straight s σ τ) :
    τ = State.ofEntry ⟨τ.pc, τ.depth⟩ := by
  cases h with
  | jump =>
    rw [State.depth_blank]
    rfl
  | @next i hexec hrole hgood =>
    rw [pc_arrive, depth_arrive]
    by_cases hmark : marked s.code i.next
    · exact arrive_of_marked hmark _
    · by_cases hbranch : i.opcode.role = .branch
      · have hbehind : behind i σ.items =
            List.replicate (σ.items.length - i.opcode.stackIn) .unknown := by
          simp only [behind, hbranch]
        rw [hbehind, arrive_replicate, List.length_replicate]
        rfl
      · refine absurd ⟨i, hexec, ?_, arrive_of_not_marked hmark _, hmark⟩ hout
        rintro (h | h)
        · exact hrole h
        · exact hbranch h

end Block

section Record

/-- What the walk from a state adds to the record is what is true of the states of the block. -/
structure Follows (s : Subject) (σ : State) (visits : List (Nat × Nat)) (w : BlockWalk) : Prop where
  visits : ∀ v, v ∈ w.visits ↔ v ∈ visits ∨
    ∃ τ, Within s σ τ ∧ Recorded s.code τ.pc ∧ v = (τ.pc, τ.depth)
  fault : ∀ x, w.fault = some x ↔ ∃ τ, Within s σ τ ∧ Faults s τ x.kind ∧ x.pc = τ.pc
  exits : ∀ e : BlockEntry, e ∈ w.exits ↔
    ∃ τ, Within s σ τ ∧ Step s τ (.ofEntry e) ∧ ¬ Straight s τ (.ofEntry e)

variable {w : BlockWalk} {i : Instr}

theorem follows_of_stuck (hstuck : ∀ ρ, ¬ Straight s σ ρ)
    (hvisits : ∀ v, v ∈ w.visits ↔ v ∈ visits ∨ Recorded s.code σ.pc ∧ v = (σ.pc, σ.depth))
    (hfault : ∀ x, w.fault = some x ↔ Faults s σ x.kind ∧ x.pc = σ.pc)
    (hexits : ∀ e : BlockEntry, e ∈ w.exits ↔ Step s σ (.ofEntry e)) : Follows s σ visits w := by
  refine ⟨fun v => ?_, fun x => ?_, fun e => ?_⟩
  · simp [hvisits, within_of_stuck hstuck]
  · simp [hfault, within_of_stuck hstuck]
  · simp [hexits, within_of_stuck hstuck, hstuck]

theorem follows_of_straight {ρ : State} (h : Straight s σ ρ) (hrec : Recorded s.code σ.pc)
    (hfault : ∀ kind, ¬ Faults s σ kind) (hstep : ∀ τ, Step s σ τ → τ = ρ)
    (hw : Follows s ρ ((σ.pc, σ.depth) :: visits) w) : Follows s σ visits w := by
  refine ⟨fun v => ?_, fun x => ?_, fun e => ?_⟩
  · rw [hw.visits, List.mem_cons, or_comm (a := v = _), or_assoc]
    simp [within_of_straight h, or_and_right, exists_or, hrec]
  · rw [hw.fault]
    simp [within_of_straight h, or_and_right, exists_or, hfault]
  · have hnot : ¬ (Step s σ (.ofEntry e) ∧ ¬ Straight s σ (.ofEntry e)) := by
      rintro ⟨he, hout⟩
      rw [hstep _ he] at hout
      exact hout h
    rw [hw.exits]
    simp only [within_of_straight h, or_and_right, exists_or, exists_eq_left, hnot, false_or]

theorem not_straight_of_not_step (h : ∀ τ, ¬ Step s σ τ) (ρ : State) : ¬ Straight s σ ρ :=
  fun hstraight => h ρ hstraight.step

theorem ofEntry_eq_blank_iff {pc depth : Nat} {e : BlockEntry} :
    State.ofEntry e = .blank pc depth ↔ e = ⟨pc, depth⟩ := by
  constructor
  · intro h
    have hpc := congrArg State.pc h
    have hdepth := congrArg State.depth h
    rw [State.ofEntry, State.depth_blank, State.depth_blank] at hdepth
    cases e
    exact congr (congrArg BlockEntry.mk hpc) hdepth
  · rintro rfl
    rfl

theorem follows_leaveBlock (hexec : Executes s σ i) (hjumps : Jumps i.opcode) {depth : Nat}
    (hdepth : depth = σ.depth - i.opcode.stackIn) {following : List Nat}
    (hfollowing : ∀ dst, dst ∈ following ↔ i.opcode.role ≠ .jump ∧ dst = i.next) :
    Follows s σ visits (leaveBlock s σ.pc (σ.items.headD .unknown) depth following
      ((σ.pc, σ.depth) :: visits)) := by
  have hrec : Recorded s.code σ.pc := ⟨i, hexec.decodes, hexec.not_terminator⟩
  have hstuck (ρ : State) : ¬ Straight s σ ρ := by
    rintro ⟨j, hj, hnot, _⟩
    exact hnot (decodeAt_unique hexec.decodes hj.decodes ▸ hjumps)
  have hbehind (hrole : i.opcode.role ≠ .jump) :
      arrive s.code i.next (behind i σ.items) = .blank i.next depth := by
    rw [arrive_behind_of_branch s.code (hjumps.resolve_left hrole), hdepth]
    rfl
  unfold leaveBlock
  -- Without targets the jump faults; else it goes to each of them, and a branch goes on as well.
  cases htargets : s.targets σ.pc (σ.items.headD .unknown) with
  | nil =>
    have hnone : targetsAt s σ = [] := htargets
    refine follows_of_stuck hstuck (fun v => ?_) (fun x => ?_) fun e => ?_
    · simp [hrec, or_comm]
    · obtain ⟨kind, pc⟩ := x
      rw [faults_iff_of_executes hexec, Option.some.injEq, Fault.mk.injEq]
      constructor
      · rintro ⟨rfl, rfl⟩
        exact ⟨⟨rfl, hjumps, hnone⟩, rfl⟩
      · rintro ⟨⟨rfl, _⟩, rfl⟩
        exact ⟨rfl, rfl⟩
    · rw [step_iff hexec.decodes]
      simp only [hnone, List.not_mem_nil, false_and, exists_false, and_false, false_or, ne_eq,
        not_true, imp_false, false_iff]
      rintro ⟨_, hrole, hbranch, _⟩
      exact hjumps.elim hrole hbranch
  | cons d ds =>
    have hsome : targetsAt s σ = d :: ds := htargets
    have hne : targetsAt s σ ≠ [] := by simp [hsome]
    refine follows_of_stuck hstuck (fun v => ?_) (fun x => ?_) fun e => ?_
    · simp [hrec, or_comm]
    · simp [faults_iff_of_executes hexec, hne]
    · rw [step_iff hexec.decodes]
      simp only [List.mem_map, List.mem_append, ← hsome, hfollowing]
      constructor
      · rintro ⟨dst, hdst | ⟨hrole, rfl⟩, rfl⟩
        · exact ⟨hexec, .inl ⟨hjumps, dst, hdst, by rw [← hdepth]; rfl⟩⟩
        · exact ⟨hexec, .inr ⟨hrole, fun _ => hne, (hbehind hrole).symm⟩⟩
      · rintro ⟨_, ⟨_, dst, hdst, he⟩ | ⟨hrole, _, he⟩⟩
        · rw [← hdepth, ofEntry_eq_blank_iff] at he
          exact ⟨dst, .inl hdst, he.symm⟩
        · rw [hbehind hrole, ofEntry_eq_blank_iff] at he
          exact ⟨i.next, .inr ⟨hrole, rfl⟩, he.symm⟩

theorem follows_refused {kind : FaultKind} (hd : decodeAt s.code σ.pc = .ok i)
    (hexec : ¬ Executes s σ i) (hfaults : ∀ k, Faults s σ k ↔ k = kind)
    (hvisits : ∀ v, v ∈ w.visits ↔ v ∈ visits ∨ Recorded s.code σ.pc ∧ v = (σ.pc, σ.depth))
    (hfault : w.fault = some ⟨kind, σ.pc⟩) (hexits : w.exits = []) : Follows s σ visits w := by
  have hstep (τ : State) : ¬ Step s σ τ := fun h => hexec ((step_iff hd).mp h).1
  refine follows_of_stuck (not_straight_of_not_step hstep) hvisits (fun x => ?_) fun e => ?_
  · obtain ⟨k, pc⟩ := x
    rw [hfault, hfaults, Option.some.injEq, Fault.mk.injEq]
    constructor
    · rintro ⟨rfl, rfl⟩
      exact ⟨rfl, rfl⟩
    · rintro ⟨rfl, rfl⟩
      exact ⟨rfl, rfl⟩
  · simp [hexits, hstep]

theorem follows_terminator (hd : decodeAt s.code σ.pc = .ok i)
    (hterm : i.opcode.isTerminator = true) : Follows s σ visits
      ⟨visits, if σ.depth < i.opcode.stackIn then some ⟨.underflow, σ.pc⟩ else none, []⟩ := by
  have hrec : ¬ Recorded s.code σ.pc := by simp [recorded_iff hd, hterm]
  have hnot : ¬ Executes s σ i := by simp [executes_iff hd, hterm]
  have hfaults (kind : FaultKind) : Faults s σ kind ↔
      kind = .underflow ∧ σ.depth < i.opcode.stackIn := by
    simp [faults_iff hd, hnot, hterm]
  by_cases hneeds : σ.depth < i.opcode.stackIn
  · refine follows_refused hd hnot (fun k => ?_) (fun v => ?_) (if_pos hneeds) rfl
    · simp [hfaults, hneeds]
    · simp [hrec]
  · have hstep (τ : State) : ¬ Step s σ τ := fun h => hnot ((step_iff hd).mp h).1
    refine follows_of_stuck (not_straight_of_not_step hstep) (fun v => ?_) (fun x => ?_) fun e => ?_
    · simp [hrec]
    · simp [hfaults, hneeds]
    · simp [hstep]

/-- The walk at an instruction that is executed and is no jump goes on behind it, unless another
block begins there. -/
theorem follows_passed (hs : Analysed s) (hexec : Executes s σ i) (hjumps : ¬ Jumps i.opcode)
    (hle : entry ≤ σ.pc)
    (hrest : ¬ marked s.code i.next → Follows s ⟨i.next, behind i σ.items⟩
      ((σ.pc, σ.depth) :: visits)
      (walkBlock s entry i.next (behind i σ.items) ((σ.pc, σ.depth) :: visits))) :
    Follows s σ visits
      (walkBlock s entry i.next (behind i σ.items) ((σ.pc, σ.depth) :: visits)) := by
  have hd := hexec.decodes
  have hnext := lt_next_of_decodeAt hd
  have hrec : Recorded s.code σ.pc := ⟨i, hd, hexec.not_terminator⟩
  have hnofault (kind : FaultKind) : ¬ Faults s σ kind := by
    simp [faults_iff_of_executes hexec, hjumps]
  have honly (τ : State) : Step s σ τ ↔ τ = arrive s.code i.next (behind i σ.items) :=
    step_iff_of_not_jumps hexec hjumps
  -- Another block begins behind the instruction, or this one goes on.
  by_cases hmark : marked s.code i.next
  · have hwalk : walkBlock s entry i.next (behind i σ.items) ((σ.pc, σ.depth) :: visits) =
        ⟨(σ.pc, σ.depth) :: visits, none, [⟨i.next, (behind i σ.items).length⟩]⟩ :=
      walkBlock_of_marked (σ := ⟨i.next, behind i σ.items⟩) hs hmark
        (Nat.ne_of_gt (Nat.lt_of_le_of_lt hle hnext))
    rw [hwalk]
    refine follows_of_stuck ?_ (fun v => ?_) (fun x => ?_) fun e => ?_
    · rintro ρ ⟨j, hj, _, _, hout⟩
      exact hout (decodeAt_unique hd hj.decodes ▸ hmark)
    · simp [hrec, or_comm]
    · simp [hnofault]
    · rw [honly, arrive_of_marked hmark, ofEntry_eq_blank_iff, List.mem_singleton]
  · have hstraight : Straight s σ ⟨i.next, behind i σ.items⟩ := ⟨i, hexec, hjumps, rfl, hmark⟩
    refine follows_of_straight hstraight hrec hnofault ?_ (hrest hmark)
    intro τ hτ
    rw [(honly τ).mp hτ, arrive_of_not_marked hmark]

theorem walkBlock_follows (hs : Analysed s) (hentry : marked s.code σ.pc → σ.pc = entry)
    (hle : entry ≤ σ.pc) :
    Follows s σ visits (walkBlock s entry σ.pc σ.items visits) := by
  -- Induction on the bytes behind the state. The cases are those of the walk, in its order.
  induction hn : s.code.size - σ.pc using Nat.strongRecOn generalizing σ visits with
  | ind n ih =>
    by_cases hend : s.code.size ≤ σ.pc
    · have hd := decodeAt_of_end hend
      have hstep (τ : State) : ¬ Step s σ τ := not_step_of_error hd
      rw [walkBlock_of_end hend]
      refine follows_of_stuck (not_straight_of_not_step hstep) (fun v => ?_) (fun x => ?_)
        fun e => ?_
      · simp [not_recorded_of_error hd]
      · simp [not_faults_of_end hend]
      · simp [hstep]
    have hlt : σ.pc < s.code.size := Nat.not_le.mp hend
    cases hd : decodeAt s.code σ.pc with
    | error e =>
      have hstep (τ : State) : ¬ Step s σ τ := not_step_of_error hd
      rw [walkBlock_of_error hlt hd]
      refine follows_of_stuck (not_straight_of_not_step hstep) (fun v => ?_) (fun x => ?_)
        fun e => ?_
      · simp [not_recorded_of_error hd]
      · obtain ⟨kind, pc⟩ := x
        simp only [faults_iff_of_error hlt hd, Option.some.injEq, Fault.mk.injEq, eq_comm]
      · simp [hstep]
    | ok i =>
      rw [walkBlock_of_ok hd hentry]
      by_cases hterm : i.opcode.isTerminator = true
      · rw [if_pos hterm]
        exact follows_terminator hd hterm
      have hnoted (v : Nat × Nat) : v ∈ (σ.pc, σ.depth) :: visits ↔
          v ∈ visits ∨ Recorded s.code σ.pc ∧ v = (σ.pc, σ.depth) := by
        simp [recorded_iff hd, hterm, or_comm]
      rw [if_neg hterm]
      by_cases hneeds : σ.depth < i.opcode.stackIn
      · rw [if_pos hneeds]
        have hnot : ¬ Executes s σ i := fun h => absurd h.needs (Nat.not_le.mpr hneeds)
        refine follows_refused hd hnot (fun k => ?_) hnoted rfl rfl
        simp [faults_iff hd, hnot, hneeds, Nat.not_le.mpr hneeds]
      rw [if_neg hneeds]
      by_cases hroom : s.limit < σ.depth - i.opcode.stackIn + i.opcode.stackOut
      · rw [if_pos hroom]
        have hnot : ¬ Executes s σ i := fun h => absurd h.room (Nat.not_le.mpr hroom)
        refine follows_refused hd hnot (fun k => ?_) hnoted rfl rfl
        simp [faults_iff hd, hnot, hneeds, hroom, hterm, Nat.not_lt.mp hneeds]
      rw [if_neg hroom]
      have hexec : Executes s σ i :=
        ⟨hd, Bool.eq_false_iff.mpr hterm, Nat.not_lt.mp hneeds, Nat.not_lt.mp hroom⟩
      have hrest (hmark : ¬ marked s.code i.next) : Follows s ⟨i.next, behind i σ.items⟩
          ((σ.pc, σ.depth) :: visits)
          (walkBlock s entry i.next (behind i σ.items) ((σ.pc, σ.depth) :: visits)) := by
        have hnext := lt_next_of_decodeAt hd
        exact ih (s.code.size - i.next) (by omega) (σ := ⟨i.next, behind i σ.items⟩)
          (fun h => absurd h hmark) (Nat.le_of_lt (Nat.lt_of_le_of_lt hle hnext)) rfl
      cases hrole : i.opcode.role with
      | jump =>
        have hin : i.opcode.stackIn = 1 := by rw [Opcode.role_eq_jump_iff.mp hrole]; rfl
        exact follows_leaveBlock hexec (.inl hrole) (by rw [hin]) (by simp [hrole])
      | branch =>
        have hin : i.opcode.stackIn = 2 := by rw [Opcode.role_eq_branch_iff.mp hrole]; rfl
        exact follows_leaveBlock hexec (.inr hrole) (by rw [hin]) (by simp [hrole])
      | mark => exact follows_passed hs hexec (by simp [Jumps, hrole]) hle hrest
      | compute a => exact follows_passed hs hexec (by simp [Jumps, hrole]) hle hrest

end Record

end StackMachine.Exploration
