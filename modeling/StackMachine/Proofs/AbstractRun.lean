import StackMachine.Exploration
import StackMachine.Proofs.Boundary
import StackMachine.Proofs.StackAction

namespace StackMachine.Exploration

structure State where
  pc : Nat
  items : List AbstractValue

def State.depth (σ : State) : Nat := σ.items.length

def State.blank (pc depth : Nat) : State := ⟨pc, List.replicate depth .unknown⟩

def State.ofEntry (e : BlockEntry) : State := .blank e.pc e.depth

@[simp] theorem State.depth_blank (pc depth : Nat) : (State.blank pc depth).depth = depth := by
  simp [State.depth, State.blank]

def marked (code : Code) (pc : Nat) : Prop := opcodeAt? code pc = some .jumpdest

instance (code : Code) (pc : Nat) : Decidable (marked code pc) :=
  inferInstanceAs (Decidable (_ = _))

/-- The state in which a path arrives at an offset. A `JUMPDEST` may be reached from elsewhere. -/
def arrive (code : Code) (pc : Nat) (items : List AbstractValue) : State :=
  if marked code pc then .blank pc items.length else ⟨pc, items⟩

def behind (i : Instr) (items : List AbstractValue) : List AbstractValue :=
  match i.opcode.role with
  | .compute a => a.onList .unknown (literal i) items
  | .mark => items
  | _ => List.replicate (items.length - i.opcode.stackIn) .unknown

/-- The instruction at a state is executed: it decodes, it finds its items and there is room. -/
structure Executes (s : Subject) (σ : State) (i : Instr) : Prop where
  decodes : decodeAt s.code σ.pc = .ok i
  not_terminator : i.opcode.isTerminator = false
  needs : i.opcode.stackIn ≤ σ.depth
  room : σ.depth - i.opcode.stackIn + i.opcode.stackOut ≤ s.limit

/-- Where a jump that pops its destination from the top may go; nowhere if that is not safe. -/
def targetsAt (s : Subject) (σ : State) : List Nat := s.targets σ.pc (σ.items.headD .unknown)

def Jumps (op : Opcode) : Prop := op.role = .jump ∨ op.role = .branch

inductive Step (s : Subject) (σ : State) : State → Prop where
  | jump {i : Instr} {dst : Nat} : Executes s σ i → Jumps i.opcode → dst ∈ targetsAt s σ →
      Step s σ (.blank dst (σ.depth - i.opcode.stackIn))
  | next {i : Instr} : Executes s σ i → i.opcode.role ≠ .jump →
      (i.opcode.role = .branch → targetsAt s σ ≠ []) →
      Step s σ (arrive s.code i.next (behind i σ.items))

inductive Faults (s : Subject) (σ : State) : FaultKind → Prop where
  | malformed {e : DecodeError} : σ.pc < s.code.size → decodeAt s.code σ.pc = .error e →
      Faults s σ .malformed
  | underflow {i : Instr} : decodeAt s.code σ.pc = .ok i → σ.depth < i.opcode.stackIn →
      Faults s σ .underflow
  | overflow {i : Instr} : decodeAt s.code σ.pc = .ok i → i.opcode.isTerminator = false →
      i.opcode.stackIn ≤ σ.depth → s.limit < σ.depth - i.opcode.stackIn + i.opcode.stackOut →
      Faults s σ .overflow
  | badTarget {i : Instr} : Executes s σ i → Jumps i.opcode → targetsAt s σ = [] →
      Faults s σ .badTarget

inductive Reachable (s : Subject) : State → Prop where
  | start : Reachable s ⟨0, []⟩
  | step {σ τ : State} : Reachable s σ → Step s σ τ → Reachable s τ

/-- The offset holds an instruction whose depths are kept. -/
def Recorded (code : Code) (pc : Nat) : Prop :=
  ∃ i, decodeAt code pc = .ok i ∧ i.opcode.isTerminator = false

/-- The valid destinations of the subject are those of its code. -/
structure Analysed (s : Subject) : Prop where
  jumpDests_eq : s.jumpDests = JumpDests.ofCode s.code
  size_le : s.code.size ≤ maxOffset

def subject (code : Code) (tables : JumpTables) (limit : Nat) : Subject :=
  ⟨code, tables, JumpDests.ofCode code, limit⟩

theorem analysed_subject {code : Code} {tables : JumpTables} {limit : Nat}
    (hcode : code.size ≤ maxOffset) : Analysed (subject code tables limit) :=
  ⟨rfl, hcode⟩

variable {s : Subject} {σ τ : State} {i : Instr}

section Arrival

theorem pc_arrive (code : Code) (pc : Nat) (items : List AbstractValue) :
    (arrive code pc items).pc = pc := by
  unfold arrive
  split <;> rfl

theorem depth_arrive (code : Code) (pc : Nat) (items : List AbstractValue) :
    (arrive code pc items).depth = items.length := by
  unfold arrive
  split
  · exact State.depth_blank _ _
  · rfl

theorem arrive_of_marked {code : Code} {pc : Nat} (h : marked code pc)
    (items : List AbstractValue) : arrive code pc items = .blank pc items.length :=
  if_pos h

theorem arrive_of_not_marked {code : Code} {pc : Nat} (h : ¬ marked code pc)
    (items : List AbstractValue) : arrive code pc items = ⟨pc, items⟩ :=
  if_neg h

theorem marked_iff {code : Code} {pc : Nat} (hd : decodeAt code pc = .ok i) :
    marked code pc ↔ i.opcode = .jumpdest :=
  opcodeAt?_eq_iff hd

theorem items_arrive {code : Code} {pc : Nat} (hd : decodeAt code pc = .ok i)
    (hop : i.opcode ≠ .jumpdest) (items : List AbstractValue) :
    (arrive code pc items).items = items := by
  rw [arrive_of_not_marked]
  exact fun hmark => hop ((marked_iff hd).mp hmark)

theorem arrive_replicate (code : Code) (pc depth : Nat) :
    arrive code pc (List.replicate depth .unknown) = .blank pc depth := by
  unfold arrive
  split
  · rw [List.length_replicate]
  · rfl

theorem length_behind {items : List AbstractValue} (h : i.opcode.stackIn ≤ items.length) :
    (behind i items).length = items.length - i.opcode.stackIn + i.opcode.stackOut := by
  unfold behind
  split
  next a hrole =>
    have heff := Opcode.effect_of_role hrole
    rw [StackAction.length_onList _ _ (by rw [heff]; exact h), heff]
    rfl
  next hrole =>
    rw [Opcode.role_eq_mark_iff.mp hrole]
    rfl
  next hcompute hmark =>
    rw [List.length_replicate]
    have hop : i.opcode.stackOut = 0 := by
      cases hrole : i.opcode.role with
      | jump => rw [Opcode.role_eq_jump_iff.mp hrole]; rfl
      | branch => rw [Opcode.role_eq_branch_iff.mp hrole]; rfl
      | mark => exact absurd hrole hmark
      | compute a => exact absurd hrole (hcompute a)
    rw [hop, Nat.add_zero]

theorem arrive_behind_of_branch (code : Code) (hrole : i.opcode.role = .branch)
    (items : List AbstractValue) :
    arrive code i.next (behind i items) = .blank i.next (items.length - i.opcode.stackIn) := by
  simp only [behind, hrole]
  exact arrive_replicate _ _ _

end Arrival

theorem isValid_of_mem_targets {pc dst : Nat} {v : AbstractValue} (h : dst ∈ s.targets pc v) :
    s.jumpDests.isValid dst = true := by
  unfold Subject.targets at h
  split at h
  · split at h
    next hvalid =>
      rw [List.mem_singleton.mp h]
      exact hvalid
    · simp at h
  · simp at h
  · dsimp only at h
    split at h
    next hall => exact List.all_eq_true.mp hall dst h
    · simp at h

namespace Step

theorem depth_le (h : Step s σ τ) : τ.depth ≤ max s.limit σ.depth := by
  cases h with
  | jump hexec =>
    rw [State.depth_blank]
    omega
  | next hexec =>
    rw [depth_arrive, length_behind hexec.needs]
    have := hexec.room
    change σ.depth - _ + _ ≤ _
    omega

theorem isJumpDest_or_next (hs : Analysed s) (h : Step s σ τ) :
    IsJumpDest s.code τ.pc ∨
      ∃ i, Executes s σ i ∧ i.opcode.role ≠ .jump ∧
        τ = arrive s.code i.next (behind i σ.items) := by
  cases h with
  | jump _ _ hdst =>
    have hvalid := isValid_of_mem_targets hdst
    rw [hs.jumpDests_eq] at hvalid
    exact .inl ((JumpDests.isValid_iff hs.size_le).mp hvalid)
  | next hexec hrole => exact .inr ⟨_, hexec, hrole, rfl⟩

end Step

theorem marked_of_isJumpDest {code : Code} {pc : Nat} (h : IsJumpDest code pc) : marked code pc :=
  opcodeAt?_eq_jumpdest_iff.mpr h.2

namespace Reachable

theorem depth_le (h : Reachable s σ) : σ.depth ≤ s.limit := by
  induction h with
  | start => exact Nat.zero_le _
  | step _ hstep ih => exact Nat.le_trans hstep.depth_le (Nat.max_le.mpr ⟨Nat.le_refl _, ih⟩)

theorem boundary (hs : Analysed s) (h : Reachable s σ) : Boundary s.code σ.pc := by
  induction h with
  | start => exact .zero
  | step _ hstep ih =>
    obtain hdest | ⟨i, hexec, _, rfl⟩ := hstep.isJumpDest_or_next hs
    · exact hdest.1
    · rw [pc_arrive]
      exact ih.next hexec.decodes

theorem pc_le (h : Reachable s σ) (hs : Analysed s) : σ.pc ≤ s.code.size := by
  cases h with
  | start => exact Nat.zero_le _
  | step _ hstep =>
    obtain hdest | ⟨i, hexec, _, rfl⟩ := hstep.isJumpDest_or_next hs
    · exact Nat.le_of_lt hdest.lt_size
    · rw [pc_arrive]
      exact decodeAt_next_le hexec.decodes

theorem eq_blank (h : Reachable s σ) (hmark : marked s.code σ.pc) :
    σ = .blank σ.pc σ.depth := by
  cases h with
  | start => rfl
  | step _ hstep =>
    cases hstep with
    | jump => rw [State.depth_blank]; rfl
    | next =>
      rw [pc_arrive] at hmark ⊢
      rw [depth_arrive, arrive_of_marked hmark]

theorem predecessor (hs : Analysed s) (h : Reachable s σ) (hmark : ¬ marked s.code σ.pc) :
    σ = ⟨0, []⟩ ∨ ∃ ρ i, Reachable s ρ ∧ Executes s ρ i ∧ σ = ⟨i.next, behind i ρ.items⟩ := by
  cases h with
  | start => exact .inl rfl
  | @step ρ _ hρ hstep =>
    obtain hdest | ⟨i, hexec, _, rfl⟩ := hstep.isJumpDest_or_next hs
    · exact absurd (marked_of_isJumpDest hdest) hmark
    · rw [pc_arrive] at hmark
      exact .inr ⟨ρ, i, hρ, hexec, arrive_of_not_marked hmark _⟩

/-- Offset and depth determine a reachable state: only a `JUMPDEST` is reached from more than one
place, and there the depth is all there is to know. -/
theorem ext (hs : Analysed s) (hσ : Reachable s σ) (hτ : Reachable s τ) (hpc : σ.pc = τ.pc)
    (hdepth : σ.depth = τ.depth) : σ = τ := by
  induction hn : σ.pc using Nat.strongRecOn generalizing σ τ with
  | ind n ih =>
    by_cases hmark : marked s.code σ.pc
    · rw [hσ.eq_blank hmark, hτ.eq_blank (hpc ▸ hmark), hpc, hdepth]
    -- Elsewhere both come from the instruction in front, and that is the same one.
    obtain rfl | ⟨ρ, i, hρ, hi, rfl⟩ := hσ.predecessor hs hmark <;>
      obtain rfl | ⟨ρ', j, hρ', hj, rfl⟩ := hτ.predecessor hs (hpc ▸ hmark)
    · rfl
    · have := lt_next_of_decodeAt hj.decodes
      simp only at hpc
      omega
    · have := lt_next_of_decodeAt hi.decodes
      simp only at hpc
      omega
    · have hfollow : follow s.code ρ.pc = follow s.code ρ'.pc := by
        rw [follow_of_decodeAt hi.decodes, follow_of_decodeAt hj.decodes]
        exact hpc
      have hpred := (hρ.boundary hs).eq_of_follow_eq (hρ'.boundary hs) hfollow
      obtain rfl : i = j := decodeAt_unique (hpred ▸ hi.decodes) hj.decodes
      have hlen : ρ.depth = ρ'.depth := by
        simp only [State.depth] at hdepth
        rw [length_behind hi.needs, length_behind hj.needs] at hdepth
        have h1 := hi.needs
        have h2 := hj.needs
        simp only [State.depth] at h1 h2 ⊢
        omega
      have hlt : ρ.pc < n := by
        rw [← hn]
        exact lt_next_of_decodeAt hi.decodes
      rw [ih ρ.pc hlt hρ hρ' hpred hlen rfl]

end Reachable

section Decoded

variable {kind : FaultKind}

theorem executes_iff (hd : decodeAt s.code σ.pc = .ok i) : Executes s σ i ↔
    i.opcode.isTerminator = false ∧ i.opcode.stackIn ≤ σ.depth ∧
      σ.depth - i.opcode.stackIn + i.opcode.stackOut ≤ s.limit :=
  ⟨fun h => ⟨h.not_terminator, h.needs, h.room⟩, fun h => ⟨hd, h.1, h.2.1, h.2.2⟩⟩

theorem faults_iff (hd : decodeAt s.code σ.pc = .ok i) : Faults s σ kind ↔
    kind = .underflow ∧ σ.depth < i.opcode.stackIn ∨
    kind = .overflow ∧ i.opcode.isTerminator = false ∧ i.opcode.stackIn ≤ σ.depth ∧
      s.limit < σ.depth - i.opcode.stackIn + i.opcode.stackOut ∨
    kind = .badTarget ∧ Executes s σ i ∧ Jumps i.opcode ∧ targetsAt s σ = [] := by
  constructor
  · rintro (⟨_, he⟩ | ⟨hj, hlt⟩ | ⟨hj, hterm, hneeds, hlt⟩ | ⟨hj, hjumps, hnone⟩)
    · exact absurd hd (decodeAt_ne_ok he i)
    · obtain rfl := decodeAt_unique hd hj
      exact .inl ⟨rfl, hlt⟩
    · obtain rfl := decodeAt_unique hd hj
      exact .inr (.inl ⟨rfl, hterm, hneeds, hlt⟩)
    · obtain rfl := decodeAt_unique hd hj.decodes
      exact .inr (.inr ⟨rfl, hj, hjumps, hnone⟩)
  · rintro (⟨rfl, hlt⟩ | ⟨rfl, hterm, hneeds, hlt⟩ | ⟨rfl, hexec, hjumps, hnone⟩)
    · exact .underflow hd hlt
    · exact .overflow hd hterm hneeds hlt
    · exact .badTarget hexec hjumps hnone

theorem executes_of_faultless (hd : decodeAt s.code σ.pc = .ok i)
    (hterm : i.opcode.isTerminator = false) (hgood : ∀ kind, ¬ Faults s σ kind) :
    Executes s σ i ∧ (Jumps i.opcode → targetsAt s σ ≠ []) := by
  have hneeds : i.opcode.stackIn ≤ σ.depth :=
    Nat.le_of_not_lt fun hlt => hgood .underflow (.underflow hd hlt)
  have hroom : σ.depth - i.opcode.stackIn + i.opcode.stackOut ≤ s.limit :=
    Nat.le_of_not_lt fun hlt => hgood .overflow (.overflow hd hterm hneeds hlt)
  have hexec : Executes s σ i := ⟨hd, hterm, hneeds, hroom⟩
  exact ⟨hexec, fun hjumps hnone => hgood .badTarget (.badTarget hexec hjumps hnone)⟩

theorem faults_iff_of_executes (h : Executes s σ i) : Faults s σ kind ↔
    kind = .badTarget ∧ Jumps i.opcode ∧ targetsAt s σ = [] := by
  rw [faults_iff h.decodes]
  constructor
  · rintro (⟨_, hlt⟩ | ⟨_, _, _, hlt⟩ | ⟨hkind, _, hbad⟩)
    · exact absurd h.needs (Nat.not_le.mpr hlt)
    · exact absurd h.room (Nat.not_le.mpr hlt)
    · exact ⟨hkind, hbad⟩
  · rintro ⟨hkind, hbad⟩
    exact .inr (.inr ⟨hkind, h, hbad⟩)

theorem step_iff (hd : decodeAt s.code σ.pc = .ok i) : Step s σ τ ↔ Executes s σ i ∧
    (Jumps i.opcode ∧ (∃ dst ∈ targetsAt s σ, τ = .blank dst (σ.depth - i.opcode.stackIn)) ∨
      i.opcode.role ≠ .jump ∧ (i.opcode.role = .branch → targetsAt s σ ≠ []) ∧
        τ = arrive s.code i.next (behind i σ.items)) := by
  constructor
  · rintro (⟨hj, hjumps, hdst⟩ | ⟨hj, hrole, hgood⟩)
    · obtain rfl := decodeAt_unique hd hj.decodes
      exact ⟨hj, .inl ⟨hjumps, _, hdst, rfl⟩⟩
    · obtain rfl := decodeAt_unique hd hj.decodes
      exact ⟨hj, .inr ⟨hrole, hgood, rfl⟩⟩
  · rintro ⟨hexec, ⟨hjumps, dst, hdst, rfl⟩ | ⟨hrole, hgood, rfl⟩⟩
    · exact .jump hexec hjumps hdst
    · exact .next hexec hrole hgood

theorem step_iff_of_jump (h : Executes s σ i) (hrole : i.opcode.role = .jump) : Step s σ τ ↔
    ∃ dst ∈ targetsAt s σ, τ = .blank dst (σ.depth - i.opcode.stackIn) := by
  rw [step_iff h.decodes]
  constructor
  · rintro ⟨_, ⟨_, hdst⟩ | ⟨hne, _⟩⟩
    · exact hdst
    · exact absurd hrole hne
  · exact fun hdst => ⟨h, .inl ⟨.inl hrole, hdst⟩⟩

theorem step_iff_of_branch (h : Executes s σ i) (hrole : i.opcode.role = .branch)
    (hgood : targetsAt s σ ≠ []) : Step s σ τ ↔
      τ = .blank i.next (σ.depth - i.opcode.stackIn) ∨
        ∃ dst ∈ targetsAt s σ, τ = .blank dst (σ.depth - i.opcode.stackIn) := by
  have hnext : arrive s.code i.next (behind i σ.items) =
      .blank i.next (σ.depth - i.opcode.stackIn) := arrive_behind_of_branch s.code hrole σ.items
  rw [step_iff h.decodes, hnext]
  constructor
  · rintro ⟨_, ⟨_, hdst⟩ | ⟨_, _, hτ⟩⟩
    · exact .inr hdst
    · exact .inl hτ
  · rintro (hτ | hdst)
    · exact ⟨h, .inr ⟨by rw [hrole]; simp, fun _ => hgood, hτ⟩⟩
    · exact ⟨h, .inl ⟨.inr hrole, hdst⟩⟩

theorem step_iff_of_not_jumps (h : Executes s σ i) (hrole : ¬ Jumps i.opcode) :
    Step s σ τ ↔ τ = arrive s.code i.next (behind i σ.items) := by
  rw [step_iff h.decodes]
  constructor
  · rintro ⟨_, ⟨hjumps, _⟩ | ⟨_, _, hτ⟩⟩
    · exact absurd hjumps hrole
    · exact hτ
  · exact fun hτ => ⟨h, .inr ⟨fun hj => hrole (.inl hj), fun hb => absurd (.inr hb) hrole, hτ⟩⟩

theorem not_step_of_error {e : DecodeError} (hd : decodeAt s.code σ.pc = .error e) :
    ¬ Step s σ τ := by
  rintro (⟨hj, _⟩ | ⟨hj, _⟩) <;> exact decodeAt_ne_ok hd _ hj.decodes

theorem faults_iff_of_error {e : DecodeError} (hlt : σ.pc < s.code.size)
    (hd : decodeAt s.code σ.pc = .error e) : Faults s σ kind ↔ kind = .malformed := by
  constructor
  · rintro (_ | ⟨hj, _⟩ | ⟨hj, _⟩ | ⟨hj, _⟩)
    · rfl
    · exact absurd hj (decodeAt_ne_ok hd _)
    · exact absurd hj (decodeAt_ne_ok hd _)
    · exact absurd hj.decodes (decodeAt_ne_ok hd _)
  · rintro rfl
    exact .malformed hlt hd

theorem not_faults_of_end (h : s.code.size ≤ σ.pc) : ¬ Faults s σ kind := by
  have hd := decodeAt_of_end h
  rintro (⟨hlt, _⟩ | ⟨hj, _⟩ | ⟨hj, _⟩ | ⟨hj, _⟩)
  · omega
  · exact decodeAt_ne_ok hd _ hj
  · exact decodeAt_ne_ok hd _ hj
  · exact decodeAt_ne_ok hd _ hj.decodes

end Decoded

section Records

variable {code : Code} {pc : Nat}

theorem recorded_iff (hd : decodeAt code pc = .ok i) :
    Recorded code pc ↔ i.opcode.isTerminator = false := by
  constructor
  · rintro ⟨j, hj, hterm⟩
    exact decodeAt_unique hj hd ▸ hterm
  · exact fun hterm => ⟨i, hd, hterm⟩

theorem not_recorded_of_error {e : DecodeError} (hd : decodeAt code pc = .error e) :
    ¬ Recorded code pc := by
  rintro ⟨j, hj, _⟩
  exact decodeAt_ne_ok hd j hj

end Records

end StackMachine.Exploration
