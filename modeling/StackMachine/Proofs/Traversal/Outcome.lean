import StackMachine.Proofs.AbstractRun
import StackMachine.Proofs.Traversal.Step

namespace StackMachine

open Exploration

def AbstractValue.ofSlot : SlotValue → AbstractValue
  | .unknown => .unknown
  | .constant c => .const c.value

theorem AbstractValue.ofSlot_literal (i : Instr) : ofSlot i.literal = literal i := by
  cases hop : i.opcode <;> simp [Instr.literal, literal, hop, ofSlot]

namespace Setting

def subject (g : Setting) (limit : Nat) : Subject := ⟨g.code, g.tables, g.jumpDests, limit⟩

end Setting

/-- The destination `v` of the jump at `pc` is not known to be valid, for the reason given. -/
inductive BadTarget (s : Subject) (pc : Nat) : AbstractValue → JumpTarget → Prop where
  | static {value : Option Nat} : (∀ dst, value = some dst → s.jumpDests.isValid dst = false) →
      BadTarget s pc (.const value) (.static value)
  | unlisted : (s.tables.lookup pc).destinations = [] → BadTarget s pc .unknown .unlisted
  | listed {before after : List (TableKind × Nat)} {table : TableKind} {dst : Nat} :
      (s.tables.lookup pc).destinations = before ++ (table, dst) :: after →
      (∀ d ∈ before, s.jumpDests.isValid d.2 = true) → s.jumpDests.isValid dst = false →
      BadTarget s pc .unknown (.listed table dst)

section Resolution

variable {g : Setting} {pc : Nat} {v : SlotValue} (limit : Nat)

theorem targets_of_resolve_ok {route : Setting.Route} (h : g.resolve pc v = .ok route) :
    (g.subject limit).targets pc (.ofSlot v) = route.destinations ∧ route.destinations ≠ [] := by
  unfold Setting.resolve at h
  unfold Subject.targets AbstractValue.ofSlot
  cases v with
  | constant c =>
    cases hvalue : c.value with
    | none => simp [hvalue] at h
    | some dst =>
      simp only [hvalue] at h ⊢
      by_cases hvalid : g.jumpDests.isValid dst = true
      · rw [if_pos hvalid] at h
        obtain rfl := Except.ok.inj h
        exact ⟨if_pos hvalid, List.cons_ne_nil _ _⟩
      · rw [if_neg hvalid] at h
        cases h
  | unknown =>
    dsimp only at h ⊢
    cases hnone : (g.tables.lookup pc).destinations with
    | nil => simp [hnone] at h
    | cons d rest =>
      rw [hnone, if_neg (by simp)] at h
      cases hfind : (d :: rest).find? fun d => !g.jumpDests.isValid d.2 with
      | some bad => simp [hfind] at h
      | none =>
        rw [hfind] at h
        obtain rfl := Except.ok.inj h
        have hall : ((d :: rest).map Prod.snd).all g.jumpDests.isValid = true := by
          simpa using hfind
        constructor
        · change (if ((g.tables.lookup pc).destinations.map Prod.snd).all g.jumpDests.isValid
            then (g.tables.lookup pc).destinations.map Prod.snd else []) = _
          rw [hnone, if_pos hall]
          rfl
        · simp [Setting.Route.destinations]

theorem targets_of_resolve_error {x : JumpTarget} (h : g.resolve pc v = .error x) :
    (g.subject limit).targets pc (.ofSlot v) = [] ∧
      BadTarget (g.subject limit) pc (.ofSlot v) x := by
  unfold Setting.resolve at h
  cases v with
  | constant c =>
    cases hvalue : c.value with
    | none =>
      simp only [hvalue] at h
      obtain rfl := Except.error.inj h
      rw [AbstractValue.ofSlot, hvalue]
      exact ⟨rfl, .static fun dst hdst => by cases hdst⟩
    | some dst =>
      simp only [hvalue] at h
      by_cases hvalid : g.jumpDests.isValid dst = true
      · rw [if_pos hvalid] at h
        cases h
      · rw [if_neg hvalid] at h
        obtain rfl := Except.error.inj h
        rw [AbstractValue.ofSlot, hvalue]
        refine ⟨if_neg hvalid, .static fun dst' hdst => ?_⟩
        obtain rfl := Option.some.inj hdst
        exact Bool.eq_false_iff.mpr hvalid
  | unknown =>
    dsimp only at h
    cases hnone : (g.tables.lookup pc).destinations with
    | nil =>
      rw [hnone, if_pos List.isEmpty_nil] at h
      obtain rfl := Except.error.inj h
      refine ⟨?_, .unlisted hnone⟩
      simp [Subject.targets, AbstractValue.ofSlot, Setting.subject, hnone]
    | cons d rest =>
      rw [hnone, if_neg (by simp)] at h
      cases hfind : (d :: rest).find? fun d => !g.jumpDests.isValid d.2 with
      | none => simp [hfind] at h
      | some bad =>
        obtain ⟨table, dst⟩ := bad
        rw [hfind] at h
        obtain rfl := Except.error.inj h
        -- The error names the first listed destination that is not valid.
        obtain ⟨hbad, before, after, heq, hgood⟩ := List.find?_eq_some_iff_append.mp hfind
        have hbad' : g.jumpDests.isValid dst = false := by simpa using hbad
        constructor
        · change (if ((g.tables.lookup pc).destinations.map Prod.snd).all g.jumpDests.isValid
            then (g.tables.lookup pc).destinations.map Prod.snd else []) = _
          rw [hnone, heq]
          simp [hbad']
        · refine .listed (hnone.trans heq) (fun d hd => ?_) hbad'
          have hd' : g.jumpDests.isValid d.2 = true := by simpa using hgood d hd
          exact hd'

end Resolution

def Task.entry (k : Task) : State := .blank k.pc k.depth

namespace Traversal

variable {g : Setting} {t u : Traversal} {pc : Nat} {i : Instr} {code : Code}

/-- The abstract state of a path that is at `pc`. -/
def view (code : Code) (pc : Nat) (t : Traversal) : State :=
  Exploration.arrive code pc (t.stack.items.map .ofSlot)

/-- The abstract states that a traversal has still to look at. -/
inductive Awaits (code : Code) (t : Traversal) : State → Prop where
  | running {pc : Nat} : t.cursor = .running pc → Awaits code t (t.view code pc)
  | waiting {k : Task} : k ∈ t.work → Awaits code t k.entry

def Alive (t : Traversal) : Prop := ∀ e, t.cursor ≠ .rejected e

theorem alive_of_running (h : t.cursor = .running pc) : t.Alive := by
  rw [Alive, h]
  nofun

theorem alive_of_idle (h : t.cursor = .idle) : t.Alive := by
  rw [Alive, h]
  nofun

theorem alive_of_not_finished (hmore : t.isFinished = false) : t.Alive := by
  intro e hcursor
  rw [isFinished, hcursor] at hmore
  cases hmore

theorem Alive.idle_of_isFinished (h : t.Alive) (hdone : t.isFinished = true) :
    t.cursor = .idle ∧ t.work = [] := by
  cases hcursor : t.cursor with
  | rejected e => exact absurd hcursor (h e)
  | running pc =>
    rw [isFinished, hcursor] at hdone
    cases hdone
  | idle =>
    rw [isFinished, hcursor] at hdone
    exact ⟨rfl, List.isEmpty_iff.mp hdone⟩

theorem verdict_eq_error_iff {e : VerifyError} :
    t.verdict = .error e ↔ t.cursor = .rejected e := by
  cases hcursor : t.cursor <;> simp [verdict, hcursor]

theorem verdict_eq_ok_iff {m : DepthMemo} : t.verdict = .ok m ↔ t.Alive ∧ t.memo = m := by
  cases hcursor : t.cursor <;> simp [verdict, Alive, hcursor]

/-- What a rejection says about the state that caused it. -/
inductive Blames (s : Subject) (σ : State) : VerifyError → Prop where
  | malformed {e : DecodeError} : σ.pc < s.code.size → decodeAt s.code σ.pc = .error e →
      Blames s σ (.malformedInstruction σ.pc e)
  | underflow {i : Instr} : decodeAt s.code σ.pc = .ok i → σ.depth < i.opcode.stackIn →
      Blames s σ (.stackUnderflow σ.pc σ.depth i.opcode.stackIn)
  | overflow {i : Instr} : decodeAt s.code σ.pc = .ok i → i.opcode.isTerminator = false →
      i.opcode.stackIn ≤ σ.depth → s.limit < σ.depth - i.opcode.stackIn + i.opcode.stackOut →
      Blames s σ (.stackOverflow σ.pc σ.depth s.limit)
  | badTarget {i : Instr} {v : AbstractValue} {x : JumpTarget} : Executes s σ i →
      Jumps i.opcode → targetsAt s σ = [] → BadTarget s σ.pc v x →
      Blames s σ (.unreachableJumpTarget σ.pc x)

def faultKind? : VerifyError → Option FaultKind
  | .malformedInstruction _ _ => some .malformed
  | .stackUnderflow _ _ _ => some .underflow
  | .stackOverflow _ _ _ => some .overflow
  | .unreachableJumpTarget _ _ => some .badTarget
  | _ => none

theorem Blames.faults {s : Subject} {σ : State} {e : VerifyError} (h : Blames s σ e) :
    ∃ kind, faultKind? e = some kind ∧ Faults s σ kind := by
  cases h with
  | malformed hlt hd => exact ⟨_, rfl, .malformed hlt hd⟩
  | underflow hd hlt => exact ⟨_, rfl, .underflow hd hlt⟩
  | overflow hd hterm hneeds hlt => exact ⟨_, rfl, .overflow hd hterm hneeds hlt⟩
  | badTarget hexec hjumps hnone _ => exact ⟨_, rfl, .badTarget hexec hjumps hnone⟩

section Views

theorem pc_view (code : Code) (pc : Nat) (t : Traversal) : (t.view code pc).pc = pc :=
  pc_arrive _ _ _

theorem depth_view (code : Code) (pc : Nat) (t : Traversal) :
    (t.view code pc).depth = t.stack.depth := by
  rw [view, depth_arrive, List.length_map, SymbolicStack.length_items]

theorem view_of_items {n : Nat} (h : t.stack.items = List.replicate n .unknown) :
    t.view code pc = .blank pc n := by
  rw [view, h, List.map_replicate]
  exact arrive_replicate code pc n

theorem items_view (hd : decodeAt code pc = .ok i) (hop : i.opcode ≠ .jumpdest) :
    (t.view code pc).items = t.stack.items.map .ofSlot :=
  items_arrive hd hop _

theorem awaits_iff_of_running (h : u.cursor = .running pc) {τ : State} :
    Awaits code u τ ↔ τ = u.view code pc ∨ ∃ k ∈ u.work, τ = k.entry := by
  constructor
  · rintro (hq | hk)
    · rw [h] at hq
      obtain rfl := Cursor.running.inj hq
      exact .inl rfl
    · exact .inr ⟨_, hk, rfl⟩
  · rintro (rfl | ⟨k, hk, rfl⟩)
    · exact .running h
    · exact .waiting hk

theorem awaits_iff_of_idle (h : u.cursor = .idle) {τ : State} :
    Awaits code u τ ↔ ∃ k ∈ u.work, τ = k.entry := by
  constructor
  · rintro (hq | hk)
    · rw [h] at hq
      cases hq
    · exact ⟨_, hk, rfl⟩
  · rintro ⟨k, hk, rfl⟩
    exact .waiting hk

end Views

theorem targetsAt_view {limit : Nat} (hd : decodeAt g.code pc = .ok i)
    (hneeds : i.opcode.stackIn ≤ t.stack.depth) (hjumps : Jumps i.opcode) :
    targetsAt (g.subject limit) (t.view g.code pc) =
      (g.subject limit).targets pc (.ofSlot t.target) := by
  have hpos : 0 < i.opcode.stackIn ∧ i.opcode ≠ .jumpdest := by
    obtain hrole | hrole := hjumps
    · rw [Opcode.role_eq_jump_iff.mp hrole]
      decide
    · rw [Opcode.role_eq_branch_iff.mp hrole]
      decide
  have hhead (items : List SlotValue) :
      (items.map AbstractValue.ofSlot).headD .unknown = .ofSlot (items.headD .unknown) := by
    cases items <;> rfl
  rw [targetsAt, pc_view, items_view hd hpos.2, hhead, SymbolicStack.headD_items (by omega),
    target]

section Execution

variable {limit : Nat} (h : Runs g t pc i) (hlimit : t.stack.limit = limit)

include h hlimit

theorem Runs.executes : Executes (g.subject limit) (t.view g.code pc) i where
  decodes := by
    rw [pc_view]
    exact h.decodes
  not_terminator := h.not_terminator
  needs := by
    rw [depth_view]
    exact h.needs
  room := by
    rw [depth_view]
    exact hlimit ▸ h.room

theorem Runs.not_faults
    (hgood : Jumps i.opcode → targetsAt (g.subject limit) (t.view g.code pc) ≠ [])
    (kind : FaultKind) : ¬ Faults (g.subject limit) (t.view g.code pc) kind := by
  rw [faults_iff_of_executes (h.executes hlimit)]
  rintro ⟨_, hjumps, hnone⟩
  exact hgood hjumps hnone

omit hlimit in
theorem Runs.targetsAt_view (hjumps : Jumps i.opcode) :
    targetsAt (g.subject limit) (t.view g.code pc) =
      (g.subject limit).targets pc (.ofSlot t.target) :=
  Traversal.targetsAt_view h.decodes h.needs hjumps

end Execution

/-- What a step at `pc` comes to. -/
inductive Outcome (g : Setting) (limit : Nat) (t : Traversal) (pc : Nat) : Traversal → Prop where
  | ends {u : Traversal} : u.cursor = .idle → u.work = t.work → u.memo = t.memo →
      ¬ Recorded g.code pc → (∀ kind, ¬ Faults (g.subject limit) (t.view g.code pc) kind) →
      Outcome g limit t pc u
  /-- The state was looked at before. -/
  | revisits {u : Traversal} : u.cursor = .idle → u.work = t.work → u.memo = t.memo →
      t.memo.get? pc = some t.stack.depth → Outcome g limit t pc u
  | rejects {u : Traversal} {e : VerifyError} : u.cursor = .rejected e →
      Blames (g.subject limit) (t.view g.code pc) e → Outcome g limit t pc u
  | conflicts {u : Traversal} {recorded : Nat} :
      u.cursor = .rejected (.depthInconsistency pc recorded t.stack.depth) →
      Recorded g.code pc → t.memo.get? pc = some recorded → recorded ≠ t.stack.depth →
      Outcome g limit t pc u
  /-- All successors are awaited in place of the state. -/
  | expands {u : Traversal} {i : Instr} : Executes (g.subject limit) (t.view g.code pc) i →
      u.Alive → t.memo.get? pc = none → u.memo = t.memo.record pc t.stack.depth →
      (∀ kind, ¬ Faults (g.subject limit) (t.view g.code pc) kind) →
      (∀ τ, Awaits g.code u τ ↔
        Step (g.subject limit) (t.view g.code pc) τ ∨ ∃ k ∈ t.work, τ = k.entry) →
      Outcome g limit t pc u

section Outcomes

variable {limit : Nat}

theorem exists_mem_queue (dsts : List Nat) (t : Traversal) {τ : State} :
    (∃ k ∈ (t.queue dsts).work, τ = k.entry) ↔
      (∃ dst ∈ dsts, τ = .blank dst t.stack.depth) ∨ ∃ k ∈ t.work, τ = k.entry := by
  simp only [queue, List.mem_append, List.mem_map, List.mem_reverse]
  constructor
  · rintro ⟨k, ⟨dst, hdst, rfl⟩ | hk, rfl⟩
    · exact .inl ⟨dst, hdst, rfl⟩
    · exact .inr ⟨k, hk, rfl⟩
  · rintro (⟨dst, hdst, rfl⟩ | ⟨k, hk, rfl⟩)
    · exact ⟨⟨dst, _⟩, .inl ⟨dst, hdst, rfl⟩, rfl⟩
    · exact ⟨k, .inr hk, rfl⟩

theorem view_of_forgotten {s : SymbolicStack} (hs : s.WellFormed)
    (hstack : u.stack = s.enterBlock) : u.view code pc = .blank pc s.depth :=
  view_of_items (hstack ▸ SymbolicStack.items_enterBlock hs)

theorem Runs.targetsAt_of_resolve (limit : Nat) {route : Setting.Route} (h : Runs g t pc i)
    (hjumps : Jumps i.opcode) (hres : g.resolve pc t.target = .ok route) :
    targetsAt (g.subject limit) (t.view g.code pc) = route.destinations ∧
      targetsAt (g.subject limit) (t.view g.code pc) ≠ [] := by
  rw [h.targetsAt_view hjumps]
  obtain ⟨heq, hne⟩ := targets_of_resolve_ok limit hres
  exact ⟨heq, heq ▸ hne⟩

theorem Runs.blames {x : JumpTarget} (h : Runs g t pc i) (hlimit : t.stack.limit = limit)
    (hjumps : Jumps i.opcode) (hres : g.resolve pc t.target = .error x) :
    Blames (g.subject limit) (t.view g.code pc) (.unreachableJumpTarget pc x) := by
  obtain ⟨hnone, hbad⟩ := targets_of_resolve_error limit hres
  have hblames := Blames.badTarget (h.executes hlimit) hjumps
    ((h.targetsAt_view hjumps).trans hnone) (by rwa [pc_view])
  rwa [pc_view] at hblames

variable (hs : t.stack.WellFormed) (hlimit : t.stack.limit = limit)

include hs hlimit

omit hs in
theorem outcome_jumped {route : Setting.Route} (h : Runs g t pc i) (hrole : i.opcode.role = .jump)
    (hres : g.resolve pc t.target = .ok route) (halive : u.Alive)
    (hmemo : u.memo = t.memo.record pc t.stack.depth)
    (hawaits : ∀ τ, Awaits g.code u τ ↔
      (∃ dst ∈ route.destinations, τ = .blank dst (t.stack.depth - 1)) ∨
        ∃ k ∈ t.work, τ = k.entry) :
    Outcome g limit t pc u := by
  obtain ⟨htargets, hgood⟩ := h.targetsAt_of_resolve limit (.inl hrole) hres
  refine .expands (h.executes hlimit) halive (DepthMemo.visit_eq_first_iff.mp h.fresh).2 hmemo
    (h.not_faults hlimit fun _ => hgood) fun τ => ?_
  have hin : i.opcode.stackIn = 1 := by rw [Opcode.role_eq_jump_iff.mp hrole]; rfl
  rw [step_iff_of_jump (h.executes hlimit) hrole, htargets, depth_view, hin]
  exact hawaits τ

theorem outcome_branched {route : Setting.Route} (h : Runs g t pc i)
    (hrole : i.opcode.role = .branch) (hres : g.resolve pc t.target = .ok route)
    (hcursor : u.cursor = .running i.next) (hstack : u.stack = (t.stack.drop 2).enterBlock)
    (hmemo : u.memo = t.memo.record pc t.stack.depth)
    (hwork : u.work = (((t.noted pc).popped 2).queue route.destinations).work) :
    Outcome g limit t pc u := by
  obtain ⟨htargets, hgood⟩ := h.targetsAt_of_resolve limit (.inr hrole) hres
  refine .expands (h.executes hlimit) (alive_of_running hcursor)
    (DepthMemo.visit_eq_first_iff.mp h.fresh).2 hmemo (h.not_faults hlimit fun _ => hgood)
    fun τ => ?_
  have hin : i.opcode.stackIn = 2 := by rw [Opcode.role_eq_branch_iff.mp hrole]; rfl
  have hview : u.view g.code i.next = .blank i.next (t.stack.depth - 2) :=
    view_of_forgotten (hs.drop 2) hstack
  rw [step_iff_of_branch (h.executes hlimit) hrole hgood, htargets, depth_view, hin,
    awaits_iff_of_running hcursor, hview, hwork, exists_mem_queue, or_assoc]
  rfl

omit hs in
theorem outcome_advanced (h : Runs g t pc i) (hrole : ¬ Jumps i.opcode)
    (hcursor : u.cursor = .running i.next) (hwork : u.work = t.work)
    (hmemo : u.memo = t.memo.record pc t.stack.depth)
    (hitems : u.stack.items.map AbstractValue.ofSlot = behind i (t.view g.code pc).items) :
    Outcome g limit t pc u := by
  refine .expands (h.executes hlimit) (alive_of_running hcursor)
    (DepthMemo.visit_eq_first_iff.mp h.fresh).2 hmemo
    (h.not_faults hlimit fun hjumps => absurd hjumps hrole) fun τ => ?_
  have hview : u.view g.code i.next = Exploration.arrive g.code i.next
      (behind i (t.view g.code pc).items) := by
    rw [view, hitems]
  rw [step_iff_of_not_jumps (h.executes hlimit) hrole, awaits_iff_of_running hcursor, hview, hwork]
  rfl

theorem outcome_marked (h : Runs g t pc i) (hrole : i.opcode.role = .mark) :
    Outcome g limit t pc ((t.noted pc).forget.advance g i) := by
  have hop : i.opcode = .jumpdest := Opcode.role_eq_mark_iff.mp hrole
  have hmark : Exploration.marked g.code pc := (marked_iff h.decodes).mpr hop
  refine outcome_advanced hlimit h (by simp [Jumps, hrole]) rfl rfl rfl ?_
  change t.stack.enterBlock.items.map AbstractValue.ofSlot = _
  rw [SymbolicStack.items_enterBlock hs, behind, hrole, view, arrive_of_marked hmark,
    List.length_map, SymbolicStack.length_items, List.map_replicate]
  rfl

theorem outcome_computed {a : StackAction} (h : Runs g t pc i)
    (hrole : i.opcode.role = .compute a) :
    Outcome g limit t pc
      ({ t.noted pc with stack := t.stack.act i.literal a }.advance g i) := by
  have heff : a.effect = (i.opcode.stackIn, i.opcode.stackOut) := Opcode.effect_of_role hrole
  have hop : i.opcode ≠ .jumpdest := by
    intro hop
    rw [hop] at hrole
    cases hrole
  refine outcome_advanced hlimit h (by simp [Jumps, hrole]) rfl rfl rfl ?_
  change (t.stack.act i.literal a).items.map AbstractValue.ofSlot = _
  rw [SymbolicStack.items_act hs (by rw [heff]; exact h.needs) (by rw [heff]; exact h.room) _
    (Opcode.countsFromOne_of_role hrole), StackAction.map_onList, AbstractValue.ofSlot_literal,
    behind, hrole, items_view h.decodes hop]
  rfl

theorem outcome_of_stepped (hsize : t.memo.cells.size = g.code.size) (h : Stepped g t pc u) :
    Outcome g limit t pc u := by
  cases h with
  | runOff hend =>
    refine .ends rfl rfl rfl ?_ fun kind => not_faults_of_end (by rwa [pc_view])
    exact not_recorded_of_error (decodeAt_of_end hend)
  | malformed hlt hd =>
    have hblames : Blames (g.subject limit) (t.view g.code pc) _ :=
      .malformed (by rwa [pc_view]) (by rwa [pc_view])
    rw [pc_view] at hblames
    exact .rejects rfl hblames
  | haltRefused hd hterm hneeds =>
    have hblames : Blames (g.subject limit) (t.view g.code pc) _ :=
      .underflow (by rwa [pc_view]) (by rwa [depth_view])
    rw [pc_view, depth_view] at hblames
    exact .rejects rfl hblames
  | @halted i hd hterm hneeds =>
    have hd' : decodeAt (g.subject limit).code (t.view g.code pc).pc = .ok i := by rwa [pc_view]
    refine .ends rfl rfl rfl ?_ fun kind => ?_
    · rw [recorded_iff hd, hterm]
      exact Bool.noConfusion
    -- What has halted needs no room and jumps nowhere.
    · rw [faults_iff hd', depth_view]
      rintro (⟨_, hlt⟩ | ⟨_, hfalse, _⟩ | ⟨_, hexec, _⟩)
      · omega
      · rw [hterm] at hfalse
        cases hfalse
      · have hfalse := hexec.not_terminator
        rw [hterm] at hfalse
        cases hfalse
  | revisited hd hterm hvisit =>
    refine .revisits rfl rfl rfl (DepthMemo.get?_of_visit_again ?_ hvisit)
    rw [hsize]
    exact lt_size_of_decodeAt hd
  | conflict hd hterm hvisit =>
    obtain ⟨hget, hne⟩ := DepthMemo.get?_of_visit_conflict hvisit
    exact .conflicts rfl ⟨_, hd, hterm⟩ hget hne
  | underflow harr hneeds =>
    have hblames : Blames (g.subject limit) (t.view g.code pc) _ :=
      .underflow (by rw [pc_view]; exact harr.decodes) (by rwa [depth_view])
    rw [pc_view, depth_view] at hblames
    exact .rejects rfl hblames
  | overflow harr hneeds hroom =>
    have hblames : Blames (g.subject limit) (t.view g.code pc) _ :=
      .overflow (by rw [pc_view]; exact harr.decodes) harr.not_terminator (by rwa [depth_view])
        (by rw [depth_view]; exact hlimit ▸ hroom)
    rw [pc_view, depth_view] at hblames
    exact .rejects (hlimit ▸ rfl) hblames
  | jumpRefused hruns hrole hres => exact .rejects rfl (hruns.blames hlimit (.inl hrole) hres)
  | branchRefused hruns hrole hres => exact .rejects rfl (hruns.blames hlimit (.inr hrole) hres)
  | jumpedStatic hruns hrole hres =>
    refine outcome_jumped hlimit hruns hrole hres (alive_of_running rfl) rfl fun τ => ?_
    rw [awaits_iff_of_running rfl, view_of_forgotten (hs.drop 1) rfl]
    simp only [Setting.Route.destinations, List.mem_singleton, exists_eq_left]
    rfl
  | jumpedListed hruns hrole hres =>
    refine outcome_jumped hlimit hruns hrole hres (alive_of_idle rfl) rfl fun τ => ?_
    rw [awaits_iff_of_idle rfl]
    exact exists_mem_queue _ _
  | branched hruns hrole hres => exact outcome_branched hs hlimit hruns hrole hres rfl rfl rfl rfl
  | marked hruns hrole => exact outcome_marked hs hlimit hruns hrole
  | computed hruns hrole => exact outcome_computed hs hlimit hruns hrole

end Outcomes

end Traversal

end StackMachine
