import StackMachine.Proofs.JumpTable
import StackMachine.Proofs.Traversal.Arrivals

namespace StackMachine

def Event.instrPc? : Event → Option Nat
  | .instr pc _ _ _ => some pc
  | _ => none

def Event.jumpPc? : Event → Option Nat
  | .jump pc _ => some pc
  | _ => none

def Event.isBlock : Event → Bool
  | .block _ _ => true
  | _ => false

def instrPcs (events : List Event) : List Nat := events.filterMap Event.instrPc?

def jumpPcs (events : List Event) : List Nat := events.filterMap Event.jumpPc?

def blockCount (events : List Event) : Nat := (events.filter Event.isBlock).length

abbrev Setting.full (code : Code) (tables : JumpTables) : Setting := .of code tables TraceMask.all

namespace Traversal

open Exploration

variable {g : Setting} {code : Code} {pc limit : Nat} {t u : Traversal} {m m' : DepthMemo}
  {i : Instr} {instrs jumps : List Nat}

/-- The instruction in front of an offset was visited. -/
def Preceded (code : Code) (m : DepthMemo) (pc : Nat) : Prop :=
  ∃ q, Boundary code q ∧ follow code q = pc ∧ m.Holds q

/-- How a path gets to an offset. -/
def Arrived (code : Code) (m : DepthMemo) (pc : Nat) : Prop :=
  marked code pc ∨ pc = 0 ∨ Preceded code m pc

structure Logged (code : Code) (instrs jumps : List Nat) (m : DepthMemo) : Prop where
  instr_nodup : instrs.Nodup
  instr_lt : ∀ pc ∈ instrs, pc < code.size
  instr_arrived : ∀ pc ∈ instrs, Arrived code m pc
  instr_holds : ∀ pc ∈ instrs, Recorded code pc → m.Holds pc
  jump_nodup : jumps.Nodup
  jump_holds : ∀ pc ∈ jumps, m.Holds pc

section Logs

theorem Arrived.mono (hmono : ∀ q, m.Holds q → m'.Holds q) (h : Arrived code m pc) :
    Arrived code m' pc := by
  obtain hmark | hzero | ⟨q, hq, hfollow, hholds⟩ := h
  · exact .inl hmark
  · exact .inr (.inl hzero)
  · exact .inr (.inr ⟨q, hq, hfollow, hmono q hholds⟩)

theorem Logged.mono (h : Logged code instrs jumps m) (hmono : ∀ q, m.Holds q → m'.Holds q) :
    Logged code instrs jumps m' where
  instr_nodup := h.instr_nodup
  instr_lt := h.instr_lt
  instr_arrived pc hpc := (h.instr_arrived pc hpc).mono hmono
  instr_holds pc hpc hrec := hmono pc (h.instr_holds pc hpc hrec)
  jump_nodup := h.jump_nodup
  jump_holds pc hpc := hmono pc (h.jump_holds pc hpc)

theorem Logged.instr (h : Logged code instrs jumps m) (hnew : pc ∉ instrs) (hlt : pc < code.size)
    (harr : Arrived code m pc) (hholds : Recorded code pc → m.Holds pc) :
    Logged code (pc :: instrs) jumps m where
  instr_nodup := List.nodup_cons.mpr ⟨hnew, h.instr_nodup⟩
  instr_lt := List.forall_mem_cons.mpr ⟨hlt, h.instr_lt⟩
  instr_arrived := List.forall_mem_cons.mpr ⟨harr, h.instr_arrived⟩
  instr_holds := List.forall_mem_cons.mpr ⟨hholds, h.instr_holds⟩
  jump_nodup := h.jump_nodup
  jump_holds := h.jump_holds

theorem Logged.jump (h : Logged code instrs jumps m) (hnew : pc ∉ jumps) (hholds : m.Holds pc) :
    Logged code instrs (pc :: jumps) m :=
  { h with
    jump_nodup := List.nodup_cons.mpr ⟨hnew, h.jump_nodup⟩
    jump_holds := List.forall_mem_cons.mpr ⟨hholds, h.jump_holds⟩ }

/-- Two instructions are not in front of the same one. -/
theorem Logged.next_notMem (h : Logged code instrs jumps m) (hb : Boundary code pc)
    (hd : decodeAt code pc = .ok i) (hnot : ¬ m.Holds pc) (hmark : ¬ marked code i.next) :
    i.next ∉ instrs := by
  intro hmem
  obtain hmark' | hzero | ⟨q, hq, hfollow, hholds⟩ := h.instr_arrived _ hmem
  · exact hmark hmark'
  · have hlt := lt_next_of_decodeAt hd
    omega
  · have hsame := hq.eq_of_follow_eq hb (hfollow.trans (follow_of_decodeAt hd).symm)
    exact hnot (hsame ▸ hholds)

end Logs

/-- What the executed jumps account for: two blocks each, and a block for each listed entry. -/
def allowance (tables : JumpTables) (jumps : List Nat) : Nat :=
  2 * jumps.length + (jumps.map fun pc => (tables.lookup pc).size).sum

theorem allowance_cons (tables : JumpTables) (pc : Nat) (jumps : List Nat) :
    allowance tables (pc :: jumps) = allowance tables jumps + 2 + (tables.lookup pc).size := by
  simp only [allowance, List.map_cons, List.sum_cons, List.length_cons]
  omega

structure Ledger (g : Setting) (t : Traversal) : Prop where
  logged : Logged g.code (instrPcs t.log) (jumpPcs t.log) t.memo
  executed : t.Alive → ∀ pc, t.memo.Holds pc → pc ∈ instrPcs t.log
  current : ∀ pc, t.cursor = .running pc → Boundary g.code pc ∧ Arrived g.code t.memo pc ∧
    (marked g.code pc ∨ pc ∉ instrPcs t.log)
  tasks : ∀ k ∈ t.work, IsJumpDest g.code k.pc
  blocks : blockCount t.log + t.work.length ≤ 1 + allowance g.tables (jumpPcs t.log)

section Entries

theorem Ledger.rejected {e : VerifyError} (h : Ledger g t) (hcursor : u.cursor = .rejected e)
    (hlog : u.log = t.log) (hwork : u.work = t.work)
    (hmono : ∀ q, t.memo.Holds q → u.memo.Holds q) : Ledger g u where
  logged := hlog ▸ h.logged.mono hmono
  executed halive := absurd hcursor (halive e)
  current pc hpc := by
    rw [hcursor] at hpc
    cases hpc
  tasks := hwork ▸ h.tasks
  blocks := by
    rw [hlog, hwork]
    exact h.blocks

theorem Ledger.left (h : Ledger g t) (hcursor : t.cursor = .running pc) (hidle : u.cursor = .idle)
    (hlog : u.log = t.log) (hwork : u.work = t.work) (hmemo : u.memo = t.memo) : Ledger g u where
  logged := hlog ▸ hmemo ▸ h.logged
  executed _ := hlog ▸ hmemo ▸ h.executed (alive_of_running hcursor)
  current q hq := by
    rw [hidle] at hq
    cases hq
  tasks := hwork ▸ h.tasks
  blocks := by
    rw [hlog, hwork]
    exact h.blocks

/-- A halting instruction is no `JUMPDEST`, so the path has not been there. -/
theorem Ledger.halted (h : Ledger g t) (hcursor : t.cursor = .running pc) (hidle : u.cursor = .idle)
    (hd : decodeAt g.code pc = .ok i) (hterm : i.opcode.isTerminator = true)
    (hinstrs : instrPcs u.log = pc :: instrPcs t.log) (hjumps : jumpPcs u.log = jumpPcs t.log)
    (hblocks : blockCount u.log = blockCount t.log) (hwork : u.work = t.work)
    (hmemo : u.memo = t.memo) : Ledger g u := by
  obtain ⟨_, harr, hnew⟩ := h.current pc hcursor
  have hmark : ¬ marked g.code pc := by
    intro hmark
    rw [(marked_iff hd).mp hmark] at hterm
    cases hterm
  have hnot : ¬ Recorded g.code pc := by
    rw [recorded_iff hd, hterm]
    exact Bool.noConfusion
  refine ⟨?_, fun _ q hq => ?_, fun q hq => ?_, hwork ▸ h.tasks, ?_⟩
  · rw [hinstrs, hjumps, hmemo]
    exact h.logged.instr (hnew.resolve_left hmark) (lt_size_of_decodeAt hd) harr fun hrec =>
      absurd hrec hnot
  · rw [hinstrs]
    rw [hmemo] at hq
    exact List.mem_cons_of_mem pc (h.executed (alive_of_running hcursor) q hq)
  · rw [hidle] at hq
    cases hq
  · rw [hblocks, hwork, hjumps]
    exact h.blocks

theorem Arrives.recorded (harr : Arrives g t pc i) : Recorded g.code pc :=
  ⟨i, harr.decodes, harr.not_terminator⟩

/-- The instruction at an offset is executed for the first time. The path goes on at the next one or
at a `JUMPDEST`, and what is new in log and worklist is accounted for. -/
theorem Ledger.visited (h : Ledger g t) (hcursor : t.cursor = .running pc)
    (hsize : t.memo.cells.size = g.code.size) (harr : Arrives g t pc i)
    (hmemo : u.memo = t.memo.record pc t.stack.depth)
    (hinstrs : instrPcs u.log = pc :: instrPcs t.log)
    (hcurrent : ∀ q, u.cursor = .running q → q = i.next ∨ IsJumpDest g.code q)
    (htasks : ∀ k ∈ u.work, IsJumpDest g.code k.pc)
    (hcount : jumpPcs u.log = jumpPcs t.log ∧
          blockCount u.log + u.work.length ≤ blockCount t.log + t.work.length ∨
        jumpPcs u.log = pc :: jumpPcs t.log ∧
          blockCount u.log + u.work.length ≤
            blockCount t.log + t.work.length + 2 + (g.tables.lookup pc).size) : Ledger g u := by
  obtain ⟨hb, hpath, _⟩ := h.current pc hcursor
  have hmono (q : Nat) (hq : t.memo.Holds q) : u.memo.Holds q := hmemo ▸ hq.record pc _
  have hself : u.memo.Holds pc :=
    hmemo ▸ DepthMemo.holds_record_self _ (hsize ▸ lt_size_of_decodeAt harr.decodes)
  -- The memo would have the instruction if it had been executed before.
  have hnew : pc ∉ instrPcs t.log := fun hmem =>
    harr.not_holds (h.logged.instr_holds pc hmem harr.recorded)
  have hlogged : Logged g.code (pc :: instrPcs t.log) (jumpPcs t.log) u.memo :=
    (h.logged.mono hmono).instr hnew (lt_size_of_decodeAt harr.decodes) (hpath.mono hmono)
      fun _ => hself
  refine ⟨?_, fun _ q hq => ?_, fun q hq => ?_, htasks, ?_⟩
  · rw [hinstrs]
    obtain ⟨hjumps, _⟩ | ⟨hjumps, _⟩ := hcount <;> rw [hjumps]
    · exact hlogged
    · exact hlogged.jump (fun hmem => harr.not_holds (h.logged.jump_holds pc hmem)) hself
  · rw [hinstrs]
    by_cases hpc : q = pc
    · exact hpc ▸ List.mem_cons_self
    · rw [hmemo, DepthMemo.Holds, DepthMemo.get?_record_of_ne hpc] at hq
      exact List.mem_cons_of_mem pc (h.executed (alive_of_running hcursor) q hq)
  · obtain rfl | hdest := hcurrent q hq
    · have hpre : Preceded g.code u.memo i.next :=
        ⟨pc, hb, follow_of_decodeAt harr.decodes, hself⟩
      refine ⟨hb.next harr.decodes, .inr (.inr hpre), ?_⟩
      by_cases hmark : marked g.code i.next
      · exact .inl hmark
      · refine .inr ?_
        rw [hinstrs, List.mem_cons, not_or]
        exact ⟨Nat.ne_of_gt (lt_next_of_decodeAt harr.decodes),
          h.logged.next_notMem hb harr.decodes harr.not_holds hmark⟩
    · have hmark := marked_of_isJumpDest hdest
      exact ⟨hdest.1, .inl hmark, .inl hmark⟩
  · have hblocks := h.blocks
    obtain ⟨hjumps, hle⟩ | ⟨hjumps, hle⟩ := hcount
    · rw [hjumps]
      omega
    · rw [hjumps, allowance_cons]
      omega

end Entries

section Destinations

variable {v : SlotValue} {route : Setting.Route}

theorem length_destinations_le (h : g.resolve pc v = .ok route) :
    route.destinations.length ≤ 1 + (g.tables.lookup pc).size := by
  unfold Setting.resolve at h
  split at h
  · split at h
    · split at h
      · obtain rfl := Except.ok.inj h
        exact Nat.le_add_right _ _
      · cases h
    · cases h
  · dsimp only at h
    split at h
    · cases h
    · split at h
      · cases h
      · obtain rfl := Except.ok.inj h
        rw [Setting.Route.destinations, List.length_map, JumpTables.length_destinations]
        exact Nat.le_add_left _ _

end Destinations

section Steps

variable {tables : JumpTables}

theorem length_queue (dsts : List Nat) (t : Traversal) :
    (t.queue dsts).work.length = dsts.length + t.work.length := by
  simp [queue]

theorem Ledger.stepped (hs : Analysed ((Setting.full code tables).subject limit))
    (hsize : t.memo.cells.size = code.size) (hcursor : t.cursor = .running pc)
    (h : Ledger (Setting.full code tables) t)
    (hstep : Stepped (Setting.full code tables) t pc u) : Ledger (Setting.full code tables) u := by
  have hrecord (q : Nat) (hq : t.memo.Holds q) := hq.record pc t.stack.depth
  cases hstep with
  | runOff | revisited => exact h.left hcursor rfl rfl rfl rfl
  | malformed | haltRefused | conflict => exact h.rejected rfl rfl rfl fun _ hq => hq
  | underflow | overflow | branchRefused => exact h.rejected rfl rfl rfl hrecord
  | halted hd hterm =>
    obtain rfl := decodeAt_offset hd
    exact h.halted hcursor rfl hd hterm rfl rfl rfl rfl rfl
  | jumpRefused hruns =>
    obtain rfl := decodeAt_offset hruns.decodes
    exact h.visited hcursor hsize hruns.toArrives rfl rfl nofun h.tasks (.inl ⟨rfl, Nat.le_refl _⟩)
  | marked hruns | computed hruns =>
    obtain rfl := decodeAt_offset hruns.decodes
    refine h.visited hcursor hsize hruns.toArrives rfl rfl (fun q hq => ?_) h.tasks
      (.inl ⟨rfl, Nat.le_refl _⟩)
    exact .inl (Cursor.running.inj hq).symm
  | jumpedStatic hruns hrole hres =>
    have hdest := isJumpDest_of_resolve hs hres
    obtain rfl := decodeAt_offset hruns.decodes
    refine h.visited hcursor hsize hruns.toArrives rfl rfl (fun q hq => ?_) h.tasks
      (.inr ⟨rfl, ?_⟩)
    · exact .inr (Cursor.running.inj hq ▸ hdest _ (List.mem_singleton.mpr rfl))
    · change blockCount t.log + 1 + t.work.length ≤ _
      omega
  | jumpedListed hruns hrole hres =>
    have hdest := isJumpDest_of_resolve hs hres
    have hlength := length_destinations_le hres
    obtain rfl := decodeAt_offset hruns.decodes
    refine h.visited hcursor hsize hruns.toArrives rfl rfl nofun (tasks_queue h.tasks hdest)
      (.inr ⟨rfl, ?_⟩)
    -- Each listed destination may begin a block, and the allowance of the jump pays for them.
    change blockCount t.log + (queue _ _).work.length ≤ _
    rw [length_queue]
    simp only [Setting.Route.destinations, Traversal.executed, emit, popped, noted] at hlength ⊢
    omega
  | branched hruns hrole hres =>
    have hdest := isJumpDest_of_resolve hs hres
    have hlength := length_destinations_le hres
    obtain rfl := decodeAt_offset hruns.decodes
    refine h.visited hcursor hsize hruns.toArrives rfl rfl (fun q hq => ?_)
      (tasks_queue h.tasks hdest) (.inr ⟨rfl, ?_⟩)
    · exact .inl (Cursor.running.inj hq).symm
    · change blockCount t.log + 1 + (queue _ _).work.length ≤ _
      rw [length_queue]
      simp only [popped, noted, emit]
      omega

theorem Ledger.begun {k : Task} {rest : List Task} (h : Ledger (Setting.full code tables) t)
    (hcursor : t.cursor = .idle) (hperm : (k :: rest).Perm t.work) :
    Ledger (Setting.full code tables)
      (Traversal.begin (Setting.full code tables) k { t with work := rest }) := by
  have hdest : IsJumpDest code k.pc := h.tasks k (hperm.subset List.mem_cons_self)
  have hrest : ∀ k ∈ rest, IsJumpDest code k.pc := fun k hk =>
    h.tasks k (hperm.subset (List.mem_cons_of_mem _ hk))
  have hlength : t.work.length = rest.length + 1 := hperm.length_eq.symm
  have hmark := marked_of_isJumpDest hdest
  have hblocks := h.blocks
  unfold Traversal.begin
  split
  · refine ⟨h.logged, fun halive => absurd rfl (halive _), nofun, hrest, ?_⟩
    change blockCount t.log + rest.length ≤ 1 + allowance tables (jumpPcs t.log)
    change _ ≤ 1 + allowance tables (jumpPcs t.log) at hblocks
    omega
  · refine ⟨h.logged, fun _ => h.executed (alive_of_idle hcursor), fun q hq => ?_, hrest, ?_⟩
    · rw [← Cursor.running.inj hq]
      exact ⟨hdest.1, .inl hmark, .inl hmark⟩
    · change blockCount t.log + 1 + rest.length ≤ 1 + allowance tables (jumpPcs t.log)
      change _ ≤ 1 + allowance tables (jumpPcs t.log) at hblocks
      omega

theorem Ledger.step (hs : Analysed ((Setting.full code tables).subject limit))
    (scheduler : Scheduler) (h : Ledger (Setting.full code tables) t)
    (hcons : Consistent (Setting.full code tables) limit t) :
    Ledger (Setting.full code tables) (t.step (Setting.full code tables) scheduler) := by
  have hmoved := hcons.moved scheduler
  generalize t.step (Setting.full code tables) scheduler = u at hmoved ⊢
  cases hmoved with
  | ended => exact h
  | stepped hcursor hstep => exact h.stepped hs (hcons.size_cells hcursor) hcursor hstep
  | begun hcursor hperm => exact h.begun hcursor hperm

theorem Ledger.run (hs : Analysed ((Setting.full code tables).subject limit))
    (hlimit : limit ≤ 0xFFFE) (scheduler : Scheduler) (h : Ledger (Setting.full code tables) t)
    (hcons : Consistent (Setting.full code tables) limit t) :
    Ledger (Setting.full code tables) (t.run (Setting.full code tables) scheduler) := by
  fun_induction Traversal.run (Setting.full code tables) scheduler t with
  | case1 t hdone => exact h
  | case2 t hmore ih =>
    have hmore' := Bool.eq_false_iff.mpr hmore
    exact ih (h.step hs scheduler hcons) (hcons.step hs hlimit scheduler hmore')

theorem ledger_step_start (scheduler : Scheduler) (stackLimit : Nat) :
    Ledger (Setting.full code tables)
      ((start stackLimit code.size).step (Setting.full code tables) scheduler) := by
  obtain ⟨k, rest, hperm, hstep⟩ :=
    step_of_idle (t := start stackLimit code.size) (g := Setting.full code tables) scheduler rfl rfl
  obtain ⟨rfl, rfl⟩ := List.cons.inj (List.perm_singleton.mp hperm)
  rw [hstep, begin_of_le (Nat.zero_le _)]
  have hnone (pc : Nat) : ¬ (DepthMemo.new code.size).Holds pc :=
    fun hholds => hholds (DepthMemo.get?_new _ _)
  refine ⟨⟨List.nodup_nil, nofun, nofun, nofun, List.nodup_nil, nofun⟩,
    fun _ pc hpc => absurd hpc (hnone pc), fun q hq => ?_, nofun, Nat.le_refl _⟩
  rw [← Cursor.running.inj hq]
  exact ⟨.zero, .inr (.inl rfl), .inr List.not_mem_nil⟩

theorem ledger_run (hcode : code.size ≤ maxOffset) (scheduler : Scheduler) (stackLimit : Nat) :
    Ledger (Setting.full code tables)
      ((start stackLimit code.size).run (Setting.full code tables) scheduler) := by
  have hs : Analysed ((Setting.full code tables).subject (min stackLimit stackCapacity)) :=
    ⟨rfl, hcode⟩
  have hlimit := SymbolicStack.min_stackCapacity_le stackLimit
  have hcons := consistent_start (Setting.full code tables) stackLimit
  have hmore : (start stackLimit code.size).isFinished = false := rfl
  rw [run.eq_1, dif_neg (by rw [hmore]; exact Bool.noConfusion)]
  exact (ledger_step_start scheduler stackLimit).run hs hlimit scheduler
    (hcons.step hs hlimit scheduler hmore)

end Steps

end Traversal

end StackMachine
