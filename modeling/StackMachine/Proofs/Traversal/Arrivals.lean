import StackMachine.Proofs.Traversal.Verdict

namespace StackMachine.Traversal

open Exploration

variable {g : Setting} {code : Code} {limit pc q : Nat} {t u : Traversal} {i : Instr}

section Destinations

theorem isJumpDest_of_resolve {v : SlotValue} {route : Setting.Route}
    (hs : Analysed (g.subject limit)) (h : g.resolve pc v = .ok route) :
    ∀ dst ∈ route.destinations, IsJumpDest g.code dst := by
  intro dst hdst
  rw [← (targets_of_resolve_ok limit h).1] at hdst
  have hvalid := isValid_of_mem_targets hdst
  rw [hs.jumpDests_eq] at hvalid
  exact (JumpDests.isValid_iff hs.size_le).mp hvalid

theorem tasks_queue {dsts : List Nat} (hwork : ∀ k ∈ t.work, IsJumpDest code k.pc)
    (hdsts : ∀ dst ∈ dsts, IsJumpDest code dst) :
    ∀ k ∈ (t.queue dsts).work, IsJumpDest code k.pc := by
  intro k hk
  obtain hnew | hold := List.mem_append.mp hk
  · obtain ⟨dst, hdst, rfl⟩ := List.mem_map.mp hnew
    exact hdsts dst (List.mem_reverse.mp hdst)
  · exact hwork k hold

end Destinations

section Steps

theorem Arrives.not_holds (harr : Arrives g t pc i) : ¬ t.memo.Holds pc := by
  rw [DepthMemo.Holds, (DepthMemo.visit_eq_first_iff.mp harr.fresh).2]
  exact fun hne => hne rfl

namespace Stepped

/-- A path goes on at a `JUMPDEST`, or behind an instruction that was not in the memo and is now. -/
theorem arrives (hs : Analysed (g.subject limit)) (h : Stepped g t pc u)
    (hq : u.cursor = .running q) : IsJumpDest g.code q ∨
      ∃ i, Arrives g t pc i ∧ i.next = q ∧ u.memo = t.memo.record pc t.stack.depth := by
  cases h with
  | jumpedStatic _ _ hres =>
    refine .inl (isJumpDest_of_resolve hs hres q ?_)
    exact List.mem_singleton.mpr (Cursor.running.inj hq).symm
  | branched hruns | marked hruns | computed hruns =>
    exact .inr ⟨_, hruns.toArrives, Cursor.running.inj hq, rfl⟩
  | runOff | malformed | haltRefused | halted | revisited | conflict | underflow | overflow
  | jumpRefused | branchRefused | jumpedListed => cases hq

theorem memo_eq (h : Stepped g t pc u) :
    u.memo = t.memo ∨ u.memo = t.memo.record pc t.stack.depth := by
  cases h with
  | runOff | malformed | haltRefused | halted | revisited | conflict => exact .inl rfl
  | underflow | overflow | jumpRefused | branchRefused | jumpedStatic | jumpedListed | branched
  | marked | computed => exact .inr rfl

theorem holds (h : Stepped g t pc u) (hq : t.memo.Holds q) : u.memo.Holds q := by
  obtain hmemo | hmemo := h.memo_eq <;> rw [hmemo]
  · exact hq
  · exact hq.record pc _

theorem holds_or_eq (h : Stepped g t pc u) (hq : u.memo.Holds q) : t.memo.Holds q ∨ q = pc := by
  obtain hmemo | hmemo := h.memo_eq <;> rw [hmemo] at hq
  · exact .inl hq
  · by_cases hpc : q = pc
    · exact .inr hpc
    · rw [DepthMemo.Holds, DepthMemo.get?_record_of_ne hpc] at hq
      exact .inl hq

theorem tasks (hs : Analysed (g.subject limit)) (h : Stepped g t pc u)
    (hwork : ∀ k ∈ t.work, IsJumpDest g.code k.pc) : ∀ k ∈ u.work, IsJumpDest g.code k.pc := by
  cases h with
  | jumpedListed _ _ hres | branched _ _ hres =>
    exact tasks_queue hwork (isJumpDest_of_resolve hs hres)
  | runOff | malformed | haltRefused | halted | revisited | conflict | underflow | overflow
  | jumpRefused | branchRefused | jumpedStatic | marked | computed => exact hwork

theorem conflicts {recorded observed : Nat} (h : Stepped g t pc u)
    (hu : u.cursor = .rejected (.depthInconsistency q recorded observed)) :
    q = pc ∧ t.memo.Holds pc := by
  cases h with
  | conflict _ _ hvisit =>
    cases hu
    refine ⟨rfl, ?_⟩
    rw [DepthMemo.Holds, (DepthMemo.get?_of_visit_conflict hvisit).1]
    exact Option.some_ne_none _
  | runOff | malformed | haltRefused | halted | revisited | underflow | overflow | jumpRefused
  | branchRefused | jumpedStatic | jumpedListed | branched | marked | computed => cases hu

end Stepped

inductive Moved (g : Setting) (t : Traversal) : Traversal → Prop where
  | ended : t.isFinished = true → Moved g t t
  | stepped {pc : Nat} {u : Traversal} : t.cursor = .running pc → Stepped g t pc u → Moved g t u
  | begun {k : Task} {rest : List Task} : t.cursor = .idle → (k :: rest).Perm t.work →
      Moved g t (begin g k { t with work := rest })

theorem Consistent.moved (h : Consistent g limit t) (scheduler : Scheduler) :
    Moved g t (t.step g scheduler) := by
  cases hdone : t.isFinished with
  | true =>
    rw [step_of_isFinished scheduler hdone]
    exact .ended hdone
  | false =>
    cases h with
    | rejected hrej _ => exact absurd hrej (alive_of_not_finished hdone _)
    | alive halive hsane _ _ =>
      cases hcursor : t.cursor with
      | rejected e => exact absurd hcursor (halive e)
      | running pc =>
        rw [step_of_running scheduler hcursor]
        exact .stepped hcursor (stepped_stepAt hsane.stack)
      | idle =>
        obtain ⟨k, rest, hperm, hstep⟩ := step_of_idle scheduler hcursor hdone
        rw [hstep]
        exact .begun hcursor hperm

theorem begin_cases (g : Setting) (k : Task) (t : Traversal) :
    (begin g k t).memo = t.memo ∧ (begin g k t).work = t.work ∧
      ((begin g k t).cursor = .running k.pc ∨
        ∃ e, (begin g k t).cursor = .rejected (.ofStack k.pc e)) := by
  unfold begin
  split
  · exact ⟨rfl, rfl, .inr ⟨_, rfl⟩⟩
  · exact ⟨rfl, rfl, .inl rfl⟩

namespace Moved

theorem holds (h : Moved g t u) (hq : t.memo.Holds q) : u.memo.Holds q := by
  cases h with
  | ended => exact hq
  | stepped _ hstep => exact hstep.holds hq
  | begun => rwa [(begin_cases _ _ _).1]

theorem holds_or_running (h : Moved g t u) (hq : u.memo.Holds q) :
    t.memo.Holds q ∨ t.cursor = .running q := by
  cases h with
  | ended => exact .inl hq
  | stepped hcursor hstep =>
    obtain hold | rfl := hstep.holds_or_eq hq
    · exact .inl hold
    · exact .inr hcursor
  | begun =>
    rw [(begin_cases _ _ _).1] at hq
    exact .inl hq

theorem tasks (hs : Analysed (g.subject limit)) (h : Moved g t u)
    (hwork : ∀ k ∈ t.work, IsJumpDest g.code k.pc) : ∀ k ∈ u.work, IsJumpDest g.code k.pc := by
  cases h with
  | ended => exact hwork
  | stepped _ hstep => exact hstep.tasks hs hwork
  | begun _ hperm =>
    rw [(begin_cases _ _ _).2.1]
    exact fun k hk => hwork k (hperm.subset (List.mem_cons_of_mem _ hk))

theorem arrives (hs : Analysed (g.subject limit)) (h : Moved g t u)
    (hq : u.cursor = .running q) : IsJumpDest g.code q ∨
      (t.cursor = .idle ∧ ∃ k ∈ t.work, k.pc = q) ∨
      ∃ pc i, t.cursor = .running pc ∧ Arrives g t pc i ∧ i.next = q ∧
        u.memo = t.memo.record pc t.stack.depth := by
  cases h with
  | ended hdone =>
    rw [isFinished, hq] at hdone
    cases hdone
  | stepped hcursor hstep =>
    obtain hdest | ⟨i, harr, hnext, hmemo⟩ := hstep.arrives hs hq
    · exact .inl hdest
    · exact .inr (.inr ⟨_, i, hcursor, harr, hnext, hmemo⟩)
  | @begun k rest hcursor hperm =>
    refine .inr (.inl ⟨hcursor, k, hperm.subset List.mem_cons_self, ?_⟩)
    obtain hrun | ⟨e, hrej⟩ := (begin_cases g k { t with work := rest }).2.2
    · exact Cursor.running.inj (hrun.symm.trans hq)
    · rw [hrej] at hq
      cases hq

theorem conflicts {recorded observed : Nat} (h : Moved g t u)
    (hu : u.cursor = .rejected (.depthInconsistency q recorded observed)) :
    t.cursor = .rejected (.depthInconsistency q recorded observed) ∨
      t.cursor = .running q ∧ t.memo.Holds q := by
  cases h with
  | ended => exact .inl hu
  | stepped hcursor hstep =>
    obtain ⟨rfl, hholds⟩ := hstep.conflicts hu
    exact .inr ⟨hcursor, hholds⟩
  | @begun k rest =>
    obtain hrun | ⟨e, hrej⟩ := (begin_cases g k { t with work := rest }).2.2
    · rw [hrun] at hu
      cases hu
    · rw [hrej] at hu
      cases e <;> cases hu

end Moved

end Steps

/-- A task that does not fit the stack is refused; every other one is begun. -/
theorem Sane.begin {k : Task} (h : Sane g limit t) : Sane g limit (begin g k t) := by
  by_cases hle : k.depth ≤ t.stack.limit
  · rw [begin_of_le hle]
    refine ⟨(h.stack.withDepth hle).enterBlock, ?_, h.size_eq⟩
    exact (SymbolicStack.limit_enterBlock _).trans h.limit_eq
  · have hrefused : t.stack.reset k.depth = .error (.overflow k.depth t.stack.limit) :=
      if_pos (Nat.lt_of_not_le hle)
    rw [Traversal.begin, hrefused]
    exact ⟨h.stack, h.limit_eq, h.size_eq⟩

theorem Sane.moved (h : Sane g limit t) (hmoved : Moved g t u) : Sane g limit u := by
  cases hmoved with
  | ended => exact h
  | stepped _ hstep => exact h.stepped hstep
  | @begun k rest =>
    have hrest : Sane g limit { t with work := rest } := ⟨h.stack, h.limit_eq, h.size_eq⟩
    exact hrest.begin

theorem Consistent.boundary (hs : Analysed (g.subject limit)) (h : Consistent g limit t)
    (hcursor : t.cursor = .running pc) : Boundary g.code pc := by
  cases h with
  | rejected hrej _ =>
    rw [hcursor] at hrej
    cases hrej
  | alive _ _ hsound _ =>
    have hb := (hsound.awaits _ (.running hcursor)).boundary hs
    rwa [pc_view] at hb

theorem Consistent.size_cells (h : Consistent g limit t) (hcursor : t.cursor = .running pc) :
    t.memo.cells.size = g.code.size := by
  cases h with
  | rejected hrej _ =>
    rw [hcursor] at hrej
    cases hrej
  | alive _ hsane _ _ => exact hsane.size_eq

def stateAfter (g : Setting) (scheduler : Scheduler) (stackLimit n : Nat) : Traversal :=
  (step g scheduler)^[n] (start stackLimit g.code.size)

section Run

variable {scheduler : Scheduler} {stackLimit m n : Nat}
  (hs : Analysed (g.subject (min stackLimit stackCapacity)))

include hs

theorem consistent_stateAfter (scheduler : Scheduler) (n : Nat) :
    Consistent g (min stackLimit stackCapacity) (stateAfter g scheduler stackLimit n) := by
  induction n with
  | zero => exact consistent_start g stackLimit
  | succ n ih =>
    rw [stateAfter, Function.iterate_succ_apply', ← stateAfter]
    cases hdone : (stateAfter g scheduler stackLimit n).isFinished with
    | true => rwa [step_of_isFinished scheduler hdone]
    | false => exact ih.step hs (SymbolicStack.min_stackCapacity_le stackLimit) scheduler hdone

theorem moved_stateAfter (scheduler : Scheduler) (n : Nat) :
    Moved g (stateAfter g scheduler stackLimit n) (stateAfter g scheduler stackLimit (n + 1)) := by
  rw [stateAfter.eq_1 g scheduler stackLimit (n + 1), Function.iterate_succ_apply', ← stateAfter]
  exact (consistent_stateAfter hs scheduler n).moved scheduler

theorem sane_stateAfter (scheduler : Scheduler) (n : Nat) :
    Sane g (min stackLimit stackCapacity) (stateAfter g scheduler stackLimit n) := by
  induction n with
  | zero =>
    exact ⟨SymbolicStack.wellFormed_new _, SymbolicStack.limit_new _, Array.size_replicate⟩
  | succ n ih => exact ih.moved (moved_stateAfter hs scheduler n)

theorem reachable_of_running (scheduler : Scheduler)
    (h : (stateAfter g scheduler stackLimit n).cursor = .running pc) :
    Reachable (g.subject (min stackLimit stackCapacity))
      ((stateAfter g scheduler stackLimit n).view g.code pc) := by
  cases consistent_stateAfter hs scheduler n with
  | rejected hrej _ =>
    rw [h] at hrej
    cases hrej
  | alive _ _ hsound _ => exact hsound.awaits _ (.running h)

/-- Once the first task is begun, tasks wait at `JUMPDEST`s only. -/
theorem isJumpDest_of_mem_work (scheduler : Scheduler) (n : Nat) :
    ∀ k ∈ (stateAfter g scheduler stackLimit (n + 1)).work, IsJumpDest g.code k.pc := by
  induction n with
  | zero =>
    have hmoved : Moved g (start stackLimit g.code.size)
        (stateAfter g scheduler stackLimit (0 + 1)) := moved_stateAfter hs scheduler 0
    generalize stateAfter g scheduler stackLimit (0 + 1) = u at hmoved ⊢
    cases hmoved with
    | ended hdone => cases hdone
    | stepped hcursor _ => cases hcursor
    | begun _ hperm =>
      obtain ⟨rfl, rfl⟩ := List.cons.inj (List.perm_singleton.mp hperm)
      rw [(begin_cases _ _ _).2.1]
      exact nofun
  | succ n ih => exact (moved_stateAfter hs scheduler (n + 1)).tasks hs ih

theorem holds_of_le (hle : n ≤ m) (h : (stateAfter g scheduler stackLimit n).memo.Holds pc) :
    (stateAfter g scheduler stackLimit m).memo.Holds pc := by
  induction hle with
  | refl => exact h
  | step _ ih => exact (moved_stateAfter hs scheduler _).holds ih

theorem exists_running_of_holds (h : (stateAfter g scheduler stackLimit n).memo.Holds pc) :
    ∃ m < n, (stateAfter g scheduler stackLimit m).cursor = .running pc := by
  induction n with
  | zero => exact absurd (DepthMemo.get?_new _ _) h
  | succ n ih =>
    obtain hold | hcursor := (moved_stateAfter hs scheduler n).holds_or_running h
    · obtain ⟨m, hlt, hm⟩ := ih hold
      exact ⟨m, Nat.lt_succ_of_lt hlt, hm⟩
    · exact ⟨n, Nat.lt_succ_self n, hcursor⟩

theorem start_or_predecessor (h : (stateAfter g scheduler stackLimit n).cursor = .running pc)
    (hnot : ¬ IsJumpDest g.code pc) : n = 1 ∧ pc = 0 ∨
      ∃ k q, n = k + 1 ∧ Boundary g.code q ∧ follow g.code q = pc ∧
        ¬ (stateAfter g scheduler stackLimit k).memo.Holds q ∧
        (stateAfter g scheduler stackLimit (k + 1)).memo.Holds q := by
  cases n with
  | zero => cases h
  | succ n =>
    have hcons := consistent_stateAfter hs scheduler n
    obtain hdest | ⟨hidle, k, hk, rfl⟩ | ⟨q, i, hq, harr, rfl, hmemo⟩ :=
      (moved_stateAfter hs scheduler n).arrives hs h
    · exact absurd hdest hnot
    · cases n with
      | zero =>
        rw [List.mem_singleton.mp hk]
        exact .inl ⟨rfl, rfl⟩
      | succ n => exact absurd (isJumpDest_of_mem_work hs scheduler n k hk) hnot
    · refine .inr ⟨n, q, rfl, hcons.boundary hs hq, follow_of_decodeAt harr.decodes,
        harr.not_holds, ?_⟩
      rw [hmemo]
      refine DepthMemo.holds_record_self _ ?_
      rw [hcons.size_cells hq]
      exact lt_size_of_decodeAt harr.decodes

/-- Only at a `JUMPDEST` do paths arrive twice. -/
theorem isJumpDest_of_arrives_twice (hlt : n < m)
    (hn : (stateAfter g scheduler stackLimit n).cursor = .running pc)
    (hm : (stateAfter g scheduler stackLimit m).cursor = .running pc) : IsJumpDest g.code pc := by
  by_contra hnot
  obtain ⟨rfl, rfl⟩ | ⟨k, q, rfl, hq, hfollow, _, hholds⟩ := start_or_predecessor hs hn hnot <;>
    obtain ⟨rfl, hzero⟩ | ⟨k', q', rfl, hq', hfollow', hnew, _⟩ := start_or_predecessor hs hm hnot
  · exact Nat.lt_irrefl 1 hlt
  · have hpos := lt_follow g.code q'
    omega
  · omega
  -- The same instruction is in front both times, and the second time the memo has it.
  · obtain rfl := hq.eq_of_follow_eq hq' (hfollow.trans hfollow'.symm)
    exact hnew (holds_of_le hs (by omega) hholds)

theorem isJumpDest_of_holds (h : (stateAfter g scheduler stackLimit n).cursor = .running pc)
    (hholds : (stateAfter g scheduler stackLimit n).memo.Holds pc) : IsJumpDest g.code pc := by
  obtain ⟨m, hlt, hm⟩ := exists_running_of_holds hs hholds
  exact isJumpDest_of_arrives_twice hs hlt hm h

theorem isJumpDest_of_conflict {recorded observed : Nat}
    (h : (stateAfter g scheduler stackLimit n).cursor =
      .rejected (.depthInconsistency pc recorded observed)) : IsJumpDest g.code pc := by
  induction n with
  | zero => cases h
  | succ n ih =>
    obtain hold | ⟨hcursor, hholds⟩ := (moved_stateAfter hs scheduler n).conflicts h
    · exact ih hold
    · exact isJumpDest_of_holds hs hcursor hholds

end Run

end StackMachine.Traversal
