import StackMachine.Proofs.Traversal.Ledger

namespace StackMachine

namespace SymbolicStack

variable {s s' : SymbolicStack} {a : StackAction} {limit limit' : Nat}

structure Widens (limit limit' : Nat) (s s' : SymbolicStack) : Prop where
  items_eq : s'.items = s.items
  limit_eq : s.limit = limit
  limit_eq' : s'.limit = limit'
  limit_le : limit ≤ limit'
  narrow : s.WellFormed
  wide : s'.WellFormed

theorem widens_new {l l' : Nat} (h : min l stackCapacity ≤ min l' stackCapacity) :
    Widens (min l stackCapacity) (min l' stackCapacity) (new l) (new l') where
  items_eq := rfl
  limit_eq := limit_new l
  limit_eq' := limit_new l'
  limit_le := h
  narrow := wellFormed_new l
  wide := wellFormed_new l'

namespace Widens

variable (h : Widens limit limit' s s')

include h

theorem depth_eq : s'.depth = s.depth := by
  rw [← length_items, h.items_eq, length_items]

theorem shortage?_eq (n : Nat) : s'.shortage? n = s.shortage? n := by
  rw [shortage?, shortage?, h.depth_eq]

theorem top_eq (hpos : 0 < s.depth) : s'.read (s'.depth - 1) = s.read (s.depth - 1) := by
  rw [← headD_items hpos, ← h.items_eq, headD_items (h.depth_eq ▸ hpos)]

theorem drop (n : Nat) : Widens limit limit' (s.drop n) (s'.drop n) where
  items_eq := by
    rw [items_drop, items_drop, h.items_eq]
  limit_eq := h.limit_eq
  limit_eq' := h.limit_eq'
  limit_le := h.limit_le
  narrow := h.narrow.drop n
  wide := h.wide.drop n

theorem enterBlock : Widens limit limit' s.enterBlock s'.enterBlock where
  items_eq := by
    rw [items_enterBlock h.wide, items_enterBlock h.narrow, h.depth_eq]
  limit_eq := (limit_enterBlock s).trans h.limit_eq
  limit_eq' := (limit_enterBlock s').trans h.limit_eq'
  limit_le := h.limit_le
  narrow := h.narrow.enterBlock
  wide := h.wide.enterBlock

/-- Both stacks refuse an action for the same reason, or only the larger one has room for it. -/
theorem obstacle?_eq_or : s'.obstacle? a = s.obstacle? a ∨
    limit < limit' ∧ ∃ depth, s.obstacle? a = some (.overflow depth limit) := by
  have hle := h.limit_le
  rw [obstacle?_eq h.wide, obstacle?_eq h.narrow, h.depth_eq, h.limit_eq, h.limit_eq']
  by_cases hneeds : s.depth < a.effect.1
  · rw [if_pos hneeds, if_pos hneeds]
    exact .inl rfl
  rw [if_neg hneeds, if_neg hneeds]
  by_cases hroom : limit < s.depth - a.effect.1 + a.effect.2
  · rw [if_pos hroom]
    obtain hlt | rfl := Nat.lt_or_eq_of_le hle
    · exact .inr ⟨hlt, s.depth, rfl⟩
    · exact .inl (if_pos hroom)
  · rw [if_neg hroom, if_neg (by omega)]
    exact .inl rfl

theorem act (hone : a.CountsFromOne) (hfree : s.obstacle? a = none)
    (hfree' : s'.obstacle? a = none) (v : SlotValue) :
    Widens limit limit' (s.act v a) (s'.act v a) := by
  obtain ⟨hneeds, hroom⟩ := h.narrow.admits_of_obstacle? hfree
  obtain ⟨hneeds', hroom'⟩ := h.wide.admits_of_obstacle? hfree'
  constructor
  · rw [items_act h.wide hneeds' hroom' v hone, items_act h.narrow hneeds hroom v hone, h.items_eq]
  · exact (limit_act s v a).trans h.limit_eq
  · exact (limit_act s' v a).trans h.limit_eq'
  · exact h.limit_le
  · exact h.narrow.act hneeds hroom v
  · exact h.wide.act hneeds' hroom' v

theorem reset_or (depth : Nat) :
    (∃ u u', s.reset depth = .ok u ∧ s'.reset depth = .ok u' ∧ Widens limit limit' u u') ∨
      (∃ e, s.reset depth = .error e ∧ s'.reset depth = .error e) ∨
      limit < limit' ∧ s.reset depth = .error (.overflow depth limit) := by
  obtain ⟨-, rfl, rfl, hlimits, hs, hs'⟩ := h
  by_cases hle : depth ≤ s.limit
  · have hle' := Nat.le_trans hle hlimits
    refine .inl ⟨_, _, reset_of_le hle, reset_of_le hle', ?_, limit_enterBlock _,
      limit_enterBlock _, hlimits, (hs.withDepth hle).enterBlock, (hs'.withDepth hle').enterBlock⟩
    rw [items_enterBlock (hs.withDepth hle), items_enterBlock (hs'.withDepth hle')]
  have hrefused : s.reset depth = .error (.overflow depth s.limit) :=
    if_pos (Nat.lt_of_not_le hle)
  obtain hlt | heq := Nat.lt_or_eq_of_le hlimits
  · exact .inr (.inr ⟨hlt, hrefused⟩)
  · have hrefused' : s'.reset depth = .error (.overflow depth s'.limit) := if_pos (by omega)
    rw [← heq] at hrefused'
    exact .inr (.inl ⟨_, hrefused, hrefused'⟩)

end Widens

end SymbolicStack

namespace Traversal

variable {code : Code} {tables : JumpTables} {mask : TraceMask} {limit limit' : Nat}
  {t t' : Traversal} {i : Instr}

theorem has_all (e : Event) : TraceMask.all.has e.class = true := by
  cases e <;> rfl

theorem filter_record (mask : TraceMask) (e : Event) (log : List Event) :
    (TraceMask.all.record e log).filter (fun e => mask.has e.class) =
      mask.record e (log.filter fun e => mask.has e.class) := by
  rw [TraceMask.record, if_pos (has_all e), List.filter_cons, TraceMask.record]

/-- The same traversal, with the events of the mask only, and with other room on its stack. The
traversal itself reports neither the start of the run nor its end. -/
structure Follows (mask : TraceMask) (limit limit' : Nat) (t t' : Traversal) : Prop where
  cursor_eq : t'.cursor = t.cursor
  work_eq : t'.work = t.work
  memo_eq : t'.memo = t.memo
  stack : t.stack.Widens limit limit' t'.stack
  log_eq : t'.log = t.log.filter fun e => mask.has e.class
  inner : ∀ e ∈ t.log, e.class ≠ .run

/-- There was no room on the stack, where the other one has more. -/
def Overflowed (limit limit' : Nat) (t : Traversal) : Prop :=
  limit < limit' ∧ ∃ pc depth, t.cursor = .rejected (.stackOverflow pc depth limit)

namespace Follows

theorem isFinished_eq (h : Follows mask limit limit' t t') : t'.isFinished = t.isFinished := by
  rw [isFinished, isFinished, h.cursor_eq, h.work_eq]

theorem verdict_eq (h : Follows mask limit limit' t t') : t'.verdict = t.verdict := by
  rw [Traversal.verdict, Traversal.verdict, h.cursor_eq, h.memo_eq]

theorem reject (h : Follows mask limit limit' t t') (e : VerifyError) :
    Follows mask limit limit' (t.reject e) (t'.reject e) :=
  ⟨rfl, h.work_eq, h.memo_eq, h.stack, h.log_eq, h.inner⟩

theorem leave (h : Follows mask limit limit' t t') : Follows mask limit limit' t.leave t'.leave :=
  ⟨rfl, h.work_eq, h.memo_eq, h.stack, h.log_eq, h.inner⟩

theorem forget (h : Follows mask limit limit' t t') :
    Follows mask limit limit' t.forget t'.forget :=
  ⟨h.cursor_eq, h.work_eq, h.memo_eq, h.stack.enterBlock, h.log_eq, h.inner⟩

theorem popped (h : Follows mask limit limit' t t') (n : Nat) :
    Follows mask limit limit' (t.popped n) (t'.popped n) :=
  ⟨h.cursor_eq, h.work_eq, h.memo_eq, h.stack.drop n, h.log_eq, h.inner⟩

theorem queue (h : Follows mask limit limit' t t') (dsts : List Nat) :
    Follows mask limit limit' (t.queue dsts) (t'.queue dsts) where
  cursor_eq := h.cursor_eq
  work_eq := by
    rw [Traversal.queue, Traversal.queue, h.stack.depth_eq, h.work_eq]
  memo_eq := h.memo_eq
  stack := h.stack
  log_eq := h.log_eq
  inner := h.inner

theorem noted (h : Follows mask limit limit' t t') (pc : Nat) :
    Follows mask limit limit' (t.noted pc) (t'.noted pc) where
  cursor_eq := h.cursor_eq
  work_eq := h.work_eq
  memo_eq := by
    rw [Traversal.noted, Traversal.noted, h.stack.depth_eq, h.memo_eq]
  stack := h.stack
  log_eq := h.log_eq
  inner := h.inner

theorem emit (h : Follows mask limit limit' t t') (code : Code) (tables : JumpTables) {e : Event}
    (he : e.class ≠ .run) : Follows mask limit limit' (t.emit (.full code tables) e)
      (t'.emit (.of code tables mask) e) where
  cursor_eq := h.cursor_eq
  work_eq := h.work_eq
  memo_eq := h.memo_eq
  stack := h.stack
  log_eq := (congrArg (mask.record e) h.log_eq).trans (filter_record mask e t.log).symm
  inner := by
    have hlog : (t.emit (.full code tables) e).log = e :: t.log := if_pos (has_all e)
    rw [hlog]
    exact List.forall_mem_cons.mpr ⟨he, h.inner⟩

theorem executed (h : Follows mask limit limit' t t') (code : Code) (tables : JumpTables)
    (i : Instr) : Follows mask limit limit' (t.executed (.full code tables) i)
      (t'.executed (.of code tables mask) i) := by
  rw [Traversal.executed, Traversal.executed, h.stack.depth_eq]
  exact h.emit code tables (by simp [Event.class])

theorem advance (h : Follows mask limit limit' t t') (i : Instr) :
    Follows mask limit limit' (t.advance (.full code tables) i)
      (t'.advance (.of code tables mask) i) := by
  have hexec := h.executed code tables i
  exact ⟨rfl, hexec.work_eq, hexec.memo_eq, hexec.stack, hexec.log_eq, hexec.inner⟩

theorem enter (h : Follows mask limit limit' t t') (pc : Nat) :
    Follows mask limit limit' (t.enter (.full code tables) pc)
      (t'.enter (.of code tables mask) pc) := by
  have hblock := h.emit code tables (e := .block pc t.stack.depth) (by simp [Event.class])
  rw [Traversal.enter, Traversal.enter, h.stack.depth_eq]
  exact ⟨rfl, hblock.work_eq, hblock.memo_eq, hblock.stack, hblock.log_eq, hblock.inner⟩

theorem jump (h : Follows mask limit limit' t t') (i : Instr) :
    Follows mask limit limit' (t.jump (.full code tables) i)
      (t'.jump (.of code tables mask) i) := by
  have hres (v : SlotValue) : (Setting.of code tables mask).resolve i.offset v =
    (Setting.full code tables).resolve i.offset v := rfl
  unfold Traversal.jump SymbolicStack.pop
  rw [h.stack.shortage?_eq, SymbolicStack.shortage?_eq]
  by_cases hneeds : t.stack.depth < 1
  · rw [if_pos hneeds]
    exact h.reject _
  rw [if_neg hneeds]
  have hexec := (h.popped 1).executed code tables i
  have hpos : 0 < t.stack.depth := Nat.le_of_not_lt hneeds
  simp only [h.stack.top_eq hpos, hres]
  cases (Setting.full code tables).resolve i.offset (t.stack.read (t.stack.depth - 1)) with
  | error x => exact hexec.reject _
  | ok route =>
    have hjump := hexec.emit code tables (e := .jump i.offset route.resolution)
      (by simp [Event.class])
    cases route with
    | static dst => exact hjump.forget.enter dst
    | listed dsts => exact (hjump.queue dsts).leave

theorem branch (h : Follows mask limit limit' t t') (i : Instr) :
    Follows mask limit limit' (t.branch (.full code tables) i)
      (t'.branch (.of code tables mask) i) := by
  have hres (v : SlotValue) : (Setting.of code tables mask).resolve i.offset v =
    (Setting.full code tables).resolve i.offset v := rfl
  unfold Traversal.branch
  rw [h.stack.shortage?_eq, SymbolicStack.shortage?_eq]
  by_cases hneeds : t.stack.depth < 2
  · rw [if_pos hneeds]
    exact h.reject _
  rw [if_neg hneeds]
  have hpos : 0 < t.stack.depth := by omega
  simp only [h.stack.top_eq hpos, hres]
  cases (Setting.full code tables).resolve i.offset (t.stack.read (t.stack.depth - 1)) with
  | error x => exact h.reject _
  | ok route =>
    have hjump := (h.popped 2).emit code tables (e := .jump i.offset route.resolution)
      (by simp [Event.class])
    exact ((hjump.queue route.destinations).forget.executed code tables i).enter i.next

theorem execute (h : Follows mask limit limit' t t') (code : Code) (tables : JumpTables)
    (i : Instr) :
    Overflowed limit limit' (t.execute (.full code tables) i) ∨
      Follows mask limit limit' (t.execute (.full code tables) i)
        (t'.execute (.of code tables mask) i) := by
  unfold Traversal.execute
  cases hrole : i.opcode.role with
  | jump => exact .inr (h.jump i)
  | branch => exact .inr (h.branch i)
  | mark => exact .inr (h.forget.advance i)
  | compute a =>
    -- Of all roles only this one asks for room on the stack.
    dsimp only
    obtain hsame | ⟨hlt, depth, hover⟩ := h.stack.obstacle?_eq_or (a := a)
    · rw [hsame]
      cases hobstacle : t.stack.obstacle? a with
      | some e => exact .inr (h.reject _)
      | none =>
        have hacted : Follows mask limit limit' { t with stack := t.stack.act i.literal a }
            { t' with stack := t'.stack.act i.literal a } :=
          ⟨h.cursor_eq, h.work_eq, h.memo_eq, h.stack.act (Opcode.countsFromOne_of_role hrole)
            hobstacle (hsame.trans hobstacle) i.literal, h.log_eq, h.inner⟩
        exact .inr (hacted.advance i)
    · rw [hover]
      exact .inl ⟨hlt, _, _, rfl⟩

theorem arrive (h : Follows mask limit limit' t t') (i : Instr) :
    Overflowed limit limit' (t.arrive (.full code tables) i) ∨
      Follows mask limit limit' (t.arrive (.full code tables) i)
        (t'.arrive (.of code tables mask) i) := by
  unfold Traversal.arrive
  rw [h.memo_eq, h.stack.depth_eq]
  cases t.memo.visit i.offset t.stack.depth with
  | first =>
    have hnoted := (h.noted i.offset).execute code tables i
    rw [Traversal.noted, Traversal.noted, h.memo_eq, h.stack.depth_eq] at hnoted
    exact hnoted
  | again => exact .inr h.leave
  | conflict recorded => exact .inr (h.reject _)

theorem halt (h : Follows mask limit limit' t t') (i : Instr) :
    Follows mask limit limit' (t.halt (.full code tables) i)
      (t'.halt (.of code tables mask) i) := by
  unfold Traversal.halt
  rw [h.stack.shortage?_eq]
  cases t.stack.shortage? i.opcode.stackIn with
  | some e => exact h.reject _
  | none => exact (h.executed code tables i).leave

theorem stepAt (h : Follows mask limit limit' t t') (pc : Nat) :
    Overflowed limit limit' (t.stepAt (.full code tables) pc) ∨
      Follows mask limit limit' (t.stepAt (.full code tables) pc)
        (t'.stepAt (.of code tables mask) pc) := by
  have hcode : (Setting.of code tables mask).code = (Setting.full code tables).code := rfl
  unfold Traversal.stepAt
  rw [hcode]
  split
  · exact .inr h.leave
  split
  · exact .inr (h.reject _)
  split
  · exact .inr (h.halt _)
  · exact h.arrive _

theorem begin (h : Follows mask limit limit' t t') (k : Task) :
    Overflowed limit limit' (t.begin (.full code tables) k) ∨
      Follows mask limit limit' (t.begin (.full code tables) k)
        (t'.begin (.of code tables mask) k) := by
  unfold Traversal.begin
  obtain ⟨u, u', hreset, hreset', hu⟩ | ⟨e, hreset, hreset'⟩ | ⟨hlt, hreset⟩ :=
    h.stack.reset_or k.depth
  · have hbegun : Follows mask limit limit' { t with stack := u } { t' with stack := u' } :=
      ⟨h.cursor_eq, h.work_eq, h.memo_eq, hu, h.log_eq, h.inner⟩
    rw [hreset, hreset']
    exact .inr (hbegun.enter k.pc)
  · rw [hreset, hreset']
    exact .inr (h.reject _)
  · rw [hreset]
    exact .inl ⟨hlt, _, _, rfl⟩

theorem step (h : Follows mask limit limit' t t') (code : Code) (tables : JumpTables) :
    Overflowed limit limit' (t.step (.full code tables) Scheduler.newest) ∨
      Follows mask limit limit' (t.step (.full code tables) Scheduler.newest)
        (t'.step (.of code tables mask) Scheduler.newest) := by
  have hnewest : Scheduler.newest t' = Scheduler.newest t := rfl
  unfold Traversal.step
  rw [h.cursor_eq, h.work_eq, hnewest]
  cases t.cursor with
  | rejected e => exact .inr h
  | running pc => exact h.stepAt pc
  | idle =>
    dsimp only
    cases take? (Scheduler.newest t) t.work with
    | none => exact .inr h
    | some taken =>
      have hrest : Follows mask limit limit' { t with work := taken.2 }
          { t' with work := taken.2 } :=
        ⟨h.cursor_eq, rfl, h.memo_eq, h.stack, h.log_eq, h.inner⟩
      exact hrest.begin taken.1

/-- The runs stay together to their end, or to an overflow of the one with less room. -/
theorem run (h : Follows mask limit limit' t t') (code : Code) (tables : JumpTables) :
    Overflowed limit limit' (t.run (.full code tables) Scheduler.newest) ∨
      Follows mask limit limit' (t.run (.full code tables) Scheduler.newest)
        (t'.run (.of code tables mask) Scheduler.newest) := by
  fun_induction Traversal.run (Setting.full code tables) Scheduler.newest t generalizing t' with
  | case1 t hdone =>
    rw [run.eq_1 _ _ t', dif_pos (h.isFinished_eq.trans hdone)]
    exact .inr h
  | case2 t hmore ih =>
    obtain hover | hnext := h.step code tables
    · -- The run with less room ends here; nothing is said about the other one.
      obtain ⟨hlt, pc, depth, hcursor⟩ := hover
      have hdone : (t.step (.full code tables) Scheduler.newest).isFinished = true := by
        rw [isFinished, hcursor]
      rw [run.eq_1 _ _ (t.step _ Scheduler.newest), dif_pos hdone]
      exact .inl ⟨hlt, pc, depth, hcursor⟩
    · rw [run.eq_1 _ _ t', dif_neg (by rwa [h.isFinished_eq])]
      exact ih hnext

end Follows

end Traversal

end StackMachine
