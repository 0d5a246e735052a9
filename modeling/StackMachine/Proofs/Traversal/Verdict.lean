import StackMachine.Proofs.Traversal.Outcome

namespace StackMachine.Traversal

open Exploration

variable {g : Setting} {limit pc : Nat} {t u : Traversal} {σ τ : State}

structure Sane (g : Setting) (limit : Nat) (t : Traversal) : Prop where
  stack : t.stack.WellFormed
  limit_eq : t.stack.limit = limit
  size_eq : t.memo.cells.size = g.code.size

structure Sound (g : Setting) (limit : Nat) (t : Traversal) : Prop where
  awaits : ∀ τ, Awaits g.code t τ → Reachable (g.subject limit) τ
  memo : ∀ pc depth, t.memo.get? pc = some depth → Recorded g.code pc ∧
    ∃ σ, Reachable (g.subject limit) σ ∧ σ.pc = pc ∧ σ.depth = depth

/-- A state that need not be looked at again. -/
def Settled (s : Subject) (m : DepthMemo) (τ : State) : Prop :=
  (∀ kind, ¬ Faults s τ kind) ∧ (Recorded s.code τ.pc → m.get? τ.pc = some τ.depth)

def Covered (g : Setting) (limit : Nat) (t : Traversal) (τ : State) : Prop :=
  Awaits g.code t τ ∨ Settled (g.subject limit) t.memo τ

/-- Reachable states that agree with the memo have been looked at. -/
structure Complete (g : Setting) (limit : Nat) (t : Traversal) : Prop where
  start : Covered g limit t ⟨0, []⟩
  faultless : ∀ σ kind, Reachable (g.subject limit) σ → t.memo.get? σ.pc = some σ.depth →
    ¬ Faults (g.subject limit) σ kind
  closed : ∀ σ τ, Reachable (g.subject limit) σ → t.memo.get? σ.pc = some σ.depth →
    Step (g.subject limit) σ τ → Covered g limit t τ

/-- The error is true of a reachable state, or of two. -/
inductive Explained (s : Subject) : VerifyError → Prop where
  | blamed {σ : State} {e : VerifyError} : Reachable s σ → Blames s σ e → Explained s e
  | twoDepths {σ ρ : State} : Reachable s σ → Reachable s ρ → ρ.pc = σ.pc →
      Recorded s.code σ.pc → ρ.depth ≠ σ.depth →
      Explained s (.depthInconsistency σ.pc ρ.depth σ.depth)

inductive Consistent (g : Setting) (limit : Nat) (t : Traversal) : Prop where
  | rejected {e : VerifyError} : t.cursor = .rejected e → Explained (g.subject limit) e →
      Consistent g limit t
  | alive : t.Alive → Sane g limit t → Sound g limit t →
      Complete g limit t → Consistent g limit t

section Sizes

theorem Sane.stepped (h : Sane g limit t) (hstep : Stepped g t pc u) : Sane g limit u := by
  have hnoted : (t.memo.record pc t.stack.depth).cells.size = g.code.size := by
    rw [DepthMemo.size_record]
    exact h.size_eq
  have hforget (n : Nat) : (t.stack.drop n).enterBlock.limit = limit := by
    rw [SymbolicStack.limit_enterBlock]
    exact h.limit_eq
  cases hstep with
  | runOff | malformed | haltRefused | halted | revisited | conflict =>
    exact ⟨h.stack, h.limit_eq, h.size_eq⟩
  | underflow | overflow | branchRefused => exact ⟨h.stack, h.limit_eq, hnoted⟩
  | jumpRefused | jumpedListed => exact ⟨h.stack.drop 1, h.limit_eq, hnoted⟩
  | jumpedStatic => exact ⟨(h.stack.drop 1).enterBlock, hforget 1, hnoted⟩
  | branched => exact ⟨(h.stack.drop 2).enterBlock, hforget 2, hnoted⟩
  | marked =>
    exact ⟨h.stack.enterBlock, (SymbolicStack.limit_enterBlock _).trans h.limit_eq, hnoted⟩
  | @computed i a hruns hrole =>
    have heff : a.effect = (i.opcode.stackIn, i.opcode.stackOut) := Opcode.effect_of_role hrole
    refine ⟨h.stack.act ?_ ?_ _, (SymbolicStack.limit_act _ _ _).trans h.limit_eq, hnoted⟩
    · rw [heff]
      exact hruns.needs
    · rw [heff]
      exact hruns.room

end Sizes

section Transfer

variable (hmemo : u.memo = t.memo)

include hmemo

theorem Sound.transfer (h : Sound g limit t)
    (hawaits : ∀ τ, Awaits g.code u τ → Awaits g.code t τ) : Sound g limit u where
  awaits τ hτ := h.awaits τ (hawaits τ hτ)
  memo := by
    rw [hmemo]
    exact h.memo

/-- States may be dropped once they are settled. -/
theorem Complete.transfer (h : Complete g limit t)
    (hawaits : ∀ τ, Awaits g.code t τ → Covered g limit u τ) : Complete g limit u := by
  have hcovered {τ : State} (hτ : Covered g limit t τ) : Covered g limit u τ := by
    obtain hτ | hτ := hτ
    · exact hawaits τ hτ
    · refine .inr ?_
      rw [hmemo]
      exact hτ
  refine ⟨hcovered h.start, ?_, ?_⟩
  · rw [hmemo]
    exact h.faultless
  · rw [hmemo]
    exact fun σ τ hσ hget hstep => hcovered (h.closed σ τ hσ hget hstep)

theorem Complete.leave (h : Complete g limit t) (hcursor : t.cursor = .running pc)
    (hwork : u.work = t.work) (hsettled : Settled (g.subject limit) t.memo (t.view g.code pc)) :
    Complete g limit u := by
  refine h.transfer hmemo fun τ hτ => ?_
  obtain rfl | ⟨k, hk, rfl⟩ := (awaits_iff_of_running hcursor).mp hτ
  · refine .inr ?_
    rw [hmemo]
    exact hsettled
  · exact .inl (.waiting (hwork ▸ hk))

omit hmemo in
theorem Sound.leave (h : Sound g limit t) (hmemo : u.memo = t.memo) (hcursor : u.cursor = .idle)
    (hwork : u.work = t.work) : Sound g limit u := by
  refine h.transfer hmemo fun τ hτ => ?_
  obtain ⟨k, hk, rfl⟩ := (awaits_iff_of_idle hcursor).mp hτ
  exact .waiting (hwork ▸ hk)

end Transfer

section Expansion

variable (hlt : pc < t.memo.cells.size) (hdepth : t.stack.depth ≤ 0xFFFE)
  (hmemo : u.memo = t.memo.record pc t.stack.depth)

include hlt hdepth hmemo

theorem get?_expanded (q : Nat) :
    u.memo.get? q = if q = pc then some t.stack.depth else t.memo.get? q := by
  rw [hmemo]
  by_cases hq : q = pc
  · rw [if_pos hq, hq]
    exact DepthMemo.get?_record_self hlt hdepth
  · rw [if_neg hq]
    exact DepthMemo.get?_record_of_ne hq

variable (hcursor : t.cursor = .running pc)
  (hawaits : ∀ τ, Awaits g.code u τ ↔
    Step (g.subject limit) (t.view g.code pc) τ ∨ ∃ k ∈ t.work, τ = k.entry)

include hcursor hawaits

theorem Sound.expand (h : Sound g limit t) (hrec : Recorded g.code pc) : Sound g limit u where
  awaits τ hτ := by
    obtain hstep | ⟨k, hk, rfl⟩ := (hawaits τ).mp hτ
    · exact (h.awaits _ (.running hcursor)).step hstep
    · exact h.awaits _ (.waiting hk)
  memo q depth hget := by
    rw [get?_expanded hlt hdepth hmemo] at hget
    by_cases hq : q = pc
    · rw [if_pos hq] at hget
      subst hq
      refine ⟨hrec, t.view g.code q, h.awaits _ (.running hcursor), pc_view _ _ _, ?_⟩
      rw [depth_view]
      exact Option.some.inj hget
    · rw [if_neg hq] at hget
      exact h.memo q depth hget

theorem Complete.expand (hs : Analysed (g.subject limit)) (hsound : Sound g limit t)
    (h : Complete g limit t) (hnew : t.memo.get? pc = none)
    (hgood : ∀ kind, ¬ Faults (g.subject limit) (t.view g.code pc) kind) :
    Complete g limit u := by
  have hget := get?_expanded hlt hdepth hmemo
  have hview : Reachable (g.subject limit) (t.view g.code pc) := hsound.awaits _ (.running hcursor)
  -- the memo only grows, and now holds the state that was awaited first
  have hcovered {τ : State} (hτ : Covered g limit t τ) : Covered g limit u τ := by
    obtain hτ | ⟨hfaultless, hrec⟩ := hτ
    · obtain rfl | hk := (awaits_iff_of_running hcursor).mp hτ
      · refine .inr ⟨hgood, fun _ => ?_⟩
        rw [hget, pc_view, if_pos rfl, depth_view]
      · exact .inl ((hawaits τ).mpr (.inr hk))
    · refine .inr ⟨hfaultless, fun hτ => ?_⟩
      have hold := hrec hτ
      rw [hget, if_neg, hold]
      intro hpc
      rw [hpc, hnew] at hold
      cases hold
  -- What the memo has now is the state itself, known by offset and depth, or was there before.
  have hlooked {σ : State} (hσ : Reachable (g.subject limit) σ)
      (hσget : u.memo.get? σ.pc = some σ.depth) :
      σ = t.view g.code pc ∨ t.memo.get? σ.pc = some σ.depth := by
    rw [hget] at hσget
    by_cases hpc : σ.pc = pc
    · rw [if_pos hpc] at hσget
      refine .inl (hσ.ext hs hview (hpc.trans (pc_view _ _ _).symm) ?_)
      rw [depth_view]
      exact (Option.some.inj hσget).symm
    · rw [if_neg hpc] at hσget
      exact .inr hσget
  refine ⟨hcovered h.start, fun σ kind hσ hσget => ?_, fun σ τ hσ hσget hstep => ?_⟩
  · obtain rfl | hold := hlooked hσ hσget
    · exact hgood kind
    · exact h.faultless σ kind hσ hold
  · obtain rfl | hold := hlooked hσ hσget
    · exact .inl ((hawaits τ).mpr (.inl hstep))
    · exact hcovered (h.closed σ τ hσ hold hstep)

end Expansion

section Run

variable (hs : Analysed (g.subject limit)) (hlimit : limit ≤ 0xFFFE)

include hs hlimit

theorem Consistent.stepAt (hcursor : t.cursor = .running pc) (hsane : Sane g limit t)
    (hsound : Sound g limit t) (hcomplete : Complete g limit t) :
    Consistent g limit (t.stepAt g pc) := by
  have hstepped : Stepped g t pc (t.stepAt g pc) := stepped_stepAt hsane.stack
  have hview : Reachable (g.subject limit) (t.view g.code pc) := hsound.awaits _ (.running hcursor)
  have hdepth : t.stack.depth ≤ 0xFFFE := by
    have hle := hsane.stack.depth_le
    rw [hsane.limit_eq] at hle
    omega
  have hsane' := hsane.stepped hstepped
  cases outcome_of_stepped hsane.stack hsane.limit_eq hsane.size_eq hstepped with
  | ends hidle hwork hmemo hrec hgood =>
    refine .alive (alive_of_idle hidle) hsane' (hsound.leave hmemo hidle hwork)
      (hcomplete.leave hmemo hcursor hwork ⟨hgood, fun h => absurd ?_ hrec⟩)
    rwa [pc_view] at h
  | revisits hidle hwork hmemo hget =>
    have hold : t.memo.get? (t.view g.code pc).pc = some (t.view g.code pc).depth := by
      rwa [pc_view, depth_view]
    exact .alive (alive_of_idle hidle) hsane' (hsound.leave hmemo hidle hwork)
      (hcomplete.leave hmemo hcursor hwork
        ⟨fun kind => hcomplete.faultless _ kind hview hold, fun _ => hold⟩)
  | rejects hrej hblames => exact .rejected hrej (.blamed hview hblames)
  | conflicts hrej hrec hget hne =>
    obtain ⟨_, ρ, hρ, hpc, rfl⟩ := hsound.memo _ _ hget
    have htwo : Explained (g.subject limit) _ :=
      .twoDepths hview hρ (hpc.trans (pc_view _ _ _).symm) (by rwa [pc_view]) (by rwa [depth_view])
    rw [pc_view, depth_view] at htwo
    exact .rejected hrej htwo
  | expands hexec halive hnew hmemo hgood hawaits =>
    have hrec : Recorded g.code pc := by
      have hd := hexec.decodes
      rw [pc_view] at hd
      exact ⟨_, hd, hexec.not_terminator⟩
    have hlt : pc < t.memo.cells.size := by
      obtain ⟨_, hd, _⟩ := hrec
      rw [hsane.size_eq]
      exact lt_size_of_decodeAt hd
    exact .alive halive hsane' (hsound.expand hlt hdepth hmemo hcursor hawaits hrec)
      (hcomplete.expand hlt hdepth hmemo hcursor hawaits hs hsound hnew hgood)

omit hs hlimit in
theorem awaits_begin {k : Task} {rest : List Task} (hsane : Sane g limit t)
    (hcursor : t.cursor = .idle) (hperm : (k :: rest).Perm t.work)
    (hbegin : u = { t with
      stack := { t.stack with depth := k.depth }.enterBlock, work := rest }.enter g k.pc)
    (hle : k.depth ≤ t.stack.limit) : Awaits g.code u τ ↔ Awaits g.code t τ := by
  have hrunning : u.cursor = .running k.pc := hbegin ▸ rfl
  have hview : u.view g.code k.pc = k.entry :=
    view_of_forgotten (hsane.stack.withDepth hle) (hbegin ▸ rfl)
  rw [awaits_iff_of_running hrunning, awaits_iff_of_idle hcursor, hview]
  have hwork : u.work = rest := hbegin ▸ rfl
  simp only [hwork, ← hperm.mem_iff, List.mem_cons, exists_eq_or_imp]

theorem Consistent.step (scheduler : Scheduler) (h : Consistent g limit t)
    (hmore : t.isFinished = false) : Consistent g limit (t.step g scheduler) := by
  cases h with
  | rejected hrej _ => exact absurd hrej (alive_of_not_finished hmore _)
  | alive halive hsane hsound hcomplete =>
    cases hcursor : t.cursor with
    | rejected e => exact absurd hcursor (halive e)
    | running pc =>
      rw [step_of_running scheduler hcursor]
      exact .stepAt hs hlimit hcursor hsane hsound hcomplete
    | idle =>
      obtain ⟨k, rest, hperm, hstep⟩ := step_of_idle (g := g) scheduler hcursor hmore
      -- The entry that waits is reachable, and so its depth fits the stack.
      have hk : k.depth ≤ t.stack.limit := by
        have hreach := hsound.awaits _ (.waiting (hperm.subset List.mem_cons_self))
        have hle := hreach.depth_le
        rw [Task.entry, State.depth_blank] at hle
        rw [hsane.limit_eq]
        exact hle
      rw [begin_of_le (t := { t with work := rest }) hk] at hstep
      have hawaits {τ : State} := awaits_begin (τ := τ) hsane hcursor hperm hstep hk
      have hmemo : (t.step g scheduler).memo = t.memo := hstep ▸ rfl
      have hrunning : (t.step g scheduler).cursor = .running k.pc := hstep ▸ rfl
      refine .alive (alive_of_running hrunning) ⟨?_, ?_, ?_⟩
        (hsound.transfer hmemo fun τ => hawaits.mp)
        (hcomplete.transfer hmemo fun τ hτ => .inl (hawaits.mpr hτ))
      · rw [hstep]
        exact (hsane.stack.withDepth hk).enterBlock
      · rw [hstep]
        exact (SymbolicStack.limit_enterBlock _).trans hsane.limit_eq
      · rw [hmemo]
        exact hsane.size_eq

theorem Consistent.run (scheduler : Scheduler) (h : Consistent g limit t) :
    Consistent g limit (t.run g scheduler) ∧ (t.run g scheduler).isFinished = true := by
  fun_induction Traversal.run g scheduler t with
  | case1 t hdone => exact ⟨h, hdone⟩
  | case2 t hmore ih => exact ih (h.step hs hlimit scheduler (Bool.eq_false_iff.mpr hmore))

end Run

theorem consistent_start (g : Setting) (stackLimit : Nat) :
    Consistent g (min stackLimit stackCapacity) (start stackLimit g.code.size) := by
  have hnone (pc : Nat) : (start stackLimit g.code.size).memo.get? pc = none :=
    DepthMemo.get?_new _ _
  refine .alive (alive_of_idle rfl)
    ⟨SymbolicStack.wellFormed_new _, SymbolicStack.limit_new _, Array.size_replicate⟩
    ⟨fun τ hτ => ?_, fun pc depth hget => ?_⟩
    ⟨.inl (.waiting (k := ⟨0, 0⟩) (List.mem_singleton.mpr rfl)), fun σ kind _ hget => ?_,
      fun σ τ _ hget => ?_⟩
  · obtain ⟨k, hk, rfl⟩ := (awaits_iff_of_idle rfl).mp hτ
    rw [List.mem_singleton.mp hk]
    exact .start
  all_goals
    rw [hnone] at hget
    cases hget

/-- The memo is the table of the reachable depths, and no reachable state is at fault. -/
structure Accounts (s : Subject) (m : DepthMemo) : Prop where
  faultless : ∀ σ kind, Reachable s σ → ¬ Faults s σ kind
  get?_iff : ∀ pc depth, m.get? pc = some depth ↔
    Recorded s.code pc ∧ ∃ σ, Reachable s σ ∧ σ.pc = pc ∧ σ.depth = depth

theorem settled_of_idle (hcursor : t.cursor = .idle) (hwork : t.work = [])
    (h : Complete g limit t) (hσ : Reachable (g.subject limit) σ) :
    Settled (g.subject limit) t.memo σ := by
  have hsettled {τ : State} (hτ : Covered g limit t τ) : Settled (g.subject limit) t.memo τ := by
    obtain hτ | hτ := hτ
    · obtain ⟨k, hk, _⟩ := (awaits_iff_of_idle hcursor).mp hτ
      rw [hwork] at hk
      cases hk
    · exact hτ
  induction hσ with
  | start => exact hsettled h.start
  | @step σ τ hσ hstep ih =>
    refine hsettled (h.closed σ τ hσ (ih.2 ?_) hstep)
    cases hstep with
    | jump hexec => exact ⟨_, hexec.decodes, hexec.not_terminator⟩
    | next hexec => exact ⟨_, hexec.decodes, hexec.not_terminator⟩

section Ends

/-- A run that ends and accepts has looked at all that is reachable. -/
theorem Consistent.accounts {m : DepthMemo} (h : Consistent g limit t)
    (hdone : t.isFinished = true) (hverdict : t.verdict = .ok m) :
    Accounts (g.subject limit) m := by
  obtain ⟨halive, rfl⟩ := verdict_eq_ok_iff.mp hverdict
  cases h with
  | rejected hrej _ => exact absurd hrej (halive _)
  | alive _ _ hsound hcomplete =>
    obtain ⟨hidle, hwork⟩ := halive.idle_of_isFinished hdone
    have hsettled {σ : State} := settled_of_idle (σ := σ) hidle hwork hcomplete
    refine ⟨fun σ kind hσ => (hsettled hσ).1 kind, fun pc depth => ⟨hsound.memo pc depth, ?_⟩⟩
    rintro ⟨hrec, σ, hσ, rfl, rfl⟩
    exact (hsettled hσ).2 hrec

theorem Consistent.size_memo {m : DepthMemo} (h : Consistent g limit t)
    (hverdict : t.verdict = .ok m) : m.cells.size = g.code.size := by
  obtain ⟨halive, rfl⟩ := verdict_eq_ok_iff.mp hverdict
  cases h with
  | rejected hrej _ => exact absurd hrej (halive _)
  | alive _ hsane _ _ => exact hsane.size_eq

theorem Consistent.explained {e : VerifyError} (h : Consistent g limit t)
    (hverdict : t.verdict = .error e) : Explained (g.subject limit) e := by
  have hcursor := verdict_eq_error_iff.mp hverdict
  cases h with
  | rejected hrej hexplained => exact Cursor.rejected.inj (hrej.symm.trans hcursor) ▸ hexplained
  | alive halive _ _ _ => exact absurd hcursor (halive e)

theorem Accounts.get?_eq {s : Subject} {m m' : DepthMemo} (h : Accounts s m) (h' : Accounts s m')
    (pc : Nat) : m.get? pc = m'.get? pc := by
  refine Option.ext fun depth => ?_
  rw [h.get?_iff, h'.get?_iff]

theorem Accounts.not_explained {s : Subject} {m : DepthMemo} (h : Accounts s m) (e : VerifyError) :
    ¬ Explained s e := by
  rintro (⟨hσ, hblames⟩ | @⟨σ, ρ, hσ, hρ, hpc, hrec, hne⟩)
  · obtain ⟨kind, _, hfault⟩ := hblames.faults
    exact h.faultless _ kind hσ hfault
  · have hgetσ := (h.get?_iff σ.pc σ.depth).mpr ⟨hrec, σ, hσ, rfl, rfl⟩
    have hgetρ := (h.get?_iff σ.pc ρ.depth).mpr ⟨hrec, ρ, hρ, hpc, rfl⟩
    exact hne (Option.some.inj (hgetρ.symm.trans hgetσ))

end Ends

section Verdict

variable {scheduler : Scheduler} {stackLimit : Nat} (hcode : g.code.size ≤ maxOffset)
  (hdests : g.jumpDests = JumpDests.ofCode g.code)

include hcode hdests

theorem consistent_run (scheduler : Scheduler) (stackLimit : Nat) :
    Consistent g (min stackLimit stackCapacity)
        ((start stackLimit g.code.size).run g scheduler) ∧
      ((start stackLimit g.code.size).run g scheduler).isFinished = true := by
  have hlimit := SymbolicStack.min_stackCapacity_le stackLimit
  exact (consistent_start g stackLimit).run ⟨hdests, hcode⟩ hlimit scheduler

theorem accounts_of_verdict {m : DepthMemo}
    (h : ((start stackLimit g.code.size).run g scheduler).verdict = .ok m) :
    Accounts (g.subject (min stackLimit stackCapacity)) m := by
  obtain ⟨hcons, hdone⟩ := consistent_run hcode hdests scheduler stackLimit
  exact hcons.accounts hdone h

theorem explained_of_verdict {e : VerifyError}
    (h : ((start stackLimit g.code.size).run g scheduler).verdict = .error e) :
    Explained (g.subject (min stackLimit stackCapacity)) e :=
  (consistent_run hcode hdests scheduler stackLimit).1.explained h

end Verdict

end StackMachine.Traversal
