import StackMachine.Proofs.Traversal.Arrivals

namespace StackMachine.Traversal

open Exploration

variable {g : Setting} {t u : Traversal} {limit pc depth : Nat}

section Steps

theorem Moved.epoch_le (h : Moved g t u) (ht : t.stack.epoch ≤ SymbolicStack.lastEpoch) :
    u.stack.epoch ≤ SymbolicStack.lastEpoch := by
  cases h with
  | ended => exact ht
  | begun =>
    unfold Traversal.begin SymbolicStack.reset
    split
    · exact ht
    next stack hreset =>
      split at hreset
      · cases hreset
      · obtain rfl := Except.ok.inj hreset
        exact SymbolicStack.epoch_enterBlock_le ht
  | stepped _ hstep =>
    cases hstep with
    | runOff | malformed | haltRefused | halted | revisited | conflict | underflow | overflow
    | jumpRefused | branchRefused | jumpedListed => exact ht
    | jumpedStatic | branched | marked => exact SymbolicStack.epoch_enterBlock_le ht
    | @computed i a =>
      change (t.stack.act i.literal a).epoch ≤ _
      rw [SymbolicStack.epoch_act]
      exact ht

theorem Consistent.depth_le_of_mem_work {k : Task} (h : Consistent g limit t) (halive : t.Alive)
    (hk : k ∈ t.work) : k.depth ≤ limit := by
  cases h with
  | rejected hrej _ => exact absurd hrej (halive _)
  | alive _ _ hsound _ =>
    have hle := (hsound.awaits _ (.waiting hk)).depth_le
    rwa [Task.entry, State.depth_blank] at hle

/-- What a step adds to the memo is the depth at which it is made. -/
theorem Moved.get?_or_visits (h : Moved g t u) (hsane : Sane g limit t) (hlimit : limit ≤ 0xFFFE)
    (hget : u.memo.get? pc = some depth) :
    t.memo.get? pc = some depth ∨ t.cursor = .running pc ∧ t.stack.depth = depth := by
  cases h with
  | ended => exact .inl hget
  | begun =>
    rw [(begin_cases _ _ _).1] at hget
    exact .inl hget
  | @stepped q _ hcursor hstep =>
    obtain hmemo | hmemo := hstep.memo_eq <;> rw [hmemo] at hget
    · exact .inl hget
    by_cases hq : pc = q
    · subst hq
      have hlt : pc < t.memo.cells.size := by
        rw [← DepthMemo.size_record t.memo pc t.stack.depth]
        refine Nat.lt_of_not_le fun hle => ?_
        rw [DepthMemo.get?_of_size_le hle] at hget
        cases hget
      have hle := hsane.stack.depth_le
      rw [hsane.limit_eq] at hle
      rw [DepthMemo.get?_record_self hlt (Nat.le_trans hle hlimit)] at hget
      exact .inr ⟨hcursor, Option.some.inj hget⟩
    · rw [DepthMemo.get?_record_of_ne hq] at hget
      exact .inl hget

end Steps

section Run

variable {stackLimit n : Nat} (hs : Analysed (g.subject (min stackLimit stackCapacity)))
  (scheduler : Scheduler)

include hs

theorem exists_visit_of_get?
    (h : (stateAfter g scheduler stackLimit n).memo.get? pc = some depth) :
    ∃ m < n, (stateAfter g scheduler stackLimit m).cursor = .running pc ∧
      (stateAfter g scheduler stackLimit m).stack.depth = depth := by
  induction n with
  | zero => exact absurd ((DepthMemo.get?_new _ _).symm.trans h) (Option.some_ne_none _).symm
  | succ n ih =>
    have hlimit := SymbolicStack.min_stackCapacity_le stackLimit
    obtain hold | hvisit := (moved_stateAfter hs scheduler n).get?_or_visits
      (sane_stateAfter hs scheduler n) hlimit h
    · obtain ⟨m, hlt, hm⟩ := ih hold
      exact ⟨m, Nat.lt_succ_of_lt hlt, hm⟩
    · exact ⟨n, Nat.lt_succ_self n, hvisit⟩

theorem isOk_reset (hidle : (stateAfter g scheduler stackLimit n).cursor = .idle) :
    ∀ k ∈ (stateAfter g scheduler stackLimit n).work,
      ((stateAfter g scheduler stackLimit n).stack.reset k.depth).isOk = true := by
  intro k hk
  have hle := (consistent_stateAfter hs scheduler n).depth_le_of_mem_work (alive_of_idle hidle) hk
  rw [← (sane_stateAfter hs scheduler n).limit_eq] at hle
  rw [SymbolicStack.reset_of_le hle]
  rfl

end Run

end StackMachine.Traversal
