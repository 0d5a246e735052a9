import Mathlib.Logic.Relation
import StackMachine.Proofs.Agreement

namespace StackMachine

namespace Traversal

open Exploration

variable {g : Setting} {limit pc : Nat} {t u : Traversal}

/-- A step of a run that has not ended, with any task taken where one is due. -/
def Advances (g : Setting) (t u : Traversal) : Prop :=
  t.isFinished = false ∧ ∃ scheduler : Scheduler, u = t.step g scheduler

/-- A run to its end. The choice of tasks may change from step to step. -/
def EndsIn (g : Setting) (t u : Traversal) : Prop :=
  Relation.ReflTransGen (Advances g) t u ∧ u.isFinished = true

section Choices

theorem advances_iff_of_running (h : t.cursor = .running pc) :
    Advances g t u ↔ u = t.stepAt g pc := by
  constructor
  · rintro ⟨_, scheduler, rfl⟩
    exact step_of_running scheduler h
  · rintro rfl
    refine ⟨by rw [isFinished, h], Scheduler.newest, ?_⟩
    exact (step_of_running Scheduler.newest h).symm

theorem exists_append_of_take? {position : Nat} {work rest : List Task} {k : Task}
    (h : take? position work = some (k, rest)) :
    ∃ before after, work = before ++ k :: after ∧ rest = before ++ after := by
  unfold take? at h
  cases hget : work[position]? with
  | some next =>
    simp only [hget, Option.some.injEq, Prod.mk.injEq] at h
    obtain ⟨rfl, rfl⟩ := h
    obtain ⟨hlt, hk⟩ := List.getElem?_eq_some_iff.mp hget
    refine ⟨work.take position, work.drop (position + 1), ?_, List.eraseIdx_eq_take_drop_succ ..⟩
    rw [← hk, ← List.drop_eq_getElem_cons hlt, List.take_append_drop]
  | none =>
    cases work with
    | nil => simp at h
    | cons next after =>
      simp only [hget, Option.some.injEq, Prod.mk.injEq] at h
      obtain ⟨rfl, rfl⟩ := h
      exact ⟨[], after, rfl, rfl⟩

theorem take?_append (before after : List Task) (k : Task) :
    take? before.length (before ++ k :: after) = some (k, before ++ after) := by
  have hget : (before ++ k :: after)[before.length]? = some k := by simp
  have herase : (before ++ k :: after).eraseIdx before.length = before ++ after := by
    rw [List.eraseIdx_append_of_length_le (Nat.le_refl _), Nat.sub_self, List.eraseIdx_cons_zero]
  unfold take?
  simp only [hget, herase]

theorem advances_iff_of_idle (h : t.cursor = .idle) : Advances g t u ↔
    ∃ before k after, t.work = before ++ k :: after ∧
      u = { t with work := before ++ after }.begin g k := by
  constructor
  · rintro ⟨hmore, scheduler, rfl⟩
    cases htake : take? (scheduler t) t.work with
    | none =>
      rw [isFinished, h, take?_eq_none_iff.mp htake] at hmore
      cases hmore
    | some taken =>
      obtain ⟨k, rest⟩ := taken
      obtain ⟨before, after, hwork, rfl⟩ := exists_append_of_take? htake
      refine ⟨before, k, after, hwork, ?_⟩
      rw [step, h]
      simp only [htake]
  · rintro ⟨before, k, after, hwork, rfl⟩
    refine ⟨by simp [isFinished, h, hwork], fun _ => before.length, ?_⟩
    rw [step, h, hwork]
    simp only [take?_append]

end Choices

section Endings

theorem wellFounded_advances (g : Setting) : WellFounded fun u t => Advances g t u := by
  -- A step visits a new offset, or it leaves less to do.
  refine Subrelation.wf ?_ (InvImage.wf (fun t : Traversal => (t.memo.remaining, t.load))
    (Prod.lex ⟨_, Nat.lt_wfRel.wf⟩ ⟨_, Nat.lt_wfRel.wf⟩).wf)
  rintro u t ⟨hmore, scheduler, rfl⟩
  exact step_decreases g scheduler hmore

theorem endsIn_run (g : Setting) (scheduler : Scheduler) (t : Traversal) :
    EndsIn g t (t.run g scheduler) := by
  fun_induction Traversal.run g scheduler t with
  | case1 t hdone => exact ⟨.refl, hdone⟩
  | case2 t hmore ih =>
    exact ⟨.head ⟨Bool.eq_false_iff.mpr hmore, scheduler, rfl⟩ ih.1, ih.2⟩

variable (hs : Analysed (g.subject limit)) (hlimit : limit ≤ 0xFFFE)

include hs hlimit

theorem Consistent.advances (h : Consistent g limit t) (hstep : Advances g t u) :
    Consistent g limit u := by
  obtain ⟨hmore, scheduler, rfl⟩ := hstep
  exact h.step hs hlimit scheduler hmore

theorem Consistent.endsIn (h : Consistent g limit t) (hrun : EndsIn g t u) :
    Consistent g limit u := by
  obtain ⟨hsteps, -⟩ := hrun
  induction hsteps with
  | refl => exact h
  | tail _ hstep ih => exact ih.advances hs hlimit hstep

end Endings

theorem verdict_eq_ok_of_consistent {g' : Setting} {m : DepthMemo}
    (hg : g'.subject limit = g.subject limit) (ht : Consistent g limit t)
    (hu : Consistent g' limit u) (htdone : t.isFinished = true) (hudone : u.isFinished = true)
    (h : t.verdict = .ok m) : u.verdict = .ok m := by
  have haccounts := ht.accounts htdone h
  cases hverdict : u.verdict with
  | error e =>
    have hexplained := hu.explained hverdict
    rw [hg] at hexplained
    exact absurd hexplained (haccounts.not_explained e)
  | ok m' =>
    have haccounts' := hu.accounts hudone hverdict
    rw [hg] at haccounts'
    have hcode : g'.code = g.code := congrArg Subject.code hg
    have hsize : m'.cells.size = m.cells.size := by
      rw [hu.size_memo hverdict, ht.size_memo h, hcode]
    exact congrArg Except.ok (DepthMemo.eq_of_get?_eq hsize (haccounts'.get?_eq haccounts))

end Traversal

open Exploration Traversal

variable {code : Code} {tables : JumpTables} {cfg : Config}

/-- What a verification comes to that takes the tasks in whatever order. -/
inductive ComesTo (code : Code) (tables : JumpTables) (cfg : Config) :
    Except VerifyError DepthMemo → Prop where
  | tooLong {e : VerifyError} : checkLength code cfg = .error e → ComesTo code tables cfg (.error e)
  | traversed {mask : TraceMask} {t : Traversal} : checkLength code cfg = .ok () →
      EndsIn (Setting.of code tables mask) (start cfg.stackLimit code.size) t →
      ComesTo code tables cfg t.verdict

def verdictUnder (scheduler : Scheduler) (code : Code) (tables : JumpTables) (cfg : Config) :
    Except VerifyError DepthMemo :=
  match checkLength code cfg with
  | .error e => .error e
  | .ok () => (Traversal.run (Setting.of code tables TraceMask.none) scheduler
      (start cfg.stackLimit code.size)).verdict

theorem verifyOwned_eq_verdictUnder (code : Code) (tables : JumpTables) (cfg : Config) :
    verifyOwned code tables cfg = (verdictUnder Scheduler.newest code tables cfg).map
      fun memo => ⟨code, tables, JumpDests.ofCode code, memo⟩ := by
  by_cases hle : code.size ≤ cfg.lengthBound
  · rw [verifyOwned_of_le hle, verdictUnder, checkLength, if_neg (Nat.not_lt.mpr hle)]
    rfl
  · have hlt : cfg.lengthBound < code.size := Nat.lt_of_not_le hle
    rw [verifyOwned_of_lt hlt, verdictUnder, checkLength, if_pos hlt]
    rfl

theorem comesTo_verdictUnder (scheduler : Scheduler) (code : Code) (tables : JumpTables)
    (cfg : Config) : ComesTo code tables cfg (verdictUnder scheduler code tables cfg) := by
  unfold verdictUnder
  cases hlength : checkLength code cfg with
  | error e => exact .tooLong hlength
  | ok _ => exact .traversed hlength (endsIn_run _ scheduler _)

theorem size_le_of_checkLength (h : checkLength code cfg = .ok ()) : code.size ≤ maxOffset := by
  have hle : code.size ≤ cfg.lengthBound := by
    refine Nat.le_of_not_lt fun hlt => ?_
    rw [checkLength, if_pos hlt] at h
    cases h
  exact size_le_of_lengthBound hle

theorem consistent_of_endsIn {mask : TraceMask} {t : Traversal} (hcode : code.size ≤ maxOffset)
    (h : EndsIn (Setting.of code tables mask) (start cfg.stackLimit code.size) t) :
    Consistent (Setting.of code tables mask) (min cfg.stackLimit stackCapacity) t := by
  have hs : Analysed ((Setting.of code tables mask).subject (min cfg.stackLimit stackCapacity)) :=
    ⟨rfl, hcode⟩
  have hlimit := SymbolicStack.min_stackCapacity_le cfg.stackLimit
  exact (consistent_start (Setting.of code tables mask) cfg.stackLimit).endsIn hs hlimit h

theorem eq_ok_of_comesTo {r r' : Except VerifyError DepthMemo} {m : DepthMemo}
    (h : ComesTo code tables cfg r) (h' : ComesTo code tables cfg r') (hr : r = .ok m) :
    r' = .ok m := by
  cases h with
  | tooLong _ => cases hr
  | @traversed mask t hlength hrun =>
    cases h' with
    | tooLong hlength' =>
      rw [hlength] at hlength'
      cases hlength'
    | @traversed mask' u _ hrun' =>
      have ht := consistent_of_endsIn (size_le_of_checkLength hlength) hrun
      have hu := consistent_of_endsIn (size_le_of_checkLength hlength) hrun'
      have hsame : (Setting.of code tables mask').subject (min cfg.stackLimit stackCapacity) =
          (Setting.of code tables mask).subject (min cfg.stackLimit stackCapacity) := rfl
      exact verdict_eq_ok_of_consistent hsame ht hu hrun.2 hrun'.2 hr

/-- The order in which tasks are taken decides neither whether code is accepted nor the memo. A
verification takes the newest first. -/
theorem verdict_independent_of_order (code : Code) (tables : JumpTables) (cfg : Config) :
    verifyOwned code tables cfg = (verdictUnder Scheduler.newest code tables cfg).map
        (fun memo => ⟨code, tables, JumpDests.ofCode code, memo⟩) ∧
      (∀ scheduler, ComesTo code tables cfg (verdictUnder scheduler code tables cfg)) ∧
      ∀ r r', ComesTo code tables cfg r → ComesTo code tables cfg r' →
        ∀ m, r = .ok m ↔ r' = .ok m := by
  refine ⟨verifyOwned_eq_verdictUnder code tables cfg,
    fun scheduler => comesTo_verdictUnder scheduler code tables cfg, ?_⟩
  intro r r' h h' m
  exact ⟨eq_ok_of_comesTo h h', eq_ok_of_comesTo h' h⟩

end StackMachine
