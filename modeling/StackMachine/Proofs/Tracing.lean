import StackMachine.Proofs.LinearWork
import StackMachine.Proofs.Traversal.Following

namespace StackMachine

open Traversal

variable {code : Code} {tables : JumpTables} {cfg cfg' : Config}

section Verifications

theorem follows_traverse (code : Code) (tables : JumpTables) (mask : TraceMask)
    (h : min cfg.stackLimit stackCapacity ≤ min cfg'.stackLimit stackCapacity) :
    Overflowed (min cfg.stackLimit stackCapacity) (min cfg'.stackLimit stackCapacity)
        (traverse code tables cfg TraceMask.all) ∨
      Follows mask (min cfg.stackLimit stackCapacity) (min cfg'.stackLimit stackCapacity)
        (traverse code tables cfg TraceMask.all) (traverse code tables cfg' mask) := by
  apply Follows.run
  exact ⟨rfl, rfl, rfl, SymbolicStack.widens_new h, rfl, nofun⟩

theorem follows_traverse_self (code : Code) (tables : JumpTables) (cfg : Config)
    (mask : TraceMask) : Follows mask (min cfg.stackLimit stackCapacity)
      (min cfg.stackLimit stackCapacity)
      (traverse code tables cfg TraceMask.all) (traverse code tables cfg mask) := by
  obtain hover | hfollows := follows_traverse code tables mask (Nat.le_refl _)
  · exact absurd hover.1 (Nat.lt_irrefl _)
  · exact hfollows

theorem verifyTraced_eq_filter (code : Code) (tables : JumpTables) (cfg : Config)
    (mask : TraceMask) : verifyTraced code tables cfg mask =
      ((verifyTraced code tables cfg TraceMask.all).1,
        (verifyTraced code tables cfg TraceMask.all).2.filter fun e => mask.has e.class) := by
  by_cases hle : code.size ≤ cfg.lengthBound
  · have hfollows := follows_traverse_self code tables cfg mask
    rw [verifyTraced_of_le hle, verifyTraced_of_le hle, hfollows.verdict_eq, hfollows.log_eq,
      List.filter_append, List.filter_reverse, filter_record, filter_record, List.filter_nil]
  · have hlt := Nat.lt_of_not_le hle
    rw [verifyTraced_of_lt hlt, verifyTraced_of_lt hlt, List.filter_append, filter_record,
      filter_record, List.filter_nil]

theorem verifyTraced_fst (code : Code) (tables : JumpTables) (cfg : Config) (mask : TraceMask) :
    (verifyTraced code tables cfg mask).1 = verify code tables cfg := by
  rw [verify, verifyTraced_eq_filter code tables cfg mask,
    verifyTraced_eq_filter code tables cfg TraceMask.none]

theorem lt_of_verify_codeTooLarge {length max : Nat}
    (h : verify code tables cfg = .error (.codeTooLarge length max)) :
    cfg.lengthBound < code.size := by
  obtain ⟨hlt, _⟩ | ⟨_, hexplained⟩ := explained_of_verifyOwned (verify_eq_error_iff.mp h)
  · exact hlt
  · cases hexplained with
    | blamed _ hblames => cases hblames

theorem exists_inner_events (code : Code) (tables : JumpTables) (cfg : Config) : ∃ inner,
    allEvents code tables cfg = .runStart code.size tables.size ::
        (inner ++ [.runEnd (outcomeOf (verify code tables cfg))]) ∧
      (∀ e ∈ inner, e.class ≠ .run) ∧
      (cfg.lengthBound < code.size → inner = []) := by
  rw [← verifyTraced_fst code tables cfg TraceMask.all, allEvents]
  by_cases hle : code.size ≤ cfg.lengthBound
  · refine ⟨(traverse code tables cfg TraceMask.all).log.reverse, ?_, fun e he => ?_, fun hlt => ?_⟩
    · rw [verifyTraced_of_le hle]
      cases (traverse code tables cfg TraceMask.all).verdict <;>
        exact congrArg (_ :: ·) (List.reverse_cons ..)
    · have hfollows := follows_traverse_self code tables cfg TraceMask.all
      exact hfollows.inner e (List.mem_reverse.mp he)
    · exact absurd hle (Nat.not_le.mpr hlt)
  · refine ⟨[], ?_, fun _ he => absurd he List.not_mem_nil, fun _ => rfl⟩
    rw [verifyTraced_of_lt (Nat.lt_of_not_le hle)]
    rfl

end Verifications

/-- Recording is without effect on the result, and both ways of verifying have the same one. A mask
records what is recorded altogether, less the other classes, and that begins with the sizes, ends
with the result, and has no other report of the run. -/
theorem recording_observes (code : Code) (tables : JumpTables) (cfg : Config) :
    (∀ mask, (verifyTraced code tables cfg mask).1 = verify code tables cfg) ∧
    (verify code tables cfg = .ok () ↔ ∃ v, verifyOwned code tables cfg = .ok v) ∧
    (∀ e, verify code tables cfg = .error e ↔ verifyOwned code tables cfg = .error e) ∧
    (∀ mask, (verifyTraced code tables cfg mask).2 =
      (verifyTraced code tables cfg TraceMask.all).2.filter fun e => mask.has e.class) ∧
    ∃ inner,
      (verifyTraced code tables cfg TraceMask.all).2 = .runStart code.size tables.size ::
        (inner ++ [.runEnd (outcomeOf (verify code tables cfg))]) ∧
      (∀ e ∈ inner, e.class ≠ .run) ∧
      ∀ length max, verify code tables cfg = .error (.codeTooLarge length max) → inner = [] := by
  obtain ⟨inner, hevents, hinner, hnone⟩ := exists_inner_events code tables cfg
  refine ⟨verifyTraced_fst code tables cfg, verify_eq_ok_iff, fun e => verify_eq_error_iff,
    fun mask => ?_, inner, hevents, hinner, fun _ _ h => hnone (lt_of_verify_codeTooLarge h)⟩
  rw [verifyTraced_eq_filter]

theorem recording_observes_too_large :
    verify #[0x5B, 0x5B, 0x00] JumpTables.empty ⟨2, 1024⟩ = .error (.codeTooLarge 3 2) ∧
      (verifyTraced #[0x5B, 0x5B, 0x00] JumpTables.empty ⟨2, 1024⟩ TraceMask.all).2 =
        [.runStart 3 0, .runEnd (some (.codeTooLarge 3 2))] := by
  have hverify : verify #[0x5B, 0x5B, 0x00] JumpTables.empty ⟨2, 1024⟩ =
      .error (.codeTooLarge 3 2) := verify_eq_error_iff.mpr (verifyOwned_of_lt (by decide))
  obtain ⟨_, _, _, _, inner, hevents, _, hnone⟩ :=
    recording_observes #[0x5B, 0x5B, 0x00] JumpTables.empty ⟨2, 1024⟩
  refine ⟨hverify, ?_⟩
  rw [hevents, hnone 3 2 hverify, hverify]
  rfl

end StackMachine
