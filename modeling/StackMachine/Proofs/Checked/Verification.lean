import StackMachine.Proofs.Checked.Traversal
import StackMachine.Proofs.LayoutAgreement

namespace StackMachine

open Exploration Traversal

variable {code : Code} {tables : JumpTables} {cfg : Config} {mask : TraceMask}

namespace Checked

def traverse? (code : Code) (tables : JumpTables) (cfg : Config) (mask : TraceMask) :
    Option Traversal := do
  let bits ← jumpDests? code
  run? (Setting.of code tables mask) bits (Traversal.start cfg.stackLimit code.size)

def verifyTraced? (code : Code) (tables : JumpTables) (cfg : Config) (mask : TraceMask) :
    Option (Except VerifyError Unit × List Event) :=
  let opening := mask.record (.runStart code.size tables.size) []
  match checkLength code cfg with
  | .error e => some (.error e, opening ++ mask.record (.runEnd (some e)) [])
  | .ok () => do
    let last ← traverse? code tables cfg mask
    let verdict := last.verdict
    return (verdict.map fun _ => (),
      opening ++ (mask.record (.runEnd (outcomeOf verdict)) last.log).reverse)

def verify? (code : Code) (tables : JumpTables) (cfg : Config) :
    Option (Except VerifyError Unit) := do
  let traced ← verifyTraced? code tables cfg TraceMask.none
  return traced.1

def verifyOwned? (code : Code) (tables : JumpTables) (cfg : Config) :
    Option (Except VerifyError VerifiedCode) :=
  match checkLength code cfg with
  | .error e => some (.error e)
  | .ok () => do
    let last ← traverse? code tables cfg TraceMask.none
    match last.verdict with
    | .error e => return .error e
    | .ok memo => return .ok ⟨code, tables, JumpDests.ofCode code, memo⟩

theorem orderly_start (g : Setting) (stackLimit : Nat) :
    Orderly g (min stackLimit stackCapacity) (start stackLimit g.code.size) where
  consistent := consistent_start g stackLimit
  sane := ⟨SymbolicStack.wellFormed_new _, SymbolicStack.limit_new _, Array.size_replicate⟩
  epoch_le := Nat.succ_le_of_lt (Nat.zero_lt_succ _)

theorem traverse?_eq (hle : code.size ≤ cfg.lengthBound) :
    traverse? code tables cfg mask = some (traverse code tables cfg mask) := by
  have hs : Analysed ((Setting.of code tables mask).subject (min cfg.stackLimit stackCapacity)) :=
    analysed_of_le hle
  obtain ⟨bits, hdests, hbits⟩ := exists_jumpDests? code
  rw [traverse?, hdests, Option.bind_eq_bind, Option.bind_some]
  exact run?_eq hs (SymbolicStack.min_stackCapacity_le _) hbits (orderly_start _ _)

theorem verifyTraced?_eq (code : Code) (tables : JumpTables) (cfg : Config) (mask : TraceMask) :
    verifyTraced? code tables cfg mask = some (verifyTraced code tables cfg mask) := by
  unfold verifyTraced? verifyTraced checkLength
  by_cases hlt : cfg.lengthBound < code.size
  · rw [if_pos hlt]
  · rw [if_neg hlt]
    simp only [traverse?_eq (Nat.le_of_not_lt hlt), Option.bind_eq_bind, Option.bind_some]
    rfl

theorem verify?_eq (code : Code) (tables : JumpTables) (cfg : Config) :
    verify? code tables cfg = some (verify code tables cfg) := by
  rw [verify?, verifyTraced?_eq]
  rfl

theorem verifyOwned?_eq (code : Code) (tables : JumpTables) (cfg : Config) :
    verifyOwned? code tables cfg = some (verifyOwned code tables cfg) := by
  unfold verifyOwned? verifyOwned checkLength
  by_cases hlt : cfg.lengthBound < code.size
  · rw [if_pos hlt]
  · rw [if_neg hlt]
    simp only [traverse?_eq (Nat.le_of_not_lt hlt), Option.bind_eq_bind, Option.bind_some]
    cases (traverse code tables cfg TraceMask.none).verdict <;> rfl

end Checked

theorem not_outOfBounds_of_verifyTraced (code : Code) (tables : JumpTables) (cfg : Config)
    (mask : TraceMask) (pc q : Nat) :
    (verifyTraced code tables cfg mask).1 ≠ .error (.malformedInstruction pc (.outOfBounds q)) := by
  intro h
  obtain htooLarge | ⟨hle, _⟩ := verdict_of_verifyTraced h
  · cases htooLarge
  have hcode := size_le_of_lengthBound hle
  obtain ⟨p, hlt, _, hd⟩ := (mem_layout_iff hcode).mp (mem_layout_of_malformed h).1
  exact Checked.decodeAt_ne_outOfBounds hcode hlt q hd

/-- Verification hits no partial operation, and what it treats as impossible does not happen. Depths
stay within the limit of the stack, the memo holds the depths of the visits themselves, a task that
is begun fits the stack, and no instruction is out of bounds. -/
theorem verification_within_bounds (code : Code) (tables : JumpTables) (cfg : Config) :
    Checked.verify? code tables cfg = some (verify code tables cfg) ∧
    Checked.verifyOwned? code tables cfg = some (verifyOwned code tables cfg) ∧
    (code.size ≤ cfg.lengthBound → ∀ mask n,
      (traversalAfter code tables cfg mask n).stack.depth ≤
          (traversalAfter code tables cfg mask n).stack.limit ∧
        (traversalAfter code tables cfg mask n).stack.limit = min cfg.stackLimit 1024 ∧
        (∀ pc depth, (traversalAfter code tables cfg mask n).memo.get? pc = some depth →
          ∃ m < n, (traversalAfter code tables cfg mask m).cursor = .running pc ∧
            (traversalAfter code tables cfg mask m).stack.depth = depth) ∧
        ((traversalAfter code tables cfg mask n).cursor = .idle →
          ∀ k ∈ (traversalAfter code tables cfg mask n).work,
            ((traversalAfter code tables cfg mask n).stack.reset k.depth).isOk = true)) ∧
    (∀ pc q, verify code tables cfg ≠ .error (.malformedInstruction pc (.outOfBounds q))) ∧
    ∀ pc q, verifyOwned code tables cfg ≠ .error (.malformedInstruction pc (.outOfBounds q)) := by
  refine ⟨Checked.verify?_eq code tables cfg, Checked.verifyOwned?_eq code tables cfg,
    fun hle mask n => ?_, not_outOfBounds_of_verifyTraced code tables cfg TraceMask.none,
    fun pc q h => ?_⟩
  · have hs : Analysed
        ((Setting.of code tables mask).subject (min cfg.stackLimit stackCapacity)) :=
      analysed_of_le hle
    have hsane := sane_stateAfter hs Scheduler.newest n
    exact ⟨hsane.stack.depth_le, hsane.limit_eq,
      fun pc depth hget => exists_visit_of_get? hs Scheduler.newest hget,
      isOk_reset hs Scheduler.newest⟩
  · refine not_outOfBounds_of_verifyTraced code tables cfg TraceMask.none pc q ?_
    change verify code tables cfg = _
    rw [verify_eq_map, h]
    rfl

theorem verification_within_bounds_loop :
    (#[0x5B, 0x60, 0x00, 0x56] : Code).size ≤ Config.lengthBound {} ∧
      (traversalAfter #[0x5B, 0x60, 0x00, 0x56] JumpTables.empty {} TraceMask.none 3).memo.get? 1 =
        some 0 ∧
      ∃ m < 3, (traversalAfter #[0x5B, 0x60, 0x00, 0x56] JumpTables.empty {} TraceMask.none
          m).cursor = .running 1 ∧
        (traversalAfter #[0x5B, 0x60, 0x00, 0x56] JumpTables.empty {} TraceMask.none
          m).stack.depth = 0 := by
  have hle : (#[0x5B, 0x60, 0x00, 0x56] : Code).size ≤ Config.lengthBound {} := by decide
  have hget : (traversalAfter #[0x5B, 0x60, 0x00, 0x56] JumpTables.empty {} TraceMask.none
      3).memo.get? 1 = some 0 := by decide +kernel
  obtain ⟨_, _, hstates, _⟩ :=
    verification_within_bounds #[0x5B, 0x60, 0x00, 0x56] JumpTables.empty {}
  obtain ⟨_, _, hvisits, _⟩ := hstates hle TraceMask.none 3
  exact ⟨hle, hget, hvisits 1 0 hget⟩

end StackMachine
