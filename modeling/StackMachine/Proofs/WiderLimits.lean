import StackMachine.Proofs.Tracing

namespace StackMachine

open Traversal

variable {code : Code} {tables : JumpTables} {cfg cfg' : Config} {e : VerifyError}

section Limits

/-- The limits of `cfg'` allow whatever those of `cfg` allow. The stack of either has no more room
than the machine's. -/
structure Config.Widens (cfg' cfg : Config) : Prop where
  maxCodeLength_le : cfg.maxCodeLength ≤ cfg'.maxCodeLength
  stackLimit_le : min cfg.stackLimit stackCapacity ≤ min cfg'.stackLimit stackCapacity

namespace Config.Widens

variable (h : cfg'.Widens cfg)

include h

theorem lengthBound_le : cfg.lengthBound ≤ cfg'.lengthBound :=
  Nat.le_min.mpr ⟨Nat.le_trans (Nat.min_le_left _ _) h.maxCodeLength_le, Nat.min_le_right _ _⟩

theorem verdict (code : Code) (tables : JumpTables) :
    (∃ pc depth limit, (traverse code tables cfg TraceMask.none).verdict =
        .error (.stackOverflow pc depth limit)) ∨
      (traverse code tables cfg' TraceMask.none).verdict =
        (traverse code tables cfg TraceMask.none).verdict := by
  rw [(follows_traverse_self code tables cfg TraceMask.none).verdict_eq]
  obtain ⟨-, pc, depth, hcursor⟩ | hfollows :=
    follows_traverse code tables TraceMask.none h.stackLimit_le
  · refine .inl ⟨pc, depth, min cfg.stackLimit stackCapacity, ?_⟩
    rw [Traversal.verdict, hcursor]
  · exact .inr hfollows.verdict_eq

theorem verifyOwned_eq
    (hlength : ∀ length max, verifyOwned code tables cfg ≠ .error (.codeTooLarge length max))
    (hroom : ∀ pc depth limit,
      verifyOwned code tables cfg ≠ .error (.stackOverflow pc depth limit)) :
    verifyOwned code tables cfg' = verifyOwned code tables cfg := by
  by_cases hle : code.size ≤ cfg.lengthBound
  · have hle' := Nat.le_trans hle h.lengthBound_le
    rw [verifyOwned_of_le hle, verifyOwned_of_le hle']
    obtain ⟨pc, depth, limit, hover⟩ | hsame := h.verdict code tables
    · refine absurd ?_ (hroom pc depth limit)
      rw [verifyOwned_of_le hle, hover]
      rfl
    · rw [hsame]
  · exact absurd (verifyOwned_of_lt (Nat.lt_of_not_le hle)) (hlength _ _)

theorem verifyOwned_eq_ok {v : VerifiedCode} (hv : verifyOwned code tables cfg = .ok v) :
    verifyOwned code tables cfg' = .ok v := by
  rw [h.verifyOwned_eq] <;> simp [hv]

theorem verify_eq_error (he : verify code tables cfg = .error e)
    (hlength : ∀ length max, e ≠ .codeTooLarge length max)
    (hroom : ∀ pc depth limit, e ≠ .stackOverflow pc depth limit) :
    verify code tables cfg' = .error e := by
  rw [verify_eq_error_iff] at he ⊢
  rw [h.verifyOwned_eq] <;> simp [he, hlength, hroom]

end Config.Widens

theorem Config.widens_default (h : cfg.maxCodeLength ≤ 24576) : Config.Widens {} cfg where
  maxCodeLength_le := h
  stackLimit_le := Nat.min_le_right cfg.stackLimit stackCapacity

theorem isValid_of_verifyOwned (hle : cfg.maxCodeLength ≤ 24576) {v : VerifiedCode}
    (hv : verifyOwned code tables cfg = .ok v) : isValid v.code v.tables = true := by
  have haccepted := (Config.widens_default hle).verifyOwned_eq_ok hv
  obtain ⟨-, m, -, rfl⟩ := verifyOwned_eq_ok_iff.mp hv
  rw [isValid, verify_eq_ok_iff.mpr ⟨_, haccepted⟩]
  rfl

theorem new_eq_of_stackCapacity_le {limit limit' : Nat} (h : stackCapacity ≤ limit)
    (h' : stackCapacity ≤ limit') : SymbolicStack.new limit = SymbolicStack.new limit' := by
  rw [SymbolicStack.new, SymbolicStack.new, Nat.min_eq_right h, Nat.min_eq_right h']

end Limits

/-- Verification is monotone in its limits: under wider ones accepted code has the same result, and
so has code that is rejected for anything but a limit. So code that is accepted with a bound on its
length of at most the default one is valid, and limits beyond the machine's stack make no
difference. -/
theorem wider_limits (code : Code) (tables : JumpTables) :
    (∀ cfg cfg' : Config, cfg.maxCodeLength ≤ cfg'.maxCodeLength →
      cfg.stackLimit ≤ cfg'.stackLimit →
      (∀ v, verifyOwned code tables cfg = .ok v → ∃ v',
        verifyOwned code tables cfg' = .ok v' ∧ ∀ pc, v'.depthAt? pc = v.depthAt? pc) ∧
      ∀ e, verify code tables cfg = .error e → (∀ length max, e ≠ .codeTooLarge length max) →
        (∀ pc depth limit, e ≠ .stackOverflow pc depth limit) →
        verify code tables cfg' = .error e) ∧
    (∀ (cfg : Config) (v : VerifiedCode), cfg.maxCodeLength ≤ 24576 →
      verifyOwned code tables cfg = .ok v → isValid v.code v.tables = true) ∧
    ∀ max limit limit', stackCapacity ≤ limit → stackCapacity ≤ limit' →
      verifyOwned code tables ⟨max, limit⟩ = verifyOwned code tables ⟨max, limit'⟩ ∧
      ∀ mask, verifyTraced code tables ⟨max, limit⟩ mask =
        verifyTraced code tables ⟨max, limit'⟩ mask := by
  refine ⟨fun cfg cfg' hlength hstack => ?_, fun cfg v hle => isValid_of_verifyOwned hle,
    fun max limit limit' hlimit hlimit' => ?_⟩
  · have hwidens : cfg'.Widens cfg := ⟨hlength, by omega⟩
    exact ⟨fun v hv => ⟨v, hwidens.verifyOwned_eq_ok hv, fun _ => rfl⟩,
      fun e => hwidens.verify_eq_error⟩
  · have htraverse (mask : TraceMask) :
        traverse code tables ⟨max, limit⟩ mask = traverse code tables ⟨max, limit'⟩ mask := by
      rw [traverse, traverse, start, start, new_eq_of_stackCapacity_le hlimit hlimit']
    constructor
    · rw [verifyOwned, verifyOwned, htraverse]
      rfl
    · intro mask
      rw [verifyTraced, verifyTraced, htraverse]
      rfl

theorem wider_limits_jumps :
    (∃ v, verifyOwned #[0x60, 0x03, 0x56, 0x5B, 0x00] JumpTables.empty ⟨5, 1⟩ = .ok v ∧
      (∃ v', verifyOwned #[0x60, 0x03, 0x56, 0x5B, 0x00] JumpTables.empty ⟨48, 7⟩ = .ok v' ∧
        ∀ pc, v'.depthAt? pc = v.depthAt? pc) ∧
      isValid v.code v.tables = true) ∧
    verify #[0x56] JumpTables.empty ⟨5, 1⟩ = .error (.stackUnderflow 0 0 1) ∧
    verify #[0x56] JumpTables.empty ⟨48, 7⟩ = .error (.stackUnderflow 0 0 1) ∧
    verifyOwned #[0x56] JumpTables.empty ⟨5, 1024⟩ =
      verifyOwned #[0x56] JumpTables.empty ⟨5, 5000⟩ := by
  have hends : endsAccepted #[0x60, 0x03, 0x56, 0x5B, 0x00] JumpTables.empty ⟨5, 1⟩ 6 = true := by
    decide +kernel
  obtain ⟨v, hv⟩ := exists_ok_of_endsAccepted 6 (by decide) hends
  have hrejected : (stepsFromStart #[0x56] JumpTables.empty ⟨5, 1⟩ 2).cursor =
      .rejected (.stackUnderflow 0 0 1) := by decide +kernel
  have hdone : (stepsFromStart #[0x56] JumpTables.empty ⟨5, 1⟩ 2).isFinished = true := by
    rw [isFinished, hrejected]
  have hunderflow : verify #[0x56] JumpTables.empty ⟨5, 1⟩ = .error (.stackUnderflow 0 0 1) := by
    rw [verify_eq_error_iff, verifyOwned_eq_iterate 2 (by decide) hdone, verdict, hrejected]
    rfl
  obtain ⟨hmono, hvalid, -⟩ :=
    wider_limits #[0x60, 0x03, 0x56, 0x5B, 0x00] JumpTables.empty
  obtain ⟨hmono', -, hsame⟩ := wider_limits #[0x56] JumpTables.empty
  refine ⟨⟨v, hv, ?_, hvalid _ v (by decide) hv⟩, hunderflow, ?_, ?_⟩
  · exact (hmono ⟨5, 1⟩ ⟨48, 7⟩ (by decide) (by decide)).1 v hv
  · exact (hmono' ⟨5, 1⟩ ⟨48, 7⟩ (by decide) (by decide)).2 _ hunderflow (by simp) (by simp)
  · exact (hsame 5 1024 5000 (by decide) (by decide)).1

end StackMachine
