import StackMachine.Proofs.Exploration.Frontier
import StackMachine.Proofs.Traversal.Verdict
import StackMachine.Verification

namespace StackMachine

open Exploration Traversal

variable {code : Code} {tables : JumpTables} {cfg : Config} {e : VerifyError}

section Exploring

variable {x : Exploration}

theorem Exploration.isClean_iff : x.isClean = true ↔
    x.faults = [] ∧ ∀ pc, (x.depthsAt pc).length ≤ 1 := by
  rw [isClean, Bool.and_eq_true, List.isEmpty_iff, Array.all_eq_true_iff_forall_mem]
  refine and_congr_right fun _ => ⟨fun hall pc => ?_, fun hall depths hmem => ?_⟩
  · rw [depthsAt, Array.getD_eq_getD_getElem?]
    cases hget : x.depths[pc]? with
    | none => exact Nat.zero_le _
    | some depths => exact of_decide_eq_true (hall depths (Array.mem_of_getElem? hget))
  · obtain ⟨pc, hlt, rfl⟩ := Array.mem_iff_getElem.mp hmem
    have hle := hall pc
    rw [depthsAt, Array.getD_eq_getD_getElem?, Array.getElem?_eq_getElem hlt] at hle
    exact decide_eq_true hle

theorem length_le_one_of_unique {depths : List Nat} (hnodup : depths.Nodup)
    (hsame : ∀ a ∈ depths, ∀ b ∈ depths, a = b) : depths.length ≤ 1 := by
  cases depths with
  | nil => exact Nat.zero_le _
  | cons a rest =>
    cases rest with
    | nil => exact Nat.le_refl _
    | cons b rest =>
      have hab := hsame a List.mem_cons_self b (List.mem_cons_of_mem a List.mem_cons_self)
      exact absurd (hab ▸ List.mem_cons_self) (List.nodup_cons.mp hnodup).1

theorem eq_of_length_le_one {depths : List Nat} (h : depths.length ≤ 1) {a b : Nat}
    (ha : a ∈ depths) (hb : b ∈ depths) : a = b := by
  obtain ⟨c, rfl⟩ : ∃ c, depths = [c] :=
    List.length_eq_one_iff.mp (Nat.le_antisymm h (List.length_pos_of_mem ha))
  rw [List.mem_singleton.mp ha, List.mem_singleton.mp hb]

theorem Exploration.depthAt?_eq_some_iff {pc depth : Nat} (h : (x.depthsAt pc).length ≤ 1) :
    x.depthAt? pc = some depth ↔ depth ∈ x.depthsAt pc := by
  rw [depthAt?]
  generalize x.depthsAt pc = depths at h
  cases depths with
  | nil => simp
  | cons a rest =>
    obtain rfl : rest = [] := List.eq_nil_of_length_eq_zero (by simpa using h)
    simp [eq_comm]

end Exploring

section Verdicts

/-- The abstract runs under the limits of a configuration. -/
def subjectOf (code : Code) (tables : JumpTables) (cfg : Config) : Subject :=
  subject code tables (min cfg.stackLimit stackCapacity)

theorem size_le_of_lengthBound (h : code.size ≤ cfg.lengthBound) : code.size ≤ maxOffset :=
  Nat.le_trans h (Nat.min_le_right _ _)

theorem verifyOwned_of_lt (h : cfg.lengthBound < code.size) :
    verifyOwned code tables cfg = .error (.codeTooLarge code.size cfg.lengthBound) := by
  rw [verifyOwned, checkLength, if_pos h]

theorem verifyOwned_of_le (h : code.size ≤ cfg.lengthBound) : verifyOwned code tables cfg =
    (traverse code tables cfg TraceMask.none).verdict.map
      fun memo => ⟨code, tables, JumpDests.ofCode code, memo⟩ := by
  rw [verifyOwned, checkLength, if_neg (Nat.not_lt.mpr h)]
  dsimp only
  cases (traverse code tables cfg TraceMask.none).verdict <;> rfl

theorem verifyTraced_of_lt {mask : TraceMask} (h : cfg.lengthBound < code.size) :
    verifyTraced code tables cfg mask = (.error (.codeTooLarge code.size cfg.lengthBound),
      mask.record (.runStart code.size tables.size) [] ++
        mask.record (.runEnd (some (.codeTooLarge code.size cfg.lengthBound))) []) := by
  rw [verifyTraced, checkLength, if_pos h]

theorem verifyTraced_of_le {mask : TraceMask} (h : code.size ≤ cfg.lengthBound) :
    verifyTraced code tables cfg mask =
      ((traverse code tables cfg mask).verdict.map fun _ => (),
        mask.record (.runStart code.size tables.size) [] ++
          (mask.record (.runEnd (outcomeOf (traverse code tables cfg mask).verdict))
            (traverse code tables cfg mask).log).reverse) := by
  rw [verifyTraced, checkLength, if_neg (Nat.not_lt.mpr h)]

theorem verify_eq_map (code : Code) (tables : JumpTables) (cfg : Config) :
    verify code tables cfg = (verifyOwned code tables cfg).map fun _ => () := by
  unfold verify verifyTraced
  by_cases h : code.size ≤ cfg.lengthBound
  · rw [verifyOwned_of_le h, checkLength, if_neg (Nat.not_lt.mpr h)]
    dsimp only
    cases (traverse code tables cfg TraceMask.none).verdict <;> rfl
  · rw [verifyOwned_of_lt (Nat.lt_of_not_le h), checkLength, if_pos (Nat.lt_of_not_le h)]
    rfl

theorem verify_eq_ok_iff :
    verify code tables cfg = .ok () ↔ ∃ v, verifyOwned code tables cfg = .ok v := by
  rw [verify_eq_map]
  cases verifyOwned code tables cfg with
  | ok v => exact ⟨fun _ => ⟨v, rfl⟩, fun _ => rfl⟩
  | error e => exact ⟨nofun, nofun⟩

theorem verify_eq_error_iff :
    verify code tables cfg = .error e ↔ verifyOwned code tables cfg = .error e := by
  rw [verify_eq_map]
  cases verifyOwned code tables cfg with
  | ok v => exact ⟨nofun, nofun⟩
  | error e' => simp only [Except.map, Except.error.injEq]

def stepsFromStart (code : Code) (tables : JumpTables) (cfg : Config) (n : Nat) : Traversal :=
  (Traversal.step (Setting.of code tables TraceMask.none) Scheduler.newest)^[n]
    (Traversal.start cfg.stackLimit code.size)

theorem verifyOwned_eq_iterate (n : Nat) (h : code.size ≤ cfg.lengthBound)
    (hdone : (stepsFromStart code tables cfg n).isFinished = true) : verifyOwned code tables cfg =
      (stepsFromStart code tables cfg n).verdict.map
        fun memo => ⟨code, tables, JumpDests.ofCode code, memo⟩ := by
  rw [verifyOwned_of_le h, traverse, Traversal.run_eq_iterate Scheduler.newest hdone]
  rfl

def endsAccepted (code : Code) (tables : JumpTables) (cfg : Config) (n : Nat) : Bool :=
  (stepsFromStart code tables cfg n).isFinished && (stepsFromStart code tables cfg n).verdict.isOk

theorem exists_ok_of_endsAccepted (n : Nat) (h : code.size ≤ cfg.lengthBound)
    (hends : endsAccepted code tables cfg n = true) : ∃ v, verifyOwned code tables cfg = .ok v := by
  obtain ⟨hdone, hok⟩ := Bool.and_eq_true_iff.mp hends
  rw [verifyOwned_eq_iterate n h hdone]
  cases hverdict : (stepsFromStart code tables cfg n).verdict with
  | error e =>
    rw [hverdict] at hok
    cases hok
  | ok m => exact ⟨_, rfl⟩

theorem verifyOwned_eq_ok_iff {v : VerifiedCode} : verifyOwned code tables cfg = .ok v ↔
    code.size ≤ cfg.lengthBound ∧ ∃ m, (traverse code tables cfg TraceMask.none).verdict = .ok m ∧
      v = ⟨code, tables, JumpDests.ofCode code, m⟩ := by
  by_cases hle : code.size ≤ cfg.lengthBound
  · rw [verifyOwned_of_le hle]
    cases (traverse code tables cfg TraceMask.none).verdict <;> simp [Except.map, hle, eq_comm]
  · rw [verifyOwned_of_lt (Nat.lt_of_not_le hle)]
    exact ⟨nofun, fun h => absurd h.1 hle⟩

/-- Accepted code is no longer than allowed, and its memo accounts for all its runs. -/
theorem accounts_of_verifyOwned {v : VerifiedCode} (h : verifyOwned code tables cfg = .ok v) :
    code.size ≤ cfg.lengthBound ∧ Accounts (subjectOf code tables cfg) v.memo := by
  obtain ⟨hle, m, hverdict, rfl⟩ := verifyOwned_eq_ok_iff.mp h
  exact ⟨hle, accounts_of_verdict (size_le_of_lengthBound hle) rfl hverdict⟩

/-- An error is the length of the code, or it is true of its runs. -/
theorem explained_of_verifyOwned (h : verifyOwned code tables cfg = .error e) :
    cfg.lengthBound < code.size ∧ e = .codeTooLarge code.size cfg.lengthBound ∨
      code.size ≤ cfg.lengthBound ∧ Explained (subjectOf code tables cfg) e := by
  by_cases hle : code.size ≤ cfg.lengthBound
  · refine .inr ⟨hle, ?_⟩
    rw [verifyOwned_of_le hle] at h
    cases hverdict : (traverse code tables cfg TraceMask.none).verdict with
    | error e' =>
      rw [hverdict] at h
      obtain rfl := Except.error.inj h
      exact explained_of_verdict (size_le_of_lengthBound hle) rfl hverdict
    | ok m =>
      rw [hverdict] at h
      cases h
  · rw [verifyOwned_of_lt (Nat.lt_of_not_le hle)] at h
    exact .inl ⟨Nat.lt_of_not_le hle, (Except.error.inj h).symm⟩

end Verdicts

section Agreement

variable {limit : Nat} {m : DepthMemo} (hcode : code.size ≤ maxOffset)

include hcode

theorem isClean_of_accounts (h : Accounts (subject code tables limit) m) :
    (explore code tables limit).isClean = true := by
  rw [isClean_iff]
  refine ⟨List.eq_nil_iff_forall_not_mem.mpr fun x hx => ?_, fun pc => ?_⟩
  · obtain ⟨σ, hσ, hfault, _⟩ := (mem_faults_iff hcode).mp hx
    exact h.faultless σ x.kind hσ hfault
  · refine length_le_one_of_unique (nodup_depthsAt pc) fun a ha b hb => ?_
    obtain ⟨σ, hσ, hrec, hσpc, hσdepth⟩ := (mem_depthsAt_iff hcode).mp ha
    obtain ⟨τ, hτ, _, hτpc, hτdepth⟩ := (mem_depthsAt_iff hcode).mp hb
    have hgeta := (h.get?_iff pc a).mpr ⟨hrec, σ, hσ, hσpc, hσdepth⟩
    have hgetb := (h.get?_iff pc b).mpr ⟨hrec, τ, hτ, hτpc, hτdepth⟩
    rw [hgeta] at hgetb
    exact Option.some.inj hgetb

theorem depthAt?_of_accounts (h : Accounts (subject code tables limit) m) (pc : Nat) :
    m.get? pc = (explore code tables limit).depthAt? pc := by
  have hone := (isClean_iff.mp (isClean_of_accounts hcode h)).2 pc
  refine Option.ext fun depth => ?_
  rw [depthAt?_eq_some_iff hone, mem_depthsAt_iff hcode, h.get?_iff]
  constructor
  · rintro ⟨hrec, σ, hσ, hpc, hdepth⟩
    exact ⟨σ, hσ, hrec, hpc, hdepth⟩
  · rintro ⟨σ, hσ, hrec, hpc, hdepth⟩
    exact ⟨hrec, σ, hσ, hpc, hdepth⟩

theorem not_isClean_of_explained (h : Explained (subject code tables limit) e) :
    (explore code tables limit).isClean ≠ true := by
  rw [ne_eq, isClean_iff]
  rintro ⟨hnone, hone⟩
  cases h with
  | @blamed σ _ hσ hblames =>
    obtain ⟨kind, _, hfault⟩ := hblames.faults
    have hmem : ⟨kind, σ.pc⟩ ∈ (explore code tables limit).faults :=
      (mem_faults_iff hcode).mpr ⟨σ, hσ, hfault, rfl⟩
    rw [hnone] at hmem
    cases hmem
  | @twoDepths σ ρ hσ hρ hpc hrec hne =>
    have hρmem := (mem_depthsAt_iff hcode).mpr ⟨ρ, hρ, hrec, hpc, rfl⟩
    have hσmem := (mem_depthsAt_iff hcode).mpr ⟨σ, hσ, hrec, rfl, rfl⟩
    exact hne (eq_of_length_le_one (hone σ.pc) hρmem hσmem)

omit hcode in
/-- Code is accepted exactly if its exploration is clean, and then both know the same depths. -/
theorem verifyOwned_agrees_with_explore
    (hcode : code.size ≤ min cfg.maxCodeLength maxOffset) :
    ((∃ v, verifyOwned code tables cfg = .ok v) ↔
        (explore code tables (min cfg.stackLimit stackCapacity)).isClean = true) ∧
      ∀ v, verifyOwned code tables cfg = .ok v → ∀ pc,
        v.depthAt? pc = (explore code tables (min cfg.stackLimit stackCapacity)).depthAt? pc := by
  have hoffset : code.size ≤ maxOffset := Nat.le_trans hcode (Nat.min_le_right _ _)
  refine ⟨⟨?_, fun hclean => ?_⟩, fun v hv pc => ?_⟩
  · rintro ⟨v, hv⟩
    exact isClean_of_accounts hoffset (accounts_of_verifyOwned hv).2
  · cases hv : verifyOwned code tables cfg with
    | ok v => exact ⟨v, rfl⟩
    | error e =>
      obtain ⟨hlt, _⟩ | ⟨_, hexplained⟩ := explained_of_verifyOwned hv
      · exact absurd hcode (Nat.not_le.mpr hlt)
      · exact absurd hclean (not_isClean_of_explained hoffset hexplained)
  · exact depthAt?_of_accounts hoffset (accounts_of_verifyOwned hv).2 pc

end Agreement

theorem isClean_explore_static_jump :
    (#[0x60, 0x03, 0x56, 0x5B, 0x00] : Code).size ≤ min 24576 maxOffset ∧
      (explore #[0x60, 0x03, 0x56, 0x5B, 0x00] JumpTables.empty 1024).isClean = true := by
  have hle : (#[0x60, 0x03, 0x56, 0x5B, 0x00] : Code).size ≤ min 24576 maxOffset := by decide
  have hends : endsAccepted #[0x60, 0x03, 0x56, 0x5B, 0x00] JumpTables.empty {} 6 = true := by
    decide +kernel
  have hok := exists_ok_of_endsAccepted 6 (show _ ≤ Config.lengthBound {} from hle) hends
  exact ⟨hle, (verifyOwned_agrees_with_explore hle).1.mp hok⟩

end StackMachine
