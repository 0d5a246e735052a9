import StackMachine.Proofs.CodeEnd
import StackMachine.Proofs.Lockstep

namespace StackMachine

open Exploration Traversal

variable {code tail : Code} {tables : JumpTables} {cfg : Config} {pc : Nat}

theorem alike_append (hcode : code.size ≤ maxOffset) (hwhole : ¬ CutOff code)
    (hvalid : ∀ o,
      (JumpDests.ofCode (code ++ tail)).isValid o = (JumpDests.ofCode code).isValid o)
    (hb : Boundary code pc) (hlt : pc < code.size) (t : Traversal) :
    Alike (.of code tables TraceMask.none) (.of (code ++ tail) tables TraceMask.none) t pc := by
  have hsame := decodeAt_append tail hlt (follow_le_size hcode hwhole hb hlt)
  have hlt' : pc < (code ++ tail).size := by
    rw [Array.size_append]
    omega
  cases hd : decodeAt code pc with
  | error e => exact .fails hlt hlt' hd (hsame.trans hd)
  | ok i => exact .decodes hd (hsame.trans hd) fun _ => resolve_congr rfl hvalid

section Closed

/-- Bytes behind closed code do not matter to its verification, nor to the error of one. -/
theorem verify_append_of_closed (hclosed : Closed code)
    (htail : ∀ o, code.size ≤ o → (JumpDests.ofCode (code ++ tail)).isValid o = false)
    (hlen : code.size + tail.size ≤ cfg.lengthBound) :
    verify (code ++ tail) tables cfg = verify code tables cfg := by
  rw [← Array.size_append] at hlen
  have hsize : code.size ≤ (code ++ tail).size := by
    rw [Array.size_append]
    exact Nat.le_add_right _ _
  have hle : code.size ≤ cfg.lengthBound := Nat.le_trans hsize hlen
  have hcode := size_le_of_lengthBound hle
  have hvalid := isValid_append (size_le_of_lengthBound hlen) htail
  refine (sameFindings_of_alike hle hlen hsize fun t pc hσ => ?_).verify_eq
  have hs : Analysed (subjectOf code tables cfg) := analysed_subject hcode
  have hb := hσ.boundary hs
  have hlt := hclosed.lt_size hs hσ
  rw [pc_view] at hb hlt
  exact alike_append hcode hclosed.not_cutOff hvalid hb hlt t

theorem verify_append_jump :
    Closed #[0x60, 0x04, 0x56] ∧
      (∀ o, 3 ≤ o →
        (JumpDests.ofCode (#[0x60, 0x04, 0x56] ++ #[0x61, 0x5B])).isValid o = false) ∧
      verify (#[0x60, 0x04, 0x56] ++ #[0x61, 0x5B]) JumpTables.empty {} =
        verify #[0x60, 0x04, 0x56] JumpTables.empty {} := by
  have hclosed : Closed #[0x60, 0x04, 0x56] := by
    refine ⟨⟨2, .jump, [], 3⟩, ?_, .inr rfl⟩
    decide +kernel
  have hmarks : (JumpDests.ofCode (#[0x60, 0x04, 0x56] ++ #[0x61, 0x5B])).marks =
      Array.replicate 5 false := by decide +kernel
  have htail : ∀ o, 3 ≤ o →
      (JumpDests.ofCode (#[0x60, 0x04, 0x56] ++ #[0x61, 0x5B])).isValid o = false := by
    intro o _
    rw [JumpDests.isValid, hmarks]
    by_cases hlt : o < 5 <;> simp [Array.getD_eq_getD_getElem?, hlt]
  exact ⟨hclosed, htail, verify_append_of_closed hclosed htail (by decide)⟩

end Closed

section Stop

theorem decodeAt_append_stop (hlen : code.size + 1 ≤ maxOffset) :
    ∃ i, decodeAt (code ++ #[0x00]) code.size = .ok i ∧ i.opcode = .stop := by
  have hbyte : (code ++ #[0x00])[code.size]? = some 0x00 := by simp
  refine ⟨⟨code.size, .stop, [], code.size + 1⟩, ?_, rfl⟩
  have hop : Opcode.ofByte? 0x00 = some .stop := Opcode.ofByte?_toByte .stop
  refine decodeAt_eq_ok_iff.mpr ⟨0x00, hbyte, hop, rfl, rfl, ?_, hlen, ?_⟩
  · rw [Array.size_append]
    exact Nat.le_refl _
  · simp

theorem isValid_append_stop (o : Nat) (ho : code.size ≤ o) (hlen : code.size + 1 ≤ maxOffset) :
    (JumpDests.ofCode (code ++ #[0x00])).isValid o = false := by
  refine Bool.eq_false_iff.mpr fun hvalid => ?_
  have hlt := JumpDests.lt_size_of_isValid hvalid
  have hsize : (code ++ #[0x00]).size = code.size + 1 := Array.size_append
  obtain rfl : o = code.size := by omega
  have hbyte := ((JumpDests.isValid_iff (by omega)).mp hvalid).2
  simp at hbyte

/-- Running off the end is a `STOP` that is not written down. -/
theorem verify_append_stop (hwhole : ¬ CutOff code) (hlen : code.size + 1 ≤ cfg.lengthBound) :
    verify code tables cfg = verify (code ++ #[0x00]) tables cfg ∧
      ∀ v v', verifyOwned code tables cfg = .ok v →
        verifyOwned (code ++ #[0x00]) tables cfg = .ok v' →
        ∀ pc, v.depthAt? pc = v'.depthAt? pc := by
  have hsize : (code ++ #[0x00]).size = code.size + 1 := Array.size_append
  have hlen' : code.size + 1 ≤ maxOffset := Nat.le_trans hlen (Nat.min_le_right _ _)
  have hcode : code.size ≤ maxOffset := by omega
  have hvalid : ∀ o,
      (JumpDests.ofCode (code ++ #[0x00])).isValid o = (JumpDests.ofCode code).isValid o :=
    isValid_append (by omega) fun o ho => isValid_append_stop o ho hlen'
  have hsame : SameFindings (verifyOwned code tables cfg)
      (verifyOwned (code ++ #[0x00]) tables cfg) := by
    refine sameFindings_of_alike (by omega) (by omega) (by omega) fun t pc hσ => ?_
    have hs : Analysed (subjectOf code tables cfg) := analysed_subject hcode
    have hb : Boundary code (t.view code pc).pc := hσ.boundary hs
    have hle : (t.view code pc).pc ≤ code.size := hσ.pc_le hs
    rw [pc_view] at hb hle
    obtain hlt | rfl := Nat.lt_or_eq_of_le hle
    · exact alike_append hcode hwhole hvalid hb hlt t
    -- At the end of the one code stands the `STOP` of the other.
    · obtain ⟨i, hd, hop⟩ := decodeAt_append_stop hlen'
      exact .halts (Nat.le_refl _) hd (by rw [hop]; rfl) (by rw [hop]; rfl)
  exact ⟨hsame.verify_eq.symm, fun v v' hv hv' pc => (hsame.depthAt?_eq hv hv' pc).symm⟩

theorem verify_append_stop_branch :
    ¬ CutOff #[0x5B, 0x58, 0x5F, 0x57] ∧
      verify #[0x5B, 0x58, 0x5F, 0x57] JumpTables.empty {} =
        verify #[0x5B, 0x58, 0x5F, 0x57, 0x00] JumpTables.empty {} ∧
      ∃ v v', verifyOwned #[0x5B, 0x58, 0x5F, 0x57] JumpTables.empty {} = .ok v ∧
        verifyOwned #[0x5B, 0x58, 0x5F, 0x57, 0x00] JumpTables.empty {} = .ok v' ∧
        ∀ pc, v.depthAt? pc = v'.depthAt? pc := by
  have hwhole : ¬ CutOff #[0x5B, 0x58, 0x5F, 0x57] := by
    have hlast : (layout #[0x5B, 0x58, 0x5F, 0x57]).getLast? =
        some (.ok ⟨3, .jumpi, [], 4⟩) := by decide +kernel
    rintro ⟨_, _, _, _, hcut⟩
    rw [hcut] at hlast
    cases hlast
  have hends : endsAccepted #[0x5B, 0x58, 0x5F, 0x57] JumpTables.empty {} 10 = true := by
    decide +kernel
  have hends' : endsAccepted #[0x5B, 0x58, 0x5F, 0x57, 0x00] JumpTables.empty {} 10 = true := by
    decide +kernel
  obtain ⟨v, hv⟩ := exists_ok_of_endsAccepted 10 (by decide) hends
  obtain ⟨v', hv'⟩ := exists_ok_of_endsAccepted 10 (by decide) hends'
  exact ⟨hwhole, (verify_append_stop hwhole (by decide)).1, v, v', hv, hv',
    (verify_append_stop hwhole (by decide)).2 v v' hv hv'⟩

end Stop

end StackMachine
