import StackMachine.Proofs.AbstractRun

namespace StackMachine

open Exploration

variable {code tail : Code} {pc q : Nat} {i : Instr} {item : Item}

section LastItem

theorem Boundary.eq_of_size_le_follow (hp : Boundary code pc) (hq : Boundary code q)
    (hpsize : pc < code.size) (hqsize : q < code.size) (hpend : code.size ≤ follow code pc)
    (hqend : code.size ≤ follow code q) : pc = q := by
  obtain hlt | heq | hgt := Nat.lt_trichotomy pc q
  · have hle := hp.follow_le hq hlt
    omega
  · exact heq
  · have hle := hq.follow_le hp hgt
    omega

theorem exists_getLast?_layoutFrom (hcode : code.size ≤ maxOffset) (hp : Boundary code pc)
    (hlt : pc < code.size) : ∃ q < code.size, Boundary code q ∧ code.size ≤ follow code q ∧
      (layoutFrom code pc []).getLast? = some (decodeAt code q) := by
  induction hn : code.size - pc using Nat.strongRecOn generalizing pc with
  | ind n ih =>
    have hmin := next_eq_min hcode hlt
    have hfollow := lt_follow code pc
    rw [layoutFrom_cons hlt (by omega), hmin]
    by_cases hend : code.size ≤ follow code pc
    · refine ⟨pc, hlt, hp, hend, ?_⟩
      rw [Nat.min_eq_right hend, layoutFrom, dif_neg (by omega)]
      rfl
    · rw [Nat.min_eq_left (by omega)]
      obtain ⟨q, hqlt, hq, hqend, hlast⟩ := ih _ (by omega) (hp.step hlt) (by omega) rfl
      refine ⟨q, hqlt, hq, hqend, ?_⟩
      rw [List.getLast?_cons, hlast]
      rfl

theorem getLast?_layout_eq_some_iff (hcode : code.size ≤ maxOffset) :
    (layout code).getLast? = some item ↔ ∃ q, q < code.size ∧ Boundary code q ∧
      code.size ≤ follow code q ∧ decodeAt code q = item := by
  by_cases hpos : 0 < code.size
  · obtain ⟨p, hplt, hp, hpend, hlast⟩ := exists_getLast?_layoutFrom hcode .zero hpos
    rw [layout, hlast, Option.some.injEq]
    constructor
    · exact fun heq => ⟨p, hplt, hp, hpend, heq⟩
    · rintro ⟨q, hqlt, hq, hqend, rfl⟩
      rw [hp.eq_of_size_le_follow hq hplt hqlt hpend hqend]
  · rw [layout, layoutFrom, dif_neg (by omega)]
    constructor
    · intro hnone
      cases hnone
    · rintro ⟨q, hqlt, _⟩
      omega

/-- The code ends with an instruction that has none behind it. -/
def Closed (code : Code) : Prop :=
  ∃ i, (layout code).getLast? = some (.ok i) ∧
    (i.opcode.isTerminator = true ∨ i.opcode = .jump)

/-- The code ends within the immediate of a push. -/
def CutOff (code : Code) : Prop :=
  ∃ pc opcode needed available,
    (layout code).getLast? = some (.error (.truncatedImmediate pc opcode needed available))

theorem Closed.not_cutOff (h : Closed code) : ¬ CutOff code := by
  rintro ⟨_, _, _, _, hcut⟩
  obtain ⟨i, hlast, _⟩ := h
  rw [hcut] at hlast
  cases hlast

theorem follow_le_size (hcode : code.size ≤ maxOffset) (hwhole : ¬ CutOff code)
    (hp : Boundary code pc) (hlt : pc < code.size) : follow code pc ≤ code.size := by
  refine Nat.le_of_not_lt fun hcut => ?_
  have hbyte : code[pc]? = some code[pc] := Array.getElem?_eq_getElem hlt
  have hfollow := follow_of_lt hlt
  cases hop : Opcode.ofByte? code[pc] with
  | none =>
    rw [hop, Option.map_none, Option.getD_none] at hfollow
    omega
  | some op =>
    rw [hop, Option.map_some, Option.getD_some] at hfollow
    refine hwhole ⟨pc, op, op.immediateWidth, code.size - (pc + 1), ?_⟩
    refine (getLast?_layout_eq_some_iff hcode).mpr ⟨pc, hlt, hp, by omega, ?_⟩
    simp only [decodeAt, hbyte, hop]
    exact if_pos (by omega)

/-- No path runs off the end of closed code. -/
theorem Closed.lt_size {s : Subject} {σ : State} (h : Closed s.code) (hs : Analysed s)
    (hσ : Reachable s σ) : σ.pc < s.code.size := by
  obtain ⟨j, hlast, hj⟩ := h
  obtain ⟨p, hplt, hp, hpend, hpd⟩ := (getLast?_layout_eq_some_iff hs.size_le).mp hlast
  cases hσ with
  | start => exact Nat.zero_lt_of_lt hplt
  | @step ρ _ hρ hstep =>
    obtain hdest | ⟨i, hexec, hrole, rfl⟩ := hstep.isJumpDest_or_next hs
    · exact hdest.lt_size
    · rw [pc_arrive]
      refine Nat.lt_of_not_le fun hend => ?_
      -- the path goes on behind the last instruction, which lets none
      have hρend : s.code.size ≤ follow s.code ρ.pc := by
        rw [follow_of_decodeAt hexec.decodes]
        omega
      have hρlt := lt_size_of_decodeAt hexec.decodes
      obtain rfl := (hρ.boundary hs).eq_of_size_le_follow hp hρlt hplt hρend hpend
      obtain rfl := decodeAt_unique hexec.decodes hpd
      obtain hterm | hjump := hj
      · rw [hexec.not_terminator] at hterm
        cases hterm
      · exact hrole (Opcode.role_eq_jump_iff.mpr hjump)

end LastItem

section SameBytes

variable {code' : Code}

theorem decodeAt_congr (hd : decodeAt code pc = .ok i)
    (hbytes : ∀ k, pc ≤ k → k < i.next → code'[k]? = code[k]?) : decodeAt code' pc = .ok i := by
  obtain ⟨byte, hb, hop, hoffset, hnext, hle, hmax, himm⟩ := decodeAt_eq_ok_iff.mp hd
  have hlt := lt_next_of_decodeAt hd
  have hle' : i.next ≤ code'.size := by
    have hlast := hbytes (i.next - 1) (by omega) (by omega)
    rw [Array.getElem?_eq_getElem (by omega : i.next - 1 < code.size)] at hlast
    obtain ⟨hlt', _⟩ := Array.getElem?_eq_some_iff.mp hlast
    omega
  refine decodeAt_eq_ok_iff.mpr ⟨byte, ?_, hop, hoffset, hnext, hle', hmax, ?_⟩
  · rw [hbytes pc (Nat.le_refl pc) hlt, hb]
  · refine himm.trans (congrArg Array.toList (Array.ext ?_ fun k hk _ => ?_))
    · rw [Array.size_extract, Array.size_extract]
      omega
    · rw [Array.size_extract] at hk
      have hbyte := hbytes (pc + 1 + k) (by omega) (by omega)
      rw [Array.getElem?_eq_getElem (by omega), Array.getElem?_eq_getElem (by omega)] at hbyte
      rw [Array.getElem_extract, Array.getElem_extract]
      exact (Option.some.inj hbyte).symm

end SameBytes

section Append

theorem getElem?_append_of_lt (tail : Code) (h : pc < code.size) :
    (code ++ tail)[pc]? = code[pc]? := Array.getElem?_append_left h

theorem follow_append (tail : Code) (h : pc < code.size) :
    follow (code ++ tail) pc = follow code pc := by
  rw [follow, follow, widthAt, widthAt, opcodeAt?, opcodeAt?, getElem?_append_of_lt tail h]

theorem boundary_append_iff (tail : Code) (hpc : pc ≤ code.size) :
    Boundary (code ++ tail) pc ↔ Boundary code pc := by
  have hsize : (code ++ tail).size = code.size + tail.size := Array.size_append
  constructor
  · intro h
    induction h with
    | zero => exact .zero
    | @step p _ _ ih =>
      have hp := lt_follow (code ++ tail) p
      rw [follow_append tail (by omega)]
      exact (ih (by omega)).step (by omega)
  · intro h
    induction h with
    | zero => exact .zero
    | @step p _ hlt ih =>
      rw [← follow_append tail hlt]
      exact (ih (Nat.le_of_lt hlt)).step (by omega)

theorem isJumpDest_append_iff (tail : Code) (hpc : pc < code.size) :
    IsJumpDest (code ++ tail) pc ↔ IsJumpDest code pc := by
  rw [IsJumpDest, IsJumpDest, boundary_append_iff tail (Nat.le_of_lt hpc),
    getElem?_append_of_lt tail hpc]

theorem decodeAt_append (tail : Code) (hlt : pc < code.size) (h : follow code pc ≤ code.size) :
    decodeAt (code ++ tail) pc = decodeAt code pc := by
  cases hd : decodeAt code pc with
  | ok i =>
    refine decodeAt_congr hd fun k _ hk => getElem?_append_of_lt tail ?_
    exact Nat.lt_of_lt_of_le hk (decodeAt_next_le hd)
  | error e =>
    -- An immediate is not cut off, so the error is about the opcode or the offsets.
    have hsize : (code ++ tail).size = code.size + tail.size := Array.size_append
    have hbyte : code[pc]? = some code[pc] := Array.getElem?_eq_getElem hlt
    have hfollow := follow_of_lt hlt
    unfold decodeAt at hd ⊢
    rw [getElem?_append_of_lt tail hlt]
    simp only [hbyte] at hd ⊢
    cases hop : Opcode.ofByte? code[pc] with
    | none => simpa only [hop] using hd
    | some op =>
      rw [hop, Option.map_some, Option.getD_some] at hfollow
      simp only [hop] at hd ⊢
      rw [if_neg (by omega)] at hd ⊢
      split at hd
      next hmax => rwa [if_pos hmax]
      · cases hd

theorem isValid_append (hcode : (code ++ tail).size ≤ maxOffset)
    (htail : ∀ o, code.size ≤ o → (JumpDests.ofCode (code ++ tail)).isValid o = false) (o : Nat) :
    (JumpDests.ofCode (code ++ tail)).isValid o = (JumpDests.ofCode code).isValid o := by
  have hsize : (code ++ tail).size = code.size + tail.size := Array.size_append
  by_cases hlt : o < code.size
  · rw [Bool.eq_iff_iff, JumpDests.isValid_iff hcode, JumpDests.isValid_iff (by omega)]
    exact isJumpDest_append_iff tail hlt
  · rw [htail o (Nat.le_of_not_lt hlt), eq_comm, Bool.eq_false_iff]
    exact fun hvalid => hlt (JumpDests.lt_size_of_isValid hvalid)

end Append

end StackMachine
