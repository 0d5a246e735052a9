import StackMachine.Proofs.Exploration.Block

namespace StackMachine.Exploration

variable {s : Subject} {σ τ : State}

section Search

/-- Everything in the record is true of a reachable state, and every entry that waits is one. -/
structure Sound (s : Subject) (f : Frontier) : Prop where
  visits : ∀ v ∈ f.visits, ∃ σ, Reachable s σ ∧ Recorded s.code σ.pc ∧ v = (σ.pc, σ.depth)
  faults : ∀ x ∈ f.faults, ∃ σ, Reachable s σ ∧ Faults s σ x.kind ∧ x.pc = σ.pc
  work : ∀ e ∈ f.work, Reachable s (.ofEntry e)

def Known (f : Frontier) (e : BlockEntry) : Prop := f.seen.contains e = true ∨ e ∈ f.work

/-- The states of every walked block are in the record, and the blocks they lead to are known. -/
structure Complete (s : Subject) (f : Frontier) : Prop where
  visits : ∀ e σ, f.seen.contains e = true → Within s (.ofEntry e) σ → Recorded s.code σ.pc →
    (σ.pc, σ.depth) ∈ f.visits
  faults : ∀ e σ kind, f.seen.contains e = true → Within s (.ofEntry e) σ → Faults s σ kind →
    ⟨kind, σ.pc⟩ ∈ f.faults
  exits : ∀ e σ τ, f.seen.contains e = true → Within s (.ofEntry e) σ → Step s σ τ →
    ¬ Straight s σ τ → Known f ⟨τ.pc, τ.depth⟩
  start : Known f ⟨0, 0⟩

variable {f : Frontier}

theorem sound_start : Sound s Frontier.start where
  visits v hv := by simp [Frontier.start] at hv
  faults x hx := by simp [Frontier.start] at hx
  work e he := by
    rw [List.mem_singleton.mp he]
    exact .start

theorem complete_start : Complete s Frontier.start where
  visits e σ hseen := by simp [Frontier.start] at hseen
  faults e σ kind hseen := by simp [Frontier.start] at hseen
  exits e σ τ hseen := by simp [Frontier.start] at hseen
  start := .inr (List.mem_singleton.mpr rfl)

theorem inRange_of_reachable (hs : Analysed s) {e : BlockEntry} (h : Reachable s (.ofEntry e)) :
    Frontier.inRange s e = true := by
  have hpc := h.pc_le hs
  have hdepth := h.depth_le
  rw [State.ofEntry, State.depth_blank] at hdepth
  rw [Frontier.inRange, Bool.and_eq_true, decide_eq_true_eq, decide_eq_true_eq]
  exact ⟨hpc, hdepth⟩

theorem follows_entry (hs : Analysed s) (e : BlockEntry) (visits : List (Nat × Nat)) :
    Follows s (.ofEntry e) visits
      (walkBlock s e.pc e.pc (List.replicate e.depth .unknown) visits) :=
  walkBlock_follows (σ := .ofEntry e) hs (fun _ => rfl) (Nat.le_refl e.pc)

section Expand

variable {e : BlockEntry} {work : List BlockEntry}

theorem Sound.expand (hs : Analysed s) (h : Sound s f) (hw : f.work = e :: work) :
    Sound s (f.expand s e work) := by
  have hwalk := follows_entry hs e f.visits
  have he : Reachable s (.ofEntry e) := h.work e (hw ▸ List.mem_cons_self)
  refine ⟨fun v hv => ?_, fun x hx => ?_, fun e' he' => ?_⟩
  · obtain hold | ⟨τ, hτ, hrec, rfl⟩ := (hwalk.visits v).mp hv
    · exact h.visits v hold
    · exact ⟨τ, hτ.reachable he, hrec, rfl⟩
  · obtain hnew | hold := List.mem_append.mp hx
    · obtain ⟨τ, hτ, hfault, hpc⟩ := (hwalk.fault x).mp (Option.mem_toList.mp hnew)
      exact ⟨τ, hτ.reachable he, hfault, hpc⟩
    · exact h.faults x hold
  · obtain hnew | hold := List.mem_append.mp he'
    · obtain ⟨τ, hτ, hstep, _⟩ := (hwalk.exits e').mp (List.mem_reverse.mp hnew)
      exact (hτ.reachable he).step hstep
    · exact h.work e' (hw ▸ List.mem_cons_of_mem e hold)

theorem contains_expand {e' : BlockEntry} :
    (f.expand s e work).seen.contains e' = true ↔ e = e' ∨ f.seen.contains e' = true := by
  simp [Frontier.expand]

theorem Known.expand {e' : BlockEntry} (h : Known f e') (hw : f.work = e :: work) :
    Known (f.expand s e work) e' := by
  obtain hseen | hwork := h
  · exact .inl (contains_expand.mpr (.inr hseen))
  · rw [hw] at hwork
    obtain rfl | hrest := List.mem_cons.mp hwork
    · exact .inl (contains_expand.mpr (.inl rfl))
    · exact .inr (List.mem_append_right _ hrest)

theorem Complete.expand (hs : Analysed s) (h : Complete s f) (hw : f.work = e :: work) :
    Complete s (f.expand s e work) := by
  have hwalk := follows_entry hs e f.visits
  refine ⟨fun e' σ hseen hσ hrec => ?_, fun e' σ kind hseen hσ hfault => ?_,
    fun e' σ τ hseen hσ hstep hout => ?_, h.start.expand hw⟩
  · apply (hwalk.visits _).mpr
    obtain rfl | hold := contains_expand.mp hseen
    · exact .inr ⟨σ, hσ, hrec, rfl⟩
    · exact .inl (h.visits e' σ hold hσ hrec)
  · apply List.mem_append.mpr
    obtain rfl | hold := contains_expand.mp hseen
    · exact .inl (Option.mem_toList.mpr ((hwalk.fault _).mpr ⟨σ, hσ, hfault, rfl⟩))
    · exact .inr (h.faults e' σ kind hold hσ hfault)
  · obtain rfl | hold := contains_expand.mp hseen
    · have hτ := eq_ofEntry_of_not_straight hstep hout
      have hmem := (hwalk.exits ⟨τ.pc, τ.depth⟩).mpr ⟨σ, hσ, hτ ▸ hstep, hτ ▸ hout⟩
      exact .inr (List.mem_append_left _ (List.mem_reverse.mpr hmem))
    · exact (h.exits e' σ τ hold hσ hstep hout).expand hw

end Expand

theorem step_sound_complete (hs : Analysed s) (h : Sound s f ∧ Complete s f) :
    Sound s (f.step s) ∧ Complete s (f.step s) := by
  unfold Frontier.step
  split
  · exact h
  next e work hw =>
    have he : Reachable s (.ofEntry e) := h.1.work e (hw ▸ List.mem_cons_self)
    split
    next hskip =>
      -- Reachable entries are in range, so that one that is skipped was seen.
      have hseen : f.seen.contains e = true := by
        simpa [inRange_of_reachable hs he] using hskip
      have hknown {e' : BlockEntry} (hk : Known f e') : Known { f with work } e' := by
        obtain hk | hk := hk
        · exact .inl hk
        · rw [hw] at hk
          obtain rfl | hrest := List.mem_cons.mp hk
          · exact .inl hseen
          · exact .inr hrest
      refine ⟨⟨h.1.visits, h.1.faults, fun e' he' => ?_⟩,
        h.2.visits, h.2.faults, ?_, hknown h.2.start⟩
      · exact h.1.work e' (hw ▸ List.mem_cons_of_mem e he')
      · intro e' σ τ hold hσ hstep hout
        exact hknown (h.2.exits e' σ τ hold hσ hstep hout)
    · exact ⟨h.1.expand hs hw, h.2.expand hs hw⟩

theorem run_sound_complete (hs : Analysed s) (h : Sound s f ∧ Complete s f) :
    Sound s (f.run s) ∧ Complete s (f.run s) ∧ (f.run s).work = [] := by
  fun_induction Frontier.run s f with
  | case1 f hdone => exact ⟨h.1, h.2, hdone⟩
  | case2 f hmore ih => exact ih (step_sound_complete hs h)

/-- When no entry waits, every reachable state lies in a block that was walked. -/
theorem exists_block (h : Complete s f) (hdone : f.work = []) (hσ : Reachable s σ) :
    ∃ e, f.seen.contains e = true ∧ Within s (.ofEntry e) σ := by
  have hseen {e : BlockEntry} (hk : Known f e) : f.seen.contains e = true := by
    obtain hk | hk := hk
    · exact hk
    · rw [hdone] at hk
      cases hk
  induction hσ with
  | start => exact ⟨⟨0, 0⟩, hseen h.start, .refl _⟩
  | @step σ τ _ hstep ih =>
    obtain ⟨e, he, hσ⟩ := ih
    by_cases hin : Straight s σ τ
    · exact ⟨e, he, hσ.tail hin⟩
    · refine ⟨⟨τ.pc, τ.depth⟩, hseen (h.exits e σ τ he hσ hstep hin), ?_⟩
      rw [← eq_ofEntry_of_not_straight hstep hin]
      exact .refl τ

end Search

section Result

theorem getD_depthLists (size : Nat) (visits : List (Nat × Nat)) (pc depth : Nat) :
    depth ∈ (depthLists size visits).getD pc [] ↔ pc < size ∧ (pc, depth) ∈ visits := by
  have hfold (lists : Array (List Nat)) :
      depth ∈
          (visits.foldl (fun lists visit => lists.modify visit.1 (visit.2 :: ·)) lists).getD pc []
        ↔ depth ∈ lists.getD pc [] ∨ pc < lists.size ∧ (pc, depth) ∈ visits := by
    induction visits generalizing lists with
    | nil => simp
    | cons v visits ih =>
      rw [List.foldl_cons, ih, Array.size_modify, Array.getD_eq_getD_getElem?,
        Array.getD_eq_getD_getElem?, Array.getElem?_modify]
      by_cases hlt : pc < lists.size
      · by_cases hpc : v.1 = pc
        · subst hpc
          simp [hlt, Prod.ext_iff, or_assoc, or_comm, or_left_comm]
        · simp [hlt, hpc, Prod.ext_iff, Ne.symm hpc]
      · simp [hlt]
  rw [depthLists, hfold, Array.size_replicate]
  by_cases hlt : pc < size <;> simp [hlt, Array.getD_eq_getD_getElem?]

variable {code : Code} {tables : JumpTables} {limit : Nat}

theorem depthsAt_explore (pc : Nat) :
    (explore code tables limit).depthsAt pc = Ascending.ofList Ascending.natLe
      ((depthLists code.size
        (Frontier.start.run (subject code tables limit)).visits).getD pc []) := by
  rw [depthsAt, explore, ofFrontier, Array.getD_eq_getD_getElem?, Array.getElem?_map,
    Array.getD_eq_getD_getElem?, subject]
  cases (depthLists _ _)[pc]? with
  | none => simp [Ascending.ofList, Ascending.collapse]
  | some depths => rfl

theorem mem_depthsAt_iff (hcode : code.size ≤ maxOffset) {pc depth : Nat} :
    depth ∈ (explore code tables limit).depthsAt pc ↔
      ∃ σ, Reachable (subject code tables limit) σ ∧ Recorded code pc ∧ σ.pc = pc ∧
        σ.depth = depth := by
  have hs : Analysed (subject code tables limit) := analysed_subject hcode
  obtain ⟨hsound, hcomplete, hdone⟩ := run_sound_complete hs ⟨sound_start, complete_start⟩
  rw [depthsAt_explore, Ascending.mem_ofList, getD_depthLists]
  constructor
  · rintro ⟨_, hmem⟩
    obtain ⟨σ, hσ, hrec, heq⟩ := hsound.visits _ hmem
    obtain ⟨rfl, rfl⟩ := Prod.mk.inj heq
    exact ⟨σ, hσ, hrec, rfl, rfl⟩
  · rintro ⟨σ, hσ, hrec, rfl, rfl⟩
    obtain ⟨e, hseen, hin⟩ := exists_block hcomplete hdone hσ
    have hmem := hcomplete.visits e σ hseen hin hrec
    obtain ⟨i, hd, _⟩ := hrec
    exact ⟨lt_size_of_decodeAt hd, hmem⟩

theorem mem_faults_iff (hcode : code.size ≤ maxOffset) {x : Fault} :
    x ∈ (explore code tables limit).faults ↔
      ∃ σ, Reachable (subject code tables limit) σ ∧ Faults (subject code tables limit) σ x.kind ∧
        σ.pc = x.pc := by
  have hs : Analysed (subject code tables limit) := analysed_subject hcode
  obtain ⟨hsound, hcomplete, hdone⟩ := run_sound_complete hs ⟨sound_start, complete_start⟩
  rw [explore, ofFrontier, Ascending.mem_ofList]
  constructor
  · intro hmem
    obtain ⟨σ, hσ, hfault, hpc⟩ := hsound.faults x hmem
    exact ⟨σ, hσ, hfault, hpc.symm⟩
  · rintro ⟨σ, hσ, hfault, hpc⟩
    obtain ⟨e, hseen, hin⟩ := exists_block hcomplete hdone hσ
    have hmem := hcomplete.faults e σ x.kind hseen hin hfault
    rwa [hpc] at hmem

theorem nodup_depthsAt (pc : Nat) : ((explore code tables limit).depthsAt pc).Nodup := by
  rw [depthsAt_explore]
  exact (Ascending.pairwise_ofList Ascending.natLe_totalOrder _).imp And.right

end Result

end StackMachine.Exploration
