import Mathlib

namespace StackMachine

variable {ε α β : Type} {f : α → Except ε β} {a : α} {b : β} {as : List α} {bs : List β} {e : ε}

theorem exists_mem_of_forall₂ {R : α → β → Prop} (h : List.Forall₂ R as bs) (ha : a ∈ as) :
    ∃ b ∈ bs, R a b := by
  induction h with
  | nil => cases ha
  | cons hhead _ ih =>
    obtain rfl | ha := List.mem_cons.mp ha
    · exact ⟨_, List.mem_cons_self, hhead⟩
    · obtain ⟨b, hb, hab⟩ := ih ha
      exact ⟨b, List.mem_cons_of_mem _ hb, hab⟩

theorem map_eq_ok_iff {g : α → β} {x : Except ε α} :
    x.map g = .ok b ↔ ∃ a, x = .ok a ∧ g a = b := by
  cases x <;> simp [Except.map]

theorem map_eq_error_iff {g : α → β} {x : Except ε α} : x.map g = .error e ↔ x = .error e := by
  cases x <;> simp [Except.map]

theorem bind_eq_ok_iff {x : Except ε α} {g : α → Except ε β} :
    x >>= g = .ok b ↔ ∃ a, x = .ok a ∧ g a = .ok b := by
  cases x <;> simp [bind, Except.bind]

theorem mapM_cons_of_error (h : f a = .error e) : (a :: as).mapM f = .error e := by
  rw [List.mapM_cons, h]
  rfl

theorem mapM_cons_of_ok (h : f a = .ok b) : (a :: as).mapM f = (as.mapM f).map (b :: ·) := by
  rw [List.mapM_cons, h]
  cases as.mapM f <;> rfl

theorem exists_of_mapM_cons (h : (a :: as).mapM f = .ok bs) :
    ∃ b rest, f a = .ok b ∧ as.mapM f = .ok rest ∧ bs = b :: rest := by
  cases hb : f a with
  | error e =>
    rw [mapM_cons_of_error hb] at h
    cases h
  | ok b =>
    rw [mapM_cons_of_ok hb] at h
    cases hrest : as.mapM f with
    | error e =>
      rw [hrest] at h
      cases h
    | ok rest =>
      rw [hrest] at h
      exact ⟨b, rest, rfl, rfl, (Except.ok.inj h).symm⟩

theorem mapM_eq_ok_iff :
    as.mapM f = .ok bs ↔ List.Forall₂ (fun a b => f a = .ok b) as bs := by
  constructor
  · intro h
    induction as generalizing bs with
    | nil =>
      obtain rfl := Except.ok.inj h
      exact .nil
    | cons a as ih =>
      obtain ⟨b, rest, hb, hrest, rfl⟩ := exists_of_mapM_cons h
      exact .cons hb (ih hrest)
  · intro h
    induction h with
    | nil => rfl
    | cons hb _ ih =>
      rw [mapM_cons_of_ok hb, ih]
      rfl

theorem mem_of_mapM_iff (h : as.mapM f = .ok bs) : b ∈ bs ↔ ∃ a ∈ as, f a = .ok b := by
  induction mapM_eq_ok_iff.mp h with
  | nil => simp
  | cons hb _ ih =>
    obtain ⟨_, _, _, hrest, heq⟩ := exists_of_mapM_cons h
    obtain ⟨rfl, rfl⟩ := List.cons.inj heq
    simp [ih hrest, hb, eq_comm]

theorem exists_mapM_eq_ok_iff :
    (∃ bs, as.mapM f = .ok bs) ↔ ∀ a ∈ as, ∃ b, f a = .ok b := by
  simp only [mapM_eq_ok_iff]
  induction as with
  | nil => simp
  | cons a as ih =>
    rw [List.forall_mem_cons, ← ih]
    constructor
    · rintro ⟨_, h⟩
      cases h with
      | cons hb hrest => exact ⟨⟨_, hb⟩, _, hrest⟩
    · rintro ⟨⟨b, hb⟩, rest, hrest⟩
      exact ⟨b :: rest, .cons hb hrest⟩

theorem exists_mapM_of_perm {as' : List α} (hperm : as.Perm as') (h : as.mapM f = .ok bs) :
    ∃ bs', as'.mapM f = .ok bs' ∧ bs.Perm bs' := by
  obtain ⟨bs', hbs', hbs⟩ := List.perm_comp_forall₂ hperm.symm (mapM_eq_ok_iff.mp h)
  exact ⟨bs', mapM_eq_ok_iff.mpr hbs', hbs.symm⟩

/-- The items behind the first failure do not matter. -/
theorem mapM_eq_error_iff :
    as.mapM f = .error e ↔ ∃ before a after, as = before ++ a :: after ∧
      (∀ x ∈ before, ∃ b, f x = .ok b) ∧ f a = .error e := by
  constructor
  · intro h
    induction as with
    | nil => cases h
    | cons a as ih =>
      cases ha : f a with
      | error e' =>
        rw [mapM_cons_of_error ha] at h
        obtain rfl := Except.error.inj h
        exact ⟨[], a, as, rfl, List.forall_mem_nil _, ha⟩
      | ok b =>
        rw [mapM_cons_of_ok ha] at h
        cases hrest : as.mapM f with
        | error e' =>
          rw [hrest] at h
          obtain rfl := Except.error.inj h
          obtain ⟨before, a', after, rfl, hbefore, ha'⟩ := ih hrest
          exact ⟨a :: before, a', after, rfl, List.forall_mem_cons.mpr ⟨⟨b, ha⟩, hbefore⟩, ha'⟩
        | ok rest =>
          rw [hrest] at h
          cases h
  · rintro ⟨before, a, after, rfl, hbefore, ha⟩
    induction before with
    | nil => exact mapM_cons_of_error ha
    | cons x before ih =>
      obtain ⟨⟨b, hb⟩, hrest⟩ := List.forall_mem_cons.mp hbefore
      rw [List.cons_append, mapM_cons_of_ok hb, ih hrest]
      rfl

end StackMachine
