namespace StackMachine.Ascending

structure TotalOrder {α : Type} (le : α → α → Bool) : Prop where
  trans : ∀ a b c, le a b = true → le b c = true → le a c = true
  total : ∀ a b, (le a b || le b a) = true
  antisymm : ∀ a b, le a b = true → le b a = true → a = b

variable {α : Type} {le : α → α → Bool}

/-- A strictly ascending list is determined by its members. -/
theorem eq_of_mem_iff (h : TotalOrder le) {xs ys : List α}
    (hx : xs.Pairwise fun a b => le a b = true ∧ a ≠ b)
    (hy : ys.Pairwise fun a b => le a b = true ∧ a ≠ b)
    (hmem : ∀ a, a ∈ xs ↔ a ∈ ys) : xs = ys := by
  apply List.Perm.eq_of_pairwise (fun a b _ _ hab hba => h.antisymm a b hab.1 hba.1) hx hy
  exact (List.perm_ext_iff_of_nodup (hx.imp And.right) (hy.imp And.right)).mpr hmem

variable [DecidableEq α]

def putFront (a : α) : List α → List α
  | [] => [a]
  | b :: rest => if a = b then b :: rest else a :: b :: rest

def collapse (items : List α) : List α := items.foldr putFront []

def ofList (le : α → α → Bool) (items : List α) : List α := collapse (items.mergeSort le)

theorem mem_putFront {a x : α} {items : List α} : x ∈ putFront a items ↔ x = a ∨ x ∈ items := by
  cases items with
  | nil => simp [putFront]
  | cons b rest =>
    rw [putFront]
    split
    · simp_all
    · simp

@[simp] theorem mem_collapse {x : α} {items : List α} : x ∈ collapse items ↔ x ∈ items := by
  induction items with
  | nil => simp [collapse]
  | cons a items ih =>
    rw [collapse, List.foldr_cons, mem_putFront, ← collapse, ih, List.mem_cons]

@[simp] theorem mem_ofList {x : α} {items : List α} : x ∈ ofList le items ↔ x ∈ items := by
  rw [ofList, mem_collapse]
  exact (List.mergeSort_perm items le).mem_iff

theorem pairwise_putFront (h : TotalOrder le) {a : α} {items : List α}
    (ha : ∀ b ∈ items, le a b = true)
    (hi : items.Pairwise fun a b => le a b = true ∧ a ≠ b) :
    (putFront a items).Pairwise fun a b => le a b = true ∧ a ≠ b := by
  cases items with
  | nil => simp [putFront]
  | cons b rest =>
    rw [putFront]
    split
    · exact hi
    next hab =>
      refine List.pairwise_cons.mpr ⟨fun c hc => ⟨ha c hc, ?_⟩, hi⟩
      rintro rfl
      obtain hac | hac := List.mem_cons.mp hc
      · exact hab hac
      · have hba := ((List.pairwise_cons.mp hi).1 a hac).1
        exact hab (h.antisymm _ _ (ha b List.mem_cons_self) hba)

theorem pairwise_ofList (h : TotalOrder le) (items : List α) :
    (ofList le items).Pairwise fun a b => le a b = true ∧ a ≠ b := by
  have hs := List.pairwise_mergeSort h.trans h.total items
  unfold ofList
  generalize items.mergeSort le = sorted at hs
  induction hs with
  | nil => exact List.Pairwise.nil
  | cons ha _ ih => exact pairwise_putFront h (fun b hb => ha b (mem_collapse.mp hb)) ih

theorem ofList_of_pairwise (h : TotalOrder le) {xs : List α}
    (hx : xs.Pairwise fun a b => le a b = true ∧ a ≠ b) : ofList le xs = xs :=
  eq_of_mem_iff h (pairwise_ofList h xs) hx fun _ => mem_ofList

def natLe (a b : Nat) : Bool := decide (a ≤ b)

theorem natLe_totalOrder : TotalOrder natLe where
  trans a b c := by simp only [natLe, decide_eq_true_eq]; omega
  total a b := by simp only [natLe, Bool.or_eq_true, decide_eq_true_eq]; omega
  antisymm a b := by simp only [natLe, decide_eq_true_eq]; omega

end StackMachine.Ascending
