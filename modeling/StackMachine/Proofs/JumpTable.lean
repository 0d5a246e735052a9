import Mathlib
import StackMachine.JumpTable

namespace StackMachine

/-- The partition point of a range whose items satisfy `p` up to `k` and not from `k` on. -/
theorem partitionPoint_eq {α : Type} {items : Array α} {p : α → Bool} {lo hi k : Nat}
    (hlo : lo ≤ k) (hhi : k ≤ hi)
    (hbelow : ∀ j, lo ≤ j → j < k → items[j]?.any p = true)
    (habove : ∀ j, k ≤ j → j < hi → items[j]?.any p = false) :
    partitionPoint items p lo hi = k := by
  induction hn : hi - lo using Nat.strongRecOn generalizing lo hi with
  | ind n ih =>
    rw [partitionPoint]
    by_cases h : lo < hi
    · rw [dif_pos h]
      dsimp only
      -- The point stays between the bounds, on whichever side of the middle it is.
      by_cases hmid : lo + (hi - lo) / 2 < k
      · rw [if_pos (hbelow _ (by omega) hmid)]
        refine ih _ (by omega) (by omega) hhi ?_ habove rfl
        intro j hj hjk
        exact hbelow j (by omega) hjk
      · rw [habove _ (by omega) (by omega), if_neg (by simp)]
        refine ih _ (by omega) hlo (by omega) hbelow ?_ rfl
        intro j hkj hj
        exact habove j hkj (by omega)
    · rw [dif_neg h]
      omega

theorem partitionPoint_append {α : Type} {items : Array α} {p : α → Bool}
    {before sat unsat : List α} (h : items.toList = before ++ (sat ++ unsat))
    (hsat : ∀ a ∈ sat, p a = true) (hunsat : ∀ a ∈ unsat, p a = false) :
    partitionPoint items p before.length items.size = before.length + sat.length := by
  have hsize : items.size = before.length + (sat.length + unsat.length) := by
    rw [← Array.length_toList, h, List.length_append, List.length_append]
  have hget (j : Nat) (hj : before.length ≤ j) :
      items[j]? = (sat ++ unsat)[j - before.length]? := by
    rw [← Array.getElem?_toList, h, List.getElem?_append_right hj]
  apply partitionPoint_eq (by omega) (by omega)
  · intro j hj hlt
    rw [hget j hj, List.getElem?_append_left (by omega), List.getElem?_eq_getElem (by omega)]
    exact hsat _ (List.getElem_mem _)
  · intro j hj hlt
    rw [hget j (by omega), List.getElem?_append_right (by omega),
      List.getElem?_eq_getElem (by omega)]
    exact hunsat _ (List.getElem_mem _)

section Sorted

variable {entries : List JumpEntry}

theorem filter_src_append (src : Nat) (h : entries.Pairwise fun a b => a.src ≤ b.src) :
    entries.filter (fun e => decide (e.src < src)) ++
      (entries.filter (fun e => decide (e.src = src)) ++
        entries.filter (fun e => decide (src < e.src))) = entries := by
  induction entries with
  | nil => rfl
  | cons e rest ih =>
    have hrest := ih h.tail
    -- In order of the sources, nothing behind an entry has a smaller one.
    have hnone {p : Nat → Bool} (hp : ∀ k, e.src ≤ k → p k = false) :
        rest.filter (fun a => p a.src) = [] := by
      refine List.filter_eq_nil_iff.mpr fun a ha => ?_
      rw [hp a.src ((List.pairwise_cons.mp h).1 a ha)]
      exact Bool.false_ne_true
    obtain hlt | heq | hgt := Nat.lt_trichotomy e.src src
    · have hne : ¬ e.src = src := by omega
      have hng : ¬ src < e.src := by omega
      simp only [List.filter_cons, hlt, hne, hng, decide_true, decide_false, ↓reduceIte,
        Bool.false_eq_true, List.cons_append, hrest]
    · have hlow : rest.filter (fun e => decide (e.src < src)) = [] :=
        hnone (p := fun k => decide (k < src)) fun k hk => decide_eq_false (by omega)
      rw [hlow, List.nil_append] at hrest
      simp only [List.filter_cons, heq, Nat.lt_irrefl, decide_true, decide_false, ↓reduceIte,
        Bool.false_eq_true, hlow, List.nil_append, List.cons_append, hrest]
    · have hne : ¬ e.src = src := by omega
      have hnl : ¬ e.src < src := by omega
      have hlow : rest.filter (fun e => decide (e.src < src)) = [] :=
        hnone (p := fun k => decide (k < src)) fun k hk => decide_eq_false (by omega)
      have hmid : rest.filter (fun e => decide (e.src = src)) = [] :=
        hnone (p := fun k => decide (k = src)) fun k hk => decide_eq_false (by omega)
      rw [hlow, hmid, List.nil_append, List.nil_append] at hrest
      simp only [List.filter_cons, hne, hnl, hgt, decide_true, decide_false, ↓reduceIte,
        Bool.false_eq_true, hlow, hmid, List.nil_append, hrest]

end Sorted

namespace JumpTable

variable (t : JumpTable) (src : Nat)

theorem pairwise_src : t.toList.Pairwise fun a b => a.src ≤ b.src := by
  refine t.ascending.imp ?_
  intro a b h
  obtain h | ⟨h, _⟩ := h <;> omega

theorem entriesFrom_eq_filter :
    t.entriesFrom src = t.toList.filter fun e => decide (e.src = src) := by
  have hsplit := filter_src_append src t.pairwise_src
  generalize hlow : t.toList.filter (fun e => decide (e.src < src)) = low at hsplit
  generalize hmid : t.toList.filter (fun e => decide (e.src = src)) = mid at hsplit
  generalize hhigh : t.toList.filter (fun e => decide (src < e.src)) = high at hsplit
  have hinLow : ∀ a ∈ low, a.src < src := by
    intro a ha
    rw [← hlow, List.mem_filter] at ha
    exact of_decide_eq_true ha.2
  have hinMid : ∀ a ∈ mid, a.src = src := by
    intro a ha
    rw [← hmid, List.mem_filter] at ha
    exact of_decide_eq_true ha.2
  have hinHigh : ∀ a ∈ high, src < a.src := by
    intro a ha
    rw [← hhigh, List.mem_filter] at ha
    exact of_decide_eq_true ha.2
  -- The first search stops where `src` begins, the second where it ends.
  have hstart : partitionPoint t.entries (fun e => decide (e.src < src)) 0 t.size = low.length := by
    have hall : t.entries.toList = [] ++ (low ++ (mid ++ high)) := hsplit.symm
    refine (partitionPoint_append hall ?_ ?_).trans (Nat.zero_add _)
    · intro a ha
      exact decide_eq_true (hinLow a ha)
    · intro a ha
      refine decide_eq_false ?_
      obtain hm | hm := List.mem_append.mp ha
      · exact Nat.not_lt.mpr (Nat.le_of_eq (hinMid a hm).symm)
      · exact Nat.not_lt.mpr (Nat.le_of_lt (hinHigh a hm))
  have hstop : partitionPoint t.entries (fun e => decide (e.src = src)) low.length t.size =
      low.length + mid.length := by
    refine partitionPoint_append hsplit.symm ?_ ?_
    · intro a ha
      exact decide_eq_true (hinMid a ha)
    · intro a ha
      exact decide_eq_false (Nat.ne_of_gt (hinHigh a ha))
  simp only [entriesFrom, hstart, hstop]
  rw [Array.toList_extract, ← toList, ← hsplit]
  simp [List.extract]

theorem mem_entriesFrom_iff {e : JumpEntry} :
    e ∈ t.entriesFrom src ↔ e ∈ t.toList ∧ e.src = src := by
  rw [entriesFrom_eq_filter, List.mem_filter, decide_eq_true_eq]

theorem sum_entriesFrom_le {srcs : List Nat} (h : srcs.Nodup) (entries : List JumpEntry) :
    (srcs.map fun src => (entries.filter fun e => decide (e.src = src)).length).sum ≤
      entries.length := by
  induction srcs generalizing entries with
  | nil => exact Nat.zero_le _
  | cons src srcs ih =>
    obtain ⟨hnew, hrest⟩ := List.nodup_cons.mp h
    have hle := ih hrest (entries.filter fun e => !decide (e.src = src))
    -- The entries of `src` are no one else's, and can be taken out.
    have hother : srcs.map (fun s => ((entries.filter fun e => !decide (e.src = src)).filter
        fun e => decide (e.src = s)).length) =
        srcs.map fun s => (entries.filter fun e => decide (e.src = s)).length := by
      apply List.map_congr_left
      intro s hs
      rw [List.filter_filter]
      congr 1
      apply List.filter_congr
      intro e _
      have hne : s ≠ src := fun heq => hnew (heq ▸ hs)
      by_cases he : e.src = s <;> simp [he, hne]
    have hlen : entries.length = (entries.filter fun e => decide (e.src = src)).length +
        (entries.filter fun e => !decide (e.src = src)).length := by
      simpa [List.countP_eq_length_filter] using
        List.length_eq_countP_add_countP (fun e : JumpEntry => decide (e.src = src)) (l := entries)
    rw [hother] at hle
    rw [List.map_cons, List.sum_cons]
    omega

end JumpTable

namespace JumpTables

/-- A jump at `src` may go to `dst` by one of the tables. -/
def Lists (t : JumpTables) (src dst : Nat) : Prop :=
  (⟨src, dst⟩ : JumpEntry) ∈ t.jumps.toList ∨ (⟨src, dst⟩ : JumpEntry) ∈ t.traps.toList

theorem mem_destinations_iff (t : JumpTables) {src dst : Nat} :
    dst ∈ (t.lookup src).destinations.map Prod.snd ↔ t.Lists src dst := by
  have hmem (table : JumpTable) : (∃ e ∈ table.entriesFrom src, e.dst = dst) ↔
      (⟨src, dst⟩ : JumpEntry) ∈ table.toList := by
    constructor
    · rintro ⟨⟨s, d⟩, he, rfl⟩
      obtain ⟨hm, rfl⟩ := (table.mem_entriesFrom_iff src).mp he
      exact hm
    · intro h
      exact ⟨⟨src, dst⟩, (table.mem_entriesFrom_iff src).mpr ⟨h, rfl⟩, rfl⟩
  rw [Lists, ← hmem, ← hmem]
  simp [Lookup.destinations, lookup]

theorem length_destinations (l : Lookup) : l.destinations.length = l.size := by
  simp [Lookup.destinations, Lookup.size]

theorem sum_lookup_size_le (t : JumpTables) {srcs : List Nat} (h : srcs.Nodup) :
    (srcs.map fun src => (t.lookup src).size).sum ≤ t.size := by
  have hjumps := JumpTable.sum_entriesFrom_le h t.jumps.toList
  have htraps := JumpTable.sum_entriesFrom_le h t.traps.toList
  simp only [← JumpTable.entriesFrom_eq_filter] at hjumps htraps
  have hsum : (srcs.map fun src => (t.lookup src).size).sum =
      (srcs.map fun src => (t.jumps.entriesFrom src).length).sum +
        (srcs.map fun src => (t.traps.entriesFrom src).length).sum := by
    clear hjumps htraps h
    induction srcs with
    | nil => rfl
    | cons src srcs ih =>
      have hhead : (t.lookup src).size =
        (t.jumps.entriesFrom src).length + (t.traps.entriesFrom src).length := rfl
      rw [List.map_cons, List.map_cons, List.map_cons, List.sum_cons, List.sum_cons, List.sum_cons,
        ih, hhead]
      omega
  have hsize : t.size = t.jumps.toList.length + t.traps.toList.length := by
    simp [size, JumpTable.size, JumpTable.toList]
  omega

end JumpTables

end StackMachine
