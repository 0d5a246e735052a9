import StackMachine.Proofs.JumpTable
import StackMachine.Proofs.JumpTable.Canonical

namespace StackMachine

namespace JumpTable

variable {t : JumpTable} {e : JumpEntry}

/-- The ways in which a table is made. -/
inductive Made : JumpTable → Prop where
  | empty : Made empty
  | ofAscending (entries : List JumpEntry) (t : JumpTable) (h : ofAscending entries = .ok t) :
      Made t
  | ofEntries (entries : List JumpEntry) : Made (ofEntries entries)
  | decode (bytes : Array UInt8) (t : JumpTable) (h : decode bytes = .ok t) : Made t
  | build (calls : List TableBuilder.Call) (a : Assembler) (t : JumpTable)
      (h : (TableBuilder.ofCalls calls).build a = .ok t) : Made t

theorem pairwise_of_ofAscending {entries : List JumpEntry} (h : ofAscending entries = .ok t) :
    t.toList.Pairwise JumpEntry.Lt := by
  obtain ⟨hpairwise, hlist⟩ := of_ofAscending h
  exact hlist ▸ hpairwise

theorem Made.pairwise (h : t.Made) : t.toList.Pairwise JumpEntry.Lt := by
  cases h with
  | empty => exact List.Pairwise.nil
  | ofAscending entries t h => exact pairwise_of_ofAscending h
  | ofEntries entries => exact pairwise_ofEntries entries
  | decode bytes t h =>
    rw [JumpTable.decode] at h
    split at h
    · cases h
    · exact pairwise_of_ofAscending h
  | build calls a t h =>
    obtain ⟨es, _, rfl⟩ := TableBuilder.exists_of_build h
    exact pairwise_ofEntries es

end JumpTable

namespace JumpTables

variable (t : JumpTables) (src : Nat)

def found : List JumpEntry := (t.lookup src).jumps ++ (t.lookup src).traps

theorem mem_found_iff {e : JumpEntry} :
    e ∈ t.found src ↔ (e ∈ t.jumps.toList ∨ e ∈ t.traps.toList) ∧ e.src = src := by
  simp only [found, lookup, List.mem_append, JumpTable.mem_entriesFrom_iff, or_and_right]

theorem isListed_iff_exists_mem_found :
    (t.lookup src).isListed = true ↔ ∃ e, e ∈ t.found src := by
  simp only [Lookup.isListed, found]
  cases (t.lookup src).jumps <;> cases (t.lookup src).traps <;> simp

theorem size_lookup :
    (t.lookup src).size = (t.jumps.toList ++ t.traps.toList).countP fun e => e.src = src := by
  simp only [Lookup.size, lookup, JumpTable.entriesFrom_eq_filter, List.countP_eq_length_filter,
    List.filter_append, List.length_append]

theorem destinations_lookup :
    (t.lookup src).destinations =
      (t.jumps.toList.filter fun e => e.src = src).map (fun e => (.jump, e.dst)) ++
        (t.traps.toList.filter fun e => e.src = src).map fun e => (.trap, e.dst) := by
  simp only [Lookup.destinations, lookup, JumpTable.entriesFrom_eq_filter]

theorem disjoint_found {src' : Nat} (h : src' ≠ src) : (t.found src).Disjoint (t.found src') := by
  intro e he he'
  have hsrc := ((t.mem_found_iff src).mp he).2
  have hsrc' := ((t.mem_found_iff src').mp he').2
  exact h (hsrc' ▸ hsrc)

end JumpTables

/-- In a table that can be made the binary search for a source gives what going through all entries
gives. So a lookup in two tables finds all destinations that either of them lists, and an entry is
found for one source only. -/
theorem lookup_exact :
    (∀ t : JumpTable, t.Made → t.toList.Pairwise JumpEntry.Lt) ∧
    (∀ (t : JumpTable) (src : Nat),
      t.entriesFrom src = t.toList.filter fun e => e.src = src) ∧
    ∀ (t : JumpTables) (src : Nat),
      ((t.lookup src).isListed = true ↔
        ∃ e, (e ∈ t.jumps.toList ∨ e ∈ t.traps.toList) ∧ e.src = src) ∧
      (t.lookup src).size = (t.jumps.toList ++ t.traps.toList).countP (fun e => e.src = src) ∧
      (t.lookup src).destinations =
        (t.jumps.toList.filter fun e => e.src = src).map (fun e => (.jump, e.dst)) ++
          (t.traps.toList.filter fun e => e.src = src).map (fun e => (.trap, e.dst)) ∧
      ∀ src', src' ≠ src → (t.found src).Disjoint (t.found src') := by
  refine ⟨fun t ht => ht.pairwise, JumpTable.entriesFrom_eq_filter, fun t src => ⟨?_,
    t.size_lookup src, t.destinations_lookup src, fun src' => t.disjoint_found src⟩⟩
  simp only [t.isListed_iff_exists_mem_found, t.mem_found_iff]

theorem lookup_exact_two_sources :
    JumpTable.Made ⟨#[⟨2, 1⟩, ⟨10, 50⟩, ⟨10, 60⟩], by decide⟩ ∧
    [JumpEntry.mk 2 1, ⟨10, 50⟩, ⟨10, 60⟩].Pairwise JumpEntry.Lt ∧
    (2 : Nat) ≠ 10 ∧
    ((⟨⟨#[⟨2, 1⟩, ⟨10, 50⟩, ⟨10, 60⟩], by decide⟩, JumpTable.empty⟩ : JumpTables).found 10).Disjoint
      ((⟨⟨#[⟨2, 1⟩, ⟨10, 50⟩, ⟨10, 60⟩], by decide⟩, JumpTable.empty⟩ : JumpTables).found 2) := by
  obtain ⟨hpairwise, _, hlookup⟩ := lookup_exact
  have hmade : JumpTable.Made ⟨#[⟨2, 1⟩, ⟨10, 50⟩, ⟨10, 60⟩], by decide⟩ :=
    .decode #[0, 2, 0, 1, 0, 10, 0, 50, 0, 10, 0, 60] _ (by decide)
  exact ⟨hmade, hpairwise _ hmade, by decide, (hlookup _ 10).2.2.2 2 (by decide)⟩

end StackMachine
