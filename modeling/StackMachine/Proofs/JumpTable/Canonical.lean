import StackMachine.Assembler
import StackMachine.Proofs.FirstError
import StackMachine.Proofs.JumpTable.Wire

namespace StackMachine

namespace JumpTable

variable {entries entries' : List JumpEntry} {t : JumpTable} {e : JumpEntry}

theorem mem_ofEntries : e ∈ (ofEntries entries).toList ↔ e ∈ entries := by
  simp [ofEntries, toList]

theorem pairwise_ofEntries (entries : List JumpEntry) :
    (ofEntries entries).toList.Pairwise JumpEntry.Lt := by
  have h := Ascending.pairwise_ofList JumpEntry.le_totalOrder entries
  simpa [ofEntries, toList] using h.imp JumpEntry.lt_iff.mpr

theorem eq_of_mem_iff {t' : JumpTable} (h : ∀ e, e ∈ t.toList ↔ e ∈ t'.toList) : t = t' := by
  apply eq_of_toList_eq
  have hlt (t : JumpTable) : t.toList.Pairwise fun a b => a.le b = true ∧ a ≠ b :=
    t.ascending.imp JumpEntry.lt_iff.mp
  exact Ascending.eq_of_mem_iff JumpEntry.le_totalOrder (hlt t) (hlt t') h

theorem ofEntries_congr (h : ∀ e, e ∈ entries ↔ e ∈ entries') :
    ofEntries entries = ofEntries entries' := by
  apply eq_of_mem_iff
  simpa [mem_ofEntries] using h

theorem of_ofAscending (h : ofAscending entries = .ok t) :
    entries.Pairwise JumpEntry.Lt ∧ t.toList = entries := by
  cases hfirst : firstUnsorted? 0 entries with
  | none =>
    obtain ⟨t', ht', hlist⟩ := ofAscending_eq_ok hfirst
    obtain rfl := Except.ok.inj (h.symm.trans ht')
    exact ⟨pairwise_of_firstUnsorted? hfirst, hlist⟩
  | some index =>
    rw [ofAscending_eq_error hfirst] at h
    cases h

theorem exists_ofAscending_iff :
    (∃ t, ofAscending entries = .ok t ∧ t.toList = entries) ↔ entries.Pairwise JumpEntry.Lt := by
  constructor
  · rintro ⟨t, ht, _⟩
    exact (of_ofAscending ht).1
  · intro h
    exact ofAscending_eq_ok (firstUnsorted?_eq_none (not_descent_of_pairwise h) 0)

/-- The first entry that is not greater than the one before it is reported. -/
theorem exists_ofAscending_error (h : ¬ entries.Pairwise JumpEntry.Lt) :
    ∃ k, IsLeast {k | 0 < k ∧ Descent entries (k - 1)} k ∧
      ofAscending entries = .error (.unsorted k) := by
  have hex : ∃ k, Descent entries k := by
    by_contra hnone
    exact h (pairwise_of_firstUnsorted? (firstUnsorted?_eq_none (not_exists.mp hnone) 0))
  classical
  have hleast : IsLeast {k | Descent entries k} (Nat.find hex) :=
    ⟨Nat.find_spec hex, fun j hj => Nat.find_min' hex hj⟩
  refine ⟨Nat.find hex + 1, ⟨⟨Nat.succ_pos _, hleast.1⟩, fun j hj => ?_⟩, ?_⟩
  · have hle := hleast.2 hj.2
    have hpos := hj.1
    omega
  · rw [ofAscending_eq_error (firstUnsorted?_of_isLeast hleast 0), Nat.zero_add]

end JumpTable

namespace TableBuilder

variable {b : TableBuilder} {a a' : Assembler} {p : Label × Label} {t : JumpTable} {e : JumpEntry}

inductive Call where
  | entry (src dst : Label)
  | entries (src : Label) (dsts : List Label)
  deriving DecidableEq

def Call.pairs : Call → List (Label × Label)
  | entry src dst => [(src, dst)]
  | entries src dsts => dsts.map fun dst => (src, dst)

def Call.perform (b : TableBuilder) : Call → TableBuilder
  | entry src dst => b.entry src dst
  | entries src dsts => b.entries src dsts

def ofCalls (calls : List Call) : TableBuilder := calls.foldl Call.perform empty

def listed (calls : List Call) : List (Label × Label) := calls.flatMap Call.pairs

theorem pairs_entries (src : Label) (dsts : List Label) (b : TableBuilder) :
    (b.entries src dsts).pairs = (dsts.map fun dst => (src, dst)).reverse ++ b.pairs := by
  rw [entries]
  induction dsts generalizing b with
  | nil => rfl
  | cons dst dsts ih =>
    rw [List.foldl_cons, ih, List.map_cons, List.reverse_cons, List.append_assoc]
    rfl

theorem pairs_perform (b : TableBuilder) (c : Call) :
    (c.perform b).pairs = c.pairs.reverse ++ b.pairs := by
  cases c with
  | entry src dst => rfl
  | entries src dsts => exact pairs_entries src dsts b

theorem reverse_pairs_ofCalls (calls : List Call) :
    (ofCalls calls).pairs.reverse = listed calls := by
  have hfold (b : TableBuilder) :
      (calls.foldl Call.perform b).pairs.reverse = b.pairs.reverse ++ listed calls := by
    induction calls generalizing b with
    | nil => simp [listed]
    | cons c calls ih => simp [ih, pairs_perform, listed]
  exact hfold empty

theorem resolve_eq_ok_iff :
    resolve a p = .ok e ↔ a.labelPc? p.1 = some e.src ∧ a.labelPc? p.2 = some e.dst := by
  cases e with
  | mk src dst =>
    rw [resolve]
    cases a.labelPc? p.1 <;> cases a.labelPc? p.2 <;> simp

theorem exists_resolve_iff :
    (∃ e, resolve a p = .ok e) ↔
      (∃ pc, a.labelPc? p.1 = some pc) ∧ ∃ pc, a.labelPc? p.2 = some pc := by
  constructor
  · rintro ⟨e, he⟩
    obtain ⟨hsrc, hdst⟩ := resolve_eq_ok_iff.mp he
    exact ⟨⟨_, hsrc⟩, _, hdst⟩
  · rintro ⟨⟨src, hsrc⟩, dst, hdst⟩
    exact ⟨⟨src, dst⟩, resolve_eq_ok_iff.mpr ⟨hsrc, hdst⟩⟩

theorem build_ofCalls (calls : List Call) (a : Assembler) :
    (ofCalls calls).build a = ((listed calls).mapM (resolve a)).map JumpTable.ofEntries := by
  rw [build, reverse_pairs_ofCalls]

/-- The places of the listed labels, pair by pair. -/
def places (a : Assembler) (calls : List Call) : Set (Option Nat × Option Nat) :=
  {q | ∃ p ∈ listed calls, q = (a.labelPc? p.1, a.labelPc? p.2)}

section Build

variable {calls calls' : List Call} {es : List JumpEntry}

theorem exists_of_build (h : (ofCalls calls).build a = .ok t) :
    ∃ es, (listed calls).mapM (resolve a) = .ok es ∧ t = JumpTable.ofEntries es := by
  rw [build_ofCalls, map_eq_ok_iff] at h
  obtain ⟨es, hes, ht⟩ := h
  exact ⟨es, hes, ht.symm⟩

theorem exists_build_iff :
    (∃ t, (ofCalls calls).build a = .ok t) ↔
      ∀ p ∈ listed calls, (∃ pc, a.labelPc? p.1 = some pc) ∧ ∃ pc, a.labelPc? p.2 = some pc := by
  simp only [← exists_resolve_iff, ← exists_mapM_eq_ok_iff, build_ofCalls, map_eq_ok_iff]
  constructor
  · rintro ⟨_, es, hes, _⟩
    exact ⟨es, hes⟩
  · rintro ⟨es, hes⟩
    exact ⟨_, es, hes, rfl⟩

theorem mem_build_iff (h : (ofCalls calls).build a = .ok t) :
    e ∈ t.toList ↔
      ∃ p ∈ listed calls, a.labelPc? p.1 = some e.src ∧ a.labelPc? p.2 = some e.dst := by
  obtain ⟨es, hes, rfl⟩ := exists_of_build h
  simp only [JumpTable.mem_ofEntries, mem_of_mapM_iff hes, resolve_eq_ok_iff]

theorem mem_build_iff_mem_places (h : (ofCalls calls).build a = .ok t) :
    e ∈ t.toList ↔ (some e.src, some e.dst) ∈ places a calls := by
  simp [mem_build_iff h, places, eq_comm]

theorem exists_build_iff_places :
    (∃ t, (ofCalls calls).build a = .ok t) ↔
      ∀ q ∈ places a calls, (∃ pc, q.1 = some pc) ∧ ∃ pc, q.2 = some pc := by
  rw [exists_build_iff]
  constructor
  · rintro h _ ⟨p, hp, rfl⟩
    exact h p hp
  · intro h p hp
    exact h _ ⟨p, hp, rfl⟩

theorem build_eq_error (h : ¬ ∃ t, (ofCalls calls).build a = .ok t) :
    (ofCalls calls).build a = .error .mk := by
  cases hbuild : (ofCalls calls).build a with
  | error e => cases e; rfl
  | ok t => exact absurd ⟨t, hbuild⟩ h

/-- Neither the order nor the grouping of the calls counts, nor which labels are at a place. -/
theorem build_congr (h : places a calls = places a' calls') :
    (ofCalls calls).build a = (ofCalls calls').build a' := by
  have hiff : (∃ t, (ofCalls calls).build a = .ok t) ↔ ∃ t, (ofCalls calls').build a' = .ok t := by
    rw [exists_build_iff_places, exists_build_iff_places, h]
  by_cases hex : ∃ t, (ofCalls calls).build a = .ok t
  · obtain ⟨t, ht⟩ := hex
    obtain ⟨t', ht'⟩ := hiff.mp ⟨t, ht⟩
    have hmem (e : JumpEntry) : e ∈ t.toList ↔ e ∈ t'.toList := by
      rw [mem_build_iff_mem_places ht, mem_build_iff_mem_places ht', h]
    rw [ht, ht', JumpTable.eq_of_mem_iff hmem]
  · rw [build_eq_error hex, build_eq_error (hiff.not.mp hex)]

end Build

end TableBuilder

/-- Making a table from a list of entries, sorted or not, and building one from label pairs, give
the canonical form of the set of the entries. -/
theorem table_canonical :
    (∀ entries : List JumpEntry,
      (∀ e, e ∈ (JumpTable.ofEntries entries).toList ↔ e ∈ entries) ∧
      JumpTable.ofAscending (JumpTable.ofEntries entries).toList =
        .ok (JumpTable.ofEntries entries) ∧
      (∀ entries', (∀ e, e ∈ entries ↔ e ∈ entries') →
        JumpTable.ofEntries entries = JumpTable.ofEntries entries') ∧
      ((∃ t, JumpTable.ofAscending entries = .ok t ∧ t.toList = entries) ↔
        entries.Pairwise JumpEntry.Lt) ∧
      (¬ entries.Pairwise JumpEntry.Lt →
        ∃ k, IsLeast {k | 0 < k ∧ Descent entries (k - 1)} k ∧
          JumpTable.ofAscending entries = .error (.unsorted k))) ∧
    ∀ (calls : List TableBuilder.Call) (a : Assembler),
      ((∃ t, (TableBuilder.ofCalls calls).build a = .ok t) ↔
        ∀ p ∈ TableBuilder.listed calls,
          (∃ pc, a.labelPc? p.1 = some pc) ∧ ∃ pc, a.labelPc? p.2 = some pc) ∧
      (∀ t, (TableBuilder.ofCalls calls).build a = .ok t → ∀ e, e ∈ t.toList ↔
        ∃ p ∈ TableBuilder.listed calls,
          a.labelPc? p.1 = some e.src ∧ a.labelPc? p.2 = some e.dst) ∧
      ∀ (calls' : List TableBuilder.Call) (a' : Assembler),
        TableBuilder.places a calls = TableBuilder.places a' calls' →
        (TableBuilder.ofCalls calls).build a = (TableBuilder.ofCalls calls').build a' := by
  refine ⟨fun entries => ⟨fun e => JumpTable.mem_ofEntries, ?_, fun entries' => ?_,
    JumpTable.exists_ofAscending_iff, JumpTable.exists_ofAscending_error⟩, fun calls a =>
      ⟨TableBuilder.exists_build_iff, fun t ht e => TableBuilder.mem_build_iff ht,
        fun calls' a' => TableBuilder.build_congr⟩⟩
  · exact JumpTable.ofAscending_toList (JumpTable.pairwise_ofEntries entries)
  · exact JumpTable.ofEntries_congr

theorem table_canonical_two_labels :
    (∀ e, e ∈ [JumpEntry.mk 10 60, ⟨2, 1⟩, ⟨10, 60⟩] ↔ e ∈ [JumpEntry.mk 2 1, ⟨10, 60⟩]) ∧
    JumpTable.ofEntries [⟨10, 60⟩, ⟨2, 1⟩, ⟨10, 60⟩] = JumpTable.ofEntries [⟨2, 1⟩, ⟨10, 60⟩] ∧
    ¬ [JumpEntry.mk 2 1, ⟨10, 60⟩, ⟨10, 60⟩].Pairwise JumpEntry.Lt ∧
    (∃ k, IsLeast {k | 0 < k ∧ Descent [⟨2, 1⟩, ⟨10, 60⟩, ⟨10, 60⟩] (k - 1)} k ∧
      JumpTable.ofAscending [⟨2, 1⟩, ⟨10, 60⟩, ⟨10, 60⟩] = .error (.unsorted k)) ∧
    (∃ t, (TableBuilder.ofCalls [.entries ⟨0⟩ [⟨1⟩, ⟨2⟩]]).build
        { bytes := #[0x56], labels := #[some 0, some 1, some 1] } = .ok t ∧ ⟨0, 1⟩ ∈ t.toList) ∧
    TableBuilder.places { bytes := #[0x56], labels := #[some 0, some 1, some 1] }
        [.entries ⟨0⟩ [⟨1⟩, ⟨2⟩]] =
      TableBuilder.places { bytes := #[0x56], labels := #[some 0, some 1] } [.entry ⟨0⟩ ⟨1⟩] ∧
    (TableBuilder.ofCalls [.entries ⟨0⟩ [⟨1⟩, ⟨2⟩]]).build
        { bytes := #[0x56], labels := #[some 0, some 1, some 1] } =
      (TableBuilder.ofCalls [.entry ⟨0⟩ ⟨1⟩]).build
        { bytes := #[0x56], labels := #[some 0, some 1] } := by
  obtain ⟨hentries, hcalls⟩ := table_canonical
  have hmem (e : JumpEntry) : e ∈ [JumpEntry.mk 10 60, ⟨2, 1⟩, ⟨10, 60⟩] ↔
      e ∈ [JumpEntry.mk 2 1, ⟨10, 60⟩] := by
    simp only [List.mem_cons, List.not_mem_nil, or_false]
    tauto
  have hdescending : ¬ [JumpEntry.mk 2 1, ⟨10, 60⟩, ⟨10, 60⟩].Pairwise JumpEntry.Lt := by decide
  have hplaces : TableBuilder.places { bytes := #[0x56], labels := #[some 0, some 1, some 1] }
        [.entries ⟨0⟩ [⟨1⟩, ⟨2⟩]] =
      TableBuilder.places { bytes := #[0x56], labels := #[some 0, some 1] } [.entry ⟨0⟩ ⟨1⟩] := by
    ext q
    simp [TableBuilder.places, TableBuilder.listed, TableBuilder.Call.pairs, Assembler.labelPc?]
  obtain ⟨hexists, hlists, hsame⟩ := hcalls [.entries ⟨0⟩ [⟨1⟩, ⟨2⟩]]
    { bytes := #[0x56], labels := #[some 0, some 1, some 1] }
  obtain ⟨t, ht⟩ := hexists.mpr (by
    simp [TableBuilder.listed, TableBuilder.Call.pairs, Assembler.labelPc?])
  refine ⟨hmem, (hentries _).2.2.1 _ hmem, hdescending, (hentries _).2.2.2.2 hdescending,
    ⟨t, ht, (hlists t ht _).mpr ?_⟩, hplaces, hsame _ _ hplaces⟩
  exact ⟨(⟨0⟩, ⟨1⟩), by simp [TableBuilder.listed, TableBuilder.Call.pairs], rfl, rfl⟩

end StackMachine
