import StackMachine.Proofs.Assembler.Decoded

namespace StackMachine.Assembler

/-- What the calls write, with zeros for the offsets of labels. -/
def emitted (calls : List Call) : List UInt8 := (draft calls).pieces.flatMap Piece.blank

def allocated (calls : List Call) : Nat := calls.countP Call.allocates

def references (calls : List Call) : List Label := calls.filterMap Call.reference?

/-- The placement of a label: an earlier one is forgotten. -/
inductive Placed (label : Label) : List Call → Nat → Prop
  | here {calls : List Call} {c : Call} (h : c.places? (allocated calls) = some label) :
      Placed label (calls ++ [c]) (emitted calls).length
  | earlier {calls : List Call} {c : Call} {pc : Nat} (h : c.places? (allocated calls) ≠ some label)
      (hplaced : Placed label calls pc) : Placed label (calls ++ [c]) pc

inductive Refers (label : Label) : List Call → Nat → Prop
  | here {calls : List Call} {c : Call} (h : c.reference? = some label) :
      Refers label (calls ++ [c]) (emitted calls).length
  | earlier {calls : List Call} {c : Call} {o : Nat} (hrefers : Refers label calls o) :
      Refers label (calls ++ [c]) o

section Calls

variable {calls : List Call} {c : Call} {label : Label} {pc o : Nat}

theorem placed_concat_iff : Placed label (calls ++ [c]) pc ↔
    if c.places? (allocated calls) = some label then pc = (emitted calls).length
    else Placed label calls pc := by
  constructor
  · intro h
    generalize hcalls : calls ++ [c] = all at h
    cases h with
    | here h =>
      obtain ⟨rfl, rfl⟩ := List.append_singleton_inj.mp hcalls
      rw [if_pos h]
    | earlier h hplaced =>
      obtain ⟨rfl, rfl⟩ := List.append_singleton_inj.mp hcalls
      rwa [if_neg h]
  · split
    next h =>
      rintro rfl
      exact .here h
    next h => exact .earlier h

theorem refers_concat_iff : Refers label (calls ++ [c]) o ↔
    Refers label calls o ∨ c.reference? = some label ∧ o = (emitted calls).length := by
  constructor
  · intro h
    generalize hcalls : calls ++ [c] = all at h
    cases h with
    | here h =>
      obtain ⟨rfl, rfl⟩ := List.append_singleton_inj.mp hcalls
      exact .inr ⟨h, rfl⟩
    | earlier hrefers =>
      obtain ⟨rfl, rfl⟩ := List.append_singleton_inj.mp hcalls
      exact .inl hrefers
  · rintro (hrefers | ⟨h, rfl⟩)
    · exact .earlier hrefers
    · exact .here h

theorem not_placed_nil : ¬ Placed label [] pc := by
  intro h
  generalize hcalls : [] = all at h
  cases h <;> simp at hcalls

theorem not_refers_nil : ¬ Refers label [] o := by
  intro h
  generalize hcalls : [] = all at h
  cases h <;> simp at hcalls

theorem draft_concat (calls : List Call) (c : Call) :
    draft (calls ++ [c]) = (draft calls).after c := List.foldl_concat ..

theorem labelCount_draft (calls : List Call) : (draft calls).labelCount = allocated calls := by
  induction calls using List.reverseRecOn with
  | nil => rfl
  | append_singleton calls c ih =>
    rw [draft_concat, Draft.labelCount_after, ih, allocated, allocated, List.countP_append,
      List.countP_singleton]

theorem filterMap_label? (calls : List Call) :
    (draft calls).pieces.filterMap Piece.label? = references calls := by
  induction calls using List.reverseRecOn with
  | nil => rfl
  | append_singleton calls c ih =>
    obtain ⟨rest, hpieces, hrest⟩ := (draft calls).exists_pieces_after c
    have hnil : rest.filterMap Piece.label? = [] :=
      List.filterMap_eq_nil_iff.mpr fun p hp => (hrest p hp).1
    rw [draft_concat, hpieces, List.filterMap_append, List.filterMap_append, hnil, ih, references,
      references, List.filterMap_append]
    cases h : c.reference? <;> simp [h, Piece.label?]

theorem mem_listing_iff : (o, .reference label) ∈ (draft calls).listing ↔ Refers label calls o := by
  induction calls using List.reverseRecOn with
  | nil => exact iff_of_false List.not_mem_nil not_refers_nil
  | append_singleton calls c ih =>
    obtain ⟨rest, hpieces, hrest⟩ := (draft calls).exists_pieces_after c
    have hlabel (n : Nat) : (o, .reference label) ∉ listingFrom n rest := fun h =>
      Option.some_ne_none label (hrest _ (mem_of_mem_listingFrom h)).1
    rw [draft_concat, Draft.listing, hpieces, listingFrom_append, listingFrom_append,
      List.mem_append, List.mem_append, or_iff_left (hlabel _), Nat.zero_add,
      ← length_flatMap_blank, ← emitted, refers_concat_iff, ← ih]
    refine or_congr Iff.rfl ?_
    cases c.reference? with
    | none => simp [listingFrom]
    | some l => simp [listingFrom, eq_comm, and_comm]

theorem length_emitted_le (calls : List Call) (c : Call) :
    (emitted calls).length ≤ (emitted (calls ++ [c])).length := by
  obtain ⟨rest, hpieces, _⟩ := (draft calls).exists_pieces_after c
  rw [emitted, emitted, draft_concat, hpieces, List.flatMap_append, List.length_append]
  exact Nat.le_add_right _ _

/-- The assembler has a label at its placement if no more than `maxOffset` bytes were written. -/
theorem placedAt?_eq_some_iff (h : (emitted calls).length ≤ maxOffset) :
    (draft calls).placedAt? label = some pc ↔ Placed label calls pc := by
  induction calls using List.reverseRecOn with
  | nil => exact iff_of_false (Option.some_ne_none pc).symm not_placed_nil
  | append_singleton calls c ih =>
    -- Fewer calls write no more bytes, so the assembler knew its offset exactly at each of them.
    have hle : (emitted calls).length ≤ maxOffset := (length_emitted_le calls c).trans h
    have hpc : (draft calls).pc = (emitted calls).length := by
      rw [Draft.pc, ← length_flatMap_blank, ← emitted, Nat.min_eq_left hle]
    rw [draft_concat, Draft.placedAt?_after, labelCount_draft, placed_concat_iff, hpc]
    split
    · rw [Option.some_inj, eq_comm]
    · exact ih hle

end Calls

section Encoding

variable {placed? : Label → Option Nat} {label : Label} {pieces : List Piece}
  {parts : List (List UInt8)} {e : AssemblyError}

namespace Piece

theorem encode_eq_blank {p : Piece} (h : p.label? = none) : p.encode placed? = .ok p.blank := by
  cases p with
  | reference label => cases h
  | bare | number | raw => rfl

theorem eq_reference {p : Piece} (h : p.label? = some label) : p = .reference label := by
  cases p with
  | reference l => exact congrArg reference (Option.some.inj h)
  | bare | number | raw => cases h

end Piece

def encodeReference (placed? : Label → Option Nat) (label : Label) :
    Except AssemblyError (List UInt8) :=
  (Piece.reference label).encode placed?

theorem encodeReference_eq_error_iff : encodeReference placed? label = .error e ↔
    placed? label = none ∧ e = .unresolvedLabel ∨
      ∃ pc, placed? label = some pc ∧ 0xFFFF < pc ∧ e = .labelOutOfRange pc := by
  rw [encodeReference, Piece.encode]
  cases placed? label with
  | none => simp [eq_comm]
  | some pc =>
    by_cases h : 0xFFFF < pc
    · simp [h, eq_comm]
    · simp [h]

theorem mapM_encode_eq_error_iff : pieces.mapM (Piece.encode placed?) = .error e ↔
    (pieces.filterMap Piece.label?).mapM (encodeReference placed?) = .error e := by
  induction pieces with
  | nil => rfl
  | cons p pieces ih =>
    cases hlabel : p.label? with
    | none =>
      rw [List.filterMap_cons_none hlabel, mapM_cons_of_ok (Piece.encode_eq_blank hlabel),
        map_eq_error_iff, ih]
    | some label =>
      obtain rfl := Piece.eq_reference hlabel
      rw [List.filterMap_cons_some hlabel]
      cases hpart : (Piece.reference label).encode placed? with
      | error e' =>
        have hreference : encodeReference placed? label = .error e' := hpart
        rw [mapM_cons_of_error hpart, mapM_cons_of_error hreference]
      | ok part =>
        have hreference : encodeReference placed? label = .ok part := hpart
        rw [mapM_cons_of_ok hpart, mapM_cons_of_ok hreference, map_eq_error_iff, map_eq_error_iff,
          ih]

theorem exists_mapM_encode_iff : (∃ parts, pieces.mapM (Piece.encode placed?) = .ok parts) ↔
    ∀ label ∈ pieces.filterMap Piece.label?, ∃ part,
      encodeReference placed? label = .ok part := by
  rw [exists_mapM_eq_ok_iff]
  constructor
  · intro h label hlabel
    obtain ⟨p, hp, hlabel⟩ := List.mem_filterMap.mp hlabel
    obtain rfl := Piece.eq_reference hlabel
    exact h _ hp
  · intro h p hp
    cases hlabel : p.label? with
    | none => exact ⟨_, Piece.encode_eq_blank hlabel⟩
    | some label =>
      obtain rfl := Piece.eq_reference hlabel
      exact h label (List.mem_filterMap.mpr ⟨_, hp, hlabel⟩)

theorem exists_part_of_mem_listingFrom {n o : Nat} {p : Piece}
    (hparts : pieces.mapM (Piece.encode placed?) = .ok parts) (h : (o, p) ∈ listingFrom n pieces) :
    ∃ pre part rest, p.encode placed? = .ok part ∧ n + pre.length = o ∧
      parts.flatten = pre ++ (part ++ rest) := by
  replace hparts := mapM_eq_ok_iff.mp hparts
  induction hparts generalizing n with
  | nil => cases h
  | @cons q part _ parts hpart _ ih =>
    obtain heq | h := List.mem_cons.mp h
    · obtain ⟨rfl, rfl⟩ := Prod.mk.inj heq
      exact ⟨[], part, parts.flatten, hpart, rfl, rfl⟩
    · obtain ⟨pre, part', rest, hpart', hoffset, hflatten⟩ := ih h
      refine ⟨part ++ pre, part', rest, hpart', ?_, ?_⟩
      · rw [List.length_append, Piece.length_encode hpart, ← Nat.add_assoc, hoffset]
      · rw [List.flatten_cons, hflatten, List.append_assoc]

theorem length_flatten (hparts : pieces.mapM (Piece.encode placed?) = .ok parts) :
    parts.flatten.length = totalWidth pieces := by
  replace hparts := mapM_eq_ok_iff.mp hparts
  induction hparts with
  | nil => rfl
  | cons hpart _ ih =>
    rw [List.flatten_cons, List.length_append, Piece.length_encode hpart, ih]
    rfl

theorem getElem?_flatten_eq {n k : Nat}
    (hparts : pieces.mapM (Piece.encode placed?) = .ok parts)
    (h : ∀ label o, (o, .reference label) ∈ listingFrom n pieces → n + k < o ∨ o + 3 ≤ n + k) :
    parts.flatten[k]? = (pieces.flatMap Piece.blank)[k]? := by
  replace hparts := mapM_eq_ok_iff.mp hparts
  induction hparts generalizing n k with
  | nil => rfl
  | @cons p part pieces parts hpart _ ih =>
    have hlength : part.length = p.blank.length := Piece.length_encode hpart
    rw [List.flatten_cons, List.flatMap_cons]
    by_cases hk : k < p.blank.length
    · rw [List.getElem?_append_left (hlength ▸ hk), List.getElem?_append_left hk]
      cases hlabel : p.label? with
      | none => rw [Except.ok.inj (hpart.symm.trans (Piece.encode_eq_blank hlabel))]
      | some label =>
        -- The byte is in front of all bytes of a reference that starts here, or behind them.
        obtain rfl := Piece.eq_reference hlabel
        have hwindow := h label n List.mem_cons_self
        have hwidth : k < 3 := hk
        omega
    · have hle := Nat.le_of_not_lt hk
      rw [List.getElem?_append_right (hlength ▸ hle), List.getElem?_append_right hle, hlength]
      apply ih (n := n + p.width)
      intro label o hmem
      have hwindow := h label o (List.mem_cons_of_mem _ hmem)
      rw [Piece.width]
      omega

end Encoding

def Fits (calls : List Call) (label : Label) : Prop := ∃ pc ≤ 0xFFFF, Placed label calls pc

/-- What is wrong with a reference to a label. -/
inductive Offends (calls : List Call) (label : Label) : AssemblyError → Prop
  | unplaced (h : ∀ pc, ¬ Placed label calls pc) : Offends calls label .unresolvedLabel
  | outOfRange {pc : Nat} (h : 0xFFFF < pc) (hplaced : Placed label calls pc) :
      Offends calls label (.labelOutOfRange pc)

section Finished

variable {calls : List Call} {label : Label} {e : AssemblyError} {code : Code}

theorem exists_encodeReference_iff (h : (emitted calls).length ≤ maxOffset) :
    (∃ part, encodeReference (draft calls).placedAt? label = .ok part) ↔ Fits calls label := by
  simp only [encodeReference, Piece.encode_reference_eq_ok_iff, placedAt?_eq_some_iff h, Fits]
  constructor
  · rintro ⟨_, pc, hplaced, hfits, _⟩
    exact ⟨pc, hfits, hplaced⟩
  · rintro ⟨pc, hfits, hplaced⟩
    exact ⟨_, pc, hplaced, hfits, rfl⟩

theorem encodeReference_eq_error_iff_offends (h : (emitted calls).length ≤ maxOffset) :
    encodeReference (draft calls).placedAt? label = .error e ↔ Offends calls label e := by
  have hnone : (draft calls).placedAt? label = none ↔ ∀ pc, ¬ Placed label calls pc := by
    simp only [← placedAt?_eq_some_iff h, Option.eq_none_iff_forall_ne_some, ne_eq]
  rw [encodeReference_eq_error_iff, hnone]
  simp only [placedAt?_eq_some_iff h]
  constructor
  · rintro (⟨hunplaced, rfl⟩ | ⟨pc, hplaced, hrange, rfl⟩)
    · exact .unplaced hunplaced
    · exact .outOfRange hrange hplaced
  · rintro (hunplaced | ⟨hrange, hplaced⟩)
    · exact .inl ⟨hunplaced, rfl⟩
    · exact .inr ⟨_, hplaced, hrange, rfl⟩

theorem exists_finish_iff (h : (emitted calls).length ≤ maxOffset) :
    (∃ code, (assemble calls).finish = .ok code) ↔
      ∀ label ∈ references calls, Fits calls label := by
  have hparts : (∃ code, (assemble calls).finish = .ok code) ↔
      ∃ parts, (draft calls).pieces.mapM (Piece.encode (draft calls).placedAt?) = .ok parts := by
    simp [(describes_draft calls).finish_eq, map_eq_ok_iff]
  simp only [hparts, exists_mapM_encode_iff, filterMap_label?, exists_encodeReference_iff h]

theorem finish_eq_error_iff (h : (emitted calls).length ≤ maxOffset) :
    (assemble calls).finish = .error e ↔ ∃ before label after,
      references calls = before ++ label :: after ∧ (∀ l ∈ before, Fits calls l) ∧
        Offends calls label e := by
  rw [(describes_draft calls).finish_eq, map_eq_error_iff, mapM_encode_eq_error_iff,
    filterMap_label?, mapM_eq_error_iff]
  simp only [exists_encodeReference_iff h, encodeReference_eq_error_iff_offends h]

theorem place_eq_error_iff :
    (assemble calls).place label = .error .mk ↔ allocated calls ≤ label.id := by
  rw [place, (describes_draft calls).size_labels, labelCount_draft]
  by_cases h : label.id < allocated calls
  · rw [if_pos h]
    exact iff_of_false (by simp) (Nat.not_le_of_lt h)
  · rw [if_neg h]
    exact iff_of_true rfl (Nat.le_of_not_lt h)

theorem jumpdest_eq_error_iff :
    (assemble calls).jumpdest label = .error .mk ↔ allocated calls ≤ label.id := by
  rw [jumpdest, map_eq_error_iff, place_eq_error_iff]

structure Patches (calls : List Call) : Prop where
  /-- Labels that are not allocated cannot be placed, and to try it changes nothing. -/
  place_iff : ∀ label, (assemble calls).place label = .error .mk ↔ allocated calls ≤ label.id
  jumpdest_iff : ∀ label, (assemble calls).jumpdest label = .error .mk ↔ allocated calls ≤ label.id
  refused : ∀ label, allocated calls ≤ label.id →
    (Call.place label).perform (assemble calls) = assemble calls ∧
      (Call.jumpdest label).perform (assemble calls) = assemble calls
  emitted_eq : (assemble calls).bytes.toList = emitted calls
  ok_iff : (∃ code, (assemble calls).finish = .ok code) ↔
    ∀ label ∈ references calls, Fits calls label
  /-- The error is that of the first reference with something wrong. -/
  error_iff : ∀ e, (assemble calls).finish = .error e ↔ ∃ before label after,
    references calls = before ++ label :: after ∧ (∀ l ∈ before, Fits calls l) ∧
      Offends calls label e
  size_eq : ∀ code, (assemble calls).finish = .ok code → code.size = (assemble calls).pc
  reference : ∀ code label o, (assemble calls).finish = .ok code → Refers label calls o →
    ∃ pc ≤ 0xFFFF, Placed label calls pc ∧
      (code.extract o (o + 3)).toList = 0x61 :: BigEndian.ofWord16 pc
  elsewhere : ∀ code k, (assemble calls).finish = .ok code →
    (∀ label o, Refers label calls o → k < o ∨ o + 3 ≤ k) → code[k]? = (emitted calls)[k]?

/-- Calls of any kind in any order are finished by filling in their references. -/
theorem patches_finish (calls : List Call) (hsize : (emitted calls).length ≤ maxOffset) :
    Patches calls where
  place_iff _ := place_eq_error_iff
  jumpdest_iff _ := jumpdest_eq_error_iff
  refused label h := by
    rw [Call.perform, Call.perform, place_eq_error_iff.mpr h, jumpdest_eq_error_iff.mpr h]
    exact ⟨rfl, rfl⟩
  emitted_eq := (describes_draft calls).bytes_eq
  ok_iff := exists_finish_iff hsize
  error_iff e := finish_eq_error_iff hsize
  size_eq code hfinish := by
    obtain ⟨parts, hparts, rfl⟩ := exists_parts hfinish
    rw [(describes_draft calls).pc_eq, Draft.pc, List.size_toArray, length_flatten hparts,
      ← length_flatMap_blank, ← emitted, Nat.min_eq_left hsize]
  reference code label o hfinish hrefers := by
    obtain ⟨parts, hparts, rfl⟩ := exists_parts hfinish
    obtain ⟨pre, part, rest, hpart, hoffset, hflatten⟩ :=
      exists_part_of_mem_listingFrom hparts (mem_listing_iff.mpr hrefers)
    obtain ⟨pc, hplaced, hfits, rfl⟩ := Piece.encode_reference_eq_ok_iff.mp hpart
    refine ⟨pc, hfits, (placedAt?_eq_some_iff hsize).mp hplaced, ?_⟩
    rw [Nat.zero_add] at hoffset
    rw [Array.toList_extract, List.extract_eq_take_drop, hflatten, ← hoffset, List.drop_left,
      Nat.add_sub_cancel_left]
    rfl
  elsewhere code k hfinish h := by
    obtain ⟨parts, hparts, rfl⟩ := exists_parts hfinish
    rw [List.getElem?_toArray]
    refine getElem?_flatten_eq (n := 0) hparts fun label o hmem => ?_
    rw [Nat.zero_add]
    exact h label o (mem_listing_iff.mp hmem)

theorem patches_finish_replaced_label :
    (emitted [.newLabel, .jumpTo ⟨0⟩, .raw [0x60], .place ⟨0⟩, .pushLabel ⟨0⟩,
        .jumpdest ⟨0⟩]).length ≤ maxOffset ∧
      (assemble [.newLabel, .jumpTo ⟨0⟩, .raw [0x60], .place ⟨0⟩, .pushLabel ⟨0⟩,
        .jumpdest ⟨0⟩]).finish = .ok #[0x61, 0, 8, 0x56, 0x60, 0x61, 0, 8, 0x5B] ∧
      Patches [.newLabel, .jumpTo ⟨0⟩, .raw [0x60], .place ⟨0⟩, .pushLabel ⟨0⟩, .jumpdest ⟨0⟩] := by
  have hsize : (emitted [.newLabel, .jumpTo ⟨0⟩, .raw [0x60], .place ⟨0⟩, .pushLabel ⟨0⟩,
      .jumpdest ⟨0⟩]).length ≤ maxOffset := by
    decide
  exact ⟨hsize, by decide +kernel, patches_finish _ hsize⟩

end Finished

end StackMachine.Assembler
