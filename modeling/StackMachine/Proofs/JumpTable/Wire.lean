import StackMachine.Proofs.BigEndian
import StackMachine.Verification

namespace StackMachine

theorem isLeast_of_succ {p : Nat → Prop} {k : Nat} (h : IsLeast {k | p k} (k + 1)) :
    ¬ p 0 ∧ IsLeast {k | p (k + 1)} k :=
  ⟨fun hzero => absurd (h.2 hzero) (Nat.not_succ_le_zero k), h.1,
    fun _ hj => Nat.le_of_succ_le_succ (h.2 hj)⟩

section Order

variable {entries : List JumpEntry}

/-- The entry behind the one at `k` is not greater than it. -/
def Descent (entries : List JumpEntry) (k : Nat) : Prop :=
  ∃ a b, entries[k]? = some a ∧ entries[k + 1]? = some b ∧ ¬ a.Lt b

theorem firstUnsorted?_of_isLeast {k : Nat} (h : IsLeast {k | Descent entries k} k) (index : Nat) :
    firstUnsorted? index entries = some (index + k + 1) := by
  induction k generalizing entries index with
  | zero =>
    obtain ⟨a, b, ha, hb, hab⟩ := h.1
    cases entries with
    | nil => cases ha
    | cons a' rest =>
      cases rest with
      | nil => cases hb
      | cons b' rest =>
        obtain rfl := Option.some.inj ha
        obtain rfl := Option.some.inj hb
        exact if_neg hab
  | succ k ih =>
    obtain ⟨hhead, hlater⟩ := isLeast_of_succ h
    obtain ⟨a, b, ha, -, -⟩ := h.1
    cases entries with
    | nil => cases ha
    | cons c rest =>
      cases rest with
      | nil => cases ha
      | cons d rest =>
        -- The first two are in order, or the least descent would be here.
        have hcd : c.Lt d := by
          by_contra hnot
          exact hhead ⟨c, d, rfl, rfl, hnot⟩
        rw [firstUnsorted?, if_pos hcd, ih hlater]
        congr 1
        omega

theorem firstUnsorted?_eq_none (h : ∀ k, ¬ Descent entries k) (index : Nat) :
    firstUnsorted? index entries = none := by
  induction entries generalizing index with
  | nil => rfl
  | cons a rest ih =>
    cases rest with
    | nil => rfl
    | cons b rest =>
      have hab : a.Lt b := by
        by_contra hnot
        exact h 0 ⟨a, b, rfl, rfl, hnot⟩
      rw [firstUnsorted?, if_pos hab]
      exact ih (fun k hk => h (k + 1) hk) (index + 1)

theorem not_descent_of_pairwise (h : entries.Pairwise JumpEntry.Lt) (k : Nat) :
    ¬ Descent entries k := by
  rintro ⟨a, b, ha, hb, hab⟩
  obtain ⟨hk, rfl⟩ := List.getElem?_eq_some_iff.mp ha
  obtain ⟨hk', rfl⟩ := List.getElem?_eq_some_iff.mp hb
  exact hab (List.pairwise_iff_getElem.mp h k (k + 1) hk hk' (Nat.lt_succ_self k))

end Order

def JumpEntry.Fits (e : JumpEntry) : Prop := e.src ≤ 0xFFFF ∧ e.dst ≤ 0xFFFF

namespace JumpTable

section Writing

variable {entries entries' : List JumpEntry}

def wire (e : JumpEntry) : List UInt8 := BigEndian.ofWord16 e.src ++ BigEndian.ofWord16 e.dst

theorem encodeEntries_of_fits (h : ∀ e ∈ entries, e.Fits) (index : Nat) (written : Array UInt8) :
    encodeEntries index written entries = .ok (written ++ entries.flatMap wire) := by
  induction entries generalizing index written with
  | nil => simp [encodeEntries]
  | cons e rest ih =>
    obtain ⟨he, hrest⟩ := List.forall_mem_cons.mp h
    have hwire : encodeEntry? e = some (wire e) := if_pos he
    rw [encodeEntries, hwire]
    dsimp only
    rw [ih hrest]
    exact congrArg Except.ok (Array.ext' (by simp))

theorem length_flatMap_wire (entries : List JumpEntry) :
    (entries.flatMap wire).length = entrySize * entries.length := by
  induction entries with
  | nil => rfl
  | cons e rest ih =>
    rw [List.flatMap_cons, List.length_append, ih, List.length_cons, Nat.mul_succ, Nat.add_comm]
    rfl

/-- The entry at `i` is too large. -/
def Misfit (entries : List JumpEntry) (i : Nat) : Prop :=
  ∃ e, entries[i]? = some e ∧ ¬ e.Fits

theorem encodeEntries_of_isLeast {i : Nat} (h : IsLeast {i | Misfit entries i} i) (index : Nat)
    (written : Array UInt8) :
    encodeEntries index written entries = .error (.entryTooLarge (index + i)) := by
  induction i generalizing entries index written with
  | zero =>
    obtain ⟨e, he, hlarge⟩ := h.1
    cases entries with
    | nil => cases he
    | cons e' rest =>
      obtain rfl := Option.some.inj he
      have hnone : encodeEntry? e' = none := if_neg hlarge
      rw [encodeEntries, hnone]
      rfl
  | succ i ih =>
    obtain ⟨hhead, hlater⟩ := isLeast_of_succ h
    obtain ⟨e, he, -⟩ := h.1
    cases entries with
    | nil => cases he
    | cons c rest =>
      have hc : c.Fits := by
        by_contra hlarge
        exact hhead ⟨c, rfl, hlarge⟩
      have hwire : encodeEntry? c = some (wire c) := if_pos hc
      rw [encodeEntries, hwire]
      dsimp only
      rw [ih hlater]
      congr 2
      omega

theorem eq_of_wire_eq {e e' : JumpEntry} (he : e.Fits) (he' : e'.Fits) (h : wire e = wire e') :
    e = e' := by
  obtain ⟨hsrc, hdst⟩ := List.append_inj h rfl
  have hsrcs := congrArg BigEndian.toNat hsrc
  have hdsts := congrArg BigEndian.toNat hdst
  rw [BigEndian.toNat_ofWord16 he.1, BigEndian.toNat_ofWord16 he'.1] at hsrcs
  rw [BigEndian.toNat_ofWord16 he.2, BigEndian.toNat_ofWord16 he'.2] at hdsts
  cases e
  cases e'
  rw [JumpEntry.mk.injEq]
  exact ⟨hsrcs, hdsts⟩

theorem eq_of_flatMap_wire_eq (hfits : ∀ e ∈ entries, e.Fits) (hfits' : ∀ e ∈ entries', e.Fits)
    (h : entries.flatMap wire = entries'.flatMap wire) : entries = entries' := by
  induction entries generalizing entries' with
  | nil =>
    cases entries' with
    | nil => rfl
    | cons e' rest' => cases h
  | cons e rest ih =>
    cases entries' with
    | nil => cases h
    | cons e' rest' =>
      obtain ⟨he, hrest⟩ := List.forall_mem_cons.mp hfits
      obtain ⟨he', hrest'⟩ := List.forall_mem_cons.mp hfits'
      obtain ⟨hhead, htail⟩ := List.append_inj h rfl
      rw [eq_of_wire_eq he he' hhead, ih hrest hrest' htail]

end Writing

section Reading

variable {bytes : Array UInt8} {k : Nat}

def readEntries (bytes : Array UInt8) : List JumpEntry :=
  (List.range (bytes.size / entrySize)).map fun index => entryAt bytes (entrySize * index)

theorem decode_eq (h : bytes.size % entrySize = 0) :
    decode bytes = ofAscending (readEntries bytes) :=
  if_neg fun hne => hne h

def group (bytes : Array UInt8) (k : Nat) : List UInt8 :=
  (bytes.toList.drop (entrySize * k)).take entrySize

/-- The bytes of the entry at position `k` as a big-endian number. -/
def groupAt (bytes : Array UInt8) (k : Nat) : Nat := BigEndian.toNat (group bytes k)

theorem group_eq (h : k < bytes.size / entrySize) : group bytes k =
    [bytes.getD (entrySize * k) 0, bytes.getD (entrySize * k + 1) 0,
      bytes.getD (entrySize * k + 2) 0, bytes.getD (entrySize * k + 3) 0] := by
  have hend : entrySize * k + 3 < bytes.size := by
    rw [entrySize] at h ⊢
    omega
  have hdrop (j : Nat) (hj : j < bytes.size) :
      bytes.toList.drop j = bytes.getD j 0 :: bytes.toList.drop (j + 1) := by
    rw [List.drop_eq_getElem_cons (by simpa using hj)]
    simp [hj]
  rw [group, hdrop _ (by omega), hdrop _ (by omega), hdrop _ (by omega), hdrop _ hend]
  rfl

theorem word16At_le (bytes : Array UInt8) (offset : Nat) : word16At bytes offset ≤ 0xFFFF := by
  have hlt : word16At bytes offset < 256 ^ 2 := BigEndian.toNat_lt _
  omega

theorem fits_readEntries : ∀ e ∈ readEntries bytes, e.Fits := by
  intro e he
  obtain ⟨k, -, rfl⟩ := List.mem_map.mp he
  exact ⟨word16At_le _ _, word16At_le _ _⟩

theorem wire_entryAt (h : k < bytes.size / entrySize) :
    wire (entryAt bytes (entrySize * k)) = group bytes k := by
  rw [group_eq h, wire, entryAt, word16At, word16At, BigEndian.ofWord16_toNat,
    BigEndian.ofWord16_toNat]
  rfl

theorem groupAt_eq (h : k < bytes.size / entrySize) :
    groupAt bytes k = word16At bytes (entrySize * k) * 65536 +
      word16At bytes (entrySize * k + 2) := by
  rw [groupAt, group_eq h]
  simp only [BigEndian.toNat, word16At, List.foldl_cons, List.foldl_nil, Nat.add_assoc,
    Nat.reduceAdd]
  omega

theorem groupAt_lt_iff {j : Nat} (hj : j < bytes.size / entrySize)
    (hk : k < bytes.size / entrySize) : groupAt bytes j < groupAt bytes k ↔
      (entryAt bytes (entrySize * j)).Lt (entryAt bytes (entrySize * k)) := by
  have hj' := word16At_le bytes (entrySize * j + 2)
  have hk' := word16At_le bytes (entrySize * k + 2)
  rw [groupAt_eq hj, groupAt_eq hk, JumpEntry.Lt, entryAt, entryAt]
  dsimp only
  omega

theorem getElem?_readEntries (h : k < bytes.size / entrySize) :
    (readEntries bytes)[k]? = some (entryAt bytes (entrySize * k)) := by
  rw [readEntries, List.getElem?_map, List.getElem?_range h]
  rfl

theorem descent_readEntries_iff : Descent (readEntries bytes) k ↔
    k + 1 < bytes.size / entrySize ∧ groupAt bytes (k + 1) ≤ groupAt bytes k := by
  constructor
  · rintro ⟨a, b, ha, hb, hab⟩
    obtain ⟨hlt, -⟩ := List.getElem?_eq_some_iff.mp hb
    have hk : k + 1 < bytes.size / entrySize := by simpa [readEntries] using hlt
    have hk' : k < bytes.size / entrySize := Nat.lt_of_succ_lt hk
    rw [getElem?_readEntries hk'] at ha
    rw [getElem?_readEntries hk] at hb
    obtain rfl := Option.some.inj ha
    obtain rfl := Option.some.inj hb
    exact ⟨hk, Nat.le_of_not_lt fun hgroup => hab ((groupAt_lt_iff hk' hk).mp hgroup)⟩
  · rintro ⟨hk, hle⟩
    have hk' : k < bytes.size / entrySize := Nat.lt_of_succ_lt hk
    exact ⟨_, _, getElem?_readEntries hk', getElem?_readEntries hk,
      fun hlt => Nat.not_lt.mpr hle ((groupAt_lt_iff hk' hk).mpr hlt)⟩

theorem flatMap_group (n : Nat) :
    (List.range n).flatMap (group bytes) = bytes.toList.take (entrySize * n) := by
  induction n with
  | zero => rfl
  | succ n ih =>
    rw [List.range_succ, List.flatMap_append, ih, Nat.mul_succ, List.take_add, List.flatMap_cons,
      List.flatMap_nil, List.append_nil, group]

theorem flatMap_wire_readEntries (h : bytes.size % entrySize = 0) :
    (readEntries bytes).flatMap wire = bytes.toList := by
  have hsize : entrySize * (bytes.size / entrySize) = bytes.size := by
    rw [entrySize] at h ⊢
    omega
  have hgroups : (List.range (bytes.size / entrySize)).flatMap
      (fun k => wire (entryAt bytes (entrySize * k))) =
        (List.range (bytes.size / entrySize)).flatMap (group bytes) := by
    apply List.flatMap_congr
    intro k hk
    exact wire_entryAt (List.mem_range.mp hk)
  rw [readEntries, List.flatMap_map, hgroups, flatMap_group, hsize]
  exact List.take_of_length_le (Nat.le_refl _)

end Reading

section Codec

variable {bytes : Array UInt8} {t : JumpTable}

theorem encode_of_fits (h : ∀ e ∈ t.toList, e.Fits) :
    t.encode = .ok (t.toList.flatMap wire).toArray := by
  rw [encode, encodeEntries_of_fits h]
  exact congrArg Except.ok (Array.ext' (by simp))

theorem ofAscending_eq_ok {entries : List JumpEntry} (h : firstUnsorted? 0 entries = none) :
    ∃ t : JumpTable, ofAscending entries = .ok t ∧ t.toList = entries := by
  unfold ofAscending
  split
  · exact ⟨_, rfl, List.toList_toArray⟩
  next index hsome =>
    rw [h] at hsome
    cases hsome

theorem ofAscending_eq_error {entries : List JumpEntry} {index : Nat}
    (h : firstUnsorted? 0 entries = some index) :
    ofAscending entries = .error (.unsorted index) := by
  unfold ofAscending
  split
  next hnone =>
    rw [h] at hnone
    cases hnone
  next index' hsome =>
    rw [h] at hsome
    rw [Option.some.inj hsome]

theorem eq_of_toList_eq {t' : JumpTable} (h : t.toList = t'.toList) : t = t' := by
  cases t
  cases t'
  rw [mk.injEq]
  exact Array.toList_inj.mp h

theorem ofAscending_toList (h : t.toList.Pairwise JumpEntry.Lt) : ofAscending t.toList = .ok t := by
  have hnone := firstUnsorted?_eq_none (not_descent_of_pairwise h) 0
  obtain ⟨t', ht', hlist⟩ := ofAscending_eq_ok hnone
  rw [ht', eq_of_toList_eq hlist]

theorem decode_of_isLeast (hsize : bytes.size % entrySize = 0) {k : Nat}
    (h : IsLeast {k | 0 < k ∧ k < bytes.size / entrySize ∧
      groupAt bytes k ≤ groupAt bytes (k - 1)} k) : decode bytes = .error (.unsorted k) := by
  cases k with
  | zero => exact absurd h.1.1 (Nat.lt_irrefl 0)
  | succ k =>
    have hleast : IsLeast {k | Descent (readEntries bytes) k} k := by
      refine ⟨descent_readEntries_iff.mpr h.1.2, fun j hj => ?_⟩
      have hdescent := descent_readEntries_iff.mp hj
      exact Nat.le_of_succ_le_succ (h.2 ⟨Nat.succ_pos j, hdescent⟩)
    rw [decode_eq hsize, ofAscending_eq_error (firstUnsorted?_of_isLeast hleast 0), Nat.zero_add]

/-- Ascending groups are a table, and it is encoded as the bytes it was read from. -/
theorem exists_decode_of_ascending (hsize : bytes.size % entrySize = 0)
    (h : ∀ k, 0 < k → k < bytes.size / entrySize → groupAt bytes (k - 1) < groupAt bytes k) :
    ∃ t, decode bytes = .ok t ∧ t.encode = .ok bytes := by
  have hnone (k : Nat) : ¬ Descent (readEntries bytes) k := by
    intro hk
    obtain ⟨hlt, hle⟩ := descent_readEntries_iff.mp hk
    exact Nat.not_lt.mpr hle (h (k + 1) (Nat.succ_pos k) hlt)
  obtain ⟨t, ht, hlist⟩ := ofAscending_eq_ok (firstUnsorted?_eq_none hnone 0)
  refine ⟨t, (decode_eq hsize).trans ht, ?_⟩
  rw [encode_of_fits (hlist ▸ fits_readEntries), hlist, flatMap_wire_readEntries hsize]

/-- A table with 16-bit offsets is read back from its encoding. -/
theorem exists_encode_of_fits (h : ∀ e ∈ t.toList, e.Fits) :
    ∃ bytes, t.encode = .ok bytes ∧ decode bytes = .ok t := by
  refine ⟨_, encode_of_fits h, ?_⟩
  have hsize : (t.toList.flatMap wire).toArray.size % entrySize = 0 := by
    rw [List.size_toArray, length_flatMap_wire, Nat.mul_mod_right]
  -- The entries read from these bytes and those of the table are both written as these bytes.
  have hentries : readEntries (t.toList.flatMap wire).toArray = t.toList :=
    eq_of_flatMap_wire_eq fits_readEntries h (flatMap_wire_readEntries hsize)
  rw [decode_eq hsize, hentries, ofAscending_toList t.ascending]

theorem encode_of_isLeast {i : Nat} (h : IsLeast {i | Misfit t.toList i} i) :
    t.encode = .error (.entryTooLarge i) := by
  rw [encode, encodeEntries_of_isLeast h, Nat.zero_add]

end Codec

end JumpTable

section Regions

variable {code : Code} {jumpRegion trapRegion : Array UInt8} {cfg : Config} {x : TableError}

theorem decodeRegion_of_ok {kind : TableKind} {bytes : Array UInt8} {t : JumpTable}
    (h : JumpTable.decode bytes = .ok t) : decodeRegion kind bytes = .ok t := by
  rw [decodeRegion, h]
  rfl

theorem decodeRegion_of_error {kind : TableKind} {bytes : Array UInt8}
    (h : JumpTable.decode bytes = .error x) : decodeRegion kind bytes = .error (.table kind x) := by
  rw [decodeRegion, h]
  rfl

theorem verifyRegions_of_ok {tables : JumpTables}
    (hjumps : JumpTable.decode jumpRegion = .ok tables.jumps)
    (htraps : JumpTable.decode trapRegion = .ok tables.traps) :
    verifyRegions code jumpRegion trapRegion cfg =
      (verify code tables cfg).map fun _ => tables := by
  rw [verifyRegions, decodeRegion_of_ok hjumps, decodeRegion_of_ok htraps]
  change (verify code tables cfg >>= fun _ => pure tables) = _
  cases verify code tables cfg <;> rfl

theorem verifyRegions_of_jump_error (h : JumpTable.decode jumpRegion = .error x) :
    verifyRegions code jumpRegion trapRegion cfg = .error (.table .jump x) := by
  rw [verifyRegions, decodeRegion_of_error h]
  rfl

theorem verifyRegions_of_trap_error {t : JumpTable} (hjumps : JumpTable.decode jumpRegion = .ok t)
    (h : JumpTable.decode trapRegion = .error x) :
    verifyRegions code jumpRegion trapRegion cfg = .error (.table .trap x) := by
  rw [verifyRegions, decodeRegion_of_ok hjumps, decodeRegion_of_error h]
  rfl

end Regions

open JumpTable

/-- Encoding and decoding are exact. A byte string of whole groups that ascend as big-endian numbers
is a table and its encoding, and any other is refused, by its length or at the first group that is
not greater than the one before it. A table with 16-bit offsets is read back from its encoding, and
any other has none, because of the first entry that is too large. So verification of encoded tables
is verification of the tables, and a malformed table is reported before anything about the code. -/
theorem table_encoding_exact :
    (∀ bytes : Array UInt8,
      (bytes.size % 4 ≠ 0 → decode bytes = .error (.trailingBytes bytes.size)) ∧
      (bytes.size % 4 = 0 → ∀ k, IsLeast {k | 0 < k ∧ k < bytes.size / 4 ∧
        groupAt bytes k ≤ groupAt bytes (k - 1)} k → decode bytes = .error (.unsorted k)) ∧
      (bytes.size % 4 = 0 →
        (∀ k, 0 < k → k < bytes.size / 4 → groupAt bytes (k - 1) < groupAt bytes k) →
        ∃ t, decode bytes = .ok t ∧ t.encode = .ok bytes)) ∧
    (∀ t : JumpTable,
      (∀ i, IsLeast {i | Misfit t.toList i} i → t.encode = .error (.entryTooLarge i)) ∧
      ((∀ e ∈ t.toList, e.Fits) → ∃ bytes, t.encode = .ok bytes ∧ decode bytes = .ok t)) ∧
    (∀ (code : Code) (tables : JumpTables) (cfg : Config),
      (∀ e ∈ tables.jumps.toList, e.Fits) → (∀ e ∈ tables.traps.toList, e.Fits) →
      ∃ jumpRegion trapRegion,
        tables.jumps.encode = .ok jumpRegion ∧ tables.traps.encode = .ok trapRegion ∧
        verifyRegions code jumpRegion trapRegion cfg =
          (verify code tables cfg).map fun _ => tables) ∧
    ∀ (code : Code) (jumpRegion trapRegion : Array UInt8) (cfg : Config),
      (∀ x, decode jumpRegion = .error x →
        verifyRegions code jumpRegion trapRegion cfg = .error (.table .jump x)) ∧
      ∀ t x, decode jumpRegion = .ok t → decode trapRegion = .error x →
        verifyRegions code jumpRegion trapRegion cfg = .error (.table .trap x) := by
  refine ⟨fun bytes => ⟨fun hsize => if_pos hsize, fun hsize k => decode_of_isLeast hsize,
    exists_decode_of_ascending⟩, fun t => ⟨fun i => encode_of_isLeast, exists_encode_of_fits⟩,
    fun code tables cfg hjumps htraps => ?_, fun code jumpRegion trapRegion cfg =>
      ⟨fun x => verifyRegions_of_jump_error, fun t x => verifyRegions_of_trap_error⟩⟩
  obtain ⟨jumpRegion, hjumpEncoded, hjumpDecoded⟩ := exists_encode_of_fits hjumps
  obtain ⟨trapRegion, htrapEncoded, htrapDecoded⟩ := exists_encode_of_fits htraps
  exact ⟨jumpRegion, trapRegion, hjumpEncoded, htrapEncoded,
    verifyRegions_of_ok hjumpDecoded htrapDecoded⟩

theorem table_encoding_exact_two_entries :
    decode #[0, 1] = .error (.trailingBytes 2) ∧
    decode #[0, 2, 0, 6, 0, 1, 0, 4] = .error (.unsorted 1) ∧
    (∃ t, decode #[0, 1, 0, 4, 0, 2, 0, 6] = .ok t ∧
      t.encode = .ok #[0, 1, 0, 4, 0, 2, 0, 6]) ∧
    JumpTable.encode ⟨#[⟨1, 65536⟩], List.pairwise_singleton _ _⟩ = .error (.entryTooLarge 0) ∧
    (∃ jumpRegion trapRegion,
      JumpTable.encode ⟨#[⟨1, 4⟩], List.pairwise_singleton _ _⟩ = .ok jumpRegion ∧
      JumpTable.empty.encode = .ok trapRegion ∧
      verifyRegions #[0x5B, 0x00] jumpRegion trapRegion {} =
        (verify #[0x5B, 0x00] ⟨⟨#[⟨1, 4⟩], List.pairwise_singleton _ _⟩, JumpTable.empty⟩ {}).map
          fun _ => ⟨⟨#[⟨1, 4⟩], List.pairwise_singleton _ _⟩, JumpTable.empty⟩) ∧
    verifyRegions #[0x0C] #[0, 1] #[0] {} = .error (.table .jump (.trailingBytes 2)) ∧
    verifyRegions #[0x0C] #[0, 1, 0, 4, 0, 2, 0, 6] #[0, 1] {} =
      .error (.table .trap (.trailingBytes 2)) := by
  obtain ⟨hdecode, hencode, hregions, hmalformed⟩ := table_encoding_exact
  have htrailing : decode #[0, 1] = .error (.trailingBytes 2) := (hdecode #[0, 1]).1 (by decide)
  have hascending : ∃ t, decode #[0, 1, 0, 4, 0, 2, 0, 6] = .ok t ∧
      t.encode = .ok #[0, 1, 0, 4, 0, 2, 0, 6] := by
    refine (hdecode #[0, 1, 0, 4, 0, 2, 0, 6]).2.2 (by decide) fun k hpos hlt => ?_
    obtain rfl : k = 1 := Nat.le_antisymm (Nat.le_of_lt_succ hlt) hpos
    decide
  obtain ⟨t, ht, hback⟩ := hascending
  refine ⟨htrailing, ?_, ⟨t, ht, hback⟩, ?_, ?_, ?_, ?_⟩
  · exact (hdecode #[0, 2, 0, 6, 0, 1, 0, 4]).2.1 (by decide) 1
      ⟨⟨by decide, by decide, by decide⟩, fun j hj => hj.1⟩
  · refine (hencode ⟨#[⟨1, 65536⟩], List.pairwise_singleton _ _⟩).1 0 ⟨⟨_, rfl, ?_⟩, ?_⟩
    · simp [JumpEntry.Fits]
    · exact fun j _ => Nat.zero_le j
  · refine hregions #[0x5B, 0x00]
      ⟨⟨#[⟨1, 4⟩], List.pairwise_singleton _ _⟩, JumpTable.empty⟩ {} ?_ ?_
    · simp [toList, JumpEntry.Fits]
    · simp [toList, JumpTable.empty]
  · exact (hmalformed _ _ _ _).1 _ htrailing
  · exact (hmalformed _ _ _ _).2 t _ ht htrailing

end StackMachine
