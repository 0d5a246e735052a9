import StackMachine.Assembler
import StackMachine.Proofs.BigEndian

namespace StackMachine.Assembler

variable {a a' : Assembler} {label l : Label}

section Pushes

open BigEndian

/-- A push takes the low 256 bits of a number. -/
theorem wordDigits_eq (value : List UInt8) :
    wordDigits value = digits (BitVec.ofNat 256 (toNat value)).toNat := by
  rw [wordDigits, significant_eq_digits, BitVec.toNat_ofNat]
  congr 1
  by_cases hlength : value.length ≤ 32
  · have hpow : 256 ^ value.length ≤ 256 ^ 32 := Nat.pow_le_pow_right (by decide) hlength
    have hlt : toNat value < 2 ^ 256 := Nat.lt_of_lt_of_le (toNat_lt value) hpow
    rw [Nat.sub_eq_zero_of_le hlength, List.drop_zero, Nat.mod_eq_of_lt hlt]
  · have hdrop : (value.drop (value.length - 32)).length = 32 := by
      rw [List.length_drop]
      omega
    rw [toNat_drop, hdrop]
    rfl

theorem length_digits_lt (value : BitVec 256) : (digits value.toNat).length < 33 :=
  Nat.lt_succ_of_le (length_digits_le value.isLt)

theorem pushOfWidth?_eq {width : Nat} (h : width < 33) :
    Opcode.pushOfWidth? width = some (.push ⟨width, h⟩) :=
  dif_pos h

end Pushes

inductive Piece where
  | bare (opcode : Opcode)
  /-- The narrowest push of a number. -/
  | number (value : BitVec 256)
  /-- A `PUSH2` of a label's offset. -/
  | reference (label : Label)
  | raw (bytes : List UInt8)
  deriving DecidableEq

namespace Piece

/-- The bytes of a piece, with zeros for a label's offset behind the byte of `PUSH2`. -/
def blank : Piece → List UInt8
  | bare opcode => [opcode.toByte]
  | number value =>
    (Opcode.push ⟨_, length_digits_lt value⟩).toByte :: BigEndian.digits value.toNat
  | reference _ => [0x61, 0, 0]
  | raw bytes => bytes

def width (p : Piece) : Nat := p.blank.length

def fixups (offset : Nat) : Piece → List Fixup
  | reference label => [⟨offset + 1, label⟩]
  | _ => []

/-- The bytes of a piece when labels have their places. -/
def encode (placed? : Label → Option Nat) : Piece → Except AssemblyError (List UInt8)
  | reference label =>
    match placed? label with
    | none => .error .unresolvedLabel
    | some pc =>
      if 0xFFFF < pc then .error (.labelOutOfRange pc)
      else .ok (0x61 :: BigEndian.ofWord16 pc)
  | p => .ok p.blank

theorem reverse_fixups (offset : Nat) (p : Piece) :
    (p.fixups offset).reverse = p.fixups offset := by
  cases p <;> rfl

theorem encode_reference_eq_ok_iff {placed? : Label → Option Nat} {label : Label}
    {bytes : List UInt8} : (reference label).encode placed? = .ok bytes ↔
      ∃ pc, placed? label = some pc ∧ pc ≤ 0xFFFF ∧ bytes = 0x61 :: BigEndian.ofWord16 pc := by
  rw [encode]
  cases placed? label with
  | none => simp
  | some pc =>
    by_cases h : 0xFFFF < pc
    · simp [h]
    · simp [h, Nat.le_of_not_lt h, eq_comm]

theorem length_encode {placed? : Label → Option Nat} {p : Piece} {bytes : List UInt8}
    (h : p.encode placed? = .ok bytes) : bytes.length = p.width := by
  cases p with
  | bare | number | raw => rw [← Except.ok.inj h, width]
  | reference label =>
    obtain ⟨pc, _, _, rfl⟩ := encode_reference_eq_ok_iff.mp h
    rfl

end Piece

def listingFrom (offset : Nat) : List Piece → List (Nat × Piece)
  | [] => []
  | p :: pieces => (offset, p) :: listingFrom (offset + p.width) pieces

def fixupsOf (entries : List (Nat × Piece)) : List Fixup :=
  entries.flatMap fun entry => entry.2.fixups entry.1

theorem fixupsOf_cons (offset : Nat) (p : Piece) (entries : List (Nat × Piece)) :
    fixupsOf ((offset, p) :: entries) = p.fixups offset ++ fixupsOf entries := List.flatMap_cons

def totalWidth (pieces : List Piece) : Nat := (pieces.map Piece.width).sum

theorem length_flatMap_blank (pieces : List Piece) :
    (pieces.flatMap Piece.blank).length = totalWidth pieces := List.length_flatMap

theorem listingFrom_append (offset : Nat) (pieces rest : List Piece) :
    listingFrom offset (pieces ++ rest) =
      listingFrom offset pieces ++ listingFrom (offset + totalWidth pieces) rest := by
  induction pieces generalizing offset with
  | nil => rfl
  | cons p pieces ih =>
    rw [List.cons_append, listingFrom, listingFrom, ih, List.cons_append, totalWidth, totalWidth,
      List.map_cons, List.sum_cons, Nat.add_assoc]

theorem mem_of_mem_listingFrom {n o : Nat} {p : Piece} {pieces : List Piece}
    (h : (o, p) ∈ listingFrom n pieces) : p ∈ pieces := by
  induction pieces generalizing n with
  | nil => cases h
  | cons q pieces ih =>
    obtain heq | h := List.mem_cons.mp h
    · exact (Prod.mk.inj heq).2 ▸ List.mem_cons_self
    · exact List.mem_cons_of_mem _ (ih h)

inductive Call where
  | newLabel
  | place (label : Label)
  | jumpdest (label : Label)
  | op (opcode : Opcode)
  | raw (bytes : List UInt8)
  | push (value : List UInt8)
  | pushNumber (value : Nat)
  | pushLabel (label : Label)
  | jumpTo (label : Label)
  | jumpiTo (label : Label)
  | dynamicJump
  | dynamicJumpi
  deriving DecidableEq

namespace Call

def allocates : Call → Bool
  | newLabel | dynamicJump | dynamicJumpi => true
  | _ => false

/-- The label that the call places when there are `count` labels. -/
def places? (count : Nat) : Call → Option Label
  | place label | jumpdest label => if label.id < count then some label else none
  | dynamicJump | dynamicJumpi => some ⟨count⟩
  | _ => none

end Call

/-- A call that is refused leaves the assembler as it is. -/
def Call.perform (a : Assembler) : Call → Assembler
  | newLabel => a.newLabel.2
  | place label => (a.place label).toOption.getD a
  | jumpdest label => (a.jumpdest label).toOption.getD a
  | op opcode => a.op opcode
  | raw bytes => a.raw bytes
  | push value => a.push value
  | pushNumber value => a.pushNumber value
  | pushLabel label => a.pushLabel label
  | jumpTo label => a.jumpTo label
  | jumpiTo label => a.jumpiTo label
  | dynamicJump => a.dynamicJump.2
  | dynamicJumpi => a.dynamicJumpi.2

def assemble (calls : List Call) : Assembler := calls.foldl Call.perform empty

/-- What was written so far, how many labels there are, and where labels were placed, the last
placement first. -/
structure Draft where
  pieces : List Piece := []
  labelCount : Nat := 0
  placements : List (Label × Nat) := []
  deriving DecidableEq

namespace Draft

def pc (d : Draft) : Nat := min (totalWidth d.pieces) maxOffset

def write (p : Piece) (d : Draft) : Draft := { d with pieces := d.pieces ++ [p] }

def newLabel (d : Draft) : Draft := { d with labelCount := d.labelCount + 1 }

def place (label : Label) (d : Draft) : Draft :=
  if label.id < d.labelCount then { d with placements := (label, d.pc) :: d.placements } else d

def jumpdest (label : Label) (d : Draft) : Draft :=
  if label.id < d.labelCount then (d.place label).write (.bare .jumpdest) else d

def dynamic (opcode : Opcode) (d : Draft) : Draft :=
  (d.newLabel.place ⟨d.labelCount⟩).write (.bare opcode)

def placedAt? (d : Draft) (label : Label) : Option Nat := d.placements.lookup label

def listing (d : Draft) : List (Nat × Piece) := listingFrom 0 d.pieces

def after (d : Draft) : Call → Draft
  | .newLabel => d.newLabel
  | .place label => d.place label
  | .jumpdest label => d.jumpdest label
  | .op opcode => d.write (.bare opcode)
  | .raw bytes => d.write (.raw bytes)
  | .push value => d.write (.number (.ofNat 256 (BigEndian.toNat value)))
  | .pushNumber value => d.write (.number (.ofNat 256 (value % 2 ^ 64)))
  | .pushLabel label => d.write (.reference label)
  | .jumpTo label => (d.write (.reference label)).write (.bare .jump)
  | .jumpiTo label => (d.write (.reference label)).write (.bare .jumpi)
  | .dynamicJump => d.dynamic .jump
  | .dynamicJumpi => d.dynamic .jumpi

theorem listing_write (p : Piece) (d : Draft) :
    (d.write p).listing = d.listing ++ [(totalWidth d.pieces, p)] := by
  rw [listing, write, listingFrom_append, Nat.zero_add]
  rfl

theorem pieces_place (label : Label) (d : Draft) : (d.place label).pieces = d.pieces := by
  rw [place]
  split <;> rfl

theorem labelCount_place (label : Label) (d : Draft) :
    (d.place label).labelCount = d.labelCount := by
  rw [place]
  split <;> rfl

theorem pieces_dynamic (opcode : Opcode) (d : Draft) :
    (d.dynamic opcode).pieces = d.pieces ++ [.bare opcode] := by
  rw [dynamic, write, pieces_place]
  rfl

theorem placedAt?_cons (d : Draft) (pc : Nat) (label l : Label) :
    placedAt? { d with placements := (label, pc) :: d.placements } l =
      if l = label then some pc else d.placedAt? l := by
  rw [placedAt?, List.lookup_cons]
  by_cases h : l = label
  · rw [if_pos h, h, beq_self_eq_true]
  · rw [if_neg h, beq_false_of_ne h]
    rfl

theorem placedAt?_place (label l : Label) (d : Draft) (h : label.id < d.labelCount) :
    (d.place label).placedAt? l = if l = label then some d.pc else d.placedAt? l := by
  rw [place, if_pos h, placedAt?_cons]

theorem labelCount_after (d : Draft) (c : Call) :
    (d.after c).labelCount = d.labelCount + if c.allocates then 1 else 0 := by
  cases c with
  | place label => exact labelCount_place label d
  | jumpdest label =>
    rw [after, jumpdest]
    split
    · exact labelCount_place label d
    · rfl
  | dynamicJump | dynamicJumpi => exact labelCount_place _ d.newLabel
  | newLabel | op | raw | push | pushNumber | pushLabel | jumpTo | jumpiTo => rfl

theorem placedAt?_after (d : Draft) (c : Call) (l : Label) :
    (d.after c).placedAt? l =
      if c.places? d.labelCount = some l then some d.pc else d.placedAt? l := by
  cases c with
  | place label =>
    by_cases h : label.id < d.labelCount
    · simp [after, Call.places?, placedAt?_place, h, eq_comm]
    · simp [after, place, Call.places?, h]
  | jumpdest label =>
    by_cases h : label.id < d.labelCount
    · have hwrite : (d.after (.jumpdest label)).placedAt? l = (d.place label).placedAt? l := by
        rw [after, jumpdest, if_pos h]
        rfl
      simp [hwrite, Call.places?, placedAt?_place, h, eq_comm]
    · simp [after, jumpdest, Call.places?, h]
  | dynamicJump | dynamicJumpi =>
    have hnew := placedAt?_place ⟨d.labelCount⟩ l d.newLabel (Nat.lt_succ_self _)
    simp only [Call.places?, Option.some_inj, eq_comm (b := l)]
    exact hnew
  | newLabel | op | raw | push | pushNumber | pushLabel | jumpTo | jumpiTo => rfl

end Draft

def draft (calls : List Call) : Draft := calls.foldl Draft.after {}

section Labels

theorem labelPc?_push (labels : Array (Option Nat)) (pc : Option Nat) (bytes : Array UInt8)
    (fixups : List Fixup) (l : Label) :
    labelPc? ⟨bytes, labels.push pc, fixups⟩ l =
      if l = ⟨labels.size⟩ then pc else labels[l.id]?.join := by
  rw [labelPc?, Array.getElem?_push]
  by_cases h : l = ⟨labels.size⟩
  · rw [if_pos h, if_pos (congrArg Label.id h)]
    rfl
  · rw [if_neg h, if_neg fun hid => h (congrArg Label.mk hid)]

theorem labelPc?_eq_none (h : a.labels.size ≤ l.id) : a.labelPc? l = none := by
  rw [labelPc?, Array.getElem?_eq_none h]
  rfl

theorem labelPc?_set (labels : Array (Option Nat)) (pc : Nat) (bytes : Array UInt8)
    (fixups : List Fixup) (h : label.id < labels.size) (l : Label) :
    labelPc? ⟨bytes, labels.setIfInBounds label.id (some pc), fixups⟩ l =
      if l = label then some pc else labels[l.id]?.join := by
  rw [labelPc?, Array.getElem?_setIfInBounds]
  by_cases heq : l = label
  · subst heq
    rw [if_pos rfl, if_pos h, if_pos rfl]
    rfl
  · rw [if_neg heq, if_neg fun hid => heq (congrArg Label.mk hid.symm)]

end Labels

/-- The assembler has written the blank pieces of the draft, it has yet to fill in their references,
and its labels are where the draft has them. -/
structure Describes (d : Draft) (a : Assembler) : Prop where
  bytes_eq : a.bytes.toList = d.pieces.flatMap Piece.blank
  fixups_eq : a.fixups = (fixupsOf d.listing).reverse
  size_labels : a.labels.size = d.labelCount
  labelPc?_eq : ∀ l, a.labelPc? l = d.placedAt? l

namespace Describes

variable {d : Draft}

theorem size_eq (h : Describes d a) : a.bytes.size = totalWidth d.pieces := by
  rw [← Array.length_toList, h.bytes_eq, length_flatMap_blank]

theorem pc_eq (h : Describes d a) : a.pc = d.pc := by rw [pc, Draft.pc, h.size_eq]

theorem write (h : Describes d a) {p : Piece} (hbytes : a'.bytes.toList = a.bytes.toList ++ p.blank)
    (hfixups : a'.fixups = p.fixups a.bytes.size ++ a.fixups) (hlabels : a'.labels = a.labels) :
    Describes (d.write p) a' where
  bytes_eq := by
    rw [hbytes, h.bytes_eq, Draft.write, List.flatMap_append, List.flatMap_singleton]
  fixups_eq := by
    rw [hfixups, h.fixups_eq, Draft.listing_write, fixupsOf, fixupsOf, List.flatMap_append,
      List.reverse_append, List.flatMap_singleton, Piece.reverse_fixups, h.size_eq]
  size_labels := by rw [hlabels, h.size_labels, Draft.write]
  labelPc?_eq l := by
    rw [labelPc?, hlabels]
    exact h.labelPc?_eq l

theorem raw (h : Describes d a) {p : Piece} (hfixups : p.fixups a.bytes.size = []) :
    Describes (d.write p) (a.raw p.blank) := by
  refine h.write ?_ (by rw [hfixups]; rfl) rfl
  rw [Assembler.raw, Array.toList_appendList]

theorem pushLabel (h : Describes d a) (label : Label) :
    Describes (d.write (.reference label)) (a.pushLabel label) := by
  have hbyte : (Opcode.push 2).toByte = 0x61 := rfl
  refine h.write ?_ ?_ rfl
  · simp [Assembler.pushLabel, op, Assembler.raw, Piece.blank, hbyte]
  · simp [Assembler.pushLabel, op, Assembler.raw, Piece.fixups]

theorem newLabel (h : Describes d a) : Describes d.newLabel a.newLabel.2 where
  bytes_eq := h.bytes_eq
  fixups_eq := h.fixups_eq
  size_labels := by
    rw [Assembler.newLabel, Array.size_push, h.size_labels]
    rfl
  labelPc?_eq l := by
    rw [Assembler.newLabel, labelPc?_push]
    split
    next hl =>
      have hnone := h.labelPc?_eq l
      rwa [labelPc?_eq_none (by rw [hl])] at hnone
    · exact h.labelPc?_eq l

theorem placed (h : Describes d a) (hbytes : a'.bytes = a.bytes) (hfixups : a'.fixups = a.fixups)
    (hsize : a'.labels.size = d.labelCount)
    (hlabels : ∀ l, a'.labelPc? l = if l = label then some a.pc else a.labelPc? l) :
    Describes { d with placements := (label, d.pc) :: d.placements } a' where
  bytes_eq := hbytes ▸ h.bytes_eq
  fixups_eq := hfixups ▸ h.fixups_eq
  size_labels := hsize
  labelPc?_eq l := by rw [hlabels, Draft.placedAt?_cons, h.pc_eq, h.labelPc?_eq]

theorem op (h : Describes d a) (opcode : Opcode) :
    Describes (d.write (.bare opcode)) (a.op opcode) :=
  h.raw rfl

theorem push (h : Describes d a) (value : List UInt8) :
    Describes (d.write (.number (.ofNat 256 (BigEndian.toNat value)))) (a.push value) := by
  dsimp only [Assembler.push]
  rw [wordDigits_eq, pushOfWidth?_eq (length_digits_lt _)]
  exact h.raw rfl

theorem place (h : Describes d a) (hlabel : label.id < d.labelCount) :
    Describes (d.place label)
      { a with labels := a.labels.setIfInBounds label.id (some a.pc) } := by
  rw [Draft.place, if_pos hlabel]
  refine h.placed rfl rfl ?_ fun l => ?_
  · rw [Array.size_setIfInBounds, h.size_labels]
  · exact labelPc?_set _ _ _ _ (h.size_labels ▸ hlabel) l

theorem dynamic (h : Describes d a) (opcode : Opcode) :
    Describes (d.dynamic opcode) (a.dynamic opcode).2 := by
  refine op ?_ opcode
  have hlabel : (⟨d.labelCount⟩ : Label).id < d.newLabel.labelCount := Nat.lt_succ_self _
  rw [Draft.place, if_pos hlabel]
  refine h.newLabel.placed rfl rfl ?_ fun l => ?_
  · rw [Array.size_push, h.size_labels]
    rfl
  · rw [Assembler.newLabel, labelPc?_push, labelPc?_push, h.size_labels]
    split <;> rfl

theorem perform (h : Describes d a) (c : Call) : Describes (d.after c) (c.perform a) := by
  cases c with
  | newLabel => exact h.newLabel
  | place label =>
    rw [Draft.after, Call.perform, Assembler.place, h.size_labels]
    by_cases hlabel : label.id < d.labelCount
    · rw [if_pos hlabel]
      exact h.place hlabel
    · rw [if_neg hlabel, Draft.place, if_neg hlabel]
      exact h
  | jumpdest label =>
    rw [Draft.after, Call.perform, Assembler.jumpdest, Assembler.place, h.size_labels,
      Draft.jumpdest]
    by_cases hlabel : label.id < d.labelCount
    · rw [if_pos hlabel, if_pos hlabel]
      exact (h.place hlabel).op .jumpdest
    · rw [if_neg hlabel, if_neg hlabel]
      exact h
  | op opcode => exact h.op opcode
  | raw bytes => exact h.raw rfl
  | push value => exact h.push value
  | pushNumber value =>
    rw [Draft.after, ← BigEndian.toNat_ofWord64]
    exact h.push (BigEndian.ofWord64 value)
  | pushLabel label => exact h.pushLabel label
  | jumpTo label => exact (h.pushLabel label).op .jump
  | jumpiTo label => exact (h.pushLabel label).op .jumpi
  | dynamicJump => exact h.dynamic .jump
  | dynamicJumpi => exact h.dynamic .jumpi

theorem foldl (h : Describes d a) (calls : List Call) :
    Describes (calls.foldl Draft.after d) (calls.foldl Call.perform a) := by
  induction calls generalizing d a with
  | nil => exact h
  | cons c calls ih => exact ih (h.perform c)

end Describes

theorem describes_draft (calls : List Call) : Describes (draft calls) (assemble calls) := by
  have hempty : Describes {} empty :=
    { bytes_eq := rfl, fixups_eq := rfl, size_labels := rfl, labelPc?_eq := fun _ => rfl }
  exact hempty.foldl calls

section Finish

variable {p : Piece} {pieces : List Piece}

theorem patch_eq (pre rest : List UInt8) (b high low : UInt8) (pc : Nat) :
    patch (pre ++ b :: high :: low :: rest).toArray (pre.length + 1) pc =
      (pre ++ b :: (BigEndian.ofWord16 pc ++ rest)).toArray := by
  simp [patch, BigEndian.ofWord16, Nat.add_assoc, List.set_append_right]

theorem foldlM_fill_fixups (a : Assembler) (p : Piece) (pre rest : List UInt8) :
    (p.fixups pre.length).foldlM a.fill (pre ++ (p.blank ++ rest)).toArray =
      (p.encode a.labelPc?).map fun part => (pre ++ (part ++ rest)).toArray := by
  cases p with
  | bare | number | raw => rfl
  | reference label =>
    rw [Piece.fixups, List.foldlM_cons, fill, Piece.encode]
    cases a.labelPc? label with
    | none => rfl
    | some pc =>
      dsimp only
      by_cases hpc : 0xFFFF < pc
      · rw [if_pos hpc, if_pos hpc]
        rfl
      · rw [if_neg hpc, if_neg hpc]
        exact congrArg Except.ok (patch_eq pre rest _ 0 0 pc)

theorem foldlM_fill (a : Assembler) (pre : List UInt8) (pieces : List Piece) :
    (fixupsOf (listingFrom pre.length pieces)).foldlM a.fill
        (pre ++ pieces.flatMap Piece.blank).toArray =
      (pieces.mapM (Piece.encode a.labelPc?)).map fun parts => (pre ++ parts.flatten).toArray := by
  -- The bytes in `pre` have no reference to fill in any more.
  induction pieces generalizing pre with
  | nil => rfl
  | cons p pieces ih =>
    rw [listingFrom, fixupsOf_cons, List.foldlM_append, List.flatMap_cons, foldlM_fill_fixups,
      List.mapM_cons]
    cases hp : p.encode a.labelPc? with
    | error e => rfl
    | ok part =>
      have hrest := ih (pre ++ part)
      rw [List.length_append, Piece.length_encode hp, List.append_assoc] at hrest
      refine hrest.trans ?_
      cases pieces.mapM (Piece.encode a.labelPc?) with
      | error e => rfl
      | ok parts =>
        rw [Except.map, List.append_assoc]
        rfl

/-- The finished code is the pieces of the draft with the labels at their last places. -/
theorem Describes.finish_eq {d : Draft} (h : Describes d a) :
    a.finish =
      (d.pieces.mapM (Piece.encode d.placedAt?)).map fun parts => parts.flatten.toArray := by
  have hlabels : a.labelPc? = d.placedAt? := funext h.labelPc?_eq
  have hbytes : a.bytes = (d.pieces.flatMap Piece.blank).toArray := by
    rw [← h.bytes_eq, Array.toArray_toList]
  rw [finish, h.fixups_eq, List.reverse_reverse, hbytes, ← hlabels]
  exact foldlM_fill a [] d.pieces

end Finish

end StackMachine.Assembler
