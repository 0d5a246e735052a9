import StackMachine.Proofs.Assembler.Patching
import StackMachine.Proofs.OnePass

namespace StackMachine.Assembler

open Exploration

section Pieces

def Call.pieces (count : Nat) : Call → List Piece
  | newLabel | place _ => []
  | jumpdest label => if label.id < count then [.bare .jumpdest] else []
  | op opcode => [.bare opcode]
  | raw bytes => [.raw bytes]
  | push value => [.number (.ofNat 256 (BigEndian.toNat value))]
  | pushNumber value => [.number (.ofNat 256 (value % 2 ^ 64))]
  | pushLabel label => [.reference label]
  | jumpTo label => [.reference label, .bare .jump]
  | jumpiTo label => [.reference label, .bare .jumpi]
  | dynamicJump => [.bare .jump]
  | dynamicJumpi => [.bare .jumpi]

def piecesOf (count : Nat) : List Call → List Piece
  | [] => []
  | c :: calls => c.pieces count ++ piecesOf (count + if c.allocates then 1 else 0) calls

theorem piecesOf_append (count : Nat) (calls rest : List Call) : piecesOf count (calls ++ rest) =
    piecesOf count calls ++ piecesOf (count + calls.countP Call.allocates) rest := by
  induction calls generalizing count with
  | nil => rfl
  | cons c calls ih =>
    rw [List.cons_append, piecesOf, piecesOf, ih, List.append_assoc, List.countP_cons,
      Nat.add_assoc, Nat.add_comm (List.countP ..)]

theorem Draft.pieces_after (d : Draft) (c : Call) :
    (d.after c).pieces = d.pieces ++ c.pieces d.labelCount := by
  cases c with
  | newLabel => exact (List.append_nil _).symm
  | place label =>
    rw [after, pieces_place]
    exact (List.append_nil _).symm
  | jumpdest label =>
    rw [after, jumpdest, Call.pieces]
    split
    · rw [write, pieces_place]
    · exact (List.append_nil _).symm
  | jumpTo | jumpiTo => exact List.append_assoc _ _ _
  | dynamicJump | dynamicJumpi => exact pieces_dynamic _ d
  | op | raw | push | pushNumber | pushLabel => rfl

theorem Draft.pieces_foldl (d : Draft) (calls : List Call) :
    (calls.foldl after d).pieces = d.pieces ++ piecesOf d.labelCount calls := by
  induction calls generalizing d with
  | nil => exact (List.append_nil _).symm
  | cons c calls ih =>
    rw [List.foldl_cons, ih, pieces_after, labelCount_after, piecesOf, List.append_assoc]

theorem pieces_draft (calls : List Call) : (draft calls).pieces = piecesOf 0 calls :=
  Draft.pieces_foldl {} calls

end Pieces

variable {s : Subject} {declared : Nat → Nat} {placed? : Label → Option Nat}
  {front : Option (List AbstractValue)} {items : List AbstractValue} {offset : Nat} {p : Piece}
  {pieces : List Piece} {label : Label} {opcode : Opcode} {v condition : AbstractValue}

/-- The pieces pass as whatever instructions they are read. -/
def PiecesPass (s : Subject) (declared : Nat → Nat) (placed? : Label → Option Nat)
    (front : Option (List AbstractValue)) (offset : Nat) (pieces : List Piece) : Prop :=
  ∀ instrs, List.Forall₂ (Listed placed?) (listingFrom offset pieces) instrs →
    Passes s declared front instrs

namespace PiecesPass

theorem nil : PiecesPass s declared placed? front offset [] := by
  intro instrs h
  cases h
  trivial

theorem cons (h : ∀ i, Listed placed? (offset, p) i → Safe s declared front i ∧
      PiecesPass s declared placed? (flow declared front i) (offset + p.width) pieces) :
    PiecesPass s declared placed? front offset (p :: pieces) := by
  intro instrs hinstrs
  cases hinstrs with
  | cons hi hrest =>
    obtain ⟨hsafe, hpass⟩ := h _ hi
    exact ⟨hsafe, hpass _ hrest⟩

/-- An instruction that is neither a jump nor a `JUMPDEST` nor a terminator. -/
theorem compute {a : StackAction} (hrole : ∀ i, Listed placed? (offset, p) i →
      i.opcode.role = .compute a ∧ i.opcode.isTerminator = false)
    (hneeds : a.effect.1 ≤ items.length)
    (hroom : items.length - a.effect.1 + a.effect.2 ≤ s.limit)
    (h : ∀ i, Listed placed? (offset, p) i → PiecesPass s declared placed?
      (some (a.onList .unknown (literal i) items)) (offset + p.width) pieces) :
    PiecesPass s declared placed? (some items) offset (p :: pieces) := by
  refine cons fun i hi => ?_
  obtain ⟨hcompute, hterm⟩ := hrole i hi
  rw [flow_of_compute hcompute hterm]
  exact ⟨.of_compute hcompute hneeds hroom, h i hi⟩

theorem op (a : StackAction) (rest : List AbstractValue) (hrole : opcode.role = .compute a)
    (hterm : opcode.isTerminator = false) (hneeds : a.effect.1 ≤ items.length)
    (hitems : ∀ v, a.onList .unknown v items = rest) (hroom : rest.length ≤ s.limit)
    (h : PiecesPass s declared placed? (some rest) (offset + 1) pieces) :
    PiecesPass s declared placed? (some items) offset (.bare opcode :: pieces) := by
  refine compute (fun i hi => ?_) hneeds ?_ fun i _ => ?_
  · rw [hi.2.1]
    exact ⟨hrole, hterm⟩
  · rwa [← StackAction.length_onList .unknown .unknown hneeds, hitems]
  · rw [hitems]
    exact h

theorem number {value : BitVec 256} (hroom : items.length < s.limit)
    (h : ∀ v, PiecesPass s declared placed? (some (v :: items))
      (offset + (Piece.number value).width) pieces) :
    PiecesPass s declared placed? (some items) offset (.number value :: pieces) := by
  refine compute (a := .push) (fun i hi => ?_) (Nat.zero_le _) hroom fun i _ => h (literal i)
  obtain ⟨_, ⟨_, hpush⟩, _⟩ := hi
  rw [hpush]
  exact ⟨rfl, rfl⟩

theorem reference (hroom : items.length < s.limit)
    (h : ∀ pc, placed? label = some pc → PiecesPass s declared placed?
      (some (.const (some pc) :: items)) (offset + 3) pieces) :
    PiecesPass s declared placed? (some items) offset (.reference label :: pieces) := by
  refine compute (a := .push) (fun i hi => ?_) (Nat.zero_le _) hroom fun i hi => ?_
  · obtain ⟨_, ⟨_, hpush⟩, _⟩ := hi
    rw [hpush]
    exact ⟨rfl, rfl⟩
  · obtain ⟨_, ⟨_, hpush⟩, _, pc, hpc, hvalue⟩ := hi
    have hliteral : literal i = .const (some pc) := by
      rw [literal, hpush]
      exact congrArg AbstractValue.const hvalue
    rw [hliteral]
    exact h pc hpc

theorem halt (hterm : opcode.isTerminator = true) (hneeds : opcode.stackIn ≤ items.length)
    (h : PiecesPass s declared placed? none (offset + 1) pieces) :
    PiecesPass s declared placed? (some items) offset (.bare opcode :: pieces) := by
  refine cons fun i hi => ?_
  obtain ⟨_, rfl, _⟩ := hi
  rw [flow_of_isTerminator hterm]
  exact ⟨.of_isTerminator hterm hneeds, h⟩

theorem mark (hlimit : declared offset ≤ s.limit)
    (hmeets : ∀ items, front = some items → items.length = declared offset)
    (h : PiecesPass s declared placed? (some (List.replicate (declared offset) .unknown))
      (offset + 1) pieces) :
    PiecesPass s declared placed? front offset (.bare .jumpdest :: pieces) := by
  refine cons fun i hi => ?_
  obtain ⟨rfl, hop, _⟩ := hi
  rw [flow_of_jumpdest hop]
  exact ⟨.of_jumpdest hop hlimit hmeets, h⟩

theorem jump (hleads : Leads s declared offset v items.length) (hlimit : items.length ≤ s.limit)
    (h : PiecesPass s declared placed? none (offset + 1) pieces) :
    PiecesPass s declared placed? (some (v :: items)) offset (.bare .jump :: pieces) := by
  refine cons fun i hi => ?_
  obtain ⟨rfl, hop, _⟩ := hi
  rw [flow_of_jump hop]
  exact ⟨.of_jump hop hlimit hleads, h⟩

theorem branch (hleads : Leads s declared offset v items.length) (hlimit : items.length ≤ s.limit)
    (h : PiecesPass s declared placed? (some (List.replicate items.length .unknown)) (offset + 1)
      pieces) :
    PiecesPass s declared placed? (some (v :: condition :: items)) offset
      (.bare .jumpi :: pieces) := by
  refine cons fun i hi => ?_
  obtain ⟨rfl, hop, _⟩ := hi
  rw [flow_of_branch hop]
  exact ⟨.of_branch hop hlimit hleads, h⟩

theorem flatMap (Inv : Option (List AbstractValue) → Prop) {written : Nat → List Piece}
    (hblock : ∀ k rest,
      (∀ front offset, Inv front → PiecesPass s declared placed? front offset rest) →
      ∀ front offset, Inv front → PiecesPass s declared placed? front offset (written k ++ rest))
    (hrest : ∀ front offset, Inv front → PiecesPass s declared placed? front offset pieces)
    (ks : List Nat) :
    ∀ front offset, Inv front →
      PiecesPass s declared placed? front offset (ks.flatMap written ++ pieces) := by
  induction ks with
  | nil => exact hrest
  | cons k ks ih =>
    rw [List.flatMap_cons, List.append_assoc]
    exact hblock k _ ih

end PiecesPass

theorem leads_of_isValid {pc depth : Nat} (hvalid : s.jumpDests.isValid pc = true)
    (hdepth : declared pc = depth) : Leads s declared offset (.const (some pc)) depth := by
  simp [Leads, Subject.targets, hvalid, hdepth]

section Finished

variable {calls : List Call} {code : Code} {tables : JumpTables} {cfg : Config} {pc : Nat}

theorem size_eq_of_finish (hfinish : (assemble calls).finish = .ok code) :
    code.size = totalWidth (draft calls).pieces := by
  obtain ⟨parts, hparts, rfl⟩ := exists_parts hfinish
  rw [List.size_toArray, length_flatten hparts]

/-- What was written is accepted if its pieces pass. -/
theorem exists_verifyOwned_of_piecesPass (hcalls : ∀ c ∈ calls, c.IsStructured)
    (hfinish : (assemble calls).finish = .ok code) (hle : code.size ≤ cfg.lengthBound)
    (hpass : PiecesPass (subjectOf code tables cfg) declared (draft calls).placedAt? (some []) 0
      (draft calls).pieces) :
    ∃ v, verifyOwned code tables cfg = .ok v := by
  obtain ⟨instrs, hlayout, hlisted⟩ :=
    exists_instrs hcalls hfinish (size_le_of_lengthBound hle)
  exact exists_verifyOwned_of_passes hle hlayout (hpass instrs hlisted)

/-- The call places a label only where it writes a `JUMPDEST`. -/
def Call.MarksOnly : Call → Prop
  | place _ | dynamicJump | dynamicJumpi => False
  | _ => True

theorem Placed.mem_listing (h : Placed label calls pc) (hcalls : ∀ c ∈ calls, c.MarksOnly) :
    (pc, .bare .jumpdest) ∈ (draft calls).listing := by
  -- What is written for the last placement stays, because later calls write behind it.
  induction h with
  | @here calls c hplaces =>
    have hmarks := hcalls c (List.mem_append_right _ List.mem_cons_self)
    cases c with
    | jumpdest l =>
      have hlabel : l.id < (draft calls).labelCount := by
        rw [labelCount_draft]
        by_contra hle
        simp [Call.places?, hle] at hplaces
      rw [draft_concat, Draft.after, Draft.jumpdest, if_pos hlabel, Draft.listing_write,
        Draft.pieces_place, emitted, length_flatMap_blank]
      exact List.mem_append_right _ List.mem_cons_self
    | place | dynamicJump | dynamicJumpi => exact hmarks.elim
    | newLabel | op | raw | push | pushNumber | pushLabel | jumpTo | jumpiTo => cases hplaces
  | @earlier calls c pc _ _ ih =>
    obtain ⟨rest, hpieces, _⟩ := (draft calls).exists_pieces_after c
    rw [draft_concat, Draft.listing, hpieces, listingFrom_append]
    exact List.mem_append_left _ (ih fun c hc => hcalls c (List.mem_append_left _ hc))

theorem isValid_of_placedAt? (hcalls : ∀ c ∈ calls, c.IsStructured)
    (hmarks : ∀ c ∈ calls, c.MarksOnly) (hfinish : (assemble calls).finish = .ok code)
    (hcode : code.size ≤ maxOffset) (h : (draft calls).placedAt? label = some pc) :
    (JumpDests.ofCode code).isValid pc = true := by
  have hsize : (emitted calls).length ≤ maxOffset := by
    rwa [emitted, length_flatMap_blank, ← size_eq_of_finish hfinish]
  rw [isValid_iff_mem_listing hcalls hfinish hcode]
  exact ((placedAt?_eq_some_iff hsize).mp h).mem_listing hmarks

end Finished

end StackMachine.Assembler
