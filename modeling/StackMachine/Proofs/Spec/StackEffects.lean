import StackMachine.Proofs.Spec.Acceptance
import StackMachine.Proofs.Stack

namespace StackMachine

namespace SymbolicStack

variable {s : SymbolicStack} {a : StackAction}

section Live

def readLive? (s : SymbolicStack) (index : Nat) : Option SlotValue :=
  if index < s.depth then some (s.read index) else none

/-- `act`, if every slot that it reads is live. -/
def actLive? (s : SymbolicStack) (literal : SlotValue) : StackAction → Option SymbolicStack
  | .push => some (s.put literal)
  | .dup n => (s.readLive? (s.depth - n)).map s.put
  | .swap n => do
    let top := s.depth - 1
    let other := top - n
    let upper ← s.readLive? top
    let lower ← s.readLive? other
    return (s.write top lower).write other upper
  | .replace remove add => some ((s.drop remove).putUnknowns add)

theorem readLive?_of_lt {index : Nat} (h : index < s.depth) :
    s.readLive? index = some (s.read index) :=
  if_pos h

theorem actLive?_eq_some_iff (h : a.effect.1 ≤ s.depth) (v : SlotValue) :
    s.actLive? v a = some (s.act v a) ↔ a ≠ .dup 0 := by
  cases a with
  | push | replace => exact iff_of_true rfl nofun
  | dup n =>
    cases n with
    | zero =>
      have hdead : s.readLive? s.depth = none := if_neg (Nat.lt_irrefl _)
      refine iff_of_false ?_ (not_not_intro rfl)
      rw [actLive?, Nat.sub_zero, hdead]
      exact nofun
    | succ n =>
      have hlt : s.depth - (n + 1) < s.depth := Nat.sub_lt_of_pos_le n.succ_pos h
      refine iff_of_true ?_ (by simp)
      rw [actLive?, readLive?_of_lt hlt]
      rfl
  | swap n =>
    have hlt : n < s.depth := h
    have htop := readLive?_of_lt (show s.depth - 1 < s.depth by omega)
    have hother := readLive?_of_lt (show s.depth - 1 - n < s.depth by omega)
    refine iff_of_true ?_ nofun
    simp only [actLive?, htop, hother]
    rfl

end Live

section Refusals

theorem perform_eq_underflow_iff {v : SlotValue} {depth required : Nat} :
    s.perform v a = .error (.underflow depth required) ↔
      s.depth < a.effect.1 ∧ depth = s.depth ∧ required = a.effect.1 := by
  have hrefused (remove add : Nat) : s.refused? remove add = some (.underflow depth required) ↔
      s.depth < remove ∧ depth = s.depth ∧ required = remove := by
    rw [refused?_eq]
    split_ifs <;> simp [*, eq_comm]
  have hobstacle : s.obstacle? a = some (.underflow depth required) ↔
      s.depth < a.effect.1 ∧ depth = s.depth ∧ required = a.effect.1 := by
    cases a with
    | push => exact hrefused 0 1
    | dup n => exact hrefused n (n + 1)
    | swap n =>
      rw [obstacle?, shortage?_eq]
      split_ifs <;> simp [*, StackAction.effect, eq_comm]
    | replace remove add => exact hrefused remove add
  rw [← hobstacle, perform]
  cases s.obstacle? a <;> simp

theorem perform_of_room (hneeds : a.effect.1 ≤ s.depth)
    (hroom : s.depth - a.effect.1 + a.effect.2 ≤ s.limit) (v : SlotValue) :
    s.perform v a = .ok (s.act v a) := by
  have hrefused {remove add : Nat} (hneeds : remove ≤ s.depth)
      (hroom : s.depth - remove + add ≤ s.limit) : s.refused? remove add = none := by
    rw [refused?_eq, if_neg (Nat.not_lt.mpr hneeds), if_neg (Nat.not_lt.mpr hroom)]
  have hobstacle : s.obstacle? a = none := by
    cases a with
    | swap n => exact if_neg (Nat.not_lt.mpr hneeds)
    | push | dup | replace => exact hrefused hneeds hroom
  rw [perform, hobstacle]

end Refusals

end SymbolicStack

namespace OpcodeSpec

variable {op : OpcodeSpec}

theorem has_traits (op : OpcodeSpec) (t : Trait) : op.traits.has t = op.hasTrait t := by
  rw [traits, TraitSet.has_ofList, Bool.eq_iff_iff, List.contains_iff_mem, List.mem_filter,
    and_iff_right t.mem_all]

theorem action_eq (op : OpcodeSpec) : op.signature.action =
    if op.hasTrait .push then .push
    else if op.hasTrait .dup then .dup op.stackIn
    else if op.hasTrait .swap then .swap (op.stackIn - 1)
    else .replace op.stackIn op.stackOut := by
  simp only [← has_traits]
  rfl

theorem Coherent.effect_action (h : op.Coherent) :
    op.signature.action.effect = (op.stackIn, op.stackOut) := by
  rw [action_eq]
  split_ifs with hpush hdup hswap
  · exact (h.push_effect hpush).symm
  · rw [h.dup_effect hdup, StackAction.effect]
  · obtain ⟨heq, hle⟩ := h.swap_effect hswap
    rw [StackAction.effect, Nat.sub_add_cancel (by omega), ← heq]
  · rfl

theorem Coherent.one_le_of_swapDepth? (h : op.Coherent) {n : Nat}
    (hswap : op.signature.swapDepth? = some n) : 1 ≤ n := by
  rw [Signature.swapDepth?] at hswap
  split at hswap
  next htrait =>
    obtain rfl : op.stackIn - 1 = n := Option.some.inj hswap
    obtain ⟨_, hle⟩ := h.swap_effect ((op.has_traits .swap).symm.trans htrait)
    omega
  · cases hswap

theorem action_ne_dup_zero_iff :
    op.signature.action ≠ .dup 0 ↔ (op.hasTrait .dup → op.hasTrait .push ∨ 1 ≤ op.stackIn) := by
  rw [action_eq]
  split_ifs with hpush hdup hswap <;> simp [*, Nat.one_le_iff_ne_zero]

end OpcodeSpec

namespace Spec

variable {spec : Spec} {op : OpcodeSpec}

theorem coherent_of_generate {text : String} (h : spec.generate = .ok text)
    (hop : op ∈ spec.opcodes) : op.Coherent := by
  obtain ⟨_, hcheck, _⟩ := exists_generate_iff_check.mp ⟨text, h⟩
  obtain ⟨_, as, hreads, _, _, hcoherent, _⟩ := check_eq_ok_iff.mp hcheck
  exact (hreads.forall_mem_iff _).mpr hcoherent op hop

/-- The action of every opcode of an accepted specification does to the symbolic stack what its row
says, and reads live slots only, unless it duplicates no items. -/
theorem accepted_stack_effects {text : String} (h : spec.generate = .ok text)
    (hop : op ∈ spec.opcodes) :
    (∀ n, op.signature.swapDepth? = some n → 1 ≤ n) ∧
    ∀ (s : SymbolicStack) (literal : SlotValue),
      ((∃ depth required,
          s.perform literal op.signature.action = .error (.underflow depth required)) ↔
        s.depth < op.stackIn) ∧
      (op.stackIn ≤ s.depth → s.depth - op.stackIn + op.stackOut ≤ s.limit →
        ∃ s', s.perform literal op.signature.action = .ok s' ∧
          s'.depth + op.stackIn = s.depth + op.stackOut ∧
          (s.actLive? literal op.signature.action = some s' ↔
            (op.hasTrait .dup → op.hasTrait .push ∨ 1 ≤ op.stackIn))) := by
  have hcoherent := coherent_of_generate h hop
  have heffect := hcoherent.effect_action
  refine ⟨fun n => hcoherent.one_le_of_swapDepth?, fun s literal => ⟨?_, fun hneeds hroom => ?_⟩⟩
  · simp only [SymbolicStack.perform_eq_underflow_iff, heffect]
    exact ⟨fun ⟨_, _, hlt, _⟩ => hlt, fun hlt => ⟨_, _, hlt, rfl, rfl⟩⟩
  · have hneeds' : op.signature.action.effect.1 ≤ s.depth := by rwa [heffect]
    refine ⟨_, SymbolicStack.perform_of_room hneeds' (by rwa [heffect]) literal, ?_, ?_⟩
    · rw [SymbolicStack.depth_act hneeds', heffect]
      omega
    · rw [SymbolicStack.actLive?_eq_some_iff hneeds', OpcodeSpec.action_ne_dup_zero_iff]

def dupZeroOne : Spec := ⟨1, [⟨"Dup0", "DUP0", "0x80", 0, 1, 0, false, ["dup"], some "Dup 0."⟩,
  ⟨"Dup1", "DUP1", "0x81", 1, 2, 0, false, ["dup"], some "Dup 1."⟩]⟩

theorem exists_generate_dupZeroOne : ∃ text, dupZeroOne.generate = .ok text :=
  exists_generate_iff_check.mpr
    ⟨List.zipWith Assignment.mk [0x80, 0x81] dupZeroOne.opcodes, by cbv, by decide⟩

theorem accepted_stack_effects_dup_one : ∃ op ∈ dupZeroOne.opcodes, op.name = "Dup1" ∧
    (∃ s', (SymbolicStack.new 2 |>.put .unknown).perform .unknown op.signature.action = .ok s' ∧
      s'.depth = 2 ∧
      (SymbolicStack.new 2 |>.put .unknown).actLive? .unknown op.signature.action = some s') ∧
    ∃ depth required, (SymbolicStack.new 2).perform .unknown op.signature.action =
      .error (.underflow depth required) := by
  obtain ⟨text, htext⟩ := exists_generate_dupZeroOne
  have hop : dupZeroOne.opcodes[1] ∈ dupZeroOne.opcodes := List.getElem_mem _
  obtain ⟨_, heffects⟩ := accepted_stack_effects htext hop
  refine ⟨_, hop, rfl, ?_, ?_⟩
  · obtain ⟨s', hs', hdepth, hlive⟩ :=
      (heffects (SymbolicStack.new 2 |>.put .unknown) .unknown).2 (by decide) (by decide)
    exact ⟨s', hs', Nat.add_right_cancel hdepth, hlive.mpr (by decide)⟩
  · exact (heffects (SymbolicStack.new 2) .unknown).1.mpr (by decide)

/-- A constant that was pushed and removed in the same block comes back as the copy of no item. -/
theorem exists_copy_of_removed : ∃ text, dupZeroOne.generate = .ok text ∧
    ∃ op ∈ dupZeroOne.opcodes, op.terminator = false ∧ op.flags = ["dup"] ∧ ∃ c s,
      ((SymbolicStack.new 2).push (.constant c) >>= SymbolicStack.pop) = .ok (.constant c, s) ∧
        s.items = [] ∧ s.depth - op.stackIn + op.stackOut ≤ s.limit ∧
        s.actLive? .unknown op.signature.action = none ∧
        (s.perform .unknown op.signature.action).map SymbolicStack.items = .ok [.constant c] := by
  obtain ⟨text, htext⟩ := exists_generate_dupZeroOne
  exact ⟨text, htext, _, List.mem_cons_self, rfl, rfl, ⟨.push 0, some 7⟩, _, rfl, by decide,
    by decide, by decide, by decide⟩

end Spec

end StackMachine
