import Mathlib
import StackMachine.Proofs.FirstError
import StackMachine.Proofs.Text
import StackMachine.Spec.Source

namespace StackMachine

namespace Hex

variable {c : Char} {d : Nat}

def IsDigit (c : Char) (d : Nat) : Prop :=
  d < 16 ∧ (c = Nat.digitChar d ∨ c = (Nat.digitChar d).toUpper)

instance (c : Char) (d : Nat) : Decidable (IsDigit c d) := inferInstanceAs (Decidable (_ ∧ _))

theorem le_of_digit? (h : digit? c = some d) : c ≤ 'f' := by
  rw [digit?] at h
  split_ifs at h with hdecimal hsmall hcapital
  · exact le_trans hdecimal.2 (by decide)
  · exact hsmall.2
  · exact le_trans hcapital.2 (by decide)

theorem digit?_eq_some_iff : digit? c = some d ↔ IsDigit c d := by
  constructor
  · intro h
    have hle : c.toNat ≤ 102 := le_of_digit? h
    have hall : ∀ k ≤ 102, ∀ d ∈ digit? (Char.ofNat k), IsDigit (Char.ofNat k) d := by decide
    exact Char.ofNat_toNat c ▸ hall c.toNat hle d (by rwa [Char.ofNat_toNat])
  · rintro ⟨hd, rfl | rfl⟩
    · exact digit?_digitChar hd
    · exact digit?_toUpper_digitChar hd

theorem not_isDigit (h : digit? c = none) : ¬ IsDigit c d := by
  rw [← digit?_eq_some_iff, h]
  nofun

end Hex

namespace HexByte

open Hex

section WhiteSpace

variable {text body : List Char} {c : Char}

/-- The code points of the Unicode property `White_Space`. -/
def whiteSpace : List Nat :=
  [0x9, 0xA, 0xB, 0xC, 0xD, 0x20, 0x85, 0xA0, 0x1680, 0x2000, 0x2001, 0x2002, 0x2003, 0x2004,
    0x2005, 0x2006, 0x2007, 0x2008, 0x2009, 0x200A, 0x2028, 0x2029, 0x202F, 0x205F, 0x3000]

def Blank (text : List Char) : Prop := ∀ c ∈ text, c.toNat ∈ whiteSpace

instance (text : List Char) : Decidable (Blank text) := List.decidableBAll _ text

/-- What is left when all white space at both ends is dropped. -/
structure Trims (text body : List Char) : Prop where
  exists_eq : ∃ before behind, Blank before ∧ Blank behind ∧ text = before ++ body ++ behind
  head_notMem : ∀ h : body ≠ [], (body.head h).toNat ∉ whiteSpace
  last_notMem : ∀ h : body ≠ [], (body.getLast h).toNat ∉ whiteSpace

theorem isBlank_iff : isBlank c = true ↔ c.toNat ∈ whiteSpace := by
  simp only [isBlank, whiteSpace, Bool.or_eq_true, Bool.and_eq_true, decide_eq_true_eq, beq_iff_eq,
    List.mem_cons, List.not_mem_nil, or_false]
  omega

theorem trim_eq (text : List Char) : trim text = (text.dropWhile isBlank).rdropWhile isBlank :=
  rfl

theorem trims_trim (text : List Char) : Trims text (trim text) where
  exists_eq := by
    refine ⟨text.takeWhile isBlank, (text.dropWhile isBlank).rtakeWhile isBlank, ?_, ?_, ?_⟩
    · exact fun c hc => isBlank_iff.mp (List.mem_takeWhile_imp hc)
    · exact fun c hc => isBlank_iff.mp (List.mem_rtakeWhile_imp hc)
    · rw [trim_eq, List.append_assoc, List.rdropWhile_append_rtakeWhile,
        List.takeWhile_append_dropWhile]
  head_notMem := by
    intro hne
    have hkept := List.rdropWhile_prefix isBlank (text.dropWhile isBlank)
    have hhead := List.head_dropWhile_not isBlank (hkept.ne_nil hne)
    rw [← hkept.head hne] at hhead
    apply isBlank_iff.not.mp
    exact Bool.eq_false_iff.mp hhead
  last_notMem := by
    intro hne
    apply isBlank_iff.not.mp
    exact List.rdropWhile_last_not isBlank _ hne

theorem Trims.trim_eq (h : Trims text body) : trim text = body := by
  obtain ⟨before, behind, hbefore, hbehind, rfl⟩ := h.exists_eq
  have hfront : ∀ c ∈ before, isBlank c = true := fun c hc => isBlank_iff.mpr (hbefore c hc)
  have hback : ∀ c ∈ behind, isBlank c = true := fun c hc => isBlank_iff.mpr (hbehind c hc)
  rw [HexByte.trim_eq, List.append_assoc, List.dropWhile_append_of_pos hfront]
  cases body with
  | nil => rw [List.nil_append, List.dropWhile_eq_nil_iff.mpr hback, List.rdropWhile_nil]
  | cons c body =>
    have hhead : ¬ isBlank c = true := isBlank_iff.not.mpr (h.head_notMem (List.cons_ne_nil _ _))
    have hreverse : ∀ c ∈ behind.reverse, isBlank c = true :=
      fun c hc => hback c (List.mem_reverse.mp hc)
    rw [List.cons_append, List.dropWhile_cons_of_neg hhead, ← List.cons_append, List.rdropWhile,
      List.reverse_append, List.dropWhile_append_of_pos hreverse]
    exact List.rdropWhile_eq_self_iff.mpr fun hne => isBlank_iff.not.mpr (h.last_notMem hne)

theorem trims_iff : Trims text body ↔ trim text = body :=
  ⟨Trims.trim_eq, fun h => h ▸ trims_trim text⟩

end WhiteSpace

section Grammar

/-- A text, and the text without the mark of the radix that it may start with. -/
inductive Marked : List Char → List Char → Prop where
  | absent (rest : List Char) : Marked rest rest
  | small (rest : List Char) : Marked ('0' :: 'x' :: rest) rest
  | capital (rest : List Char) : Marked ('0' :: 'X' :: rest) rest

inductive Signed : List Char → List Char → Prop where
  | absent (rest : List Char) : Signed rest rest
  | plus (rest : List Char) : Signed ('+' :: rest) rest

def Numeral (digits : List Char) (n : Nat) : Prop :=
  ∃ ds, ds ≠ [] ∧ List.Forall₂ IsDigit digits ds ∧ Nat.ofDigits 16 ds.reverse = n

/-- At most one mark of the radix, then at most one plus sign, then the digits of the number. -/
def Spells (text : List Char) (n : Nat) : Prop :=
  ∃ number digits, Marked text number ∧ Signed number digits ∧ Numeral digits n

end Grammar

variable {text body number digits : List Char} {n value : Nat} {ds : List Nat}

section Reading

theorem readDigits_of_digits (h : List.Forall₂ IsDigit digits ds) (hvalue : value < 256) :
    readDigits value digits =
      if value * 16 ^ ds.length + Nat.ofDigits 16 ds.reverse < 256 then
        .ok (value * 16 ^ ds.length + Nat.ofDigits 16 ds.reverse)
      else .error .tooLarge := by
  induction h generalizing value with
  | nil => simp [readDigits, hvalue]
  | @cons c d digits ds hdigit _ ih =>
    have htotal : value * 16 ^ (d :: ds).length + Nat.ofDigits 16 (d :: ds).reverse =
        (value * 16 + d) * 16 ^ ds.length + Nat.ofDigits 16 ds.reverse := by
      rw [List.reverse_cons, Nat.ofDigits_append, Nat.ofDigits_singleton, List.length_reverse,
        List.length_cons]
      ring
    rw [htotal, readDigits, digit?_eq_some_iff.mpr hdigit]
    by_cases hd : value * 16 + d < 256
    · exact (if_pos hd).trans (ih hd)
    · -- Further digits do not make the number smaller.
      have hle : value * 16 + d ≤ (value * 16 + d) * 16 ^ ds.length :=
        Nat.le_mul_of_pos_right _ (Nat.pow_pos (by decide))
      rw [if_neg (by omega)]
      exact if_neg hd

theorem exists_digits_of_readDigits (h : readDigits value digits = .ok n) :
    ∃ ds, List.Forall₂ IsDigit digits ds := by
  induction digits generalizing value with
  | nil => exact ⟨[], .nil⟩
  | cons c digits ih =>
    rw [readDigits] at h
    split at h
    · cases h
    next d hdigit =>
      split at h
      · obtain ⟨ds, hds⟩ := ih h
        exact ⟨d :: ds, .cons (digit?_eq_some_iff.mp hdigit) hds⟩
      · cases h

theorem exists_numeral_of_readDigits (hne : digits ≠ []) (h : readDigits value digits = .ok n) :
    ∃ m, Numeral digits m := by
  obtain ⟨ds, hds⟩ := exists_digits_of_readDigits h
  exact ⟨_, ds, fun hnil => hne (List.forall₂_nil_right_iff.mp (hnil ▸ hds)), hds, rfl⟩

theorem readNumber_of_ne {c : Char} (h : c ≠ '+') :
    readNumber (c :: digits) = readDigits 0 (c :: digits) := by
  simp [readNumber, h]

theorem Signed.readNumber_eq (h : Signed number digits) (hdigits : Numeral digits n) :
    readNumber number = if n < 256 then .ok n else .error .tooLarge := by
  obtain ⟨ds, hne, hdigits, rfl⟩ := hdigits
  have hread := readDigits_of_digits hdigits (show 0 < 256 by decide)
  rw [Nat.zero_mul, Nat.zero_add] at hread
  cases hdigits with
  | nil => exact absurd rfl hne
  | cons hdigit _ =>
    cases h with
    | plus => exact hread
    | absent =>
      refine (readNumber_of_ne ?_).trans hread
      rintro rfl
      exact not_isDigit (by decide) hdigit

theorem exists_signed_of_readNumber (h : readNumber number = .ok n) :
    ∃ digits m, Signed number digits ∧ Numeral digits m := by
  revert h
  fun_cases readNumber number with
  | case1 => nofun
  | case2 => nofun
  | case3 digits hne =>
    intro h
    obtain ⟨m, hm⟩ := exists_numeral_of_readDigits hne h
    exact ⟨digits, m, .plus digits, hm⟩
  | case4 _ hne =>
    intro h
    obtain ⟨m, hm⟩ := exists_numeral_of_readDigits hne h
    exact ⟨number, m, .absent number, hm⟩

theorem marked_withoutRadix (text : List Char) : Marked text (withoutRadix text) := by
  fun_cases withoutRadix text with
  | case1 rest => exact .small rest
  | case2 rest => exact .capital rest
  | case3 => exact .absent text

/-- The letter of a mark is no digit. -/
theorem withoutRadix_of_digits (h : List.Forall₂ IsDigit digits ds) :
    withoutRadix digits = digits := by
  revert h
  fun_cases withoutRadix digits with
  | case1 rest =>
    rintro (_ | ⟨_, _ | ⟨hx, _⟩⟩)
    exact absurd hx (not_isDigit (by decide))
  | case2 rest =>
    rintro (_ | ⟨_, _ | ⟨hx, _⟩⟩)
    exact absurd hx (not_isDigit (by decide))
  | case3 => exact fun _ => rfl

theorem Marked.withoutRadix_eq (h : Marked text number) (hsigned : Signed number digits)
    (hdigits : Numeral digits n) : withoutRadix text = number := by
  cases h with
  | small => rfl
  | capital => rfl
  | absent =>
    cases hsigned with
    | plus => rfl
    | absent =>
      obtain ⟨ds, _, hds, _⟩ := hdigits
      exact withoutRadix_of_digits hds

variable {text : String} {byte : UInt8}

theorem parse_of_spells (h : Spells (trim text.toList) n) :
    parse text = if n < 256 then .ok (UInt8.ofNat n) else .error .tooLarge := by
  obtain ⟨number, digits, hmarked, hsigned, hdigits⟩ := h
  rw [parse, hmarked.withoutRadix_eq hsigned hdigits, hsigned.readNumber_eq hdigits]
  split
  · rfl
  · rfl

theorem exists_spells_of_parse (h : parse text = .ok byte) :
    ∃ n, Spells (trim text.toList) n := by
  obtain ⟨_, hnumber, _⟩ := map_eq_ok_iff.mp h
  obtain ⟨digits, n, hsigned, hdigits⟩ := exists_signed_of_readNumber hnumber
  exact ⟨n, _, digits, marked_withoutRadix _, hsigned, hdigits⟩

theorem parse_eq_ok_iff : parse text = .ok byte ↔ Spells (trim text.toList) byte.toNat := by
  constructor
  · intro h
    obtain ⟨n, hn⟩ := exists_spells_of_parse h
    have hparse := parse_of_spells hn
    rw [h] at hparse
    split at hparse
    next hlt =>
      obtain rfl := Except.ok.inj hparse
      rwa [UInt8.toNat_ofNat_of_lt' hlt]
    · cases hparse
  · intro h
    have hlt : byte.toNat < 256 := byte.toNat_lt
    rw [parse_of_spells h, if_pos hlt, UInt8.ofNat_toNat]

end Reading

section Writing

variable {c : Char} {d : Nat} {f : Char → Char} {literal : String} {byte : UInt8}

theorem numeral_singleton (h : IsDigit c d) : Numeral [c] d :=
  ⟨[d], List.cons_ne_nil _ _, .cons h .nil, Nat.ofDigits_singleton⟩

theorem Numeral.concat (h : Numeral digits n) (hd : IsDigit c d) :
    Numeral (digits ++ [c]) (16 * n + d) := by
  obtain ⟨ds, _, hdigits, rfl⟩ := h
  refine ⟨ds ++ [d], by simp, List.rel_append hdigits (.cons hd .nil), ?_⟩
  rw [List.reverse_concat, Nat.ofDigits_cons, Nat.add_comm]

/-- The fewest digits of a number, in whatever case they are written. -/
theorem numeral_toDigits (hf : ∀ d < 16, IsDigit (f (Nat.digitChar d)) d) (n : Nat) :
    Numeral ((Nat.toDigits 16 n).map f) n := by
  induction n using Nat.strong_induction_on with
  | _ n ih =>
    rw [Nat.toDigits_eq_if (by decide)]
    split
    next hlt => exact numeral_singleton (hf n hlt)
    next hle =>
      have hlast := (ih (n / 16) (by omega)).concat (hf (n % 16) (Nat.mod_lt n (by decide)))
      rwa [Nat.div_add_mod, ← List.map_singleton, ← List.map_append] at hlast

theorem numeral_lower (hf : ∀ d < 16, IsDigit (f (Nat.digitChar d)) d) (byte : UInt8) :
    Numeral ((lower byte).map f) byte.toNat := by
  have hlt : byte.toNat < 256 := byte.toNat_lt
  have hhigh := numeral_singleton (hf (byte.toNat / 16) (by omega))
  have hlast := hhigh.concat (hf (byte.toNat % 16) (Nat.mod_lt _ (by decide)))
  rwa [Nat.div_add_mod] at hlast

def literals (byte : UInt8) : List String :=
  [Spec.Source.hexLiteral byte, "0x" ++ ofByte byte,
    "0x" ++ String.ofList ((Nat.toDigits 16 byte.toNat).map Char.toUpper),
    "0x" ++ String.ofList (Nat.toDigits 16 byte.toNat)]

theorem spells_of_mem_literals (h : literal ∈ literals byte) :
    Spells literal.toList byte.toNat := by
  have hmarked {digits : List Char} (hdigits : Numeral digits byte.toNat) :
      Spells ("0x" ++ String.ofList digits).toList byte.toNat := by
    rw [String.toList_append, String.toList_ofList, String.toList_ofList]
    exact ⟨digits, digits, .small digits, .absent digits, hdigits⟩
  have hcapital : ∀ d < 16, IsDigit (Nat.digitChar d).toUpper d := fun _ hd => ⟨hd, .inr rfl⟩
  have hsmall : ∀ d < 16, IsDigit (id (Nat.digitChar d)) d := fun _ hd => ⟨hd, .inl rfl⟩
  simp only [literals, List.mem_cons, List.not_mem_nil, or_false] at h
  obtain rfl | rfl | rfl | rfl := h
  · exact hmarked (numeral_lower hcapital byte)
  · exact hmarked (List.map_id (lower byte) ▸ numeral_lower hsmall byte)
  · exact hmarked (numeral_toDigits hcapital byte.toNat)
  · exact hmarked (List.map_id (Nat.toDigits 16 byte.toNat) ▸ numeral_toDigits hsmall byte.toNat)

end Writing

section Padding

variable {before behind : List Char} {c : Char} {d : Nat}

theorem notMem_whiteSpace_of_isDigit (h : IsDigit c d) : c.toNat ∉ whiteSpace := by
  obtain ⟨hd, rfl | rfl⟩ := h
  · interval_cases d <;> decide
  · interval_cases d <;> decide

theorem Numeral.notMem_whiteSpace (h : Numeral digits n) (hc : c ∈ digits) :
    c.toNat ∉ whiteSpace := by
  obtain ⟨ds, _, hdigits, _⟩ := h
  obtain ⟨d, _, hd⟩ := exists_mem_of_forall₂ hdigits hc
  exact notMem_whiteSpace_of_isDigit hd

theorem Spells.notMem_whiteSpace (h : Spells body n) (hc : c ∈ body) : c.toNat ∉ whiteSpace := by
  obtain ⟨number, digits, hmarked, hsigned, hdigits⟩ := h
  have hnumber : ∀ c ∈ number, c.toNat ∉ whiteSpace := by
    cases hsigned with
    | absent => exact fun c => hdigits.notMem_whiteSpace
    | plus => exact List.forall_mem_cons.mpr ⟨by decide, fun c => hdigits.notMem_whiteSpace⟩
  cases hmarked with
  | absent => exact hnumber c hc
  | small =>
    exact List.forall_mem_cons.mpr ⟨by decide, List.forall_mem_cons.mpr ⟨by decide, hnumber⟩⟩ c hc
  | capital =>
    exact List.forall_mem_cons.mpr ⟨by decide, List.forall_mem_cons.mpr ⟨by decide, hnumber⟩⟩ c hc

theorem Spells.trims (h : Spells body n) (hbefore : Blank before) (hbehind : Blank behind) :
    Trims (before ++ body ++ behind) body where
  exists_eq := ⟨before, behind, hbefore, hbehind, rfl⟩
  head_notMem := fun hne => h.notMem_whiteSpace (List.head_mem hne)
  last_notMem := fun hne => h.notMem_whiteSpace (List.getLast_mem hne)

end Padding

/-- A text is read as a byte if and only if, without the white space at its ends, it spells the
number of the byte. A number of more than eight bits is too large, and what is written as a byte is
read back wherever there is white space around it. -/
theorem parse_accepts_spellings :
    (∀ (text : String) (byte : UInt8), parse text = .ok byte ↔
      ∃ body, Trims text.toList body ∧ Spells body byte.toNat) ∧
    (∀ (text : String) (body : List Char) (n : Nat), Trims text.toList body → Spells body n →
      256 ≤ n → parse text = .error .tooLarge) ∧
    ∀ (byte : UInt8), ∀ literal ∈ literals byte, ∀ before behind : String, Blank before.toList →
      Blank behind.toList → parse (before ++ literal ++ behind) = .ok byte := by
  refine ⟨fun text byte => ?_, fun text body n htrims hspells hle => ?_, ?_⟩
  · simp only [parse_eq_ok_iff, trims_iff, exists_eq_left']
  · rw [← htrims.trim_eq] at hspells
    rw [parse_of_spells hspells, if_neg (by omega)]
  · intro byte literal hliteral before behind hbefore hbehind
    have hspells := spells_of_mem_literals hliteral
    have htrims := hspells.trims hbefore hbehind
    rwa [parse_eq_ok_iff, String.toList_append, String.toList_append, htrims.trim_eq]

theorem parse_accepts_padded :
    (∃ body, Trims "\t0X+00fF ".toList body ∧ Spells body 255) ∧
    (Trims " 0x100".toList "0x100".toList ∧ Spells "0x100".toList 256 ∧
      parse " 0x100" = .error .tooLarge) ∧
    Blank "\u3000".toList ∧ Blank "\r\n".toList ∧
      parse ("\u3000" ++ Spec.Source.hexLiteral 0x5B ++ "\r\n") = .ok 0x5B := by
  obtain ⟨haccepts, hlarge, hliterals⟩ := parse_accepts_spellings
  have htrims : Trims " 0x100".toList "0x100".toList := trims_iff.mpr (by cbv)
  have hspells : Spells "0x100".toList 256 := by
    refine ⟨['1', '0', '0'], _, .small _, .absent _, [1, 0, 0], by decide, ?_, by decide⟩
    exact .cons (by decide) (.cons (by decide) (.cons (by decide) .nil))
  have hbefore : Blank "\u3000".toList := by decide
  have hbehind : Blank "\r\n".toList := by decide
  refine ⟨(haccepts _ 255).mp (by cbv), ⟨htrims, hspells, ?_⟩, hbefore, hbehind, ?_⟩
  · exact hlarge _ _ 256 htrims hspells (by decide)
  · exact hliterals 0x5B _ List.mem_cons_self _ _ hbefore hbehind

example : parse "+0x1" = .error .invalidDigit := by cbv

end HexByte

end StackMachine
