import StackMachine.Ascending

namespace StackMachine

structure JumpEntry where
  src : Nat
  dst : Nat
  deriving DecidableEq

namespace JumpEntry

def le (a b : JumpEntry) : Bool := decide (a.src < b.src ∨ a.src = b.src ∧ a.dst ≤ b.dst)

def Lt (a b : JumpEntry) : Prop := a.src < b.src ∨ a.src = b.src ∧ a.dst < b.dst

instance (a b : JumpEntry) : Decidable (a.Lt b) := inferInstanceAs (Decidable (_ ∨ _))

theorem le_totalOrder : Ascending.TotalOrder le where
  trans a b c := by simp only [le, decide_eq_true_eq]; omega
  total a b := by simp only [le, Bool.or_eq_true, decide_eq_true_eq]; omega
  antisymm a b := by
    cases a
    cases b
    simp only [le, decide_eq_true_eq, mk.injEq]
    omega

theorem lt_iff {a b : JumpEntry} : a.Lt b ↔ le a b = true ∧ a ≠ b := by
  cases a
  cases b
  simp only [Lt, le, decide_eq_true_eq, ne_eq, mk.injEq]
  omega

end JumpEntry

inductive TableError where
  | trailingBytes (len : Nat)
  /-- The entry is not greater than the one before it. -/
  | unsorted (index : Nat)
  | entryTooLarge (index : Nat)
  deriving DecidableEq

/-- The position, counted from `index` for the head, of the first entry that is not greater than
the one before it. -/
def firstUnsorted? (index : Nat) : List JumpEntry → Option Nat
  | a :: b :: rest => if a.Lt b then firstUnsorted? (index + 1) (b :: rest) else some (index + 1)
  | _ => none

theorem pairwise_of_firstUnsorted? {index : Nat} {entries : List JumpEntry}
    (h : firstUnsorted? index entries = none) : entries.Pairwise JumpEntry.Lt := by
  induction entries generalizing index with
  | nil => exact List.Pairwise.nil
  | cons a rest ih =>
    cases rest with
    | nil => exact List.pairwise_singleton _ _
    | cons b rest =>
      simp only [firstUnsorted?] at h
      split at h
      next hab =>
        have hr := ih h
        refine List.pairwise_cons.mpr ⟨fun c hc => ?_, hr⟩
        obtain rfl | hc := List.mem_cons.mp hc
        · exact hab
        · have hbc := (List.pairwise_cons.mp hr).1 c hc
          simp only [JumpEntry.Lt] at hab hbc ⊢
          omega
      · simp at h

structure JumpTable where
  entries : Array JumpEntry
  ascending : entries.toList.Pairwise JumpEntry.Lt
  deriving DecidableEq

/-- The first index in `[lo, hi]` from which on `p` fails, for a `p` that holds on a first part of
the array and on no later item. -/
def partitionPoint {α : Type} (items : Array α) (p : α → Bool) (lo hi : Nat) : Nat :=
  if _h : lo < hi then
    let mid := lo + (hi - lo) / 2
    if items[mid]?.any p then partitionPoint items p (mid + 1) hi
    else partitionPoint items p lo mid
  else lo
termination_by hi - lo
decreasing_by all_goals omega

namespace JumpTable

def empty : JumpTable := ⟨#[], List.Pairwise.nil⟩

def ofAscending (entries : List JumpEntry) : Except TableError JumpTable :=
  match h : firstUnsorted? 0 entries with
  | none => .ok ⟨entries.toArray, by simpa using pairwise_of_firstUnsorted? h⟩
  | some index => .error (.unsorted index)

def ofEntries (entries : List JumpEntry) : JumpTable :=
  ⟨(Ascending.ofList JumpEntry.le entries).toArray, by
    rw [List.toList_toArray]
    exact (Ascending.pairwise_ofList JumpEntry.le_totalOrder entries).imp JumpEntry.lt_iff.mpr⟩

def size (t : JumpTable) : Nat := t.entries.size

def toList (t : JumpTable) : List JumpEntry := t.entries.toList

def entriesFrom (t : JumpTable) (src : Nat) : List JumpEntry :=
  let start := partitionPoint t.entries (fun e => decide (e.src < src)) 0 t.size
  let stop := partitionPoint t.entries (fun e => decide (e.src = src)) start t.size
  (t.entries.extract start stop).toList

end JumpTable

inductive TableKind where
  | jump
  | trap
  deriving DecidableEq

structure Lookup where
  src : Nat
  jumps : List JumpEntry
  traps : List JumpEntry

namespace Lookup

def size (l : Lookup) : Nat := l.jumps.length + l.traps.length

def isListed (l : Lookup) : Bool := !l.jumps.isEmpty || !l.traps.isEmpty

def destinations (l : Lookup) : List (TableKind × Nat) :=
  l.jumps.map (fun e => (.jump, e.dst)) ++ l.traps.map (fun e => (.trap, e.dst))

end Lookup

/-- The jump table and the trap table, which is its fallback. -/
structure JumpTables where
  jumps : JumpTable := JumpTable.empty
  traps : JumpTable := JumpTable.empty
  deriving DecidableEq

namespace JumpTables

def empty : JumpTables := {}

def table (t : JumpTables) : TableKind → JumpTable
  | .jump => t.jumps
  | .trap => t.traps

def size (t : JumpTables) : Nat := t.jumps.size + t.traps.size

def isEmpty (t : JumpTables) : Bool := t.jumps.entries.isEmpty && t.traps.entries.isEmpty

def lookup (t : JumpTables) (src : Nat) : Lookup :=
  ⟨src, t.jumps.entriesFrom src, t.traps.entriesFrom src⟩

end JumpTables

end StackMachine
