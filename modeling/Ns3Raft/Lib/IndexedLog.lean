import Mathlib.Data.List.Basic

/-! # A log with a start index

The entries from a start index on. Everything before it has been compacted away.
-/

structure IndexedLog (α : Type*) where
  start : Nat
  entries : List α
  deriving DecidableEq, Repr

namespace IndexedLog

variable {α β : Type*}

def empty : IndexedLog α := ⟨1, []⟩

def next (l : IndexedLog α) : Nat := l.start + l.entries.length

def get (l : IndexedLog α) (i : Nat) : Option α :=
  if i < l.start then none else l.entries[i - l.start]?

def append (l : IndexedLog α) (a : α) : IndexedLog α := { l with entries := l.entries ++ [a] }

/-- Everything from `i` on is replaced. -/
def replaceFrom (l : IndexedLog α) (i : Nat) (as : List α) : IndexedLog α :=
  { l with entries := l.entries.take (i - l.start) ++ as }

def compact (l : IndexedLog α) (i : Nat) : IndexedLog α :=
  ⟨i + 1, l.entries.drop (i + 1 - l.start)⟩

def range (l : IndexedLog α) (i j : Nat) : List α := (l.entries.drop (i - l.start)).take (j - i)

def map (f : α → β) (l : IndexedLog α) : IndexedLog β := ⟨l.start, l.entries.map f⟩

theorem get_isSome_iff (l : IndexedLog α) (i : Nat) :
    (l.get i).isSome ↔ l.start ≤ i ∧ i < l.next := by
  unfold get next
  split
  · simp only [Option.isSome_none, Bool.false_eq_true, false_iff]
    omega
  · rw [Option.isSome_iff_ne_none, ne_eq, List.getElem?_eq_none_iff]
    omega

theorem map_append (f : α → β) (l : IndexedLog α) (a : α) :
    (l.append a).map f = (l.map f).append (f a) := by
  simp [map, append]

end IndexedLog
