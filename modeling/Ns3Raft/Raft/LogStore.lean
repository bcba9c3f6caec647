import Mathlib.Data.List.Basic
import Ns3Raft.Raft.Types

/-! # The log store contract

`log_store` as its interface documents it and `fs_log_store` implements it: a
start index, which is one or more, and the entries from there on. `none` stands for an operation that
throws (an index below the start, or past the end where the store would read
unwritten file positions).
-/

namespace Ns3Raft.Raft

structure LogStore where
  startIndex : Nat
  entries : List LogEntry
  start_pos : 0 < startIndex
  deriving DecidableEq, Repr

namespace LogStore

def empty : LogStore := ⟨1, [], by decide⟩

def nextSlot (l : LogStore) : Nat := l.startIndex + l.entries.length

/-- `next_slot() - 1`. -/
def lastIndex (l : LogStore) : Nat := l.nextSlot - 1

/-- The constant entry that `last_entry` returns for a store without entries. -/
def dummyEntry : LogEntry := ⟨0, .appLog []⟩

def lastEntry (l : LogStore) : LogEntry := l.entries.getLast?.getD dummyEntry

def entryAt (l : LogStore) (idx : Nat) : Option LogEntry :=
  if idx < l.startIndex then none else l.entries[idx - l.startIndex]?

def termAt (l : LogStore) (idx : Nat) : Option Nat := (l.entryAt idx).map (·.term)

def append (l : LogStore) (e : LogEntry) : LogStore := { l with entries := l.entries ++ [e] }

/-- Writing at an index drops everything from that index on. -/
def writeAt (l : LogStore) (idx : Nat) (e : LogEntry) : LogStore :=
  { l with entries := l.entries.take (idx - l.startIndex) ++ [e] }

/-- The entries of `[start, end)`. -/
def logEntries (l : LogStore) (start stop : Nat) : Option (List LogEntry) :=
  if start < l.startIndex then none
  else some ((l.entries.drop (start - l.startIndex)).take (stop - start))

def pack (l : LogStore) (idx cnt : Nat) : Option (List LogEntry) :=
  if idx < l.startIndex then none
  else some ((l.entries.drop (idx - l.startIndex)).take cnt)

/-- A pack replaces the log from `idx` on. An empty pack cannot be decoded, and
a pack that starts past the end would seek beyond the files. -/
def applyPack (l : LogStore) (idx : Nat) (es : List LogEntry) : Option LogStore :=
  if es = [] ∨ idx < l.startIndex ∨ l.nextSlot < idx then none
  else some { l with entries := l.entries.take (idx - l.startIndex) ++ es }

def compact (l : LogStore) (lastLogIndex : Nat) : Option LogStore :=
  if lastLogIndex < l.startIndex then none
  else some ⟨lastLogIndex + 1, l.entries.drop (lastLogIndex + 1 - l.startIndex), by omega⟩

@[simp] theorem empty_entries : empty.entries = [] := rfl

@[simp] theorem empty_startIndex : empty.startIndex = 1 := rfl

@[simp] theorem append_startIndex (l : LogStore) (e : LogEntry) :
    (l.append e).startIndex = l.startIndex := rfl

@[simp] theorem append_entries (l : LogStore) (e : LogEntry) :
    (l.append e).entries = l.entries ++ [e] := rfl

@[simp] theorem append_nextSlot (l : LogStore) (e : LogEntry) :
    (l.append e).nextSlot = l.nextSlot + 1 := by
  simp [nextSlot, Nat.add_assoc]

@[simp] theorem writeAt_startIndex (l : LogStore) (idx : Nat) (e : LogEntry) :
    (l.writeAt idx e).startIndex = l.startIndex := rfl

theorem entryAt_eq_none_iff (l : LogStore) (idx : Nat) :
    l.entryAt idx = none ↔ idx < l.startIndex ∨ l.nextSlot ≤ idx := by
  unfold entryAt nextSlot
  split
  · simp_all
  · rw [List.getElem?_eq_none_iff]
    omega

theorem entryAt_isSome_iff (l : LogStore) (idx : Nat) :
    (l.entryAt idx).isSome ↔ l.startIndex ≤ idx ∧ idx < l.nextSlot := by
  rw [Option.isSome_iff_ne_none, ne_eq, entryAt_eq_none_iff]
  omega

@[simp] theorem entryAt_append_self (l : LogStore) (e : LogEntry) :
    (l.append e).entryAt l.nextSlot = some e := by
  simp [entryAt, nextSlot]

theorem nextSlot_pos (l : LogStore) : 0 < l.nextSlot :=
  Nat.add_pos_left l.start_pos _

theorem append_eq_writeAt (l : LogStore) (e : LogEntry) :
    l.append e = l.writeAt l.nextSlot e := by
  simp [append, writeAt, nextSlot]

theorem writeAt_nextSlot_of_le (l : LogStore) {idx : Nat} (e : LogEntry)
    (hs : l.startIndex ≤ idx) (hn : idx ≤ l.nextSlot) : (l.writeAt idx e).nextSlot = idx + 1 := by
  simp only [nextSlot, writeAt, List.length_append, List.length_take, List.length_singleton] at *
  omega

theorem entryAt_writeAt_of_lt (l : LogStore) {idx i : Nat} (e : LogEntry)
    (hs : l.startIndex ≤ idx) (hn : idx ≤ l.nextSlot) (hi : i < idx) :
    (l.writeAt idx e).entryAt i = l.entryAt i := by
  unfold nextSlot at hn
  unfold entryAt writeAt
  dsimp only
  split
  · rfl
  · rw [List.getElem?_append_left (by rw [List.length_take]; omega),
      List.getElem?_take_of_lt (by omega)]

theorem entryAt_writeAt_self (l : LogStore) {idx : Nat} (e : LogEntry)
    (hs : l.startIndex ≤ idx) (hn : idx ≤ l.nextSlot) :
    (l.writeAt idx e).entryAt idx = some e := by
  unfold nextSlot at hn
  unfold entryAt writeAt
  dsimp only
  rw [if_neg (by omega), List.getElem?_append_right (by rw [List.length_take]; omega),
    List.length_take, Nat.min_eq_left (by omega), Nat.sub_self]
  rfl

end LogStore

end Ns3Raft.Raft
