import Ns3Raft.Lib.IndexedLog
import Ns3Raft.Lib.OrderedMap
import Ns3Raft.Store.Layout

/-! # The in-memory log store

`inmem_log_store` with its map from indexes to entries and the dummy entry at
index 0. `none` stands for a failed assertion or a null entry.
-/

namespace Ns3Raft.Store

open OrderedMap

structure InMemLogStore where
  startIdx : Nat
  logs : List (Nat × Entry)
  deriving DecidableEq, Repr

namespace InMemLogStore

/-- The entry of index 0. What is in its buffer is not specified. -/
def dummyEntry : Entry := ⟨0, 1, List.replicate szUlong 0⟩

def new : InMemLogStore := ⟨1, [(0, dummyEntry)]⟩

def nextSlot (m : InMemLogStore) : Nat := m.startIdx + m.logs.length - 1

def entryAt (m : InMemLogStore) (index : Nat) : Option Entry :=
  (find m.logs index).or (find m.logs 0)

def lastEntry (m : InMemLogStore) : Option Entry := m.entryAt (m.nextSlot - 1)

def termAt (m : InMemLogStore) (index : Nat) : Option UInt64 := (m.entryAt index).map Entry.term

def append (m : InMemLogStore) (e : Entry) : InMemLogStore :=
  { m with logs := insert m.nextSlot e m.logs }

def writeAt (m : InMemLogStore) (index : Nat) (e : Entry) : InMemLogStore :=
  { m with logs := insert index e (eraseFrom m.logs index) }

/-- The loop over `[index, index + n)`, which every entry must be found in. -/
def found (m : InMemLogStore) (index : Nat) : Nat → Option (List Entry)
  | 0 => some []
  | n + 1 =>
      match find m.logs index, found m (index + 1) n with
      | some e, some es => some (e :: es)
      | _, _ => none

def logEntries (m : InMemLogStore) (start stop : Nat) : Option (List Entry) :=
  m.found start (stop - start)

def pack (m : InMemLogStore) (index cnt : Nat) : Option (List (List UInt8)) :=
  (m.found index cnt).map fun es => es.map Entry.serialize

/-- The loop of `apply_pack`. What is bound behind the pack stays. -/
def place (logs : List (Nat × Entry)) (index : Nat) : List (List UInt8) → Option (List (Nat × Entry))
  | [] => some logs
  | buf :: bufs =>
      match Entry.deserialize buf with
      | none => none
      | some le => place (insert index le logs) (index + 1) bufs

def applyPack (m : InMemLogStore) (index : Nat) (pack : List (List UInt8)) : Option InMemLogStore :=
  (place m.logs index pack).map fun logs =>
    ⟨match upperBound logs 0 with
      | some b => b.1
      | none => 1, logs⟩

def compact (m : InMemLogStore) (lastLogIndex : Nat) : InMemLogStore :=
  ⟨lastLogIndex + 1, (List.range' m.startIdx (lastLogIndex + 1 - m.startIdx)).foldl erase m.logs⟩

/-! ## What the map holds -/

/-- The map holds the log `l` and the dummy entry. -/
structure Holds (m : InMemLogStore) (l : IndexedLog Entry) : Prop where
  logs : m.logs = (0, dummyEntry) :: numbered l.start l.entries
  startIdx : m.startIdx = l.start
  start_pos : 0 < l.start

namespace Holds

variable {m : InMemLogStore} {l : IndexedLog Entry} {index : Nat} {e : Entry}

theorem new : Holds .new .empty := ⟨rfl, rfl, Nat.one_pos⟩

theorem next (h : Holds m l) : m.nextSlot = l.next := by
  rw [nextSlot, h.logs, h.startIdx, List.length_cons, numbered_length, IndexedLog.next]
  omega

theorem find (h : Holds m l) (hs : l.start ≤ index) : find m.logs index = l.get index := by
  have hpos := h.start_pos
  rw [h.logs, find_cons_of_ne (by omega), find_numbered hs, IndexedLog.get, if_neg (by omega)]

theorem entryAt (h : Holds m l) (hs : l.start ≤ index) (hn : index < l.next) :
    m.entryAt index = l.get index := by
  obtain ⟨e, he⟩ := Option.isSome_iff_exists.mp ((l.get_isSome_iff index).mpr ⟨hs, hn⟩)
  rw [InMemLogStore.entryAt, h.find hs, he]
  rfl

theorem lastEntry (h : Holds m l) : m.lastEntry = some ((l.get (l.next - 1)).getD dummyEntry) := by
  have hpos := h.start_pos
  have hzero : OrderedMap.find m.logs 0 = some dummyEntry := by rw [h.logs, OrderedMap.find, if_pos rfl]
  rw [InMemLogStore.lastEntry, InMemLogStore.entryAt, hzero, h.next]
  rcases Nat.lt_or_ge (l.next - 1) l.start with hlt | hge
  · -- an empty log: the index before the start is not bound, or is that of the dummy entry
    have hget : l.get (l.next - 1) = none := by rw [IndexedLog.get, if_pos hlt]
    rw [hget]
    rcases Nat.eq_zero_or_pos (l.next - 1) with h0 | h0
    · rw [h0, hzero]
      rfl
    · rw [h.logs, find_cons_of_ne (by omega), find_numbered_of_lt hlt]
      rfl
  · rw [h.find hge]
    cases l.get (l.next - 1) <;> rfl

theorem append (h : Holds m l) (e : Entry) : Holds (m.append e) (l.append e) := by
  have hpos := h.start_pos
  refine ⟨?_, h.startIdx, h.start_pos⟩
  rw [InMemLogStore.append, h.next, h.logs, IndexedLog.next, insert_cons_of_lt (by omega),
    insert_numbered_end e l.entries rfl]
  rfl

theorem writeAt (h : Holds m l) (hs : l.start ≤ index) (hn : index ≤ l.next) (e : Entry) :
    Holds (m.writeAt index e) (l.replaceFrom index [e]) := by
  have hpos := h.start_pos
  rw [IndexedLog.next] at hn
  refine ⟨?_, h.startIdx, h.start_pos⟩
  have herase : eraseFrom m.logs index =
      (0, dummyEntry) :: numbered l.start (l.entries.take (index - l.start)) := by
    have hrest := eraseFrom_numbered l.entries hs
    unfold eraseFrom at hrest ⊢
    rw [h.logs, List.filter_cons_of_pos (by simpa using (show 0 < index by omega)), hrest]
  have hlen : (l.entries.take (index - l.start)).length = index - l.start :=
    List.length_take_of_le (by omega)
  rw [InMemLogStore.writeAt, herase, insert_cons_of_lt (by omega),
    insert_numbered_end _ _ (by rw [hlen]; omega)]
  rfl

theorem found (h : Holds m l) (hs : l.start ≤ index) {n : Nat} (hn : index + n ≤ l.next) :
    m.found index n = some (l.range index (index + n)) := by
  rw [IndexedLog.range, Nat.add_sub_cancel_left]
  induction n generalizing index with
  | zero => rfl
  | succ n ih =>
      have hk : index - l.start < l.entries.length := by
        rw [IndexedLog.next] at hn
        omega
      have hget : l.get index = some l.entries[index - l.start] := by
        rw [IndexedLog.get, if_neg (by omega), List.getElem?_eq_getElem hk]
      have hsucc : index + 1 - l.start = index - l.start + 1 := by omega
      rw [InMemLogStore.found, h.find hs, hget, ih (by omega) (by omega), hsucc,
        List.drop_eq_getElem_cons hk, List.take_succ_cons]

theorem compact (h : Holds m l) (hs : l.start ≤ index) :
    Holds (m.compact index) (l.compact index) := by
  have hpos := h.start_pos
  refine ⟨?_, rfl, Nat.succ_pos _⟩
  have hstart : l.start + (index + 1 - l.start) = index + 1 := by omega
  rw [InMemLogStore.compact, h.logs, h.startIdx, foldl_erase_cons _ _ _ (by
    intro k hk
    have := (List.mem_range'_1.mp hk).1
    omega), foldl_erase_numbered, hstart]
  rfl

theorem take_set_drop {as bs : List Entry} {k : Nat} (e : Entry) (h : as.length = k) :
    (as ++ e :: bs).take (k + 1) = as ++ [e] := by
  rw [← h, ← List.singleton_append, ← List.append_assoc, List.take_left' (by simp)]

theorem drop_set_drop {as bs : List Entry} {k : Nat} (e : Entry) (n : Nat) (h : as.length = k) :
    (as ++ e :: bs).drop (k + 1 + n) = bs.drop n := by
  rw [← h, ← List.drop_drop, ← List.singleton_append, ← List.append_assoc, List.drop_left' (by simp)]

/-- The entries of a pack replace those at their indexes only. -/
theorem place {logs : List (Nat × Entry)} {start : Nat} (es as : List Entry) (hs : start ≤ index)
    (hpos : 0 < index) (hn : index ≤ start + as.length)
    (hlogs : logs = (0, dummyEntry) :: numbered start as) :
    place logs index (es.map Entry.serialize) = some ((0, dummyEntry) ::
      numbered start (as.take (index - start) ++ es ++ as.drop (index - start + es.length))) := by
  induction es generalizing logs index as with
  | nil => simp [InMemLogStore.place, hlogs]
  | cons e es ih =>
      have hdes : Entry.deserialize e.serialize = some e := by
        rw [Entry.deserialize_eq (by rw [Entry.serialize_length]; omega), Entry.ofRecord_serialize]
      have hlen : (as.take (index - start)).length = index - start :=
        List.length_take_of_le (by omega)
      have hsucc : index + 1 - start = index - start + 1 := by omega
      rw [List.map_cons, InMemLogStore.place, hdes]
      dsimp only
      rw [ih (as.take (index - start) ++ e :: as.drop (index - start + 1)) (by omega)
        (by omega) (by simp only [List.length_append, List.length_cons, hlen]; omega) (by
          rw [hlogs, insert_cons_of_lt hpos, insert_numbered _ _ hs hn]), hsucc,
        take_set_drop _ hlen, drop_set_drop _ _ hlen]
      simp [Nat.add_comm, Nat.add_left_comm]

/-- A pack that reaches the end of the log replaces everything from its index on. -/
theorem applyPack (h : Holds m l) {es : List Entry} (hne : es ≠ []) (hs : l.start ≤ index)
    (hn : index ≤ l.next) (hend : l.next ≤ index + es.length) :
    ∃ m', m.applyPack index (es.map Entry.serialize) = some m' ∧
      Holds m' (l.replaceFrom index es) := by
  have hpos := h.start_pos
  rw [IndexedLog.next] at hn hend
  have hplace := place es l.entries hs (by omega) hn h.logs
  have hnil : l.entries.drop (index - l.start + es.length) = [] :=
    List.drop_eq_nil_of_le (by omega)
  rw [hnil, List.append_nil] at hplace
  obtain ⟨a, as, hes⟩ : ∃ a as, l.entries.take (index - l.start) ++ es = a :: as := by
    apply List.exists_cons_of_ne_nil
    simp [hne]
  have hfirst : upperBound ((0, dummyEntry) :: numbered l.start (a :: as)) 0 = some (l.start, a) := by
    simp [upperBound, numbered, hpos]
  refine ⟨⟨l.start, (0, dummyEntry) :: numbered l.start (a :: as)⟩, ?_, ?_, rfl, hpos⟩
  · rw [InMemLogStore.applyPack, hplace, hes, Option.map_some, hfirst]
  · rw [IndexedLog.replaceFrom, hes]

end Holds

end InMemLogStore

end Ns3Raft.Store
