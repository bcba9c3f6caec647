import Ns3Raft.Store.Runs

/-! # The cache of the last entries

`log_store_buffer` is meant to hold the last entries of the store. `write_at`
trims it only when the index lies in the window, and never fetches the entries
before the window again.
-/

namespace Ns3Raft.Store

variable {s s' : FsLogStore} {l : IndexedLog Entry} {op : Op} {b : LogBuffer} {es : List Entry}
  {start index : Nat} {e : Entry}

/-! ## One cache -/

namespace LogBuffer.Window

theorem lastIdx (h : b.Window start es) : b.lastIdx = start + es.length := by
  rw [LogBuffer.lastIdx, h.startIdx, h.buf, List.length_drop]
  omega

theorem firstIdx (h : b.Window start es) :
    b.firstIdx = max start (start + es.length - b.maxSize) := by
  rw [LogBuffer.firstIdx, h.startIdx]
  omega

theorem get (h : b.Window start es) {i : Nat} (hi : b.firstIdx ≤ i) :
    b.get i = es[i - start]? := by
  rw [LogBuffer.firstIdx, h.startIdx] at hi
  rw [LogBuffer.get, h.startIdx, if_neg (by omega), h.buf, List.getElem?_drop]
  congr 1
  omega

theorem get_below {i : Nat} (hi : i < b.firstIdx) : b.get i = none := by
  exact if_pos hi

theorem lastEntry (h : b.Window start es) (hsize : 0 < b.maxSize) :
    b.lastEntry = es.getLast? := by
  rw [LogBuffer.lastEntry, h.buf]
  cases hes : es with
  | nil => simp
  | cons a as =>
      rw [List.getLast?_drop, if_neg]
      rw [List.length_cons]
      omega

theorem append (h : b.Window start es) (e : Entry) : (b.append e).Window start (es ++ [e]) := by
  have hbuf := h.buf
  have hstart := h.startIdx
  have hlen : b.buf.length = es.length - (es.length - b.maxSize) := by
    rw [hbuf, List.length_drop]
  unfold LogBuffer.append
  simp only [List.length_append, List.length_singleton]
  split
  · -- the oldest entry is evicted
    rename_i hfull
    refine ⟨?_, ?_⟩
    · show (b.buf ++ [e]).tail = _
      rw [hbuf, ← List.drop_append_of_le_length (by omega), ← List.drop_one, List.drop_drop]
      congr 1
      simp only [List.length_append, List.length_singleton]
      omega
    · show b.startIdx + 1 = _
      simp only [List.length_append, List.length_singleton]
      omega
  · rename_i hroom
    refine ⟨?_, ?_⟩
    · show b.buf ++ [e] = _
      rw [hbuf, ← List.drop_append_of_le_length (by omega)]
      congr 1
      simp only [List.length_append, List.length_singleton]
      omega
    · show b.startIdx = _
      simp only [List.length_append, List.length_singleton]
      omega

/-- Overwriting the last entry, or any entry while the cache reaches back to the
first one, leaves a full window. -/
theorem trim_append (h : b.Window start es) (hsize : 0 < b.maxSize) {k : Nat} (hk : k < es.length)
    (hwhole : k + 1 < es.length → b.firstIdx = start) (e : Entry) :
    ((b.trim (start + k)).append e).Window start (es.take k ++ [e]) := by
  have hbuf := h.buf
  have hstart := h.startIdx
  have hwhole' : k + 1 < es.length → es.length ≤ b.maxSize := by
    intro hlt
    have hfirst := hwhole hlt
    rw [LogBuffer.firstIdx] at hfirst
    omega
  have htrim : b.trim (start + k) =
      { b with buf := (es.take k).drop (es.length - b.maxSize) } := by
    rw [LogBuffer.trim, if_neg (by omega), hbuf, hstart, List.drop_take]
    congr 2
    omega
  have hlen : ((es.take k).drop (es.length - b.maxSize)).length = k - (es.length - b.maxSize) := by
    rw [List.length_drop, List.length_take]
    omega
  rw [htrim]
  unfold LogBuffer.append
  simp only [List.length_append, List.length_singleton, hlen]
  rw [if_neg (by omega)]
  refine ⟨?_, ?_⟩
  · show (es.take k).drop (es.length - b.maxSize) ++ [e] = _
    rw [← List.drop_append_of_le_length (by rw [List.length_take]; omega)]
    congr 1
    simp only [List.length_append, List.length_take, List.length_singleton]
    omega
  · show b.startIdx = _
    simp only [List.length_append, List.length_take, List.length_singleton]
    omega

end LogBuffer.Window

/-! ## The cache of a store -/

/-- Files and cache hold the log `l`. -/
structure Coherent (s : FsLogStore) (l : IndexedLog Entry) : Prop extends Exact s l where
  filled : Filled s l.entries
  size_pos : 0 < s.bufSize

/-- Before the last entry, only entries of a cache that reaches back to the
first entry are overwritten. -/
def WithinWindow (s : FsLogStore) : Op → Prop
  | .writeAt index _ => index + 1 < s.nextSlot → s.buf.firstIdx = s.startIdx
  | _ => True

instance (s : FsLogStore) : DecidablePred (WithinWindow s)
  | .writeAt .. => inferInstanceAs (Decidable (_ → _))
  | .append _ | .applyPack .. | .compact _ | .reopen => inferInstanceAs (Decidable True)

namespace Coherent

theorem create {size : Int} (hsize : size ≠ 0) (hc : FsLogStore.create .new size = some s) :
    Coherent s .empty := by
  obtain ⟨hsound, hstart, hbuf, hfill⟩ := create_new hc
  refine ⟨⟨hsound, hstart⟩, hfill, ?_⟩
  rw [hbuf]
  split
  · decide
  · omega

theorem append (h : Coherent s l) (e : Entry) : Coherent (s.append e) (l.append e) where
  sound := by
    have hs := h.sound.append e
    rwa [← List.map_singleton, ← List.map_append] at hs
  start := h.start
  filled := LogBuffer.Window.append h.filled e
  size_pos := h.size_pos

theorem writeAt (h : Coherent s l) (hc : CoversTail s (.writeAt index e))
    (hw : WithinWindow s (.writeAt index e)) (hs : s.writeAt index e = some s') :
    Coherent s' (l.replaceFrom index [e]) := by
  obtain ⟨⟨hge, hle⟩, hsound, hstart, hsize, hbuf⟩ := h.sound.writeAt hs
  have hnext := h.next
  have hnil := (h.sound.covers_iff hge [e.serialize]).mp (by
    rw [List.flatten_singleton]
    exact hc)
  have hrep := h.toExact.replaced [e] hnil
  rw [List.map_singleton] at hrep
  rw [hrep] at hsound
  refine ⟨⟨hsound, hstart.trans h.start⟩, ?_, ?_⟩
  · have hk : index - l.start ≤ l.entries.length := by
      rw [← h.start]
      rw [IndexedLog.next, ← h.start] at hnext
      omega
    have hindex : s.startIdx + (index - l.start) = index := by
      rw [← h.start]
      omega
    show s'.buf.Window s'.startIdx (l.entries.take (index - l.start) ++ [e])
    rw [hbuf, hstart]
    by_cases hlt : index < s.nextSlot
    · rw [if_pos hlt]
      have htrim := LogBuffer.Window.trim_append (k := index - l.start) h.filled
        (by rw [h.sound.cache]; exact h.size_pos)
        (by rw [IndexedLog.next, ← h.start] at hnext; omega)
        (fun hk' => hw (by rw [IndexedLog.next, ← h.start] at hnext; omega)) e
      rwa [hindex] at htrim
    · rw [if_neg hlt, List.take_of_length_le (by
        rw [IndexedLog.next] at hnext
        omega)]
      exact LogBuffer.Window.append h.filled e
  · rw [hsize]
    exact h.size_pos

theorem applyPack {p : Pack} (h : Coherent s l) (hp : FromStore p)
    (hc : CoversTail s (.applyPack index p)) (hs : s.applyPack index p = some s') :
    Coherent s' (l.replaceFrom index p.entries) := by
  obtain ⟨seg, hpack⟩ := hp.packOf (applyPack_idx_ne hs)
  obtain ⟨⟨hge, hle⟩, hsound, hstart, hsize, hfill⟩ := h.sound.applyPack hpack hs
  have hseg : p.entries.map Entry.serialize = seg := by
    rw [hpack.entries, List.map_map]
    conv_rhs => rw [← List.map_id seg]
    exact List.map_congr_left fun r hr => Entry.serialize_ofRecord (hpack.size r hr)
  have hnil := (h.sound.covers_iff hge seg).mp (by
    rw [← hpack.idx_length, ← hpack.data]
    exact hc)
  rw [← hseg] at hnil hsound hfill
  rw [h.toExact.replaced p.entries hnil] at hsound hfill
  refine ⟨⟨hsound, hstart.trans h.start⟩, ?_, ?_⟩
  · rwa [Entry.map_ofRecord_serialize] at hfill
  · rw [hsize]
    exact h.size_pos

theorem compact (h : Coherent s l) (hs : s.compact index = some s') :
    Coherent s' (l.compact index) := by
  obtain ⟨-, hsound, hstart, hsize, hfill⟩ := h.sound.compact hs
  rw [h.start, ← List.map_drop] at hsound hfill
  refine ⟨⟨hsound, hstart⟩, ?_, ?_⟩
  · rwa [Entry.map_ofRecord_serialize] at hfill
  · rw [hsize]
    exact h.size_pos

theorem reopen (h : Coherent s l) (hs : s.reopen = some s') : Coherent s' l := by
  obtain ⟨hsound, hstart, hsize, hfill⟩ := h.sound.reopen hs
  refine ⟨⟨hsound, hstart.trans h.start⟩, ?_, ?_⟩
  · rwa [Entry.map_ofRecord_serialize] at hfill
  · rw [hsize]
    exact h.size_pos

/-- One operation. -/
theorem apply (h : Coherent s l) (hok : Completes s op) (hc : CoversTail s op)
    (hw : WithinWindow s op) : Coherent (s.step op) (op.write l) := by
  obtain ⟨hsome, hpack⟩ := hok
  obtain ⟨s', hs⟩ := Option.isSome_iff_exists.mp hsome
  rw [FsLogStore.step, hs, Option.getD_some]
  cases op with
  | append e =>
      obtain rfl := Option.some.inj hs
      exact h.append e
  | writeAt index e => exact h.writeAt hc hw hs
  | applyPack index p => exact h.applyPack (hpack index p rfl) hc hs
  | compact lastLogIndex => exact h.compact hs
  | reopen => exact h.reopen hs

theorem getElem?_eq (h : Coherent s l) {i : Nat} (hi : s.startIdx ≤ i) :
    l.get i = l.entries[i - s.startIdx]? := by
  rw [IndexedLog.get, if_neg (by rw [← h.start]; omega), h.start]

theorem cached (h : Coherent s l) {i : Nat} (hi : s.buf.firstIdx ≤ i) : s.buf.get i = l.get i := by
  have hfirst := LogBuffer.Window.firstIdx h.filled
  rw [LogBuffer.Window.get h.filled hi, h.getElem?_eq (by omega)]

theorem lastIdx (h : Coherent s l) : s.buf.lastIdx = s.nextSlot := by
  rw [LogBuffer.Window.lastIdx h.filled, FsLogStore.nextSlot, h.count]

theorem firstIdx (h : Coherent s l) :
    s.buf.firstIdx = max s.startIdx (s.nextSlot - s.bufSize) := by
  rw [LogBuffer.Window.firstIdx h.filled, FsLogStore.nextSlot, h.count, h.sound.cache]

/-- The entry at an index, and its record. -/
theorem entry (h : Coherent s l) {i : Nat} (hs : s.startIdx ≤ i) (hn : i < s.nextSlot) :
    ∃ (e : Entry) (hk : i - s.startIdx < (l.entries.map Entry.serialize).length),
      l.get i = some e ∧ (l.entries.map Entry.serialize)[i - s.startIdx] = e.serialize := by
  have hk : i - s.startIdx < l.entries.length := by
    rw [FsLogStore.nextSlot, h.count] at hn
    omega
  refine ⟨l.entries[i - s.startIdx], by rwa [List.length_map], ?_, by rw [List.getElem_map]⟩
  rw [h.getElem?_eq hs, List.getElem?_eq_getElem hk]

/-- Below the cache, an entry is not the last one. -/
theorem below_cache (h : Coherent s l) {i : Nat} (hs : s.startIdx ≤ i)
    (hi : i < s.buf.firstIdx) : i - s.startIdx + 1 < l.entries.length := by
  have hsize := h.size_pos
  have hfirst := h.firstIdx
  rw [FsLogStore.nextSlot, h.count] at hfirst
  omega

theorem entryAt (h : Coherent s l) {i : Nat} (hs : s.startIdx ≤ i) (hn : i < s.nextSlot) :
    s.entryAt i = (l.get i).map some := by
  obtain ⟨e, hk, hget, hrec⟩ := h.entry hs hn
  unfold FsLogStore.entryAt
  rcases Nat.lt_or_ge i s.buf.firstIdx with hi | hi
  · rw [LogBuffer.Window.get_below hi]
    dsimp only
    rw [if_neg (by omega), if_neg (by omega),
      h.sound.readRecord_entry (by rw [List.length_map]; exact h.below_cache hs hi), hrec,
      Entry.ofRecord_serialize, hget]
  · rw [h.cached hi, hget]
    rfl

theorem termAt (h : Coherent s l) {i : Nat} (hs : s.startIdx ≤ i) (hn : i < s.nextSlot) :
    s.termAt i = (l.get i).map Entry.term := by
  obtain ⟨e, hk, hget, hrec⟩ := h.entry hs hn
  unfold FsLogStore.termAt
  rcases Nat.lt_or_ge i s.buf.firstIdx with hi | hi
  · have hterm := Entry.ofRecord_term (h.sound.laid.size _ (List.getElem_mem hk))
    rw [if_neg (by omega), if_neg (by omega), h.sound.idx_getElem? hk]
    dsimp only
    rw [h.sound.readTerm hk, Option.map_some, ← hterm, hrec, Entry.ofRecord_serialize, hget]
    rfl
  · rw [if_pos ⟨hi, by rw [h.lastIdx]; exact hn⟩, LogBuffer.getTerm, h.cached hi, hget]
    rfl

theorem lastEntry (h : Coherent s l) : s.lastEntry = (l.get (l.next - 1)).getD Entry.emptyEntry := by
  have hsize := h.size_pos
  rw [FsLogStore.lastEntry, LogBuffer.Window.lastEntry h.filled (by rw [h.sound.cache]; exact hsize),
    List.getLast?_eq_getElem?, IndexedLog.get, IndexedLog.next]
  congr 1
  cases hes : l.entries with
  | nil => simp
  | cons a as =>
      rw [if_neg (by rw [List.length_cons]; omega)]
      congr 1
      rw [List.length_cons]
      omega

end Coherent

/-! ## Runs -/

/-- The cache holds the last entries of the log `l`, and every entry of `l` is found. -/
structure Answers (s : FsLogStore) (l : IndexedLog Entry) : Prop where
  start : s.startIdx = l.start
  next : s.nextSlot = l.next
  lastIdx : s.buf.lastIdx = s.nextSlot
  firstIdx : s.buf.firstIdx = max s.startIdx (s.nextSlot - s.bufSize)
  cached : ∀ i, s.buf.firstIdx ≤ i → i < s.buf.lastIdx → s.buf.get i = l.get i
  entryAt : ∀ i, s.startIdx ≤ i → i < s.nextSlot → s.entryAt i = (l.get i).map some
  termAt : ∀ i, s.startIdx ≤ i → i < s.nextSlot → s.termAt i = (l.get i).map Entry.term
  lastEntry : s.lastEntry = (l.get (l.next - 1)).getD Entry.emptyEntry

theorem Coherent.answers (h : Coherent s l) : Answers s l where
  start := h.start
  next := h.next
  lastIdx := h.lastIdx
  firstIdx := h.firstIdx
  cached := fun _ hi _ => h.cached hi
  entryAt := fun _ => h.entryAt
  termAt := fun _ => h.termAt
  lastEntry := h.lastEntry

/-- Operations that leave no bytes behind the last record and no gap in the cache. -/
def Careful (s : FsLogStore) (op : Op) : Prop :=
  Completes s op ∧ CoversTail s op ∧ WithinWindow s op

open Transition

variable {size : Int} {s₀ : FsLogStore} {tr : List (FsLogStore × Op)}

theorem coherent_of_run (hsize : size ≠ 0) (hc : FsLogStore.create .new size = some s₀)
    (h : Run FsLogStore.step Careful s₀ tr s) : Coherent s (written tr) := by
  induction h with
  | nil => exact Coherent.create hsize hc
  | snoc _ hok ih =>
      obtain ⟨hcompletes, hcovers, hwindow⟩ := hok
      rw [written_snoc]
      exact ih.apply hcompletes hcovers hwindow

/-- Main theorem: along careful operations the cache is coherent. -/
theorem cache_coherent (hsize : size ≠ 0) (hc : FsLogStore.create .new size = some s₀)
    (h : Run FsLogStore.step Careful s₀ tr s) : Answers s (written tr) :=
  (coherent_of_run hsize hc h).answers

/-- A small store on a fresh folder. -/
def smallStore : FsLogStore := ⟨⟨[], [], some 1⟩, 0, 1, ⟨[], 1, 1⟩, 1⟩

theorem cache_coherent_small :
    Answers
      ([.append ⟨1, 1, [7, 8]⟩, .append ⟨1, 1, [9]⟩, .writeAt 2 ⟨2, 1, [4, 5]⟩, .compact 1,
        .reopen].foldl FsLogStore.step smallStore)
      (written (trace FsLogStore.step smallStore
        [.append ⟨1, 1, [7, 8]⟩, .append ⟨1, 1, [9]⟩, .writeAt 2 ⟨2, 1, [4, 5]⟩, .compact 1,
          .reopen])) :=
  cache_coherent (show (1 : Int) ≠ 0 by decide) rfl
    ((run_of_passes _ (fun s op => op.plain ∧ (s.apply op).isSome ∧ CoversTail s op ∧
      WithinWindow s op) _ _ (by decide +kernel)).mono fun _ _ h => ⟨completes_of_plain h.1 h.2.1, h.2.2⟩)

/-- One entry is overwritten below a cache of one: the cache is neither trimmed nor moved
back, and the entry that was just written cannot be read. -/
theorem cache_not_coherent : ∃ s tr, FsLogStore.create .new 1 = some smallStore ∧
    Run FsLogStore.step Completes smallStore tr s ∧ s.nextSlot = 2 ∧ s.buf.lastIdx = 4 ∧
      (written tr).get 1 = some ⟨2, 1, [6]⟩ ∧ s.entryAt 1 = none ∧ ¬ Answers s (written tr) := by
  have hrun := run_of_passes FsLogStore.step (fun s op => op.plain ∧ (s.apply op).isSome)
    smallStore [.append ⟨1, 1, [7, 8]⟩, .append ⟨1, 1, [9]⟩, .writeAt 1 ⟨2, 1, [6]⟩]
    (by decide +kernel)
  refine ⟨_, _, rfl, hrun.mono fun _ _ h => completes_of_plain h.1 h.2, by decide +kernel,
    by decide +kernel, by decide +kernel, by decide +kernel, fun h => ?_⟩
  exact absurd h.lastIdx (by decide +kernel)

end Ns3Raft.Store
