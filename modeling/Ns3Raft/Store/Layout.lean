import Ns3Raft.Store.FsLogStore

/-! # What lies in the files

In every store the data file is a sequence of records that decode, the index
file has their offsets, and the numbers in memory agree with both. Each
operation is described by what it does to the records.
-/

namespace Ns3Raft.Store

open Records

/-! ## Entries and records -/

@[simp] theorem putBytes_length (n v : Nat) : (putBytes n v).length = n := by
  induction n generalizing v with
  | zero => rfl
  | succ n ih => simp [putBytes, ih]

theorem getBytes_putBytes {n v : Nat} (h : v < 256 ^ n) : getBytes (putBytes n v) = v := by
  induction n generalizing v with
  | zero => simpa [putBytes, getBytes, eq_comm] using h
  | succ n ih =>
      have hdiv : v / 256 < 256 ^ n := by
        rw [Nat.div_lt_iff_lt_mul (by decide)]
        simpa [Nat.pow_succ] using h
      have hbyte : (UInt8.ofNat (v % 256)).toNat = v % 256 := by simp
      rw [putBytes, getBytes, ih hdiv, hbyte]
      omega

theorem putBytes_getBytes (bs : List UInt8) : putBytes bs.length (getBytes bs) = bs := by
  induction bs with
  | nil => rfl
  | cons b bs ih =>
      have hlt := b.toNat_lt
      have hmod : (b.toNat + 256 * getBytes bs) % 256 = b.toNat := by omega
      have hdiv : (b.toNat + 256 * getBytes bs) / 256 = getBytes bs := by omega
      rw [List.length_cons, getBytes, putBytes, hmod, hdiv, ih, UInt8.ofNat_toNat]

theorem getBytes_lt (bs : List UInt8) : getBytes bs < 256 ^ bs.length := by
  induction bs with
  | nil => decide
  | cons b bs ih =>
      have hlt := b.toNat_lt
      rw [getBytes, List.length_cons, Nat.pow_succ]
      omega

namespace Entry

/-- The entry that a record of enough bytes holds. -/
def ofRecord (r : List UInt8) : Entry := (deserialize r).getD emptyEntry

theorem deserialize_eq {r : List UInt8} (h : szUlong < r.length) :
    deserialize r = some (ofRecord r) := by
  unfold ofRecord deserialize
  rw [if_neg (by omega)]
  cases hd : r.drop szUlong with
  | nil =>
      have := List.drop_eq_nil_iff.mp hd
      omega
  | cons t payload => rfl

@[simp] theorem serialize_length (e : Entry) :
    e.serialize.length = szUlong + 1 + e.payload.length := by
  simp only [serialize, List.length_append, putBytes_length, List.length_cons]
  omega

/-- Bytes behind a record go into the payload. -/
theorem ofRecord_serialize_append (e : Entry) (x : List UInt8) :
    ofRecord (e.serialize ++ x) = { e with payload := e.payload ++ x } := by
  have hterm : getBytes (putBytes szUlong e.term.toNat) = e.term.toNat :=
    getBytes_putBytes (by simpa [szUlong] using e.term.toNat_lt)
  have hlen : (putBytes szUlong e.term.toNat).length = szUlong := putBytes_length _ _
  unfold ofRecord deserialize serialize
  rw [if_neg (by simp), List.append_assoc, List.drop_left' hlen, List.take_left' hlen, hterm]
  simp

@[simp] theorem ofRecord_serialize (e : Entry) : ofRecord e.serialize = e := by
  simpa using ofRecord_serialize_append e []

theorem map_ofRecord_serialize (es : List Entry) : (es.map serialize).map ofRecord = es := by
  induction es with
  | nil => rfl
  | cons e es ih => rw [List.map_cons, List.map_cons, ofRecord_serialize, ih]

/-- The term is read without the rest of the record. -/
theorem ofRecord_term {r : List UInt8} (h : szUlong < r.length) :
    (ofRecord r).term = UInt64.ofNat (getBytes (r.take szUlong)) := by
  unfold ofRecord deserialize
  rw [if_neg (by omega)]
  cases hd : r.drop szUlong with
  | nil =>
      have := List.drop_eq_nil_iff.mp hd
      omega
  | cons t payload => rfl

theorem serialize_ofRecord {r : List UInt8} (h : szUlong < r.length) :
    (ofRecord r).serialize = r := by
  have hlen : (r.take szUlong).length = szUlong := List.length_take_of_le (by omega)
  have hlt := getBytes_lt (r.take szUlong)
  have hterm : (UInt64.ofNat (getBytes (r.take szUlong))).toNat = getBytes (r.take szUlong) := by
    rw [hlen] at hlt
    exact UInt64.toNat_ofNat_of_lt' hlt
  obtain ⟨t, payload, hdrop⟩ : ∃ t payload, r.drop szUlong = t :: payload := by
    apply List.exists_cons_of_ne_nil
    rw [ne_eq, List.drop_eq_nil_iff]
    omega
  have hput := putBytes_getBytes (r.take szUlong)
  rw [hlen] at hput
  unfold ofRecord deserialize
  rw [if_neg (by omega), hdrop]
  simp only [Option.getD_some, serialize, hterm, hput]
  rw [← hdrop, List.take_append_drop]

theorem serialize_injective {e e' : Entry} (h : e.serialize = e'.serialize) : e = e' := by
  rw [← ofRecord_serialize e, h, ofRecord_serialize]

end Entry

/-! ## The files -/

structure Laid (f : Files) (start : Nat) (rs : List (List UInt8)) : Prop where
  idx : f.idx = offsets 0 rs
  data : f.data = rs.flatten
  sti : f.sti = some start
  size : ∀ r ∈ rs, szUlong < r.length

variable {f : Files} {start : Nat} {rs new : List (List UInt8)}

theorem Laid.take (h : Laid f start rs) (k : Nat) : ∀ r ∈ rs.take k, szUlong < r.length :=
  fun r hr => h.size r (List.mem_of_mem_take hr)

/-- Replacing the tail of the files, as `write_at` and `apply_pack` do it. -/
theorem Laid.replace (h : Laid f start rs) {k : Nat} (hk : k ≤ rs.length) (hne : new ≠ [])
    (hsize : ∀ r ∈ new, szUlong < r.length) :
    Laid (FsLogStore.truncateTo
      { f with idx := overwrite f.idx k (offsets (rs.take k).flatten.length new),
               data := overwrite f.data (rs.take k).flatten.length new.flatten }
      (k + new.length) ((rs.take k).flatten.length + new.flatten.length)) start
      (rs.take k ++ extendLast new (leftover rs k new)) := by
  have hle := flatten_take_length_le k rs
  have hsize' : ∀ r ∈ rs.take k ++ extendLast new (leftover rs k new), szUlong < r.length := by
    intro r hr
    rcases List.mem_append.mp hr with hr | hr
    · exact h.take k r hr
    · refine forall_extendLast (P := fun r => szUlong < r.length) (fun r hr => ?_) hsize r hr
      rw [List.length_append]
      omega
  have hoff : offsets 0 (rs.take k ++ extendLast new (leftover rs k new)) =
      offsets 0 (rs.take k ++ new) := by
    rw [offsets_append, offsets_append, offsets_extendLast]
  have hidxlen : (overwrite f.idx k (offsets (rs.take k).flatten.length new)).length =
      max rs.length (k + new.length) := by
    rw [overwrite_length _ _ (by simpa [h.idx] using hk), h.idx]
    simp
  unfold FsLogStore.truncateTo
  dsimp only
  rw [hidxlen]
  split
  · -- records are cut off, and the data with them
    have hcut : k + new.length < rs.length := by omega
    have hleft : leftover rs k new = [] := if_pos hcut
    rw [hleft, extendLast_nil]
    refine ⟨?_, ?_, h.sti, by simpa [hleft] using hsize'⟩
    · have htake := take_overwrite f.idx (offsets (rs.take k).flatten.length new)
        (by simpa [h.idx] using hk)
      rw [offsets_length] at htake
      show (overwrite f.idx k _).take (k + new.length) = _
      rw [htake, h.idx, offsets_take, offsets_append, Nat.zero_add]
    · have hdata : (rs.take k).flatten.length ≤ f.data.length := by
        rw [h.data]
        exact hle
      have htake := take_overwrite f.data new.flatten hdata
      show (overwrite f.data _ _).take _ = _
      rw [htake, h.data, flatten_take, List.flatten_append]
  · have hend : rs.length ≤ k + new.length := by omega
    refine ⟨?_, ?_, h.sti, hsize'⟩
    · show overwrite f.idx k _ = _
      rw [h.idx, hoff, overwrite_offsets hend]
    · show overwrite f.data _ _ = _
      rw [h.data, overwrite_flatten hend hne]

/-! ## Stores -/

/-- Memory and files agree, the records being `rs`. -/
structure Sound (s : FsLogStore) (rs : List (List UInt8)) : Prop where
  laid : Laid s.files s.startIdx rs
  count : s.entriesInStore = rs.length
  cache : s.buf.maxSize = s.bufSize
  start_pos : 0 < s.startIdx

namespace Sound

variable {s s' : FsLogStore}

theorem next (h : Sound s rs) : s.nextSlot = s.startIdx + rs.length := by
  rw [FsLogStore.nextSlot, h.count]

theorem idx_getElem? (h : Sound s rs) {k : Nat} (hk : k < rs.length) :
    s.files.idx[k]? = some (rs.take k).flatten.length := by
  rw [h.laid.idx, offsets_getElem? 0 rs hk, Nat.zero_add]

theorem idx_getElem?_end (h : Sound s rs) {k : Nat} (hk : rs.length ≤ k) :
    s.files.idx[k]? = none := by
  rw [h.laid.idx, List.getElem?_eq_none_iff, offsets_length]
  exact hk

/-- The position `write_at` and `apply_pack` go to. -/
theorem dataPos (h : Sound s rs) {k : Nat} (hk : k ≤ rs.length) :
    (if k < s.entriesInStore then s.files.idx[k]? else some s.files.data.length) =
      some (rs.take k).flatten.length := by
  rw [h.count]
  split
  · rename_i hlt
    exact h.idx_getElem? hlt
  · rw [h.laid.data, List.take_of_length_le (by omega)]

/-- A record that is not the last one is read whole. -/
theorem readRecord (h : Sound s rs) {k : Nat} (hk : k + 1 < rs.length) :
    s.readRecord k = some rs[k] := by
  unfold FsLogStore.readRecord
  rw [h.idx_getElem? (by omega : k < rs.length), h.idx_getElem? hk]
  simp only [flatten_take_succ (by omega : k < rs.length)]
  rw [if_neg (by omega), Nat.add_sub_cancel_left, h.laid.data]
  exact readAt_record (by omega)

theorem readRecord_entry (h : Sound s rs) {k : Nat} (hk : k + 1 < rs.length) :
    (s.readRecord k).bind Entry.deserialize = some (Entry.ofRecord rs[k]) := by
  rw [h.readRecord hk, Option.bind_some, Entry.deserialize_eq (h.laid.size _ (List.getElem_mem _))]

theorem readTerm (h : Sound s rs) {k : Nat} (hk : k < rs.length) :
    readAt s.files.data (rs.take k).flatten.length szUlong = some (rs[k].take szUlong) := by
  have hsize := h.laid.size _ (List.getElem_mem hk)
  have hle := flatten_take_length_le (k + 1) rs
  rw [flatten_take_succ hk] at hle
  have hslice := flatten_slice hk
  rw [h.laid.data, readAt, if_pos (by omega), ← hslice, List.take_take,
    Nat.min_eq_left (by omega)]

end Sound

/-! ## Filling the cache -/

/-- `fill_buffer` from record `k` on. -/
theorem fillLoop_eq (hsize : ∀ r ∈ rs, szUlong < r.length) {k : Nat} (hk : k < rs.length)
    (b : LogBuffer) :
    FsLogStore.fillLoop rs.flatten b (rs.take k).flatten.length ((offsets 0 rs).drop (k + 1)) =
      some (((rs.drop k).map Entry.ofRecord).foldl LogBuffer.append b) := by
  have hdec : Entry.deserialize rs[k] = some (Entry.ofRecord rs[k]) :=
    Entry.deserialize_eq (hsize _ (List.getElem_mem hk))
  obtain ⟨d, hd⟩ : ∃ d, rs.length - k = d := ⟨_, rfl⟩
  induction d generalizing k b with
  | zero => omega
  | succ d ih =>
      by_cases hlast : k + 1 < rs.length
      · have hread : readAt rs.flatten (rs.take k).flatten.length
            ((rs.take (k + 1)).flatten.length - (rs.take k).flatten.length) = some rs[k] := by
          rw [flatten_take_succ hk, Nat.add_sub_cancel_left, readAt_record hk]
        rw [offsets_drop_cons hlast, FsLogStore.fillLoop, hread, Option.bind_some, hdec,
          if_neg (by rw [flatten_take_succ hk]; omega)]
        dsimp only
        rw [ih hlast (b.append (Entry.ofRecord rs[k]))
          (Entry.deserialize_eq (hsize _ (List.getElem_mem hlast))) (by omega),
          List.drop_eq_getElem_cons hk]
        rfl
      · have hnil : (offsets 0 rs).drop (k + 1) = [] := by
          rw [List.drop_eq_nil_iff, offsets_length]
          omega
        have hone : rs.drop k = [rs[k]] := by
          rw [List.drop_eq_getElem_cons hk, List.drop_eq_nil_of_le (by omega)]
        have hle := flatten_take_length_le k rs
        rw [hnil, FsLogStore.fillLoop, if_neg (by omega), flatten_drop, hone]
        simp [hdec]

@[simp] theorem LogBuffer.append_maxSize (b : LogBuffer) (e : Entry) :
    (b.append e).maxSize = b.maxSize := by
  unfold LogBuffer.append
  dsimp only
  split <;> rfl

@[simp] theorem LogBuffer.trim_maxSize (b : LogBuffer) (start : Nat) :
    (b.trim start).maxSize = b.maxSize := by
  unfold LogBuffer.trim
  split <;> rfl

/-- A cache that is not full takes the entries as they are. -/
theorem foldl_append_of_room (es : List Entry) (b : LogBuffer)
    (h : b.buf.length + es.length ≤ b.maxSize) :
    es.foldl LogBuffer.append b = { b with buf := b.buf ++ es } := by
  induction es generalizing b with
  | nil => simp
  | cons e es ih =>
      rw [List.length_cons] at h
      have happ : b.append e = { b with buf := b.buf ++ [e] } := by
        unfold LogBuffer.append
        simp only [List.length_append, List.length_singleton]
        rw [if_neg (by omega)]
      rw [List.foldl_cons, happ, ih]
      · simp
      · simp only [List.length_append, List.length_singleton]
        omega

/-- The last entries of a log, as many as there is room for. -/
structure LogBuffer.Window (b : LogBuffer) (start : Nat) (es : List Entry) : Prop where
  buf : b.buf = es.drop (es.length - b.maxSize)
  startIdx : b.startIdx = start + (es.length - b.maxSize)

/-- The cache holds the last entries of the store. -/
def Filled (s : FsLogStore) (es : List Entry) : Prop := s.buf.Window s.startIdx es

theorem windowStart_eq {s : FsLogStore} (rs : List (List UInt8)) (h : s.entriesInStore = rs.length) :
    s.windowStart = s.startIdx + (rs.length - s.bufSize) := by
  unfold FsLogStore.windowStart
  rw [h]
  split <;> omega

/-- A cache that has been reset is filled with the last entries; with no room at
all there is nothing to read, which is an error. -/
theorem fillBuffer_some {s s' : FsLogStore} (rs : List (List UInt8)) (hl : Laid s.files s.startIdx rs)
    (hb : s.buf = ⟨[], s.startIdx + (rs.length - s.bufSize), s.bufSize⟩)
    (h : s.fillBuffer = some s') :
    s' = { s with buf := s'.buf } ∧ s'.buf.maxSize = s.bufSize ∧
      Filled s' (rs.map Entry.ofRecord) := by
  unfold FsLogStore.fillBuffer at h
  by_cases hnil : rs = []
  · subst hnil
    rw [if_pos (by simpa [offsets] using hl.idx)] at h
    obtain rfl := Option.some.inj h
    exact ⟨rfl, by rw [hb], by simp [hb], by simp [hb]⟩
  · have hpos : 0 < rs.length := List.length_pos_iff.mpr hnil
    have hlen : s.files.idx.length = rs.length := by rw [hl.idx, offsets_length]
    have hne : s.files.idx ≠ [] := by
      rw [← List.length_pos_iff]
      omega
    rw [if_neg hne, LogBuffer.firstIdx, hb] at h
    dsimp only at h
    rw [Nat.add_sub_cancel_left] at h
    rcases Nat.eq_zero_or_pos s.bufSize with hzero | hsize
    · rw [List.drop_eq_nil_of_le (by omega)] at h
      cases h
    have hk : rs.length - s.bufSize < rs.length := by omega
    rw [hl.idx, offsets_drop_cons hk] at h
    dsimp only at h
    rw [hl.data, fillLoop_eq hl.size hk, foldl_append_of_room _ _ (by
      simp only [List.length_nil, List.length_map, List.length_drop]
      omega)] at h
    obtain rfl := Option.some.inj h
    exact ⟨rfl, rfl, by simp, by simp⟩

theorem fillBuffer_isSome {s : FsLogStore} (hl : Laid s.files s.startIdx rs)
    (hb : s.buf = ⟨[], s.startIdx + (rs.length - s.bufSize), s.bufSize⟩) (hsize : 0 < s.bufSize) :
    ∃ s', s.fillBuffer = some s' := by
  unfold FsLogStore.fillBuffer
  split
  · exact ⟨s, rfl⟩
  · rename_i hne
    have hlen : s.files.idx.length = rs.length := by rw [hl.idx, offsets_length]
    have hpos : 0 < rs.length := by
      rw [← hlen]
      exact List.length_pos_iff.mpr hne
    have hk : rs.length - s.bufSize < rs.length := by omega
    rw [LogBuffer.firstIdx, hb]
    dsimp only
    rw [Nat.add_sub_cancel_left, hl.idx, offsets_drop_cons hk]
    dsimp only
    rw [hl.data, fillLoop_eq hl.size hk]
    exact ⟨_, rfl⟩

end Ns3Raft.Store
