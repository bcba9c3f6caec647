import Ns3Raft.Store.Layout

/-! # What each operation does to the records

Every operation that does not throw leaves a sound store. `write_at` and
`apply_pack` replace the records from their index on; when no record is cut off,
the bytes of the old tail that the new one does not cover stay behind the last
record.
-/

namespace Ns3Raft.Store

open Records

variable {s s' : FsLogStore} {rs seg : List (List UInt8)} {e : Entry} {p : Pack}

/-! ## Packs -/

/-- The records of a pack, by its index part. -/
def slices (data : List UInt8) (base : Nat) : List Nat → List (List UInt8)
  | [] => []
  | [o] => [data.drop (o - base)]
  | o :: o' :: rest => (data.drop (o - base)).take (o' - o) :: slices data base (o' :: rest)

def Pack.records (p : Pack) : List (List UInt8) := slices p.data (p.idx.headD 0) p.idx

def Pack.entries (p : Pack) : List Entry := p.records.map Entry.ofRecord

/-- A pack of the records `seg`, which lay somewhere in the data file of its store. -/
structure PackOf (p : Pack) (seg : List (List UInt8)) : Prop where
  idx : ∃ base, p.idx = offsets base seg
  data : p.data = seg.flatten
  ne : seg ≠ []
  size : ∀ r ∈ seg, szUlong < r.length

theorem slices_offsets (done todo : List (List UInt8)) (base : Nat) :
    slices (done ++ todo).flatten base (offsets (base + done.flatten.length) todo) = todo := by
  induction todo generalizing done with
  | nil => rfl
  | cons r todo ih =>
      have hflat : (done ++ r :: todo).flatten.drop
          (base + done.flatten.length - base) = (r :: todo).flatten := by
        rw [Nat.add_sub_cancel_left, List.flatten_append, List.drop_left]
      cases todo with
      | nil => simp [offsets, slices]
      | cons r' todo =>
          have htail := ih (done ++ [r])
          have hlen : (done ++ [r]).flatten.length = done.flatten.length + r.length := by
            rw [List.flatten_append, List.length_append, List.flatten_singleton]
          rw [List.append_assoc, List.singleton_append, hlen, ← Nat.add_assoc] at htail
          rw [offsets, offsets, slices, hflat, ← offsets, htail, Nat.add_sub_cancel_left,
            List.flatten_cons, List.take_left]

theorem PackOf.records (h : PackOf p seg) : p.records = seg := by
  obtain ⟨base, hidx⟩ := h.idx
  have hhead : p.idx.headD 0 = base := by
    cases seg with
    | nil => exact absurd rfl h.ne
    | cons r rs => simp [hidx, offsets]
  have hslices := slices_offsets [] seg base
  rw [List.flatten_nil, List.length_nil, Nat.add_zero, List.nil_append] at hslices
  rw [Pack.records, hhead, hidx, h.data, hslices]

theorem PackOf.entries (h : PackOf p seg) : p.entries = seg.map Entry.ofRecord := by
  rw [Pack.entries, h.records]

theorem PackOf.idx_length (h : PackOf p seg) : p.idx.length = seg.length := by
  obtain ⟨base, hidx⟩ := h.idx
  rw [hidx, offsets_length]

theorem Sound.pack (h : Sound s rs) {index cnt : Nat} (hp : s.pack index cnt = some p) :
    p.idx = [] ∨ PackOf p ((rs.drop (index - s.startIdx)).take cnt) := by
  unfold FsLogStore.pack at hp
  split at hp
  · cases hp
  dsimp only at hp
  rw [h.count] at hp
  split at hp
  · obtain rfl := Option.some.inj hp
    exact .inl rfl
  rename_i hk
  obtain ⟨k, hkdef⟩ : ∃ k, index - s.startIdx = k := ⟨_, rfl⟩
  rw [hkdef] at hp hk ⊢
  -- the records of the range, whose end is told by the next record or by the end of the data
  obtain ⟨n, hn⟩ : ∃ n, min (k + cnt) rs.length - k = n := ⟨_, rfl⟩
  have htake : (rs.drop k).take cnt = (rs.drop k).take n := by
    rcases Nat.le_total (k + cnt) rs.length with hle | hle
    · rw [Nat.min_eq_left hle] at hn
      rw [← hn, Nat.add_sub_cancel_left]
    · rw [Nat.min_eq_right hle] at hn
      rw [List.take_of_length_le (by rw [List.length_drop]; omega),
        List.take_of_length_le (by rw [List.length_drop]; omega)]
  have hend : min (k + cnt) rs.length = k + n := by omega
  have hflat : ((rs.drop k).take n).flatten =
      (rs.flatten.drop (rs.take k).flatten.length).take
        ((rs.take (k + n)).flatten.length - (rs.take k).flatten.length) := by
    have hsplit : (rs.take (k + n)).flatten.length - (rs.take k).flatten.length =
        ((rs.drop k).take n).flatten.length := by
      rw [List.take_add, List.flatten_append, List.length_append, Nat.add_sub_cancel_left]
    rw [hsplit, flatten_drop, flatten_take]
  have hread : readAt s.files.idx k n =
      some (offsets (rs.take k).flatten.length ((rs.drop k).take n)) := by
    rw [readAt, if_pos (by rw [h.laid.idx, offsets_length]; omega), h.laid.idx, offsets_drop,
      offsets_take, Nat.zero_add]
  have hendpos : (if k + n = rs.length then some s.files.data.length
      else s.files.idx[k + n]?) = some (rs.take (k + n)).flatten.length := by
    split
    · rename_i heq
      rw [heq, List.take_length, h.laid.data]
    · exact h.idx_getElem? (by omega)
  rw [hend, Nat.add_sub_cancel_left, hread, hendpos] at hp
  cases hseg : (rs.drop k).take n with
  | nil =>
      rw [hseg] at hp
      cases hp
  | cons r seg =>
      rw [hseg] at hp
      simp only [offsets] at hp
      split at hp
      · cases hp
      obtain ⟨data, hdata, rfl⟩ := Option.map_eq_some_iff.mp hp
      unfold readAt at hdata
      split at hdata
      · refine .inr (htake.symm ▸ hseg.symm ▸ ⟨⟨(rs.take k).flatten.length, rfl⟩, ?_, by simp, ?_⟩)
        · rw [← hseg, hflat, ← h.laid.data]
          exact (Option.some.inj hdata).symm
        · intro r' hr'
          rw [← hseg] at hr'
          exact h.laid.size r' (List.mem_of_mem_drop (List.mem_of_mem_take hr'))
      · cases hdata

/-! ## Writing -/

theorem Sound.append (h : Sound s rs) (e : Entry) : Sound (s.append e) (rs ++ [e.serialize]) where
  laid :=
    { idx := by
        show s.files.idx ++ [s.files.data.length] = _
        rw [h.laid.idx, h.laid.data, offsets_append, Nat.zero_add]
        rfl
      data := by
        show s.files.data ++ e.serialize = _
        rw [h.laid.data, List.flatten_append, List.flatten_singleton]
      sti := h.laid.sti
      size := by
        intro r hr
        rcases List.mem_append.mp hr with hr | hr
        · exact h.laid.size r hr
        · rw [List.mem_singleton.mp hr, Entry.serialize_length]
          omega }
  count := by simp [FsLogStore.append, h.count]
  cache := (LogBuffer.append_maxSize _ e).trans h.cache
  start_pos := h.start_pos

/-- The records after a write of `new` at record `k`. -/
def replaced (rs : List (List UInt8)) (k : Nat) (new : List (List UInt8)) : List (List UInt8) :=
  rs.take k ++ extendLast new (leftover rs k new)

theorem Sound.writeAt (h : Sound s rs) {index : Nat} (hw : s.writeAt index e = some s') :
    (s.startIdx ≤ index ∧ index ≤ s.nextSlot) ∧
      Sound s' (replaced rs (index - s.startIdx) [e.serialize]) ∧
      s'.startIdx = s.startIdx ∧ s'.bufSize = s.bufSize ∧
      s'.buf = (if index < s.nextSlot then s.buf.trim index else s.buf).append e := by
  unfold FsLogStore.writeAt at hw
  split at hw
  · cases hw
  rename_i hrange
  have hnext := h.next
  obtain ⟨k, hkdef⟩ : ∃ k, index - s.startIdx = k := ⟨_, rfl⟩
  have hk : k ≤ rs.length := by omega
  rw [hkdef] at hw ⊢
  dsimp only at hw
  rw [h.dataPos hk] at hw
  obtain rfl := Option.some.inj hw
  have hlaid := h.laid.replace hk (show [e.serialize] ≠ [] by simp) (by
    intro r hr
    rw [List.mem_singleton.mp hr, Entry.serialize_length]
    omega)
  rw [List.flatten_singleton] at hlaid
  refine ⟨by omega, ⟨hlaid, ?_, ?_, h.start_pos⟩, rfl, rfl, ?_⟩
  · simp only [replaced, List.length_append, List.length_take, extendLast_length,
      List.length_singleton]
    omega
  · refine (LogBuffer.append_maxSize _ e).trans (Eq.trans ?_ h.cache)
    split
    · exact LogBuffer.trim_maxSize _ _
    · rfl
  · have hiff : (k < s.entriesInStore) ↔ index < s.nextSlot := by
      rw [h.count, hnext]
      omega
    show LogBuffer.append (if k < s.entriesInStore then _ else _) e = _
    simp only [hiff]

theorem Sound.applyPack (h : Sound s rs) (hp : PackOf p seg) {index : Nat}
    (ha : s.applyPack index p = some s') :
    (s.startIdx ≤ index ∧ index ≤ s.nextSlot) ∧
      Sound s' (replaced rs (index - s.startIdx) seg) ∧
      s'.startIdx = s.startIdx ∧ s'.bufSize = s.bufSize ∧
      Filled s' ((replaced rs (index - s.startIdx) seg).map Entry.ofRecord) := by
  unfold FsLogStore.applyPack at ha
  split at ha
  · cases ha
  rename_i hrange
  have hnext := h.next
  obtain ⟨k, hkdef⟩ : ∃ k, index - s.startIdx = k := ⟨_, rfl⟩
  rw [hkdef] at ha ⊢
  dsimp only at ha
  have hk : k ≤ rs.length := by
    by_contra hgt
    rw [if_neg (by rw [h.count]; omega), h.idx_getElem?_end (by omega)] at ha
    cases ha
  have hpos : (if k = s.entriesInStore then some s.files.data.length else s.files.idx[k]?) =
      some (rs.take k).flatten.length := by
    rw [h.count]
    split
    · rename_i heq
      rw [heq, List.take_length, h.laid.data]
    · exact h.idx_getElem? (by omega)
  obtain ⟨base, hidx⟩ := hp.idx
  obtain ⟨r, seg', rfl⟩ := List.exists_cons_of_ne_nil hp.ne
  rw [hpos, hidx] at ha
  simp only [offsets] at ha
  -- the offsets move to where the records now are
  have hmove : (if (rs.take k).flatten.length = base then base :: offsets (base + r.length) seg'
      else (base :: offsets (base + r.length) seg').map fun pos =>
        pos + (rs.take k).flatten.length - base) =
      offsets (rs.take k).flatten.length (r :: seg') := by
    split
    · rename_i heq
      rw [heq, offsets]
    · have hadd := offsets_map_add base (rs.take k).flatten.length (r :: seg')
      have hsub := offsets_map_sub (base + (rs.take k).flatten.length) base (r :: seg') (by omega)
      rw [Nat.add_sub_cancel_left, ← hadd, List.map_map] at hsub
      exact hsub
  rw [hmove, hp.data, offsets_length] at ha
  have hlaid := h.laid.replace hk hp.ne hp.size
  obtain ⟨hs', hmax, hfill⟩ := fillBuffer_some (replaced rs k (r :: seg')) hlaid (by
    simp only [LogBuffer.reset, h.cache]
    rw [windowStart_eq (replaced rs k (r :: seg')) (by
      simp only [replaced, List.length_append, List.length_take, extendLast_length]
      omega)]) ha
  refine ⟨by omega, ⟨?_, ?_, ?_, ?_⟩, by rw [hs'], by rw [hs'], hfill⟩
  · rw [hs']
    exact hlaid
  · rw [hs']
    simp only [replaced, List.length_append, List.length_take, extendLast_length]
    omega
  · rw [hmax, hs']
  · rw [hs']
    exact h.start_pos

/-! ## Compaction and opening -/

theorem Sound.compact (h : Sound s rs) {index : Nat} (hc : s.compact index = some s') :
    s.startIdx ≤ index ∧ Sound s' (rs.drop (index + 1 - s.startIdx)) ∧
      s'.startIdx = index + 1 ∧ s'.bufSize = s.bufSize ∧
      Filled s' ((rs.drop (index + 1 - s.startIdx)).map Entry.ofRecord) := by
  unfold FsLogStore.compact at hc
  have hnext := h.next
  split at hc
  · cases hc
  split at hc
  · obtain rfl := Option.some.inj hc
    have hnil : rs.drop (index + 1 - s.startIdx) = [] := List.drop_eq_nil_of_le (by omega)
    rw [hnil]
    refine ⟨by omega, ⟨⟨rfl, rfl, rfl, by simp⟩, rfl, h.cache, Nat.succ_pos _⟩, rfl, rfl, ?_⟩
    exact ⟨by simp [LogBuffer.reset], by simp [LogBuffer.reset]⟩
  · rename_i hs hn
    obtain ⟨k, hkdef⟩ : ∃ k, index + 1 - s.startIdx = k := ⟨_, rfl⟩
    have hk : k < rs.length := by omega
    rw [hkdef] at hc ⊢
    dsimp only at hc
    rw [h.idx_getElem? hk] at hc
    dsimp only at hc
    have hlaid : Laid ⟨(s.files.idx.drop k).map fun pos => pos - (rs.take k).flatten.length,
        s.files.data.drop (rs.take k).flatten.length, some (index + 1)⟩ (index + 1)
        (rs.drop k) := by
      refine ⟨?_, ?_, rfl, fun r hr => h.laid.size r (List.mem_of_mem_drop hr)⟩
      · show (s.files.idx.drop k).map _ = _
        rw [h.laid.idx, offsets_drop, Nat.zero_add, offsets_map_sub _ _ _ (Nat.le_refl _),
          Nat.sub_self]
      · show s.files.data.drop _ = _
        rw [h.laid.data, flatten_drop]
    have hcount : s.entriesInStore - k = (rs.drop k).length := by
      rw [h.count, List.length_drop]
    obtain ⟨hs', hmax, hfill⟩ := fillBuffer_some _ hlaid (by
      simp only [LogBuffer.reset, h.cache]
      rw [windowStart_eq (rs.drop k) hcount]) hc
    refine ⟨by omega, ⟨?_, ?_, ?_, ?_⟩, by rw [hs'], by rw [hs'], hfill⟩
    · rw [hs']
      exact hlaid
    · rw [hs']
      exact hcount
    · rw [hmax, hs']
    · rw [hs']
      exact Nat.succ_pos _

theorem Laid.create {f : Files} {start : Nat} (hl : Laid f start rs) (hpos : 0 < start)
    {size : Int} (hc : FsLogStore.create f size = some s) :
    Sound s rs ∧ s.startIdx = start ∧ s.files = f ∧
      s.bufSize = (if size < 0 then int32Max else size.toNat) ∧
      Filled s (rs.map Entry.ofRecord) := by
  unfold FsLogStore.create at hc
  obtain ⟨n, hn⟩ : ∃ n, (if size < 0 then int32Max else size.toNat) = n := ⟨_, rfl⟩
  have hlen : f.idx.length = rs.length := by rw [hl.idx, offsets_length]
  simp only [hl.sti, hn, hlen] at hc ⊢
  obtain ⟨hs', hmax, hfill⟩ := fillBuffer_some _ hl (by
    simp only [LogBuffer.reset]
    rw [windowStart_eq rs rfl]) hc
  refine ⟨⟨?_, by rw [hs'], by rw [hmax, hs'], ?_⟩, by rw [hs'], by rw [hs'], by rw [hs'], hfill⟩
  · rw [hs']
    exact hl
  · rw [hs']
    exact hpos

theorem Laid.create_isSome {f : Files} {start : Nat} (hl : Laid f start rs) {size : Int}
    (hsize : size ≠ 0) : ∃ s, FsLogStore.create f size = some s := by
  have hpos : 0 < if size < 0 then int32Max else size.toNat := by
    split
    · decide
    · omega
  unfold FsLogStore.create
  obtain ⟨n, hn⟩ : ∃ n, (if size < 0 then int32Max else size.toNat) = n := ⟨_, rfl⟩
  have hlen : f.idx.length = rs.length := by rw [hl.idx, offsets_length]
  rw [hn] at hpos
  simp only [hl.sti, hn, hlen]
  refine fillBuffer_isSome hl ?_ hpos
  simp only [LogBuffer.reset]
  rw [windowStart_eq rs rfl]

theorem create_new {size : Int} (hc : FsLogStore.create .new size = some s) :
    Sound s [] ∧ s.startIdx = 1 ∧ s.bufSize = (if size < 0 then int32Max else size.toNat) ∧
      Filled s [] := by
  have hnew : FsLogStore.create .new size = FsLogStore.create ⟨[], [], some 1⟩ size := rfl
  rw [hnew] at hc
  have hl : Laid ⟨[], [], some 1⟩ 1 [] := ⟨rfl, rfl, rfl, by simp⟩
  obtain ⟨h1, h2, -, h3, h4⟩ := hl.create (by decide) hc
  exact ⟨h1, h2, h3, h4⟩

end Ns3Raft.Store
