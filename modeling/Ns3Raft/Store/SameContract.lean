import Ns3Raft.Store.Reopen
import Ns3Raft.Store.InMemLogStore

/-! # Two stores, one contract

`fs_log_store` and `inmem_log_store` go through the same operations, ranges
being moved by `pack` and `apply_pack` between stores of one kind.
-/

namespace Ns3Raft.Store

open Records

variable {s r : FsLogStore} {m q : InMemLogStore} {l : IndexedLog Entry}

/-! ## Ranges of the file-backed store -/

theorem Sound.readRange {rs : List (List UInt8)} (h : Sound s rs) {k n : Nat}
    (hk : k + n < rs.length) :
    s.readRange k n = some (((rs.drop k).take n).map Entry.ofRecord) := by
  induction n generalizing k with
  | zero => rfl
  | succ n ih =>
      rw [FsLogStore.readRange, h.readRecord_entry (by omega), ih (by omega),
        List.drop_eq_getElem_cons (by omega : k < rs.length), List.take_succ_cons, List.map_cons]

namespace Coherent

/-- The part of a range that is not cached is read from the files. The vector
for the results has room for it only if the range reaches the cache. -/
theorem logEntries (h : Coherent s l) {i j : Nat} (hs : s.startIdx ≤ i) (hij : i < j)
    (hn : j ≤ s.nextSlot) (hj : s.buf.firstIdx ≤ j) :
    s.logEntries i j = some (some ((l.range i j).map some)) := by
  have hsize := h.size_pos
  have hnext : s.nextSlot = s.startIdx + l.entries.length := by rw [FsLogStore.nextSlot, h.count]
  obtain ⟨w, hw⟩ : ∃ w, l.entries.length - s.bufSize = w := ⟨_, rfl⟩
  have hbuf : s.buf.buf = l.entries.drop w := by
    rw [h.filled.buf, h.sound.cache, hw]
  have hfirst : s.buf.startIdx = s.startIdx + w := by
    rw [h.filled.startIdx, h.sound.cache, hw]
  have hlen : s.buf.buf.length = l.entries.length - w := by rw [hbuf, List.length_drop]
  rw [LogBuffer.firstIdx, hfirst] at hj
  unfold FsLogStore.logEntries
  rw [if_neg (by omega), if_neg (by omega), Nat.min_eq_left hn, IndexedLog.range, ← h.start]
  dsimp only
  rcases Nat.lt_or_ge (s.startIdx + w) i with hi | hi
  · -- everything is cached
    have hread : readAt s.buf.buf (i - s.buf.startIdx) (j - i) =
        some ((l.entries.drop (i - s.startIdx)).take (j - i)) := by
      rw [readAt, if_pos (by omega), hbuf, List.drop_drop]
      congr 3
      omega
    rw [LogBuffer.fill, if_neg (by omega), if_pos (by omega), hread, Option.map_some]
    dsimp only
    rw [LogBuffer.firstIdx, if_neg (by omega)]
  · have hread : readAt s.buf.buf 0 (j - s.buf.startIdx) =
        some ((l.entries.drop w).take (j - s.buf.startIdx)) := by
      rw [readAt, if_pos (by omega), hbuf, List.drop_zero]
    rw [LogBuffer.fill, if_neg (by omega), if_neg (by omega), hread, Option.map_some]
    dsimp only
    rw [LogBuffer.firstIdx]
    split
    · -- the records before the window, then the window
      rename_i hlt
      have hcnt : (List.replicate (s.buf.startIdx - i) (none : Option Entry)).length =
          s.buf.startIdx - i := List.length_replicate
      rw [if_neg (by rw [List.length_append, hcnt]; omega),
        h.sound.readRange (by rw [List.length_map]; omega), List.drop_left' hcnt, Option.map_some,
        ← List.map_drop, ← List.map_take, Entry.map_ofRecord_serialize, ← List.map_append]
      have hsplit : j - i = s.buf.startIdx - i + (j - s.buf.startIdx) := by omega
      have hdrop : i - s.startIdx + (s.buf.startIdx - i) = w := by omega
      rw [hsplit, List.take_add, List.drop_drop, hdrop]
    · rename_i hge
      obtain rfl : i = s.startIdx + w := by omega
      rw [hfirst, Nat.sub_self, List.replicate_zero, List.nil_append, Nat.add_sub_cancel_left]

/-- A range that ends before the cache would be written beyond its vector. -/
theorem logEntries_below_cache (h : Coherent s l) {i j : Nat} (hs : s.startIdx ≤ i) (hij : i < j)
    (hj : j < s.buf.firstIdx) : s.logEntries i j = none := by
  have hbelow := h.below_cache (i := j) (by omega) hj
  have hstart : j < s.buf.startIdx := hj
  have hnext : s.nextSlot = s.startIdx + l.entries.length := by rw [FsLogStore.nextSlot, h.count]
  unfold FsLogStore.logEntries
  rw [if_neg (by omega), if_neg (by omega), Nat.min_eq_left (by omega)]
  dsimp only
  rw [LogBuffer.fill, if_pos hstart]
  dsimp only
  rw [if_pos (by omega), if_pos (by rw [List.length_nil]; omega)]

end Coherent

/-! ## Both stores -/

/-- What the two stores are meant to have in common. `log_entries` is asked for
ranges that reach the cache. -/
structure SameContract (s : FsLogStore) (m : InMemLogStore) : Prop where
  start : m.startIdx = s.startIdx
  next : m.nextSlot = s.nextSlot
  lastTerm : m.lastEntry.map Entry.term = some s.lastEntry.term
  entryAt : ∀ i, s.startIdx ≤ i → i < s.nextSlot → s.entryAt i = (m.entryAt i).map some
  termAt : ∀ i, s.startIdx ≤ i → i < s.nextSlot → s.termAt i = m.termAt i
  logEntries : ∀ i j, s.startIdx ≤ i → i < j → j ≤ s.nextSlot → s.buf.firstIdx ≤ j →
    s.logEntries i j = (m.logEntries i j).map fun es => some (es.map some)

theorem Coherent.sameContract (h : Coherent s l) (hm : m.Holds l) : SameContract s m where
  start := hm.startIdx.trans h.start.symm
  next := hm.next.trans h.next.symm
  lastTerm := by
    rw [h.lastEntry, hm.lastEntry]
    cases l.get (l.next - 1) <;> rfl
  entryAt := by
    intro i hs hn
    rw [h.entryAt hs hn, hm.entryAt (h.start ▸ hs) (h.next ▸ hn)]
  termAt := by
    intro i hs hn
    rw [h.termAt hs hn, InMemLogStore.termAt, hm.entryAt (h.start ▸ hs) (h.next ▸ hn)]
  logEntries := by
    intro i j hs hij hn hj
    have hnext := h.next
    have hsum : i + (j - i) = j := by omega
    rw [h.logEntries hs hij hn hj, InMemLogStore.logEntries,
      hm.found (h.start ▸ hs) (by omega), hsum]
    rfl

/-- Both stores after the same operations; the second is `none` once it has failed. -/
inductive Twins (ok : FsLogStore → Op → Prop) (inSource : FsLogStore → Nat → Nat → Prop) :
    FsLogStore → Option InMemLogStore → Prop where
  | create {size : Int} {s : FsLogStore} : size ≠ 0 → FsLogStore.create .new size = some s →
      Twins ok inSource s (some .new)
  | append {s : FsLogStore} {m : Option InMemLogStore} {e : Entry} : Twins ok inSource s m →
      ok s (.append e) → Twins ok inSource (s.append e) (m.map fun m => m.append e)
  | writeAt {s s' : FsLogStore} {m : Option InMemLogStore} {index : Nat} {e : Entry} :
      Twins ok inSource s m → ok s (.writeAt index e) → s.writeAt index e = some s' →
      Twins ok inSource s' (m.map fun m => m.writeAt index e)
  | compact {s s' : FsLogStore} {m : Option InMemLogStore} {index : Nat} :
      Twins ok inSource s m → ok s (.compact index) → s.compact index = some s' →
      Twins ok inSource s' (m.map fun m => m.compact index)
  | transfer {s r s' : FsLogStore} {m q : Option InMemLogStore} {index cnt index' : Nat}
      {p : Pack} : Twins ok inSource s m → Twins ok inSource r q → inSource r index cnt →
      r.pack index cnt = some p → ok s (.applyPack index' p) → s.applyPack index' p = some s' →
      Twins ok inSource s'
        (m.bind fun m => (q.bind fun q => q.pack index cnt).bind fun bufs => m.applyPack index' bufs)

/-- A pack reaches the end of the log it goes into. -/
def ReachesEnd (s : FsLogStore) : Op → Prop
  | .applyPack index p => s.nextSlot ≤ index + p.idx.length
  | _ => True

instance (s : FsLogStore) : DecidablePred (ReachesEnd s)
  | .applyPack .. => inferInstanceAs (Decidable (_ ≤ _))
  | .append _ | .writeAt .. | .compact _ | .reopen => inferInstanceAs (Decidable True)

def Aligned (s : FsLogStore) (op : Op) : Prop :=
  CoversTail s op ∧ WithinWindow s op ∧ ReachesEnd s op

instance (s : FsLogStore) (op : Op) : Decidable (Aligned s op) :=
  inferInstanceAs (Decidable (_ ∧ _ ∧ _))

def InSource (r : FsLogStore) (index cnt : Nat) : Prop := index + cnt ≤ r.nextSlot

variable {om : Option InMemLogStore} {ok : FsLogStore → Op → Prop}
  {inSource : FsLogStore → Nat → Nat → Prop}

theorem Twins.built (h : Twins ok inSource s om) : Built s := by
  induction h with
  | create _ hc => exact .create hc
  | @append s m e _ _ ih => exact ih.apply (by simp) (show FsLogStore.apply _ (.append e) = _ from rfl)
  | @writeAt s s' m index e _ _ hs ih => exact ih.apply (by simp) (show FsLogStore.apply _ (.writeAt index e) = _ from hs)
  | @compact s s' m index _ _ hs ih => exact ih.apply (by simp) (show FsLogStore.apply _ (.compact index) = _ from hs)
  | transfer _ _ _ hp _ hs ih ihr => exact .transfer ih ihr hp hs

/-- A pack of a range within the source, as both stores make it. -/
theorem Coherent.pack (h : Coherent r l) (hq : q.Holds l) {index cnt : Nat} {p : Pack}
    (hcnt : index + cnt ≤ r.nextSlot) (hp : r.pack index cnt = some p) (hne : p.idx ≠ []) :
    p.idx.length = p.entries.length ∧ p.entries ≠ [] ∧
      q.pack index cnt = some (p.entries.map Entry.serialize) := by
  have hs : r.startIdx ≤ index := by
    unfold FsLogStore.pack at hp
    split at hp
    · cases hp
    · omega
  have hpack := (h.sound.pack hp).resolve_left hne
  have hentries : p.entries = l.range index (index + cnt) := by
    rw [hpack.entries, ← List.map_drop, ← List.map_take, Entry.map_ofRecord_serialize,
      IndexedLog.range, Nat.add_sub_cancel_left, h.start]
  have hlen : p.idx.length = p.entries.length := by
    rw [hpack.idx_length, hpack.entries, List.length_map]
  refine ⟨hlen, ?_, ?_⟩
  · rw [← List.length_pos_iff, ← hlen]
    exact List.length_pos_iff.mpr hne
  · rw [InMemLogStore.pack, hq.found (h.start ▸ hs) (h.next ▸ hcnt), hentries]
    rfl

theorem Twins.holds (h : Twins Aligned InSource s om) :
    ∃ m l, om = some m ∧ Coherent s l ∧ m.Holds l := by
  induction h with
  | create hsize hc => exact ⟨_, _, rfl, Coherent.create hsize hc, .new⟩
  | @append s _ e _ _ ih =>
      obtain ⟨m, l, rfl, hs, hm⟩ := ih
      exact ⟨_, _, rfl, hs.append e, hm.append e⟩
  | @writeAt s s' _ index e _ hok hw ih =>
      obtain ⟨m, l, rfl, hs, hm⟩ := ih
      obtain ⟨⟨hge, hle⟩, -⟩ := hs.sound.writeAt hw
      exact ⟨_, _, rfl, hs.writeAt hok.1 hok.2.1 hw, hm.writeAt (hs.start ▸ hge) (hs.next ▸ hle) e⟩
  | @compact s s' _ index _ _ hc ih =>
      obtain ⟨m, l, rfl, hs, hm⟩ := ih
      obtain ⟨hge, -⟩ := hs.sound.compact hc
      exact ⟨_, _, rfl, hs.compact hc, hm.compact (hs.start ▸ hge)⟩
  | @transfer s r s' _ _ index cnt index' p _ htr hsrc hp hok ha ih ihr =>
      obtain ⟨m, l, rfl, hs, hm⟩ := ih
      obtain ⟨q, lr, rfl, hr, hq⟩ := ihr
      obtain ⟨hlen, hne, hbufs⟩ := hr.pack hq hsrc hp (applyPack_idx_ne ha)
      have hfrom : FromStore p := ⟨r, index, cnt, htr.built, hp⟩
      obtain ⟨seg, hpack⟩ := hfrom.packOf (applyPack_idx_ne ha)
      obtain ⟨⟨hge, hle⟩, -⟩ := hs.sound.applyPack hpack ha
      have hend : s.nextSlot ≤ index' + p.idx.length := hok.2.2
      obtain ⟨m', hm', hholds⟩ := hm.applyPack hne (hs.start ▸ hge) (hs.next ▸ hle)
        (by rw [← hs.next, ← hlen]; exact hend)
      refine ⟨m', _, ?_, hs.applyPack hfrom hok.1 ha, hholds⟩
      rw [Option.bind_some, Option.bind_some, hbufs, Option.bind_some, hm']

/-- Main theorem: the two stores agree as long as every pack lies within its source and
reaches the end of its target, and the file-backed store is used with care. -/
theorem stores_agree (h : Twins Aligned InSource s om) : ∃ m, om = some m ∧ SameContract s m := by
  obtain ⟨m, l, rfl, hs, hm⟩ := h.holds
  exact ⟨m, rfl, hs.sameContract hm⟩

/-- A store with the entries `es`. -/
def storeOf (es : List Entry) : FsLogStore := es.foldl FsLogStore.append largeStore

def memOf (es : List Entry) : InMemLogStore := es.foldl InMemLogStore.append .new

theorem aligned_append (s : FsLogStore) (e : Entry) : Aligned s (.append e) :=
  ⟨trivial, trivial, trivial⟩

theorem twins_of (hok : ∀ s e, ok s (.append e)) (es : List Entry) :
    Twins ok inSource (storeOf es) (some (memOf es)) := by
  have hgen : ∀ (s : FsLogStore) (m : InMemLogStore), Twins ok inSource s (some m) →
      Twins ok inSource (es.foldl FsLogStore.append s)
        (some (es.foldl InMemLogStore.append m)) := by
    induction es with
    | nil => exact fun _ _ h => h
    | cons e es ih => exact fun s m h => ih _ _ (h.append (hok s e))
  exact hgen _ _ (.create (show (-1 : Int) ≠ 0 by decide) rfl)

/-- A pack of the last two of three entries, put over the second one of two. -/
theorem stores_agree_transfer : ∃ m, (InMemLogStore.applyPack (memOf [⟨1, 1, [7]⟩, ⟨1, 1, [8]⟩]) 2
      [Entry.serialize ⟨2, 1, [5]⟩, Entry.serialize ⟨2, 1, [4]⟩]) = some m ∧
    SameContract (((storeOf [⟨1, 1, [7]⟩, ⟨1, 1, [8]⟩]).applyPack 2
      ⟨[10, 20], Entry.serialize ⟨2, 1, [5]⟩ ++ Entry.serialize ⟨2, 1, [4]⟩⟩).getD largeStore) m := by
  have hsource : InSource (storeOf [⟨1, 1, [6]⟩, ⟨2, 1, [5]⟩, ⟨2, 1, [4]⟩]) 2 2 := by
    unfold InSource
    decide +kernel
  have hpack : (storeOf [⟨1, 1, [6]⟩, ⟨2, 1, [5]⟩, ⟨2, 1, [4]⟩]).pack 2 2 =
      some ⟨[10, 20], Entry.serialize ⟨2, 1, [5]⟩ ++ Entry.serialize ⟨2, 1, [4]⟩⟩ := rfl
  have haligned : Aligned (storeOf [⟨1, 1, [7]⟩, ⟨1, 1, [8]⟩]) (.applyPack 2
      ⟨[10, 20], Entry.serialize ⟨2, 1, [5]⟩ ++ Entry.serialize ⟨2, 1, [4]⟩⟩) := by
    decide +kernel
  have happly : (storeOf [⟨1, 1, [7]⟩, ⟨1, 1, [8]⟩]).applyPack 2
      ⟨[10, 20], Entry.serialize ⟨2, 1, [5]⟩ ++ Entry.serialize ⟨2, 1, [4]⟩⟩ = some _ := rfl
  have h := stores_agree (.transfer
    (twins_of aligned_append [⟨1, 1, [7]⟩, ⟨1, 1, [8]⟩])
    (twins_of aligned_append [⟨1, 1, [6]⟩, ⟨2, 1, [5]⟩, ⟨2, 1, [4]⟩])
    hsource hpack haligned happly)
  exact h

/-- One entry packed onto three: the file-backed store ends behind it, the map keeps the
other two. -/
theorem stores_differ : ∃ s m, Twins (fun _ _ => True) (fun _ _ _ => True) s (some m) ∧
    s.nextSlot = 2 ∧ m.nextSlot = 4 ∧ ¬ SameContract s m := by
  have hone : (storeOf [⟨2, 1, [6]⟩]).pack 1 1 = some ⟨[0], Entry.serialize ⟨2, 1, [6]⟩⟩ := rfl
  have happly : (storeOf [⟨1, 1, [7]⟩, ⟨1, 1, [8]⟩, ⟨1, 1, [9]⟩]).applyPack 1
      ⟨[0], Entry.serialize ⟨2, 1, [6]⟩⟩ = some _ := rfl
  have h : Twins (fun _ _ => True) (fun _ _ _ => True) _ _ :=
    .transfer (twins_of (by simp) [⟨1, 1, [7]⟩, ⟨1, 1, [8]⟩, ⟨1, 1, [9]⟩])
      (twins_of (by simp) [⟨2, 1, [6]⟩]) trivial hone trivial happly
  refine ⟨_, _, h, by decide +kernel, by decide +kernel, fun hsame => ?_⟩
  exact absurd hsame.next (by decide +kernel)

end Ns3Raft.Store
