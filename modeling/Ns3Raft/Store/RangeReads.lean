import Ns3Raft.Store.Layout

/-! # Range reads

`log_entries` takes the upper part of a range from the cache and the lower part from the
files. Both parts are counted with `int`s, the file part reads up to the cache, and the
vector is as long as `fill` made it.
-/

namespace Ns3Raft.Store

open Records

/-- `static_cast<int>`. -/
def castInt (n : Int) : Int := (n + 2 ^ 31) % 2 ^ 32 - 2 ^ 31

/-- `fill`, with the `int`s it counts with. `none` is an access beyond the cache or an overflow. -/
def LogBuffer.fillInt (b : LogBuffer) (start stop : Nat) : Option (List (Option Entry)) :=
  if stop < b.startIdx then some []
  else
    let offset := castInt ((start : Int) - b.startIdx)
    if 0 < offset then
      let cnt := (castInt ((stop : Int) - start)).toNat
      -- `offset + i` is an `int`
      if 2 ^ 31 < offset.toNat + cnt then none
      else (readAt b.buf offset.toNat cnt).map fun es => es.map some
    else if offset = -2 ^ 31 then none
    else
      (readAt b.buf 0 (castInt ((stop : Int) - b.startIdx)).toNat).map fun es =>
        List.replicate (-offset).toNat none ++ es.map some

namespace FsLogStore

/-- The entry at a position of the index file that is not the last one. A negative size is no
size for `alloc`. -/
def readEntryInt (s : FsLogStore) (k : Nat) : Option Entry :=
  match s.files.idx[k]?, s.files.idx[k + 1]? with
  | some dataStart, some dataEnd =>
      let dataSz := castInt ((dataEnd : Int) - dataStart)
      if dataSz < 0 then none else (readAt s.files.data dataStart dataSz.toNat).bind Entry.deserialize
  | _, _ => none

def readRangeInt (s : FsLogStore) (k : Nat) : Nat → Option (List Entry)
  | 0 => some []
  | n + 1 =>
      match s.readEntryInt k, readRangeInt s (k + 1) n with
      | some e, some es => some (e :: es)
      | _, _ => none

/-- `log_entries`, with the `int`s it counts with. The inner `none` is the null pointer; an element
written outside the vector is an error. -/
def logEntriesInt (s : FsLogStore) (start stop : Nat) : Option (Option (List (Option Entry))) :=
  if start < s.startIdx then none
  else if stop ≤ start ∨ s.nextSlot ≤ start then some none
  else
    let goodEnd := min stop s.nextSlot
    match s.buf.fillInt start goodEnd with
    | none => none
    | some results =>
        if start < s.buf.firstIdx then
          let cnt := (castInt ((s.buf.firstIdx : Int) - start)).toNat
          if results.length < cnt then none
          else (s.readRangeInt (start - s.startIdx) cnt).map fun es =>
            some (es.map some ++ results.drop cnt)
        else some (some results)

end FsLogStore

/-! ## Stores whose cache holds the last entries -/

/-- The cache begins anywhere in the log and goes to its end. -/
structure Cached (s : FsLogStore) (rs : List (List UInt8)) : Prop extends Sound s rs where
  first_ge : s.startIdx ≤ s.buf.startIdx
  first_le : s.buf.startIdx ≤ s.nextSlot
  buf : s.buf.buf = (rs.map Entry.ofRecord).drop (s.buf.startIdx - s.startIdx)

/-- The entries from `start` to the end of the range or of the log. -/
def FsLogStore.slice (s : FsLogStore) (rs : List (List UInt8)) (start stop : Nat) : List Entry :=
  ((rs.map Entry.ofRecord).drop (start - s.startIdx)).take (min stop s.nextSlot - start)

/-- The null pointer for an empty range, and otherwise the entries, with no element left null and
none written outside. -/
def ReadsRange (s : FsLogStore) (rs : List (List UInt8)) (start stop : Nat) : Prop :=
  s.logEntriesInt start stop =
    some (if min stop s.nextSlot ≤ start then none else some ((s.slice rs start stop).map some))

/-- The range is empty; or it begins in the cache, at a distance that the `int` keeps (or comes to
the same entries) and with no more entries than an `int` counts; or it reaches the cache, which is not
empty, both parts are counted by `int`s, and so are the bytes of every record of the lower part. -/
def Readable (s : FsLogStore) (rs : List (List UInt8)) (start stop : Nat) : Prop :=
  let first := s.buf.startIdx
  let last := min stop s.nextSlot
  last ≤ start ∨
  (first ≤ start ∧ (start - first) % 2 ^ 32 < 2 ^ 31 ∧ last - start < 2 ^ 31 ∧
    ((start - first) % 2 ^ 32 = 0 ∨ (start - first) % 2 ^ 32 + (last - start) ≤ 2 ^ 31) ∧
    s.slice rs (first + (start - first) % 2 ^ 32) (first + (start - first) % 2 ^ 32 + (last - start)) =
      s.slice rs start last) ∨
  (start < first ∧ first ≤ last ∧ first < s.nextSlot ∧ first - start < 2 ^ 31 ∧ last - first < 2 ^ 31 ∧
    ∀ r ∈ (rs.drop (start - s.startIdx)).take (first - start), r.length < 2 ^ 31)

variable {s : FsLogStore} {rs : List (List UInt8)} {start stop : Nat}

/-- With fewer than 2^31 entries, and fewer bytes in each, only the place of the cache counts. -/
theorem readable_iff_of_small (h : Cached s rs) (hmany : rs.length < 2 ^ 31)
    (hlong : ∀ r ∈ rs, r.length < 2 ^ 31) (hstart : s.startIdx ≤ start) :
    Readable s rs start stop ↔ min stop s.nextSlot ≤ start ∨ s.buf.startIdx ≤ start ∨
      (s.buf.startIdx ≤ stop ∧ s.buf.startIdx < s.nextSlot) := by
  have hnext := h.next
  have hge := h.first_ge
  have hle := h.first_le
  unfold Readable
  dsimp only
  rcases Nat.lt_or_ge start (min stop s.nextSlot) with hlt | hempty
  · rcases Nat.lt_or_ge start s.buf.startIdx with hbelow | hcached
    · constructor
      · omega
      · intro hcase
        refine .inr (.inr ⟨hbelow, by omega, by omega, by omega, by omega, fun r hr => ?_⟩)
        exact hlong r (List.mem_of_mem_drop (List.mem_of_mem_take hr))
    · have hmod : (start - s.buf.startIdx) % 2 ^ 32 = start - s.buf.startIdx := Nat.mod_eq_of_lt (by omega)
      have hback : s.buf.startIdx + (start - s.buf.startIdx) = start := by omega
      have hend : start + (min stop s.nextSlot - start) = min stop s.nextSlot := by omega
      refine ⟨fun _ => .inr (.inl hcached), fun _ => .inr (.inl ⟨hcached, ?_⟩)⟩
      rw [hmod, hback, hend]
      exact ⟨by omega, by omega, by omega, rfl⟩
  · exact ⟨fun _ => .inl hempty, fun _ => .inl hempty⟩

/-! ## The cached part -/

theorem castInt_of_lt {n : Nat} (h : n < 2 ^ 31) : castInt n = n := by
  unfold castInt
  omega

theorem castInt_le (n : Nat) : (castInt n).toNat ≤ n := by
  unfold castInt
  omega

/-- Only what an `int` holds comes through. -/
theorem lt_of_castInt_eq {n : Nat} (h : (castInt n).toNat = n) : n < 2 ^ 31 := by
  unfold castInt at h
  omega

theorem slice_length (stop : Nat) (h : Sound s rs) (hstart : s.startIdx ≤ start) :
    (s.slice rs start stop).length = min stop s.nextSlot - start := by
  have hnext := h.next
  rw [FsLogStore.slice, List.length_take, List.length_drop, List.length_map]
  omega

/-- A read from the cache, within it. -/
theorem readAt_cache (h : Cached s rs) {o cnt : Nat} (hfit : s.buf.startIdx + o + cnt ≤ s.nextSlot) :
    readAt s.buf.buf o cnt = some (s.slice rs (s.buf.startIdx + o) (s.buf.startIdx + o + cnt)) := by
  have hnext := h.next
  have hge := h.first_ge
  have hlen : s.buf.buf.length = rs.length - (s.buf.startIdx - s.startIdx) := by
    rw [h.buf, List.length_drop, List.length_map]
  have hdrop : s.buf.startIdx - s.startIdx + o = s.buf.startIdx + o - s.startIdx := by omega
  have htake : cnt = min (s.buf.startIdx + o + cnt) s.nextSlot - (s.buf.startIdx + o) := by omega
  rw [readAt, if_pos (by omega), h.buf, List.drop_drop, hdrop, FsLogStore.slice, ← htake]

theorem map_some_injective {es es' : List Entry} (h : es.map some = es'.map some) : es = es' :=
  List.map_injective_iff.mpr (fun _ _ => Option.some.inj) h

/-- The first part of a vector without a null element is empty when it is made of nulls. -/
theorem replicate_eq_zero {n : Nat} {es es' : List Entry}
    (h : List.replicate n none ++ es.map some = es'.map some) : n = 0 := by
  cases n with
  | zero => rfl
  | succ n =>
      cases es' with
      | nil => cases h
      | cons e es' => cases h

/-- The range begins in the cache. -/
theorem fillInt_upper (h : Cached s rs) (hcached : s.buf.startIdx ≤ start) (hlt : start < min stop s.nextSlot) :
    s.buf.fillInt start (min stop s.nextSlot) = some ((s.slice rs start stop).map some) ↔
      (start - s.buf.startIdx) % 2 ^ 32 < 2 ^ 31 ∧ min stop s.nextSlot - start < 2 ^ 31 ∧
        ((start - s.buf.startIdx) % 2 ^ 32 = 0 ∨
          (start - s.buf.startIdx) % 2 ^ 32 + (min stop s.nextSlot - start) ≤ 2 ^ 31) ∧
        s.slice rs (s.buf.startIdx + (start - s.buf.startIdx) % 2 ^ 32)
          (s.buf.startIdx + (start - s.buf.startIdx) % 2 ^ 32 + (min stop s.nextSlot - start)) =
            s.slice rs start stop := by
  have hge := h.first_ge
  have hlen := slice_length stop h.toSound (Nat.le_trans hge hcached)
  have hle : min stop s.nextSlot ≤ s.nextSlot := Nat.min_le_right _ _
  obtain ⟨last, hlast⟩ : ∃ last, last = min stop s.nextSlot := ⟨_, rfl⟩
  obtain ⟨o, ho⟩ : ∃ o, o = (start - s.buf.startIdx) % 2 ^ 32 := ⟨_, rfl⟩
  rw [← hlast] at hlt hlen hle ⊢
  rw [← ho]
  have hole : o ≤ start - s.buf.startIdx := ho ▸ Nat.mod_le _ _
  have holt : o < 2 ^ 32 := ho ▸ Nat.mod_lt _ (by decide)
  have hcast : castInt ((start : Int) - s.buf.startIdx) = if o < 2 ^ 31 then (o : Int) else o - 2 ^ 32 := by
    unfold castInt
    split <;> omega
  have hsub : ((last : Int) - start) = ((last - start : Nat) : Int) := by omega
  have hfirst (hzero : o = 0) : castInt ((last : Int) - s.buf.startIdx) = castInt ((last - start : Nat) : Int) := by
    unfold castInt
    omega
  have hbelow : ¬ last < s.buf.startIdx := by omega
  obtain ⟨cnt, hcnt⟩ : ∃ cnt, (castInt ((last - start : Nat) : Int)).toNat = cnt := ⟨_, rfl⟩
  have hcntle : cnt ≤ last - start := hcnt ▸ castInt_le (last - start)
  have hwhole : cnt = last - start ↔ last - start < 2 ^ 31 := by
    rw [← hcnt]
    refine ⟨lt_of_castInt_eq, fun hint => ?_⟩
    rw [castInt_of_lt hint, Int.toNat_natCast]
  have hread : s.buf.startIdx + o + cnt ≤ s.nextSlot := by
    have hsum : s.buf.startIdx + o ≤ start := Nat.add_le_of_le_sub' hcached hole
    have hgap : start + (last - start) = last := Nat.add_sub_cancel' (Nat.le_of_lt hlt)
    exact Nat.le_trans (Nat.add_le_add hsum hcntle) (by rw [hgap]; exact hle)
  unfold LogBuffer.fillInt
  dsimp only
  rw [if_neg hbelow, hcast, hsub, hcnt]
  clear hcast hsub hlast ho
  by_cases hwrap : o < 2 ^ 31
  · rw [if_pos hwrap]
    rcases Nat.eq_zero_or_pos o with hzero | hpos
    · -- the cached entries are counted from the first
      rw [hzero, Nat.add_zero] at hread
      rw [if_neg (by omega), if_neg (by omega), hfirst hzero, hcnt, readAt_cache h (o := 0) hread, hzero]
      simp only [Option.map_some, Int.ofNat_zero, Int.neg_zero, Int.toNat_zero, List.replicate_zero,
        List.nil_append, Option.some.injEq, Nat.add_zero]
      constructor
      · intro heq
        have hsame := map_some_injective heq
        have hcount : cnt = last - start := by
          have hlens := congrArg List.length hsame
          rw [hlen, slice_length _ h.toSound hge, Nat.min_eq_left hread, Nat.add_sub_cancel_left] at hlens
          exact hlens
        rw [hcount] at hsame
        exact ⟨Nat.two_pow_pos 31, hwhole.mp hcount, .inl trivial, hsame⟩
      · rintro ⟨-, hint, -, hsame⟩
        rw [hwhole.mpr hint, hsame]
    · rw [if_pos (by omega), Int.toNat_natCast]
      constructor
      · intro heq
        by_cases hover : 2 ^ 31 < o + cnt
        · rw [if_pos hover] at heq
          cases heq
        · rw [if_neg hover, readAt_cache h hread, Option.map_some, Option.some.injEq] at heq
          have hsame := map_some_injective heq
          have hcount : cnt = last - start := by
            have hlens := congrArg List.length hsame
            rw [hlen, slice_length _ h.toSound (Nat.le_add_right_of_le hge), Nat.min_eq_left hread,
              Nat.add_sub_cancel_left] at hlens
            exact hlens
          rw [hcount] at hsame hover
          exact ⟨hwrap, hwhole.mp hcount, .inr (by omega), hsame⟩
      · rintro ⟨-, hint, hfits, hsame⟩
        rw [hwhole.mpr hint] at hread ⊢
        rw [if_neg (by omega), readAt_cache h hread, hsame, Option.map_some]
  · -- a distance that comes out negative makes room for nulls
    rw [if_neg hwrap, if_neg (by omega)]
    constructor
    · intro heq
      split at heq
      · cases heq
      · obtain ⟨es, -, hes⟩ := Option.map_eq_some_iff.mp heq
        have hnone := replicate_eq_zero hes
        omega
    · rintro ⟨hlt', -⟩
      exact absurd hlt' hwrap

/-! ## The part in the files -/

theorem readAt_length {β : Type} {f xs : List β} {pos n : Nat} (h : readAt f pos n = some xs) : xs.length = n := by
  unfold readAt at h
  split at h
  · obtain rfl := Option.some.inj h
    rw [List.length_take, List.length_drop]
    omega
  · cases h

theorem Entry.payload_length_of_deserialize {r : List UInt8} {e : Entry} (h : Entry.deserialize r = some e) :
    r.length = szUlong + 1 + e.payload.length := by
  unfold Entry.deserialize at h
  split at h
  · cases h
  · next hlen =>
      split at h
      · cases h
      · next t payload hdrop =>
          obtain rfl := Option.some.inj h
          have hlens := congrArg List.length hdrop
          rw [List.length_drop, List.length_cons] at hlens
          dsimp only
          omega

/-- An entry is read if its record is not the last one and an `int` counts its bytes. -/
theorem readEntryInt_iff (h : Sound s rs) {k : Nat} (hk : k < rs.length) :
    s.readEntryInt k = some (Entry.ofRecord rs[k]) ↔ k + 1 < rs.length ∧ rs[k].length < 2 ^ 31 := by
  have hsize := h.laid.size _ (List.getElem_mem hk)
  unfold FsLogStore.readEntryInt
  rw [h.idx_getElem? hk]
  by_cases hnext : k + 1 < rs.length
  · have hsub : ((rs.take (k + 1)).flatten.length : Int) - (rs.take k).flatten.length = (rs[k].length : Nat) := by
      rw [flatten_take_succ hk]
      omega
    rw [h.idx_getElem? hnext]
    dsimp only
    rw [hsub]
    constructor
    · intro hread
      refine ⟨hnext, ?_⟩
      split at hread
      · cases hread
      · obtain ⟨bytes, hbytes, hentry⟩ := Option.bind_eq_some_iff.mp hread
        have hlen := Entry.payload_length_of_deserialize hentry
        have hlen' := Entry.payload_length_of_deserialize (Entry.deserialize_eq hsize)
        have hbytes' : bytes.length = rs[k].length := by rw [hlen, hlen']
        exact lt_of_castInt_eq ((readAt_length hbytes).symm.trans hbytes')
    · rintro ⟨-, hint⟩
      rw [castInt_of_lt hint, if_neg (by omega), Int.toNat_natCast, h.laid.data, readAt_record hk,
        Option.bind_some, Entry.deserialize_eq hsize]
  · rw [h.idx_getElem?_end (by omega)]
    exact ⟨fun hread => (nomatch hread), fun hcase => absurd hcase.1 hnext⟩

theorem readRangeInt_iff (h : Sound s rs) {k n : Nat} (hkn : k + n ≤ rs.length) :
    s.readRangeInt k n = some (((rs.map Entry.ofRecord).drop k).take n) ↔
      (n = 0 ∨ k + n < rs.length) ∧ ∀ r ∈ (rs.drop k).take n, r.length < 2 ^ 31 := by
  induction n generalizing k with
  | zero => simp [FsLogStore.readRangeInt]
  | succ n ih =>
      have hk : k < rs.length := by omega
      have hhead := readEntryInt_iff h hk
      have htail := ih (k := k + 1) (by omega)
      have hdrop : (rs.map Entry.ofRecord).drop k =
          Entry.ofRecord rs[k] :: (rs.map Entry.ofRecord).drop (k + 1) := by
        rw [List.drop_eq_getElem_cons (by simpa using hk), List.getElem_map]
      have hrecords : (rs.drop k).take (n + 1) = rs[k] :: (rs.drop (k + 1)).take n := by
        rw [List.drop_eq_getElem_cons hk, List.take_succ_cons]
      have hsplit : s.readRangeInt k (n + 1) = some (((rs.map Entry.ofRecord).drop k).take (n + 1)) ↔
          s.readEntryInt k = some (Entry.ofRecord rs[k]) ∧
            s.readRangeInt (k + 1) n = some (((rs.map Entry.ofRecord).drop (k + 1)).take n) := by
        rw [hdrop, List.take_succ_cons, FsLogStore.readRangeInt]
        cases s.readEntryInt k with
        | none => simp
        | some e =>
            cases s.readRangeInt (k + 1) n with
            | none => simp
            | some es => simp
      rw [hsplit, hhead, htail, hrecords, List.forall_mem_cons]
      constructor
      · rintro ⟨⟨hnext, hint⟩, hend, hints⟩
        exact ⟨.inr (by omega), hint, hints⟩
      · rintro ⟨hend, hint, hints⟩
        exact ⟨⟨by omega, hint⟩, by omega, hints⟩

theorem length_readRangeInt {k n : Nat} {es : List Entry} (h : s.readRangeInt k n = some es) :
    es.length = n := by
  induction n generalizing k es with
  | zero =>
      obtain rfl := Option.some.inj h
      rfl
  | succ n ih =>
      unfold FsLogStore.readRangeInt at h
      split at h
      · next hrest =>
          obtain rfl := Option.some.inj h
          rw [List.length_cons, ih hrest]
      · cases h

/-! ## The two parts together -/

/-- A range that ends below the cache: the vector stays empty. -/
theorem not_readsRange_below (hcache : start < s.buf.startIdx)
    (hstart : s.startIdx ≤ start) (hlt : start < min stop s.nextSlot) (hbelow : min stop s.nextSlot < s.buf.startIdx)
    (h : Sound s rs) : ¬ ReadsRange s rs start stop := by
  intro hread
  have hlen := slice_length stop h hstart
  unfold ReadsRange FsLogStore.logEntriesInt LogBuffer.fillInt LogBuffer.firstIdx at hread
  rw [if_neg (by omega), if_neg (by omega)] at hread
  dsimp only at hread
  rw [if_pos hbelow, if_neg (by omega)] at hread
  dsimp only at hread
  rw [if_pos hcache] at hread
  split at hread
  · cases hread
  · next hcnt =>
      have hzero : (castInt ((s.buf.startIdx : Int) - start)).toNat = 0 := by
        simpa using hcnt
      rw [hzero, FsLogStore.readRangeInt, Option.map_some, Option.some.injEq, Option.some.injEq] at hread
      have hlens := congrArg List.length hread
      rw [List.length_map, hlen] at hlens
      simp at hlens
      omega

/-- What `fill` makes of a range that begins below the cache and reaches it. -/
theorem fillInt_lower (h : Cached s rs) (hcache : start < s.buf.startIdx)
    (hreach : s.buf.startIdx ≤ min stop s.nextSlot) (hbelow : s.buf.startIdx - start < 2 ^ 31)
    (habove : min stop s.nextSlot - s.buf.startIdx < 2 ^ 31) :
    s.buf.fillInt start (min stop s.nextSlot) =
      some (List.replicate (s.buf.startIdx - start) none ++
        (s.slice rs s.buf.startIdx (min stop s.nextSlot)).map some) := by
  have hle : min stop s.nextSlot ≤ s.nextSlot := Nat.min_le_right _ _
  obtain ⟨last, hlast⟩ : ∃ last, last = min stop s.nextSlot := ⟨_, rfl⟩
  rw [← hlast] at hreach habove hle ⊢
  have hoffset : castInt ((start : Int) - s.buf.startIdx) = -((s.buf.startIdx - start : Nat) : Int) := by
    unfold castInt
    omega
  have hsub : ((last : Int) - s.buf.startIdx) = ((last - s.buf.startIdx : Nat) : Int) := by omega
  have hend : s.buf.startIdx + 0 + (last - s.buf.startIdx) = last := by omega
  have hfit : s.buf.startIdx + 0 + (last - s.buf.startIdx) ≤ s.nextSlot := by
    rw [hend]
    exact hle
  have hread := readAt_cache h hfit
  rw [hend, Nat.add_zero] at hread
  unfold LogBuffer.fillInt
  dsimp only
  rw [if_neg (by omega), hoffset, if_neg (by omega), if_neg (by omega), hsub, castInt_of_lt habove,
    Int.toNat_natCast, hread, Int.neg_neg, Int.toNat_natCast, Option.map_some]

/-- A vector as long as the range has both parts counted as they are. -/
theorem length_fillInt_lower {results : List (Option Entry)} (hcache : start < s.buf.startIdx)
    (hreach : s.buf.startIdx ≤ min stop s.nextSlot)
    (hfill : s.buf.fillInt start (min stop s.nextSlot) = some results)
    (hlen : results.length = min stop s.nextSlot - start) :
    s.buf.startIdx - start < 2 ^ 31 ∧ min stop s.nextSlot - s.buf.startIdx < 2 ^ 31 := by
  obtain ⟨last, hlast⟩ : ∃ last, last = min stop s.nextSlot := ⟨_, rfl⟩
  rw [← hlast] at hreach hfill hlen ⊢
  have hread {pos cnt : Nat} {es : List Entry} (hes : readAt s.buf.buf pos cnt = some es) : es.length = cnt := by
    unfold readAt at hes
    split at hes
    · obtain rfl := Option.some.inj hes
      rw [List.length_take, List.length_drop]
      omega
    · cases hes
  unfold LogBuffer.fillInt at hfill
  dsimp only at hfill
  rw [if_neg (by omega)] at hfill
  split at hfill
  · split at hfill
    · cases hfill
    · obtain ⟨es, hes, rfl⟩ := Option.map_eq_some_iff.mp hfill
      rw [List.length_map, hread hes] at hlen
      unfold castInt at *
      omega
  · split at hfill
    · cases hfill
    · obtain ⟨es, hes, rfl⟩ := Option.map_eq_some_iff.mp hfill
      rw [List.length_append, List.length_replicate, List.length_map, hread hes] at hlen
      unfold castInt at *
      omega

/-- The lower and the upper part of a range. -/
theorem slice_split (h : Cached s rs) (hstart : s.startIdx ≤ start) (hcache : start < s.buf.startIdx)
    (hreach : s.buf.startIdx ≤ min stop s.nextSlot) :
    s.slice rs start stop =
      ((rs.map Entry.ofRecord).drop (start - s.startIdx)).take (s.buf.startIdx - start) ++
        s.slice rs s.buf.startIdx (min stop s.nextSlot) := by
  have hcount : min stop s.nextSlot - start =
      s.buf.startIdx - start + (min (min stop s.nextSlot) s.nextSlot - s.buf.startIdx) := by omega
  have hdrop : start - s.startIdx + (s.buf.startIdx - start) = s.buf.startIdx - s.startIdx := by omega
  rw [FsLogStore.slice, FsLogStore.slice, hcount, List.take_add, List.drop_drop, hdrop]

/-- The range begins below the cache and reaches it. -/
theorem readsRange_lower (h : Cached s rs) (hstart : s.startIdx ≤ start) (hcache : start < s.buf.startIdx)
    (hreach : s.buf.startIdx ≤ min stop s.nextSlot) :
    ReadsRange s rs start stop ↔
      s.buf.startIdx < s.nextSlot ∧ s.buf.startIdx - start < 2 ^ 31 ∧
        min stop s.nextSlot - s.buf.startIdx < 2 ^ 31 ∧
        ∀ r ∈ (rs.drop (start - s.startIdx)).take (s.buf.startIdx - start), r.length < 2 ^ 31 := by
  have hnext := h.next
  have hle := h.first_le
  have hlen := slice_length stop h.toSound hstart
  have hfit : start - s.startIdx + (s.buf.startIdx - start) ≤ rs.length := by omega
  have hrange := readRangeInt_iff h.toSound hfit
  have hsplit := slice_split h hstart hcache hreach
  have hsub : ((s.buf.startIdx : Int) - start) = ((s.buf.startIdx - start : Nat) : Int) := by omega
  have hlower : (((rs.map Entry.ofRecord).drop (start - s.startIdx)).take (s.buf.startIdx - start)).length =
      s.buf.startIdx - start := by
    rw [List.length_take, List.length_drop, List.length_map]
    omega
  have hnonempty : s.buf.startIdx - start ≠ 0 := by omega
  unfold ReadsRange FsLogStore.logEntriesInt LogBuffer.firstIdx
  rw [if_neg (by omega), if_neg (by omega), if_neg (by omega)]
  dsimp only
  obtain ⟨cnt, hcnt⟩ : ∃ cnt, castInt ((s.buf.startIdx - start : Nat) : Int) = cnt := ⟨_, rfl⟩
  have hgood (hbelow : s.buf.startIdx - start < 2 ^ 31) : cnt = (s.buf.startIdx - start : Nat) :=
    hcnt.symm.trans (castInt_of_lt hbelow)
  rw [hsub, hcnt]
  clear hcnt
  constructor
  · intro hread
    cases hfill : s.buf.fillInt start (min stop s.nextSlot) with
    | none =>
        rw [hfill] at hread
        cases hread
    | some results =>
        rw [hfill] at hread
        dsimp only at hread
        rw [if_pos hcache] at hread
        split at hread
        · cases hread
        · next hnonneg =>
            obtain ⟨es, hes, heq⟩ := Option.map_eq_some_iff.mp hread
            have heq' := Option.some.inj heq
            have heslen := length_readRangeInt hes
            have hresults : results.length = min stop s.nextSlot - start := by
              have hlens := congrArg List.length heq'
              rw [List.length_append, List.length_map, List.length_map, List.length_drop, hlen] at hlens
              omega
            obtain ⟨hbelow, habove⟩ := length_fillInt_lower hcache hreach hfill hresults
            rw [hgood hbelow, Int.toNat_natCast] at hes heslen
            rw [hsplit, List.map_append] at heq'
            obtain ⟨hfirst, -⟩ := List.append_inj heq' (by rw [List.length_map, List.length_map, heslen, hlower])
            obtain ⟨hend, hsmall⟩ := hrange.mp (hes.trans (congrArg some (map_some_injective hfirst)))
            exact ⟨by omega, hbelow, habove, hsmall⟩
  · rintro ⟨hmore, hbelow, habove, hsmall⟩
    have hentries := hrange.mpr ⟨.inr (by omega), hsmall⟩
    rw [fillInt_lower h hcache hreach hbelow habove, hgood hbelow, Int.toNat_natCast]
    dsimp only
    rw [if_pos hcache, if_neg (by simp), hentries, List.drop_left' (List.length_replicate), Option.map_some,
      hsplit, List.map_append]

theorem readsRange_upper (h : Cached s rs) (hstart : s.startIdx ≤ start) (hcached : s.buf.startIdx ≤ start)
    (hlt : start < min stop s.nextSlot) :
    ReadsRange s rs start stop ↔
      s.buf.fillInt start (min stop s.nextSlot) = some ((s.slice rs start stop).map some) := by
  unfold ReadsRange FsLogStore.logEntriesInt LogBuffer.firstIdx
  rw [if_neg (by omega), if_neg (by omega), if_neg (by omega)]
  dsimp only
  cases s.buf.fillInt start (min stop s.nextSlot) with
  | none => simp
  | some results =>
      dsimp only
      rw [if_neg (by omega), Option.some.injEq, Option.some.injEq]

/-- A range is read exactly when it is readable. -/
theorem readsRange_iff_readable (h : Cached s rs) (hstart : s.startIdx ≤ start) :
    ReadsRange s rs start stop ↔ Readable s rs start stop := by
  have hslice : s.slice rs start (min stop s.nextSlot) = s.slice rs start stop := by
    rw [FsLogStore.slice, FsLogStore.slice, Nat.min_assoc, Nat.min_self]
  unfold Readable
  dsimp only
  rw [hslice]
  rcases Nat.lt_or_ge start (min stop s.nextSlot) with hlt | hempty
  · rcases Nat.lt_or_ge start s.buf.startIdx with hcache | hcached
    · rcases Nat.lt_or_ge (min stop s.nextSlot) s.buf.startIdx with hbelow | hreach
      · have hnot := not_readsRange_below hcache hstart hlt hbelow h.toSound
        constructor
        · exact fun hread => absurd hread hnot
        · omega
      · rw [readsRange_lower h hstart hcache hreach]
        constructor
        · rintro ⟨hmore, hrest⟩
          exact .inr (.inr ⟨hcache, hreach, hmore, hrest⟩)
        · rintro (hend | ⟨hfirst, -⟩ | ⟨-, -, hall⟩)
          · omega
          · omega
          · exact hall
    · rw [readsRange_upper h hstart hcached hlt, fillInt_upper h hcached hlt]
      constructor
      · exact fun hall => .inr (.inl ⟨hcached, hall⟩)
      · rintro (hend | ⟨-, hall⟩ | ⟨hfirst, -⟩)
        · omega
        · exact hall
        · omega
  · refine ⟨fun _ => .inl hempty, fun _ => ?_⟩
    unfold ReadsRange FsLogStore.logEntriesInt
    rw [if_neg (by omega), if_pos (by omega), if_pos hempty]

/-! ## Stores of a size that an `int` counts -/

theorem fillInt_eq_fill (h : Cached s rs) (hmany : rs.length < 2 ^ 31) (hstart : s.startIdx ≤ start)
    (hle : start ≤ stop) (hstop : stop ≤ s.nextSlot) : s.buf.fillInt start stop = s.buf.fill start stop := by
  have hnext := h.next
  have hge := h.first_ge
  unfold LogBuffer.fillInt LogBuffer.fill
  dsimp only
  by_cases hbelow : stop < s.buf.startIdx
  · rw [if_pos hbelow, if_pos hbelow]
  rw [if_neg hbelow, if_neg hbelow]
  rcases Nat.lt_or_ge s.buf.startIdx start with hcached | hfirst
  · have hoffset : castInt ((start : Int) - s.buf.startIdx) = ((start - s.buf.startIdx : Nat) : Int) := by
      unfold castInt
      omega
    have hcnt : castInt ((stop : Int) - start) = ((stop - start : Nat) : Int) := by
      unfold castInt
      omega
    rw [hoffset, hcnt, if_pos (by omega), if_pos hcached, Int.toNat_natCast, Int.toNat_natCast,
      if_neg (by omega)]
  · have hoffset : castInt ((start : Int) - s.buf.startIdx) = -((s.buf.startIdx - start : Nat) : Int) := by
      unfold castInt
      omega
    have hcnt : castInt ((stop : Int) - s.buf.startIdx) = ((stop - s.buf.startIdx : Nat) : Int) := by
      unfold castInt
      omega
    rw [hoffset, hcnt, if_neg (by omega), if_neg (by omega), if_neg (by omega), Int.neg_neg,
      Int.toNat_natCast, Int.toNat_natCast]

theorem readRangeInt_eq_readRange (h : Sound s rs) (hlong : ∀ r ∈ rs, r.length < 2 ^ 31) (k n : Nat) :
    s.readRangeInt k n = s.readRange k n := by
  have hentry (k : Nat) : s.readEntryInt k = (s.readRecord k).bind Entry.deserialize := by
    by_cases hk : k + 1 < rs.length
    · have hsmall := hlong _ (List.getElem_mem (by omega : k < rs.length))
      rw [(readEntryInt_iff h (by omega)).mpr ⟨hk, hsmall⟩, h.readRecord_entry hk]
    · unfold FsLogStore.readEntryInt FsLogStore.readRecord
      rw [h.idx_getElem?_end (Nat.not_lt.mp hk)]
      cases s.files.idx[k]? <;> rfl
  induction n generalizing k with
  | zero => rfl
  | succ n ih =>
      have hrest := ih (k + 1)
      cases hfirst : (s.readRecord k).bind Entry.deserialize <;> cases htail : s.readRange (k + 1) n <;>
        simp only [FsLogStore.readRangeInt, FsLogStore.readRange, hentry, hrest, hfirst, htail]

/-- There the counters are the numbers they count. -/
theorem logEntriesInt_eq_logEntries (h : Cached s rs) (hmany : rs.length < 2 ^ 31)
    (hlong : ∀ r ∈ rs, r.length < 2 ^ 31) : s.logEntriesInt start stop = s.logEntries start stop := by
  have hnext := h.next
  have hle := h.first_le
  unfold FsLogStore.logEntriesInt FsLogStore.logEntries
  by_cases hstart : start < s.startIdx
  · rw [if_pos hstart, if_pos hstart]
  by_cases hempty : stop ≤ start ∨ s.nextSlot ≤ start
  · rw [if_neg hstart, if_neg hstart, if_pos hempty, if_pos hempty]
  rw [if_neg hstart, if_neg hstart, if_neg hempty, if_neg hempty]
  dsimp only
  rw [fillInt_eq_fill h hmany (by omega) (by omega) (Nat.min_le_right _ _)]
  cases s.buf.fill start (min stop s.nextSlot) with
  | none => rfl
  | some results =>
      dsimp only
      by_cases hcache : start < s.buf.firstIdx
      · have hcnt : castInt ((s.buf.firstIdx : Int) - start) = ((s.buf.firstIdx - start : Nat) : Int) := by
          unfold LogBuffer.firstIdx at hcache ⊢
          unfold castInt
          omega
        rw [if_pos hcache, if_pos hcache, hcnt, Int.toNat_natCast, readRangeInt_eq_readRange h.toSound hlong]
      · rw [if_neg hcache, if_neg hcache]

/-- Three entries, the last of them in the cache. -/
def threeEntries : List Entry := [⟨1, 1, [7]⟩, ⟨1, 1, []⟩, ⟨2, 1, [8, 9]⟩]

def threeStore : FsLogStore :=
  threeEntries.foldl FsLogStore.append ⟨⟨[], [], some 1⟩, 0, 1, ⟨[], 1, 1⟩, 1⟩

theorem cached_threeStore : Cached threeStore (threeEntries.map Entry.serialize) where
  laid := ⟨by decide +kernel, by decide +kernel, rfl, by decide +kernel⟩
  count := rfl
  cache := rfl
  start_pos := by decide
  first_ge := by decide
  first_le := by decide
  buf := by decide +kernel

theorem readsRange_threeStore : ReadsRange threeStore (threeEntries.map Entry.serialize) 1 5 :=
  (readsRange_iff_readable cached_threeStore (by decide)).mpr
    (.inr (.inr ⟨by decide, by decide, by decide, by decide, by decide, by decide +kernel⟩))

theorem not_readsRange_threeStore : ¬ ReadsRange threeStore (threeEntries.map Entry.serialize) 1 2 :=
  not_readsRange_below (by decide) (by decide) (by decide) (by decide) cached_threeStore.toSound

end Ns3Raft.Store
