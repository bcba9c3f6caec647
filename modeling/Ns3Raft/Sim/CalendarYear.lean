import Ns3Raft.Sim.CalendarScheduler

/-! # The year of the calendar

An event belongs to the window of its time. The calendar's hand stands at the
window of the last event taken; no event is before it, and a round through the
buckets meets the windows of one year in order.
-/

namespace Ns3Raft.Sim

namespace CalendarScheduler

/-! ## Windows -/

section Windows

variable {w n v ts j : Nat}

/-- The window of a time, among the windows of a year that begins at window `v`. -/
theorem window_eq (hv : v ≤ ts / w) (hle : ts / w ≤ v + j) (hj : j < n)
    (hmod : ts / w % n = (v + j) % n) : ts / w = v + j := by
  have hdvd : n ∣ v + j - ts / w :=
    Nat.dvd_of_mod_eq_zero (Nat.sub_mod_eq_zero_of_mod_eq hmod.symm)
  have hlt : v + j - ts / w < n := by omega
  have hzero := Nat.eq_zero_of_dvd_of_lt hdvd hlt
  omega

theorem lt_top (hw : 0 < w) : ts < (ts / w + 1) * w := by
  rw [Nat.mul_comm]
  exact Nat.lt_mul_div_succ ts hw

/-- The top of a window that begins before 2⁶³ fits in 64 bits. -/
theorem top_lt (hw64 : w < 2 ^ 64) (hts : ts < 2 ^ 63) : (ts / w + 1) * w < 2 ^ 64 := by
  rcases Nat.lt_or_ge ts w with hlt | hge
  · rw [Nat.div_eq_of_lt hlt]
    omega
  · have hle : ts / w * w ≤ ts := Nat.div_mul_le_self ts w
    rw [Nat.add_mul, Nat.one_mul]
    omega

/-- A top that was cut to 64 bits is below the whole window. -/
theorem cut_top_le (hw64 : w < 2 ^ 64) (hge : 2 ^ 64 ≤ (v + 1) * w) :
    (v + 1) * w % 2 ^ 64 ≤ v * w := by
  have hcut : (v + 1) * w % 2 ^ 64 ≤ (v + 1) * w - 2 ^ 64 := by
    rw [Nat.mod_eq_sub_mod hge]
    exact Nat.mod_le _ _
  rw [Nat.add_mul, Nat.one_mul] at hcut ⊢
  omega

end Windows

variable {s s' : CalendarScheduler} {ev e a : Event} {i k m : Nat}

/-! ## The buckets -/

def events (s : CalendarScheduler) : List Event := s.buckets.flatten

/-- Every bucket in order, and every event in the bucket of its time. -/
structure Stored (s : CalendarScheduler) : Prop where
  width_pos : 0 < s.width
  width_lt : s.width < 2 ^ 64
  buckets_pos : 0 < s.nBuckets
  sorted : ∀ i, Agenda.Sorted Event.stamp (s.bucket i)
  hashed : ∀ i, ∀ e ∈ s.bucket i, s.hash e.key.ts = i
  bounded : ∀ e ∈ s.events, e.key.ts < 2 ^ 63

/-- The hand of the calendar at the window of the last event taken. -/
structure Aimed (s : CalendarScheduler) : Prop where
  late : ∀ e ∈ s.events, s.lastPrio ≤ e.key.ts
  lastPrio_lt : s.lastPrio < 2 ^ 63
  lastBucket : s.lastBucket = s.hash s.lastPrio
  bucketTop : s.bucketTop = (s.lastPrio / s.width + 1) * s.width

theorem hash_lt (h : 0 < s.nBuckets) (ts : Nat) : s.hash ts < s.nBuckets := Nat.mod_lt _ h

theorem mem_bucket_lt (h : e ∈ s.bucket i) : i < s.nBuckets := by
  by_contra hge
  have hout : s.buckets.length ≤ i := not_lt.mp hge
  rw [bucket, List.getD_eq_getElem?_getD, List.getElem?_eq_none hout] at h
  cases h

theorem bucket_of_lt (h : i < s.buckets.length) : s.bucket i = s.buckets[i] := by
  rw [bucket, List.getD_eq_getElem?_getD, List.getElem?_eq_getElem h, Option.getD_some]

theorem mem_events_iff : e ∈ s.events ↔ ∃ i, e ∈ s.bucket i := by
  rw [events, List.mem_flatten]
  constructor
  · rintro ⟨b, hb, he⟩
    obtain ⟨i, hi, rfl⟩ := List.mem_iff_getElem.mp hb
    exact ⟨i, by rwa [bucket_of_lt hi]⟩
  · rintro ⟨i, he⟩
    have hi : i < s.buckets.length := mem_bucket_lt he
    exact ⟨_, List.getElem_mem hi, by rwa [bucket_of_lt hi] at he⟩

theorem Stored.mem_iff (h : s.Stored) : e ∈ s.events ↔ e ∈ s.bucket (s.hash e.key.ts) := by
  rw [mem_events_iff]
  exact ⟨fun ⟨i, he⟩ => h.hashed i e he ▸ he, fun he => ⟨_, he⟩⟩

/-- No two events have one key. -/
theorem Stored.stamp_inj (h : s.Stored) (he : e ∈ s.events) (ha : a ∈ s.events)
    (heq : e.stamp = a.stamp) : e = a := by
  have hts : e.key.ts = a.key.ts := congrArg (fun k => (ofLex k).1) heq
  exact (h.sorted _).key_inj (h.mem_iff.mp he) (hts ▸ h.mem_iff.mp ha) heq

@[simp] theorem nBuckets_setBucket (s : CalendarScheduler) (i : Nat) (b : List Event) :
    (s.setBucket i b).nBuckets = s.nBuckets := List.length_set

@[simp] theorem hash_setBucket (s : CalendarScheduler) (i : Nat) (b : List Event) (ts : Nat) :
    (s.setBucket i b).hash ts = s.hash ts := by
  rw [hash, nBuckets_setBucket]
  rfl

theorem bucket_setBucket_self (b : List Event) (h : i < s.nBuckets) :
    (s.setBucket i b).bucket i = b := by
  have hlen : i < (s.setBucket i b).buckets.length := by rwa [setBucket, List.length_set]
  rw [bucket_of_lt hlen]
  exact List.getElem_set_self _

theorem bucket_setBucket_ne (b : List Event) {j : Nat} (h : j ≠ i) :
    (s.setBucket i b).bucket j = s.bucket j := by
  simp only [bucket, setBucket, List.getD_eq_getElem?_getD, List.getElem?_set_ne h.symm]

/-- What is in bucket `i` is exchanged for what is put there. -/
theorem events_setBucket (b : List Event) (h : i < s.nBuckets) :
    ((s.setBucket i b).events ++ s.bucket i).Perm (s.events ++ b) := by
  have hsplit : s.events = (s.buckets.take i).flatten ++ (s.bucket i ++ (s.buckets.drop (i + 1)).flatten) := by
    rw [events, bucket_of_lt h]
    conv_lhs => rw [← List.take_append_drop i s.buckets, List.drop_eq_getElem_cons h]
    simp
  have hset : (s.setBucket i b).events =
      (s.buckets.take i).flatten ++ (b ++ (s.buckets.drop (i + 1)).flatten) := by
    rw [events, setBucket, List.set_eq_take_append_cons_drop, if_pos (show i < s.buckets.length from h)]
    simp
  rw [hsplit, hset]
  refine List.perm_iff_count.mpr fun e => ?_
  simp only [List.count_append]
  omega

/-- A bucket is replaced by one in order, with events of its own windows. -/
theorem Stored.setBucket (h : s.Stored) {b : List Event} (hi : i < s.nBuckets)
    (hb : Agenda.Sorted Event.stamp b) (hmem : ∀ e ∈ b, s.hash e.key.ts = i ∧ e.key.ts < 2 ^ 63) :
    (s.setBucket i b).Stored where
  width_pos := h.width_pos
  width_lt := h.width_lt
  buckets_pos := by
    rw [nBuckets_setBucket]
    exact h.buckets_pos
  sorted := fun j => by
    by_cases hj : j = i
    · rw [hj, bucket_setBucket_self b hi]
      exact hb
    · rw [bucket_setBucket_ne b hj]
      exact h.sorted j
  hashed := fun j e he => by
    rw [hash_setBucket]
    by_cases hj : j = i
    · rw [hj, bucket_setBucket_self b hi] at he
      rw [hj]
      exact (hmem e he).1
    · rw [bucket_setBucket_ne b hj] at he
      exact h.hashed j e he
  bounded := fun e he => by
    obtain ⟨j, hj⟩ := mem_events_iff.mp he
    by_cases hji : j = i
    · rw [hji, bucket_setBucket_self b hi] at hj
      exact (hmem e hj).2
    · rw [bucket_setBucket_ne b hji] at hj
      exact h.bounded e (mem_events_iff.mpr ⟨j, hj⟩)

theorem Stored.doInsert (h : s.Stored) (hts : ev.key.ts < 2 ^ 63)
    (hfresh : ∀ a ∈ s.events, a.stamp ≠ ev.stamp) : (s.doInsert ev).Stored := by
  have hlt := hash_lt h.buckets_pos ev.key.ts
  refine h.setBucket hlt (sorted_insertInOrder (h.sorted _) fun a ha =>
    hfresh a (mem_events_iff.mpr ⟨_, ha⟩)) fun e he => ?_
  rcases List.mem_cons.mp ((insertInOrder_perm _ _).subset he) with rfl | he
  · exact ⟨rfl, hts⟩
  · exact ⟨h.hashed _ e he, h.bounded e (mem_events_iff.mpr ⟨_, he⟩)⟩

theorem events_doInsert (h : 0 < s.nBuckets) (ev : Event) :
    (s.doInsert ev).events.Perm (ev :: s.events) := by
  have hset := events_setBucket (insertInOrder (s.bucket (s.hash ev.key.ts)) ev)
    (hash_lt h ev.key.ts)
  have hins := insertInOrder_perm (s.bucket (s.hash ev.key.ts)) ev
  refine List.perm_iff_count.mpr fun e => ?_
  have h1 := hset.count_eq e
  have h2 := hins.count_eq e
  rw [List.count_append, List.count_append] at h1
  rw [List.count_cons] at h2 ⊢
  rw [CalendarScheduler.doInsert]
  omega

/-- The other fields. -/
@[simp] theorem doInsert_width (s : CalendarScheduler) (ev : Event) :
    (s.doInsert ev).width = s.width := rfl

@[simp] theorem doInsert_nBuckets (s : CalendarScheduler) (ev : Event) :
    (s.doInsert ev).nBuckets = s.nBuckets := nBuckets_setBucket ..

/-! ## One round -/

section Round

/-- The window of the hand. -/
def hand (s : CalendarScheduler) : Nat := s.lastPrio / s.width

/-- The bucket, the front event and the top that the round meets after `j` steps. -/
def visited (s : CalendarScheduler) (j : Nat) : Nat := (s.hand + j) % s.nBuckets

def front (s : CalendarScheduler) (j : Nat) : Option Event := (s.bucket (s.visited j)).head?

def topAt (s : CalendarScheduler) (j : Nat) : Nat := (s.hand + j + 1) * s.width % 2 ^ 64

/-- The front event is below the top. -/
def Due (s : CalendarScheduler) (j : Nat) (next : Event) : Prop :=
  s.front j = some next ∧ next.key.ts < s.topAt j

theorem visited_succ (s : CalendarScheduler) (j : Nat) :
    (s.visited j + 1) % s.nBuckets = s.visited (j + 1) := by
  rw [visited, visited, Nat.mod_add_mod, Nat.add_assoc]

theorem topAt_succ (s : CalendarScheduler) (j : Nat) :
    (s.topAt j + s.width) % 2 ^ 64 = s.topAt (j + 1) := by
  rw [topAt, topAt, Nat.mod_add_mod]
  congr 1
  rw [← Nat.add_assoc s.hand j 1, Nat.add_mul (s.hand + j + 1) 1, Nat.one_mul]

theorem Aimed.visited_zero (h : s.Aimed) : s.lastBucket = s.visited 0 := h.lastBucket

theorem Aimed.topAt_zero (h : s.Aimed) (hw : s.width < 2 ^ 64) : s.bucketTop = s.topAt 0 := by
  rw [h.bucketTop]
  exact (Nat.mod_eq_of_lt (top_lt hw h.lastPrio_lt)).symm

theorem visited_eq_iff (hk : k ≤ s.nBuckets) (h0 : 0 < k) :
    s.visited k = s.visited 0 ↔ k = s.nBuckets := by
  constructor
  · intro heq
    by_contra hne
    have hzero := Nat.sub_mod_eq_zero_of_mod_eq (show (s.hand + k) % s.nBuckets = _ from heq)
    rw [Nat.add_zero, Nat.add_sub_cancel_left, Nat.mod_eq_of_lt (by omega)] at hzero
    omega
  · rintro rfl
    rw [visited, visited, Nat.add_mod_right, Nat.add_zero]

/-- The front events that the round meets from step `k` on, with their buckets. -/
def fronts (s : CalendarScheduler) (k m : Nat) : List (Nat × Event) :=
  (List.range' k m).filterMap fun j => (s.front j).map fun next => (s.visited j, next)

variable {β : Type} {key : β → EventKey} {make : Nat → Event → β}

def better (key : β → EventKey) (make : Nat → Event → β) (best : β) (c : Nat × Event) : β :=
  if c.2.key.lt (key best) then make c.1 c.2 else best

theorem fronts_succ (s : CalendarScheduler) (k m : Nat) (best : β) :
    (s.fronts k (m + 1)).foldl (better key make) best =
      (s.fronts (k + 1) m).foldl (better key make)
        ((s.front k).elim best fun next => better key make best (s.visited k, next)) := by
  rw [fronts, List.range'_succ, List.filterMap_cons]
  cases s.front k with
  | none => rfl
  | some next => rfl

/-- The scan ends, at the first event that is due or after the whole round. -/
theorem Aimed.scan (h : s.Aimed) (key : β → EventKey) (make : Nat → Event → β) (hm : 0 < m)
    (hk : k + m = s.nBuckets) (best : β) :
    (∃ j next, k ≤ j ∧ j < s.nBuckets ∧ s.Due j next ∧ (∀ i e, k ≤ i → i < j → ¬ s.Due i e) ∧
        s.scan key make m (s.visited k) (s.topAt k) best =
          some (.inl (s.visited j, s.topAt j, next))) ∨
      ((∀ i e, k ≤ i → i < s.nBuckets → ¬ s.Due i e) ∧
        s.scan key make m (s.visited k) (s.topAt k) best =
          some (.inr ((s.fronts k m).foldl (better key make) best))) := by
  induction m generalizing k best with
  | zero => cases hm
  | succ m ih =>
      cases hdue : (s.front k).filter fun next => next.key.ts < s.topAt k with
      | some next =>
          obtain ⟨hfront, hlt⟩ := Option.filter_eq_some_iff.mp hdue
          refine .inl ⟨k, next, le_rfl, by omega, ⟨hfront, by simpa using hlt⟩,
            fun i e hki hik => by omega, ?_⟩
          rw [CalendarScheduler.scan, show (s.bucket (s.visited k)).head? = s.front k from rfl, hdue]
      | none =>
          have hnot : ∀ e, ¬ s.Due k e := fun e he => by
            rw [he.1, Option.filter_some, if_pos (by simpa using he.2)] at hdue
            cases hdue
          have hscan : s.scan key make (m + 1) (s.visited k) (s.topAt k) best =
              if s.visited (k + 1) = s.lastBucket then
                some (.inr ((s.front k).elim best fun next =>
                  better key make best (s.visited k, next)))
              else s.scan key make m (s.visited (k + 1)) (s.topAt (k + 1))
                ((s.front k).elim best fun next => better key make best (s.visited k, next)) := by
            rw [CalendarScheduler.scan, show (s.bucket (s.visited k)).head? = s.front k from rfl,
              hdue]
            simp only [visited_succ, topAt_succ]
            rfl
          rw [hscan, h.visited_zero, fronts_succ]
          have hlast := visited_eq_iff (s := s) (k := k + 1) (by omega) (Nat.succ_pos k)
          rcases Nat.eq_zero_or_pos m with rfl | hpos
          · rw [if_pos (hlast.mpr (by omega))]
            refine .inr ⟨fun i e hki hin => ?_, rfl⟩
            obtain rfl : i = k := by omega
            exact hnot e
          · have hmore : s.visited (k + 1) ≠ s.visited 0 := fun heq => by
              have hend := hlast.mp heq
              omega
            rw [if_neg hmore]
            rcases ih (k := k + 1) hpos (by omega) ((s.front k).elim best fun next =>
              better key make best (s.visited k, next)) with
              ⟨j, next, hkj, hjn, hj, hbefore, heq⟩ | ⟨hnone, heq⟩
            · refine .inl ⟨j, next, by omega, hjn, hj, fun i e hki hij => ?_, heq⟩
              rcases Nat.eq_or_lt_of_le hki with rfl | hki
              · exact hnot e
              · exact hbefore i e hki hij
            · refine .inr ⟨fun i e hki hin => ?_, heq⟩
              rcases Nat.eq_or_lt_of_le hki with rfl | hki
              · exact hnot e
              · exact hnone i e hki hin

/-! ## What a round finds -/

theorem front_mem {next : Event} (h : s.front k = some next) : next ∈ s.bucket (s.visited k) :=
  List.mem_of_mem_head? h

/-- No event of bucket `visited j` comes before its front event. -/
theorem Stored.front_le (hs : s.Stored) (ha : a ∈ s.bucket (s.visited k)) :
    ∃ next, s.front k = some next ∧ next.stamp ≤ a.stamp := by
  cases hb : s.front k with
  | none =>
      rw [front, List.head?_eq_none_iff] at hb
      rw [hb] at ha
      cases ha
  | some next => exact ⟨next, rfl, (hs.sorted _).head_le hb ha⟩

theorem stamp_le_ts (h : e.stamp ≤ a.stamp) : e.key.ts ≤ a.key.ts := by
  rcases Prod.Lex.toLex_le_toLex.mp h with hlt | heq
  · exact hlt.le
  · exact heq.1.le

theorem stamp_lt_of_ts (h : e.key.ts < a.key.ts) : e.stamp < a.stamp :=
  EventKey.stamp_lt_iff.mpr (.inl h)

theorem Stored.visited_window (hs : s.Stored) (ha : a ∈ s.events)
    (hw : a.key.ts / s.width = s.hand + k) : a ∈ s.bucket (s.visited k) := by
  have hb := hs.mem_iff.mp ha
  rwa [hash, hw] at hb

/-- A front event that is due is in the window that the round is at. -/
theorem Due.window (hs : s.Stored) (ha : s.Aimed) (hk : k < s.nBuckets) {next : Event}
    (h : s.Due k next) : next.key.ts / s.width = s.hand + k ∧
      s.topAt k = (next.key.ts / s.width + 1) * s.width := by
  obtain ⟨hfront, hlt⟩ := h
  have hmem := front_mem hfront
  have hev : next ∈ s.events := mem_events_iff.mpr ⟨_, hmem⟩
  have hlate : s.hand ≤ next.key.ts / s.width := Nat.div_le_div_right (ha.late next hev)
  have htop : s.topAt k ≤ (s.hand + k + 1) * s.width := Nat.mod_le _ _
  have hle : next.key.ts / s.width ≤ s.hand + k := by
    have hdiv : next.key.ts / s.width < s.hand + k + 1 :=
      Nat.div_lt_of_lt_mul (by rw [Nat.mul_comm]; omega)
    omega
  have hw := window_eq hlate hle hk (hs.hashed _ next hmem)
  refine ⟨hw, ?_⟩
  rw [hw]
  refine Nat.mod_eq_of_lt (Nat.lt_of_not_le fun hge => ?_)
  have hcut : s.topAt k ≤ (s.hand + k) * s.width := cut_top_le hs.width_lt hge
  have hlow : next.key.ts / s.width * s.width ≤ next.key.ts := Nat.div_mul_le_self _ _
  rw [hw] at hlow
  omega

/-- The first front event that is due is the least event. -/
theorem Due.least (hs : s.Stored) (ha : s.Aimed) (hk : k < s.nBuckets) {next : Event}
    (h : s.Due k next) (hbefore : ∀ i e, i < k → ¬ s.Due i e) (hmem : a ∈ s.events) :
    next.stamp ≤ a.stamp := by
  obtain ⟨hw, -⟩ := h.window hs ha hk
  have hnext : next ∈ s.events := mem_events_iff.mpr ⟨_, front_mem h.1⟩
  have hlate : s.hand ≤ a.key.ts / s.width := Nat.div_le_div_right (ha.late a hmem)
  rcases Nat.lt_trichotomy (a.key.ts / s.width) (s.hand + k) with hlt | heq | hgt
  · -- an earlier window would have been due
    obtain ⟨i, hi⟩ : ∃ i, a.key.ts / s.width = s.hand + i := ⟨_, (Nat.add_sub_of_le hlate).symm⟩
    obtain ⟨e, hfront, hle⟩ := hs.front_le (hs.visited_window hmem hi)
    refine absurd ⟨hfront, ?_⟩ (hbefore i e (by omega))
    have htop : s.topAt i = (a.key.ts / s.width + 1) * s.width := by
      rw [hi]
      refine Nat.mod_eq_of_lt ?_
      rw [← hi]
      exact top_lt hs.width_lt (hs.bounded a hmem)
    rw [htop]
    exact (stamp_le_ts hle).trans_lt (lt_top hs.width_pos)
  · obtain ⟨e, hfront, hle⟩ := hs.front_le (hs.visited_window hmem heq)
    obtain rfl := Option.some.inj (h.1.symm.trans hfront)
    exact hle
  · refine (stamp_lt_of_ts (Nat.lt_of_not_le fun hle => ?_)).le
    have hdiv := Nat.div_le_div_right (c := s.width) hle
    omega

theorem mem_fronts {c : Nat × Event} (h : c ∈ s.fronts 0 s.nBuckets) :
    (s.bucket c.1).head? = some c.2 := by
  obtain ⟨j, -, hj⟩ := List.mem_filterMap.mp h
  obtain ⟨next, hfront, rfl⟩ := Option.map_eq_some_iff.mp hj
  exact hfront

/-- Every bucket is visited. -/
theorem exists_visited (h : i < s.nBuckets) : ∃ j < s.nBuckets, s.visited j = i := by
  refine ⟨(i + (s.nBuckets - s.hand % s.nBuckets)) % s.nBuckets, Nat.mod_lt _ (by omega), ?_⟩
  have hlt : s.hand % s.nBuckets < s.nBuckets := Nat.mod_lt _ (by omega)
  have hdiv := Nat.div_add_mod s.hand s.nBuckets
  have hsum : s.hand + (i + (s.nBuckets - s.hand % s.nBuckets)) =
      i + s.nBuckets * (s.hand / s.nBuckets + 1) := by
    rw [Nat.mul_add, Nat.mul_one]
    omega
  rw [visited, Nat.add_mod_mod, hsum, Nat.add_mul_mod_self_left, Nat.mod_eq_of_lt h]

theorem Stored.exists_front_le (hs : s.Stored) (ha : a ∈ s.events) :
    ∃ c ∈ s.fronts 0 s.nBuckets, c.2.stamp ≤ a.stamp := by
  have hb := hs.mem_iff.mp ha
  obtain ⟨j, hj, hv⟩ := exists_visited (mem_bucket_lt hb)
  rw [← hv] at hb
  obtain ⟨next, hfront, hle⟩ := hs.front_le hb
  refine ⟨(s.visited j, next), List.mem_filterMap.mpr ⟨j, ?_, ?_⟩, hle⟩
  · exact List.mem_range'_1.mpr ⟨Nat.zero_le j, by omega⟩
  · rw [hfront, Option.map_some]

theorem foldl_better_cases (key : β → EventKey) (make : Nat → Event → β) (l : List (Nat × Event)) (best : β) :
    l.foldl (better key make) best = best ∨
      ∃ c ∈ l, l.foldl (better key make) best = make c.1 c.2 := by
  induction l generalizing best with
  | nil => exact .inl rfl
  | cons c l ih =>
      rw [List.foldl_cons]
      rcases ih (better key make best c) with h | ⟨c', hc', h⟩
      · rw [h, better]
        split
        · exact .inr ⟨c, List.mem_cons_self, rfl⟩
        · exact .inl rfl
      · exact .inr ⟨c', List.mem_cons_of_mem c hc', h⟩

theorem foldl_better_le (hkey : ∀ i e, (key (make i e)).stamp = e.stamp) (l : List (Nat × Event))
    (best : β) : (key (l.foldl (better key make) best)).stamp ≤ (key best).stamp ∧
      ∀ c ∈ l, (key (l.foldl (better key make) best)).stamp ≤ c.2.stamp := by
  induction l generalizing best with
  | nil => exact ⟨le_rfl, fun c hc => by cases hc⟩
  | cons c l ih =>
      rw [List.foldl_cons]
      obtain ⟨hbest, hall⟩ := ih (better key make best c)
      have hstep : (key (better key make best c)).stamp ≤ (key best).stamp ∧
          (key (better key make best c)).stamp ≤ c.2.stamp := by
        unfold better
        split
        case isTrue hlt =>
          rw [hkey]
          exact ⟨(EventKey.lt_iff.mp hlt).le, le_rfl⟩
        case isFalse hlt =>
          exact ⟨le_rfl, EventKey.not_lt_iff.mp (Bool.not_eq_true _ ▸ hlt)⟩
      refine ⟨hbest.trans hstep.1, fun c' hc' => ?_⟩
      rcases List.mem_cons.mp hc' with rfl | hc'
      · exact hbest.trans hstep.2
      · exact hall c' hc'

/-- After a round without a due event the best front event is the least event. -/
theorem Stored.round_least (hs : s.Stored) (hne : s.events ≠ []) (key : β → EventKey)
    (make : Nat → Event → β) (hkey : ∀ i e, (key (make i e)).stamp = e.stamp) (best : β)
    (hbest : 2 ^ 63 ≤ (key best).ts) : ∃ c ∈ s.fronts 0 s.nBuckets,
      (s.fronts 0 s.nBuckets).foldl (better key make) best = make c.1 c.2 ∧
        ∀ a ∈ s.events, c.2.stamp ≤ a.stamp := by
  obtain ⟨-, hall⟩ := foldl_better_le hkey (s.fronts 0 s.nBuckets) best
  have hle : ∀ a ∈ s.events,
      (key ((s.fronts 0 s.nBuckets).foldl (better key make) best)).stamp ≤ a.stamp := by
    intro a ha
    obtain ⟨c, hc, hca⟩ := hs.exists_front_le ha
    exact (hall c hc).trans hca
  rcases foldl_better_cases key make (s.fronts 0 s.nBuckets) best with
    heq | ⟨c, hc, heq⟩
  · obtain ⟨a, ha⟩ := List.exists_mem_of_ne_nil _ hne
    have hlt : a.stamp < (key best).stamp :=
      EventKey.stamp_lt_iff.mpr (.inl ((hs.bounded a ha).trans_le hbest))
    exact absurd (heq ▸ hle a ha) hlt.not_ge
  · refine ⟨c, hc, heq, fun a ha => ?_⟩
    rw [← hkey c.1 c.2, ← heq]
    exact hle a ha

end Round

/-! ## The next event -/

/-- The next event comes out of its bucket, and the hand goes to its window. -/
structure Took (s : CalendarScheduler) (ev : Event) (s' : CalendarScheduler) : Prop where
  mem : ev ∈ s.events
  least : ∀ a ∈ s.events, ev.stamp ≤ a.stamp
  stored : s'.Stored
  aimed : s'.Aimed
  rest : (ev :: s'.events).Perm s.events
  lastPrio : s'.lastPrio = ev.key.ts
  nBuckets : s'.nBuckets = s.nBuckets
  width : s'.width = s.width
  qSize : s'.qSize = s.qSize

/-- The front event of a bucket is the least, and the hand is set to its window. -/
theorem Stored.took (hs : s.Stored) {b : List Event} (hi : s.bucket i = ev :: b)
    (hleast : ∀ a ∈ s.events, ev.stamp ≤ a.stamp) {top : Nat}
    (htop : top = (ev.key.ts / s.width + 1) * s.width) :
    Took s ev ({ s with lastBucket := i, lastPrio := ev.key.ts, bucketTop := top }.setBucket i b) := by
  have hmem : ev ∈ s.bucket i := hi ▸ List.mem_cons_self
  have hev : ev ∈ s.events := mem_events_iff.mpr ⟨i, hmem⟩
  have hlt := mem_bucket_lt hmem
  have hsub : ∀ e ∈ b, e ∈ s.bucket i := fun e he => hi ▸ List.mem_cons_of_mem ev he
  have hsorted : Agenda.Sorted Event.stamp b := (List.pairwise_cons.mp (hi ▸ hs.sorted i)).2
  have hst : (s.setBucket i b).Stored := hs.setBucket hlt hsorted fun e he =>
    ⟨hs.hashed i e (hsub e he), hs.bounded e (mem_events_iff.mpr ⟨i, hsub e he⟩)⟩
  have hrest : (ev :: (s.setBucket i b).events).Perm s.events := by
    have hx := events_setBucket b hlt
    rw [hi] at hx
    refine List.perm_iff_count.mpr fun e => ?_
    have hc := hx.count_eq e
    simp only [List.count_append, List.count_cons] at hc ⊢
    omega
  exact
    { mem := hev
      least := hleast
      stored := ⟨hst.width_pos, hst.width_lt, hst.buckets_pos, hst.sorted, hst.hashed, hst.bounded⟩
      aimed :=
        { late := fun e he => stamp_le_ts (hleast e (hrest.subset (List.mem_cons_of_mem ev he)))
          lastPrio_lt := hs.bounded ev hev
          lastBucket := by
            have hb := hs.hashed i ev hmem
            rw [← hash_setBucket s i b] at hb
            exact hb.symm
          bucketTop := htop }
      rest := hrest
      lastPrio := rfl
      nBuckets := nBuckets_setBucket s i b
      width := rfl
      qSize := rfl }

theorem doRemoveNext_took (hs : s.Stored) (ha : s.Aimed) (hne : s.events ≠ [])
    (hq : s.qSize ≠ 0) : ∃ ev s', s.doRemoveNext = some (ev, s') ∧ Took s ev s' := by
  have hempty : s.isEmpty = false := by simpa [isEmpty] using hq
  unfold doRemoveNext
  rw [hempty, if_neg Bool.false_ne_true]
  dsimp only
  rw [ha.visited_zero, ha.topAt_zero hs.width_lt]
  rcases ha.scan (β := EventKey × Option Nat) Prod.fst (fun i next => (next.key, some i))
      hs.buckets_pos (Nat.zero_add _) (⟨2 ^ 64 - 1, 0, 0xffffffff⟩, none) with
    ⟨j, next, -, hj, hdue, hbefore, hscan⟩ | ⟨-, hscan⟩
  · rw [hscan]
    obtain ⟨b, hb⟩ : ∃ b, s.bucket (s.visited j) = next :: b := List.head?_eq_some_iff.mp hdue.1
    have htook := hs.took hb
      (fun a hmem => hdue.least hs ha hj (fun i e => hbefore i e (Nat.zero_le i)) hmem)
      (hdue.window hs ha hj).2
    have htail : (s.bucket (s.visited j)).tail = b := by rw [hb, List.tail_cons]
    rw [← htail] at htook
    exact ⟨next, _, rfl, htook⟩
  · rw [hscan]
    obtain ⟨c, hc, hfold, hleast⟩ := hs.round_least hne (β := EventKey × Option Nat) Prod.fst
      (fun i next => (next.key, some i)) (fun _ _ => rfl)
      (⟨2 ^ 64 - 1, 0, 0xffffffff⟩, none) (by decide)
    obtain ⟨b, hb⟩ := List.head?_eq_some_iff.mp (mem_fronts hc)
    rw [hfold]
    have hmem : c.2 ∈ s.bucket c.1 := hb ▸ List.mem_cons_self
    have htop := top_lt hs.width_lt (hs.bounded c.2 (mem_events_iff.mpr ⟨c.1, hmem⟩))
    have htook := hs.took hb hleast rfl
    dsimp only
    rw [hs.hashed c.1 c.2 hmem, Nat.mod_eq_of_lt htop]
    refine ⟨c.2, _, ?_, htook⟩
    split
    case h_1 hnil => exact absurd (hnil.symm.trans hb) (List.cons_ne_nil _ _).symm
    case h_2 next rest hcons =>
      obtain ⟨rfl, rfl⟩ := List.cons.inj (hcons.symm.trans hb)
      rfl

/-- `PeekNext` finds what `DoRemoveNext` would take. -/
theorem peekNext_eq (hs : s.Stored) (ha : s.Aimed) (hne : s.events ≠ []) (hq : s.qSize ≠ 0) :
    ∃ ev, s.peekNext = some ev ∧ ev ∈ s.events ∧ ∀ a ∈ s.events, ev.stamp ≤ a.stamp := by
  have hempty : s.isEmpty = false := by simpa [isEmpty] using hq
  unfold peekNext
  rw [hempty, if_neg Bool.false_ne_true]
  dsimp only
  rw [ha.visited_zero, ha.topAt_zero hs.width_lt]
  rcases ha.scan Event.key (fun _ next => next) hs.buckets_pos (Nat.zero_add _)
      ⟨0, ⟨2 ^ 64 - 1, 2 ^ 32 - 1, 0⟩⟩ with ⟨j, next, -, hj, hdue, hbefore, hscan⟩ | ⟨-, hscan⟩
  · rw [hscan]
    exact ⟨next, rfl, mem_events_iff.mpr ⟨_, front_mem hdue.1⟩, fun a hmem =>
      hdue.least hs ha hj (fun i e => hbefore i e (Nat.zero_le i)) hmem⟩
  · rw [hscan]
    obtain ⟨c, hc, hfold, hleast⟩ := hs.round_least hne Event.key (fun _ next => next)
      (fun _ _ => rfl) ⟨0, ⟨2 ^ 64 - 1, 2 ^ 32 - 1, 0⟩⟩ (by decide)
    rw [hfold]
    exact ⟨c.2, rfl, mem_events_iff.mpr ⟨c.1, List.mem_of_mem_head? (mem_fronts hc)⟩, hleast⟩

/-! ## Resizing -/

/-- The samples come in order, and the rest stays in the calendar. -/
theorem gather_spec (n : Nat) (hs : s.Stored) (ha : s.Aimed) (hn : n ≤ s.events.length)
    (hq : s.qSize ≠ 0) : ∃ samples s', s.gather n = some (samples, s') ∧ s'.Stored ∧
      (samples ++ s'.events).Perm s.events ∧ s'.nBuckets = s.nBuckets ∧ s'.width = s.width ∧
        s'.qSize = s.qSize := by
  induction n generalizing s with
  | zero => exact ⟨[], s, rfl, hs, .refl _, rfl, rfl, rfl⟩
  | succ n ih =>
      have hne : s.events ≠ [] := List.ne_nil_of_length_pos (by omega)
      obtain ⟨ev, s₁, hdo, htook⟩ := doRemoveNext_took hs ha hne hq
      have hlen := htook.rest.length_eq
      rw [List.length_cons] at hlen
      obtain ⟨samples, s₂, hg, hs₂, hp, hb, hw, hq₂⟩ :=
        ih htook.stored htook.aimed (by omega) (by rwa [htook.qSize])
      refine ⟨ev :: samples, s₂, ?_, hs₂, ?_, hb.trans htook.nBuckets, hw.trans htook.width,
        hq₂.trans htook.qSize⟩
      · rw [gather, hdo]
        dsimp only
        rw [hg]
      · exact (hp.cons ev).trans htook.rest

/-- Putting events in changes the buckets only. -/
theorem insertAll_eq (l : List Event) (s : CalendarScheduler) :
    ∃ bs, l.foldl doInsert s = { s with buckets := bs } ∧ bs.length = s.buckets.length := by
  induction l generalizing s with
  | nil => exact ⟨s.buckets, rfl, rfl⟩
  | cons e l ih =>
      obtain ⟨bs, heq, hlen⟩ := ih (s.doInsert e)
      exact ⟨bs, heq, hlen.trans List.length_set⟩

/-- Events that are all different from each other and from what is there. -/
theorem insertAll_spec (l : List Event) (hs : s.Stored)
    (hnd : (l ++ s.events).Pairwise fun a b => a.stamp ≠ b.stamp)
    (hts : ∀ e ∈ l, e.key.ts < 2 ^ 63) :
    (l.foldl doInsert s).Stored ∧ ((l.foldl doInsert s).events).Perm (l ++ s.events) := by
  induction l generalizing s with
  | nil => exact ⟨hs, .refl _⟩
  | cons e l ih =>
      obtain ⟨hhead, htail⟩ := List.pairwise_cons.mp hnd
      have hev := events_doInsert hs.buckets_pos e
      have hs₁ := hs.doInsert (hts e List.mem_cons_self) fun a ha =>
        (hhead a (List.mem_append_right l ha)).symm
      have hmove : (l ++ (s.doInsert e).events).Perm (e :: (l ++ s.events)) :=
        (hev.append_left l).trans List.perm_middle
      have hnd' : (l ++ (s.doInsert e).events).Pairwise fun a b => a.stamp ≠ b.stamp :=
        (hmove.pairwise_iff fun h => h.symm).mpr hnd
      obtain ⟨h1, h2⟩ := ih hs₁ hnd' fun a ha => hts a (List.mem_cons_of_mem e ha)
      exact ⟨h1, h2.trans hmove⟩

/-- The events of a calendar are all different. -/
theorem Stored.pairwise (hs : s.Stored) : s.events.Pairwise fun a b => a.stamp ≠ b.stamp := by
  have hnd : s.events.Nodup := by
    refine List.nodup_flatten.mpr ⟨fun b hb => ?_, List.pairwise_iff_getElem.mpr ?_⟩
    · obtain ⟨i, hi, rfl⟩ := List.mem_iff_getElem.mp hb
      rw [← bucket_of_lt hi]
      exact (hs.sorted i).nodup
    · intro i j hi hj hij e hei hej
      rw [← bucket_of_lt hi] at hei
      rw [← bucket_of_lt hj] at hej
      have heq := (hs.hashed i e hei).symm.trans (hs.hashed j e hej)
      omega
  exact List.Pairwise.imp_of_mem (fun ha hb hne heq => hne (hs.stamp_inj ha hb heq)) hnd

theorem nSamples_le {q : Nat} : nSamples q ≤ q := by
  unfold nSamples
  dsimp only
  split <;> split <;> omega

theorem widthOf_pos (samples : List Event) : 0 < widthOf samples :=
  lt_of_lt_of_le Nat.one_pos (le_max_right _ _)

theorem widthOf_lt (samples : List Event) : widthOf samples < 2 ^ 64 :=
  max_lt (Nat.mod_lt _ (by decide)) (by decide)

/-- Three times the gap is cut to 64 bits here; any positive width serves. -/
example : widthOf [⟨1, ⟨0, 4, 0⟩⟩, ⟨2, ⟨3 * 2 ^ 61, 5, 0⟩⟩] = 2 ^ 61 := by decide +kernel

/-- The calendar is the same but for the buckets, which hold the same events. -/
structure Rebuilt (s s' : CalendarScheduler) : Prop where
  stored : s'.Stored
  aimed : s'.Aimed
  events : s'.events.Perm s.events
  lastPrio : s'.lastPrio = s.lastPrio
  qSize : s'.qSize = s.qSize

theorem calculateNewWidth_spec (hs : s.Stored) (ha : s.Aimed) (hq : s.qSize = s.events.length) :
    ∃ w s', s.calculateNewWidth = some (w, s') ∧ 0 < w ∧ w < 2 ^ 64 ∧ Rebuilt s s' := by
  unfold calculateNewWidth
  split
  case isTrue hlt => exact ⟨1, s, rfl, by decide, by decide, hs, ha, .refl _, rfl, rfl⟩
  case isFalse hge =>
    obtain ⟨samples, s₁, hg, hs₁, hp, hb, hw, hq₁⟩ :=
      gather_spec (nSamples s.qSize) hs ha (hq ▸ nSamples_le) (by omega)
    rw [hg]
    have hnd : (samples ++ s₁.events).Pairwise fun a b => a.stamp ≠ b.stamp :=
      (hp.pairwise_iff fun h => h.symm).mpr hs.pairwise
    obtain ⟨hs₂, hp₂⟩ := insertAll_spec samples hs₁ hnd fun e he =>
      hs.bounded e (hp.subset (List.mem_append_left _ he))
    obtain ⟨bs, heq, hlen⟩ := insertAll_eq samples s₁
    dsimp only
    rw [heq] at hs₂ hp₂ ⊢
    have hall : ({ s₁ with buckets := bs } : CalendarScheduler).events.Perm s.events := hp₂.trans hp
    have hhash : ∀ ts, ({ s₁ with buckets := bs } : CalendarScheduler).hash ts = s.hash ts := by
      intro ts
      show ts / s₁.width % bs.length = ts / s.width % s.nBuckets
      rw [hw, hlen, ← hb]
      rfl
    refine ⟨_, _, rfl, widthOf_pos samples, widthOf_lt samples, ?_, ?_, hall, rfl, hq₁⟩
    · exact ⟨hs₂.width_pos, hs₂.width_lt, hs₂.buckets_pos, hs₂.sorted, hs₂.hashed, hs₂.bounded⟩
    · exact
        { late := fun e he => ha.late e (hall.subset he)
          lastPrio_lt := ha.lastPrio_lt
          lastBucket := ha.lastBucket.trans (hhash s.lastPrio).symm
          bucketTop := by
            show s.bucketTop = (s.lastPrio / s₁.width + 1) * s₁.width
            rw [hw]
            exact ha.bucketTop }

theorem events_init (s : CalendarScheduler) (n w p : Nat) : (s.init n w p).events = [] := by
  simp [events, init]

theorem bucket_init (s : CalendarScheduler) (n w p i : Nat) : (s.init n w p).bucket i = [] := by
  refine List.eq_nil_iff_forall_not_mem.mpr fun e he => ?_
  have hmem : e ∈ (s.init n w p).events := mem_events_iff.mpr ⟨i, he⟩
  rw [events_init] at hmem
  cases hmem

theorem init_stored (s : CalendarScheduler) {n w p : Nat} (hn : 0 < n) (hw : 0 < w)
    (hw64 : w < 2 ^ 64) : (s.init n w p).Stored where
  width_pos := hw
  width_lt := hw64
  buckets_pos := by
    show 0 < (List.replicate n ([] : List Event)).length
    rwa [List.length_replicate]
  sorted := fun i => by
    rw [bucket_init]
    exact Agenda.sorted_nil
  hashed := fun i e he => by
    rw [bucket_init] at he
    cases he
  bounded := fun e he => by
    rw [events_init] at he
    cases he

theorem doResize_spec (hs : s.Stored) (ha : s.Aimed) {n w : Nat} (hn : 0 < n) (hw : 0 < w)
    (hw64 : w < 2 ^ 64) : Rebuilt s (s.doResize n w) := by
  have hnd : (s.events ++ (s.init n w s.lastPrio).events).Pairwise fun a b => a.stamp ≠ b.stamp := by
    rw [events_init, List.append_nil]
    exact hs.pairwise
  obtain ⟨hs₁, hp⟩ := insertAll_spec s.events (init_stored s hn hw hw64) hnd hs.bounded
  rw [events_init, List.append_nil] at hp
  obtain ⟨bs, heq, hlen⟩ := insertAll_eq s.events (s.init n w s.lastPrio)
  have hdo : s.doResize n w = { s.init n w s.lastPrio with buckets := bs } := heq
  rw [heq, ← hdo] at hs₁ hp
  exact
    { stored := hs₁
      aimed :=
        { late := fun e he => by
            rw [hdo]
            exact ha.late e (hp.subset he)
          lastPrio_lt := by
            rw [hdo]
            exact ha.lastPrio_lt
          lastBucket := by
            rw [hdo]
            show s.lastPrio / w % (List.replicate n ([] : List Event)).length =
              s.lastPrio / w % bs.length
            rw [hlen]
            rfl
          bucketTop := by
            rw [hdo]
            exact Nat.mod_eq_of_lt (top_lt hw64 ha.lastPrio_lt) }
      events := hp
      lastPrio := by
        rw [hdo]
        rfl
      qSize := by
        rw [hdo]
        rfl }

theorem resize_spec (hs : s.Stored) (ha : s.Aimed) (hq : s.qSize = s.events.length) {n : Nat}
    (hn : 0 < n) : ∃ s', s.resize n = some s' ∧ Rebuilt s s' := by
  obtain ⟨w, s₁, hcalc, hw, hw64, h1⟩ := calculateNewWidth_spec hs ha hq
  have h2 := doResize_spec h1.stored h1.aimed hn hw hw64
  refine ⟨s₁.doResize n w, by rw [resize, hcalc, Option.map_some], h2.stored, h2.aimed,
    h2.events.trans h1.events, h2.lastPrio.trans h1.lastPrio, h2.qSize.trans h1.qSize⟩

theorem resizeUp_spec (hs : s.Stored) (ha : s.Aimed) (hq : s.qSize = s.events.length) :
    ∃ s', s.resizeUp = some s' ∧ Rebuilt s s' := by
  unfold resizeUp
  split
  · exact resize_spec hs ha hq (Nat.mul_pos hs.buckets_pos (by decide))
  · exact ⟨s, rfl, hs, ha, .refl _, rfl, rfl⟩

theorem resizeDown_spec (hs : s.Stored) (ha : s.Aimed) (hq : s.qSize = s.events.length) :
    ∃ s', s.resizeDown = some s' ∧ Rebuilt s s' := by
  unfold resizeDown
  split
  case isTrue hlt => exact resize_spec hs ha hq (by omega)
  case isFalse => exact ⟨s, rfl, hs, ha, .refl _, rfl, rfl⟩

/-! ## The operations -/

/-- The calendar holds the events of the agenda, its hand is at the last time taken, and its
counter is right. -/
structure Sound (s : CalendarScheduler) (q : List Event) (taken : Nat) : Prop where
  stored : s.Stored
  aimed : s.Aimed
  lastPrio : s.lastPrio = taken
  holds : s.events.Perm q
  qSize : s.qSize = q.length
  count_lt : q.length < 2 ^ 32

variable {q : List Event} {taken : Nat}

theorem new_sound : Sound new [] 0 where
  stored := init_stored _ (by decide) (by decide) (by decide)
  aimed :=
    { late := fun _ _ => Nat.zero_le _
      lastPrio_lt := by decide
      lastBucket := by decide
      bucketTop := by decide }
  lastPrio := rfl
  holds := .refl _
  qSize := rfl
  count_lt := by decide

theorem Rebuilt.sound (h : Rebuilt s s') (hl : s.lastPrio = taken) (hp : s.events.Perm q)
    (hq : s.qSize = q.length) (hlt : q.length < 2 ^ 32) : Sound s' q taken where
  stored := h.stored
  aimed := h.aimed
  lastPrio := h.lastPrio.trans hl
  holds := h.events.trans hp
  qSize := h.qSize.trans hq
  count_lt := hlt

theorem countDown_qSize (h0 : s.qSize ≠ 0) (hlt : s.qSize < 2 ^ 32) :
    s.countDown.qSize = s.qSize - 1 := by
  show (s.qSize + 2 ^ 32 - 1) % 2 ^ 32 = s.qSize - 1
  omega

theorem Stored.withCount (h : s.Stored) (n : Nat) : ({ s with qSize := n } : CalendarScheduler).Stored :=
  ⟨h.width_pos, h.width_lt, h.buckets_pos, h.sorted, h.hashed, h.bounded⟩

theorem Aimed.withCount (h : s.Aimed) (n : Nat) : ({ s with qSize := n } : CalendarScheduler).Aimed :=
  ⟨h.late, h.lastPrio_lt, h.lastBucket, h.bucketTop⟩

/-- One event fewer is counted, and the calendar made smaller. -/
theorem resizeDown_countDown (hs : s.Stored) (ha : s.Aimed) (hl : s.lastPrio = taken)
    (hp : s.events.Perm q) (hq : s.qSize = q.length + 1) (hlt : q.length + 1 < 2 ^ 32) :
    ∃ s', s.countDown.resizeDown = some s' ∧ Sound s' q taken := by
  have hcount : s.countDown.qSize = q.length := by
    rw [countDown_qSize (by omega) (by omega)]
    omega
  obtain ⟨n, hn⟩ : ∃ n, s.countDown = { s with qSize := n } := ⟨_, rfl⟩
  rw [hn] at hcount ⊢
  obtain ⟨s', hs', hr⟩ := resizeDown_spec (hs.withCount n) (ha.withCount n)
    (hcount.trans hp.length_eq.symm)
  exact ⟨s', hs', hr.sound hl hp hcount (by omega)⟩

namespace Sound

theorem qSize_ne (h : Sound s q taken) (hne : q ≠ []) : s.qSize ≠ 0 := by
  rw [h.qSize]
  exact fun h0 => hne (List.length_eq_zero_iff.mp h0)

theorem isEmpty_eq (h : Sound s q taken) : s.isEmpty = q.isEmpty := by
  rw [Bool.eq_iff_iff, CalendarScheduler.isEmpty, beq_iff_eq, h.qSize, List.isEmpty_iff,
    List.length_eq_zero_iff]

theorem insert (h : Sound s q taken) (hfresh : ∀ a ∈ q, a.stamp ≠ ev.stamp)
    (hlate : taken ≤ ev.key.ts) (hts : ev.key.ts < 2 ^ 63) (hlt : q.length + 1 < 2 ^ 32) :
    ∃ s', s.insert ev = some s' ∧
      Sound s' (q.orderedInsert (fun a b => a.stamp ≤ b.stamp) ev) taken := by
  have hs := h.stored.doInsert hts fun a ha => hfresh a (h.holds.subset ha)
  have hp := events_doInsert h.stored.buckets_pos ev
  have hp' := (hp.trans (h.holds.cons ev)).trans (Agenda.perm_insert Event.stamp (.refl q))
  have hlen := List.orderedInsert_length (fun a b => a.stamp ≤ b.stamp) q ev
  have ha : (s.doInsert ev).Aimed :=
    { late := fun e he => by
        rcases List.mem_cons.mp (hp.subset he) with rfl | he
        · exact h.lastPrio.le.trans hlate
        · exact h.aimed.late e he
      lastPrio_lt := h.aimed.lastPrio_lt
      lastBucket := h.aimed.lastBucket.trans (hash_setBucket ..).symm
      bucketTop := h.aimed.bucketTop }
  have hcount : (s.qSize + 1) % 2 ^ 32 =
      (q.orderedInsert (fun a b => a.stamp ≤ b.stamp) ev).length := by
    rw [hlen, h.qSize, Nat.mod_eq_of_lt hlt]
  obtain ⟨s', hs', hr⟩ := resizeUp_spec (hs.withCount ((s.qSize + 1) % 2 ^ 32)) (ha.withCount _)
    (hcount.trans hp'.length_eq.symm)
  exact ⟨s', hs', hr.sound h.lastPrio hp' hcount (by rwa [hlen])⟩

/-- With 2³² events the counter is back at zero. -/
theorem insert_overflow (ev : Event) (h : Sound s q taken) (hge : 2 ^ 32 ≤ q.length + 1) :
    (s.step (.insert ev)).isEmpty = true := by
  have hlt := h.count_lt
  have hzero : (s.qSize + 1) % 2 ^ 32 = 0 := by
    rw [h.qSize]
    omega
  have hins : s.insert ev = some { s.doInsert ev with qSize := 0 } := by
    show ({ s.doInsert ev with qSize := (s.qSize + 1) % 2 ^ 32 } : CalendarScheduler).resizeUp = _
    rw [hzero, resizeUp]
    exact if_neg fun hc => absurd hc.1 (Nat.not_lt_zero _)
  rw [step, apply, hins]
  rfl

/-- The head of the agenda comes out. -/
theorem removeNext (h : Sound s q taken) (hq : Agenda.Sorted Event.stamp q) (hne : q ≠ []) :
    ∃ ev s', s.removeNext = some (ev, s') ∧ q.head? = some ev ∧ Sound s' q.tail ev.key.ts := by
  have hev : s.events ≠ [] := fun h0 => hne (List.perm_nil.mp (h0 ▸ h.holds.symm))
  have hempty : s.isEmpty = false := by simpa [CalendarScheduler.isEmpty] using h.qSize_ne hne
  obtain ⟨ev, s₁, hdo, htook⟩ := doRemoveNext_took h.stored h.aimed hev (h.qSize_ne hne)
  have hhead := hq.head?_of_least h.holds htook.mem htook.least
  have hp : s₁.events.Perm q.tail := by
    have he := htook.rest.erase ev
    rw [List.erase_cons_head] at he
    exact he.trans (hq.perm_tail h.holds hhead)
  have hlen : q.tail.length + 1 = q.length := by
    have hpos := List.length_pos_iff.mpr hne
    rw [List.length_tail]
    omega
  obtain ⟨s', hs', hsound⟩ := resizeDown_countDown htook.stored htook.aimed htook.lastPrio hp
    (htook.qSize.trans (h.qSize.trans hlen.symm)) (hlen ▸ h.count_lt)
  refine ⟨ev, s', ?_, hhead, hsound⟩
  rw [CalendarScheduler.removeNext, hempty, if_neg Bool.false_ne_true, hdo]
  dsimp only
  rw [hs', Option.map_some]

theorem remove (h : Sound s q taken) (hfirst : FirstOfUid q ev) :
    ∃ s', s.remove ev = some s' ∧ Sound s' (q.erase ev) taken := by
  have hmem : ev ∈ s.events := h.holds.symm.subset hfirst.1
  have hne : q ≠ [] := List.ne_nil_of_mem hfirst.1
  have hempty : s.isEmpty = false := by simpa [CalendarScheduler.isEmpty] using h.qSize_ne hne
  have hb := h.stored.mem_iff.mp hmem
  have hlt := mem_bucket_lt hb
  have hsorted := h.stored.sorted (s.hash ev.key.ts)
  have hin : ∀ e ∈ s.bucket (s.hash ev.key.ts), e ∈ q := fun e he =>
    h.holds.subset (mem_events_iff.mpr ⟨_, he⟩)
  have herase := eraseUid_eq hsorted (hfirst.subset hin hb)
  have hsub : ∀ e ∈ (s.bucket (s.hash ev.key.ts)).erase ev, e ∈ s.bucket (s.hash ev.key.ts) :=
    fun e he => List.mem_of_mem_erase he
  have hst := h.stored.setBucket hlt (hsorted.sublist List.erase_sublist) fun e he =>
    ⟨h.stored.hashed _ e (hsub e he), h.stored.bounded e (mem_events_iff.mpr ⟨_, hsub e he⟩)⟩
  have hp : (s.setBucket (s.hash ev.key.ts) ((s.bucket (s.hash ev.key.ts)).erase ev)).events.Perm
      (q.erase ev) := by
    have hx := events_setBucket ((s.bucket (s.hash ev.key.ts)).erase ev) hlt
    have hperm := (List.perm_cons_erase hb)
    refine List.Perm.trans ?_ (h.holds.erase ev)
    refine List.perm_iff_count.mpr fun e => ?_
    have h1 := hx.count_eq e
    have h2 := hperm.count_eq e
    have h3 := (List.perm_cons_erase hmem).count_eq e
    simp only [List.count_append, List.count_cons] at h1 h2 h3
    omega
  have ha : (s.setBucket (s.hash ev.key.ts) ((s.bucket (s.hash ev.key.ts)).erase ev)).Aimed :=
    { late := fun e he => h.aimed.late e (h.holds.symm.subset (List.mem_of_mem_erase (hp.subset he)))
      lastPrio_lt := h.aimed.lastPrio_lt
      lastBucket := h.aimed.lastBucket.trans (hash_setBucket ..).symm
      bucketTop := h.aimed.bucketTop }
  have hlen := List.length_erase_of_mem hfirst.1
  have hpos := List.length_pos_iff.mpr hne
  have hcount := h.count_lt
  obtain ⟨s', hs', hsound⟩ := resizeDown_countDown hst ha h.lastPrio hp
    (h.qSize.trans (by omega)) (by omega)
  refine ⟨s', ?_, hsound⟩
  rw [CalendarScheduler.remove, hempty, if_neg Bool.false_ne_true]
  dsimp only
  rw [herase]
  exact hs'

theorem peekNext (h : Sound s q taken) (hq : Agenda.Sorted Event.stamp q) (hne : q ≠ []) :
    s.peekNext = q.head? := by
  have hev : s.events ≠ [] := fun h0 => hne (List.perm_nil.mp (h0 ▸ h.holds.symm))
  obtain ⟨ev, hpeek, hmem, hleast⟩ := peekNext_eq h.stored h.aimed hev (h.qSize_ne hne)
  rw [hpeek, hq.head?_of_least h.holds hmem hleast]

end Sound

end CalendarScheduler

end Ns3Raft.Sim
