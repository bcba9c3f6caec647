import Ns3Raft.Sim.Simulator

/-! # What an execution does

Every queued event is after the current one, and every uid in use is below the
next one. From this order alone an id tells whether its event has expired.
-/

namespace Ns3Raft.Sim

open Transition

namespace Execution

/-- The time and the uid of the current event. -/
def now (w : Execution) : Nat ×ₗ Nat := toLex (w.sim.currentTs, w.sim.currentUid)

/-- `Cancel` or `Remove` was called for the event before it expired. -/
def CalledOff (w : Execution) (ev : Event) : Prop := ev.id ∈ w.cancels ∨ ev.id ∈ w.removes

/-- The queue against the clock and the uids. -/
structure Queued (w : Execution) (q : List Event) : Prop where
  holds : ∃ t ≤ w.sim.currentTs, w.sim.events.Holds q t
  sorted : Agenda.Sorted Event.stamp q
  ahead : ∀ e ∈ q, w.now < e.stamp
  bounded : ∀ e ∈ q, e.key.ts < 2 ^ 63
  scheduled : ∀ e ∈ q, e ∈ w.scheduled
  count : w.sim.unscheduledEvents = q.length
  count_lt : q.length < 2 ^ 31
  currentTs_lt : w.sim.currentTs < 2 ^ 63
  currentUid_lt : w.sim.currentUid < 4 + w.drawn
  uid : w.sim.uid = (4 + w.drawn) % 2 ^ 32
  pending : w.sim.eventsWithContext = []
  asserts : w.sim.asserts = true

/-- The uids and the `EventImpl`s of the scheduled events. -/
structure Named (w : Execution) : Prop where
  uid_range : ∀ e ∈ w.scheduled, 4 ≤ e.key.uid ∧ e.key.uid < 4 + w.drawn
  uid_inj : ∀ a ∈ w.scheduled, ∀ b ∈ w.scheduled, a.key.uid = b.key.uid → a = b
  impl_inj : ∀ a ∈ w.scheduled, ∀ b ∈ w.scheduled, a.impl = b.impl → a = b
  impl_mem : ∀ e ∈ w.scheduled, e.impl ∈ w.objects
  flag_mem : ∀ impl ∈ w.sim.cancelled, impl ∈ w.objects
  destroy : ∀ id ∈ w.sim.destroyEvents, id.uid = 2 ∧ ∃ impl, id.impl = some impl ∧
    impl ∈ w.objects ∧ ∀ e ∈ w.scheduled, e.impl ≠ impl
  issued : ∀ id ∈ w.issued, ∃ e ∈ w.scheduled, e.id = id
  off_mem : ∀ id, id ∈ w.cancels ∨ id ∈ w.removes → ∃ impl ∈ w.objects, id.impl = some impl

/-- What became of the scheduled events. -/
structure Settled (w : Execution) (q : List Event) : Prop where
  inOrder : Agenda.Sorted Event.stamp w.invoked
  past : ∀ e ∈ w.invoked, e.stamp ≤ w.now
  known : ∀ e ∈ w.invoked, e ∈ w.scheduled
  live : ∀ e ∈ w.invoked, w.sim.isCancelled e.impl = false
  split : ∀ e ∈ w.scheduled, e ∈ q ∨ e ∈ w.invoked ∨ w.sim.isCancelled e.impl = true
  flags : ∀ e ∈ w.scheduled, w.sim.isCancelled e.impl = true ↔ w.CalledOff e

structure Inv (w : Execution) (q : List Event) : Prop where
  queued : w.Queued q
  named : w.Named
  settled : w.Settled q

variable {w w' : Execution} {q : List Event} {ev e : Event} {sim : DefaultSimulatorImpl}

theorem isCancelled_iff {s : DefaultSimulatorImpl} {impl : Nat} :
    s.isCancelled impl = true ↔ impl ∈ s.cancelled := List.contains_iff_mem

theorem Named.not_cancelled (h : w.Named) {impl : Nat} (hnew : impl ∉ w.objects) :
    w.sim.isCancelled impl = false := by
  rw [← Bool.not_eq_true, isCancelled_iff]
  exact fun hmem => hnew (h.flag_mem impl hmem)

/-- Two events with one id are the same. -/
theorem id_inj {a b : Event} (h : a.id = b.id) : a = b := by
  simp only [Event.id, EventId.mk.injEq, Option.some.injEq] at h
  obtain ⟨himpl, hts, hctx, huid⟩ := h
  cases a with
  | mk impl key =>
      cases key
      cases b with
      | mk impl' key' =>
          cases key'
          simp_all

/-! ## Expiry -/

/-- An event has expired when it is not after the current one, or was called off. -/
theorem Inv.isExpired_iff (h : w.Inv q) (he : e ∈ w.scheduled) :
    w.sim.isExpired e.id = true ↔ e.stamp ≤ w.now ∨ w.CalledOff e := by
  have huid : e.key.uid ≠ 2 := by
    have hrange := (h.named.uid_range e he).1
    omega
  rw [← h.settled.flags e he]
  have hle : e.stamp ≤ w.now ↔
      e.key.ts < w.sim.currentTs ∨ e.key.ts = w.sim.currentTs ∧ e.key.uid ≤ w.sim.currentUid :=
    Prod.Lex.toLex_le_toLex
  rw [hle]
  have hexp : w.sim.isExpired e.id = (decide (e.key.ts < w.sim.currentTs) ||
      (decide (e.key.ts = w.sim.currentTs) && decide (e.key.uid ≤ w.sim.currentUid)) ||
        w.sim.isCancelled e.impl) := if_neg huid
  rw [hexp]
  simp

theorem Inv.invoked_or_calledOff (h : w.Inv q) (he : e ∈ w.scheduled) :
    e.stamp ≤ w.now ∨ w.CalledOff e ↔ e ∈ w.invoked ∨ w.CalledOff e := by
  constructor
  · rintro (hle | hoff)
    · rcases h.settled.split e he with hq | hinv | hflag
      · exact absurd hle (h.queued.ahead e hq).not_ge
      · exact .inl hinv
      · exact .inr ((h.settled.flags e he).mp hflag)
    · exact .inr hoff
  · rintro (hinv | hoff)
    · exact .inl (h.settled.past e hinv)
    · exact .inr hoff

/-- A live event in the past is the one way to be neither queued nor called off. -/
theorem Inv.queued_of_live (h : w.Inv q) (he : e ∈ w.scheduled)
    (hlive : w.sim.isExpired e.id = false) : e ∈ q := by
  have hnot := (h.isExpired_iff he).not.mp (by rw [hlive]; decide)
  rw [h.invoked_or_calledOff he] at hnot
  rcases h.settled.split e he with hq | hinv | hflag
  · exact hq
  · exact absurd (.inl hinv) hnot
  · exact absurd (.inr ((h.settled.flags e he).mp hflag)) hnot

/-! ## Scheduling -/

theorem sim_assert_true (s : DefaultSimulatorImpl) : s.assert true = s := by
  simp [DefaultSimulatorImpl.assert]

theorem bmod_of_lt {n : Int} (h0 : 0 ≤ n) (hlt : n < 2 ^ 31) : n.bmod (2 ^ 32) = n :=
  Int.bmod_eq_of_le (by omega) (by omega)

/-- A new event, after the current one and with the next uid. -/
theorem Inv.enqueue (ev : Event) (h : w.Inv q) (hroom : w.Room) (hnew : ev.impl ∉ w.objects)
    (huid : ev.key.uid = w.sim.uid) (hts : w.sim.currentTs ≤ ev.key.ts)
    (hlt : ev.key.ts < 2 ^ 63) : (w.enqueued ev (w.sim.enqueue ev)).Inv
      (q.orderedInsert (fun a b => a.stamp ≤ b.stamp) ev) := by
  obtain ⟨hdrawn, hcount⟩ := hroom
  have huid4 : ev.key.uid = 4 + w.drawn := by
    rw [huid, h.queued.uid, Nat.mod_eq_of_lt hdrawn]
  have hnewuid : ∀ a ∈ w.scheduled, a.key.uid < ev.key.uid := fun a ha => by
    have hrange := (h.named.uid_range a ha).2
    omega
  have hnewimpl : ∀ a ∈ w.scheduled, a.impl ≠ ev.impl := fun a ha heq =>
    hnew (heq ▸ h.named.impl_mem a ha)
  have hfresh : ∀ a ∈ q, a.stamp ≠ ev.stamp := fun a ha heq => by
    have hne := hnewuid a (h.queued.scheduled a ha)
    have heq' : a.key.uid = ev.key.uid := congrArg (fun k => (ofLex k).2) heq
    omega
  have hafter : w.now < ev.stamp := by
    refine EventKey.stamp_lt_iff (a := ⟨w.sim.currentTs, w.sim.currentUid, 0⟩).mpr ?_
    rcases Nat.lt_or_eq_of_le hts with hlt | heq
    · exact .inl hlt
    · refine .inr ⟨heq, ?_⟩
      have hcur := h.queued.currentUid_lt
      show w.sim.currentUid < ev.key.uid
      omega
  have hmem : ∀ a, a ∈ q.orderedInsert (fun a b => a.stamp ≤ b.stamp) ev ↔ a = ev ∨ a ∈ q :=
    fun a => List.mem_orderedInsert _
  have hlen := List.orderedInsert_length (fun a b : Event => a.stamp ≤ b.stamp) q ev
  have hqlen : (q.length : Int) + 1 < 2 ^ 31 := h.queued.count ▸ hcount
  obtain ⟨t, ht, hholds⟩ := h.queued.holds
  have hsched : ∀ a, a ∈ (w.enqueued ev (w.sim.enqueue ev)).scheduled ↔
      a ∈ w.scheduled ∨ a = ev := fun a => by
    show a ∈ w.scheduled ++ [ev] ↔ _
    rw [List.mem_append, List.mem_singleton]
  refine ⟨?queued, ?named, ?settled⟩
  case queued =>
    exact
      { holds := ⟨t, ht, hholds.insert h.queued.sorted hfresh (ht.trans hts) hlt (by omega)⟩
        sorted := h.queued.sorted.insert hfresh
        ahead := fun a ha => by
          rcases (hmem a).mp ha with rfl | ha
          · exact hafter
          · exact h.queued.ahead a ha
        bounded := fun a ha => by
          rcases (hmem a).mp ha with rfl | ha
          · exact hlt
          · exact h.queued.bounded a ha
        scheduled := fun a ha => by
          rw [hsched]
          rcases (hmem a).mp ha with rfl | ha
          · exact .inr rfl
          · exact .inl (h.queued.scheduled a ha)
        count := by
          show (w.sim.unscheduledEvents + 1).bmod (2 ^ 32) = _
          rw [h.queued.count, hlen, bmod_of_lt (by omega) hqlen]
          rfl
        count_lt := by
          rw [hlen]
          omega
        currentTs_lt := h.queued.currentTs_lt
        currentUid_lt := Nat.lt_succ_of_lt h.queued.currentUid_lt
        uid := by
          show (w.sim.uid + 1) % 2 ^ 32 = (4 + (w.drawn + 1)) % 2 ^ 32
          rw [h.queued.uid]
          omega
        pending := h.queued.pending
        asserts := h.queued.asserts }
  case named =>
    exact
      { uid_range := fun a ha => by
          show 4 ≤ a.key.uid ∧ a.key.uid < 4 + (w.drawn + 1)
          rcases (hsched a).mp ha with ha | rfl
          · have hrange := h.named.uid_range a ha
            omega
          · omega
        uid_inj := fun a ha b hb heq => by
          rcases (hsched a).mp ha with ha' | ha' <;> rcases (hsched b).mp hb with hb' | hb'
          · exact h.named.uid_inj a ha' b hb' heq
          · exact absurd (hb' ▸ heq) (hnewuid a ha').ne
          · exact absurd (ha' ▸ heq).symm (hnewuid b hb').ne
          · rw [ha', hb']
        impl_inj := fun a ha b hb heq => by
          rcases (hsched a).mp ha with ha' | ha' <;> rcases (hsched b).mp hb with hb' | hb'
          · exact h.named.impl_inj a ha' b hb' heq
          · exact absurd (hb' ▸ heq) (hnewimpl a ha')
          · exact absurd (ha' ▸ heq).symm (hnewimpl b hb')
          · rw [ha', hb']
        impl_mem := fun a ha => by
          rcases (hsched a).mp ha with ha | rfl
          · exact List.mem_cons_of_mem _ (h.named.impl_mem a ha)
          · exact List.mem_cons_self
        flag_mem := fun impl himpl => List.mem_cons_of_mem _ (h.named.flag_mem impl himpl)
        destroy := fun id hid => by
          obtain ⟨h2, impl, himpl, hobj, hne⟩ := h.named.destroy id hid
          refine ⟨h2, impl, himpl, List.mem_cons_of_mem _ hobj, fun a ha => ?_⟩
          rcases (hsched a).mp ha with ha | rfl
          · exact hne a ha
          · exact fun heq => hnew (heq ▸ hobj)
        issued := fun id hid => by
          obtain ⟨a, ha, hida⟩ := h.named.issued id hid
          exact ⟨a, (hsched a).mpr (.inl ha), hida⟩
        off_mem := fun id hid => by
          obtain ⟨impl, hobj, himpl⟩ := h.named.off_mem id hid
          exact ⟨impl, List.mem_cons_of_mem _ hobj, himpl⟩ }
  case settled =>
    exact
      { inOrder := h.settled.inOrder
        past := h.settled.past
        known := fun a ha => (hsched a).mpr (.inl (h.settled.known a ha))
        live := h.settled.live
        split := fun a ha => by
          rcases (hsched a).mp ha with ha | rfl
          · exact (h.settled.split a ha).imp_left fun hq => (hmem a).mpr (.inr hq)
          · exact .inl ((hmem a).mpr (.inl rfl))
        flags := fun a ha => by
          rcases (hsched a).mp ha with ha | rfl
          · exact h.settled.flags a ha
          · refine iff_of_false ?_ fun hoff => ?_
            · exact Bool.eq_false_iff.mp (h.named.not_cancelled hnew)
            · obtain ⟨impl, hobj, himpl⟩ := h.named.off_mem a.id hoff
              exact hnew (Option.some.inj himpl ▸ hobj) }

/-- The id of a scheduled event is given out. -/
theorem Inv.issue (h : w.Inv q) (he : e ∈ w.scheduled) :
    Inv { w with issued := e.id :: w.issued } q where
  queued := ⟨h.queued.holds, h.queued.sorted, h.queued.ahead, h.queued.bounded, h.queued.scheduled,
    h.queued.count, h.queued.count_lt, h.queued.currentTs_lt, h.queued.currentUid_lt, h.queued.uid,
    h.queued.pending, h.queued.asserts⟩
  named :=
    { h.named with
      issued := fun id hid => by
        rcases List.mem_cons.mp hid with rfl | hid
        · exact ⟨e, he, rfl⟩
        · exact h.named.issued id hid }
  settled := ⟨h.settled.inOrder, h.settled.past, h.settled.known, h.settled.live, h.settled.split,
    h.settled.flags⟩

theorem absolute_eq {s : DefaultSimulatorImpl} {delay : Int} (h0 : 0 ≤ delay)
    (hlt : s.currentTs + delay < 2 ^ 63) :
    s.currentTs ≤ s.absolute delay ∧ s.absolute delay < 2 ^ 63 := by
  unfold DefaultSimulatorImpl.absolute
  omega

theorem step_schedule {delay : Int} (h0 : 0 ≤ delay) (event : Nat) {ev : Event}
    (hev : ev = w.sim.newEvent (w.sim.absolute delay) w.sim.currentContext event) :
    w.step (.schedule delay event) =
      { w.enqueued ev (w.sim.enqueue ev) with issued := ev.id :: w.issued } := by
  simp only [step, DefaultSimulatorImpl.schedule, decide_eq_true h0, sim_assert_true, hev]

theorem Inv.schedule (h : w.Inv q) {delay : Int} {event : Nat}
    (hfit : w.StepFits (.schedule delay event)) : ∃ q, (w.step (.schedule delay event)).Inv q := by
  obtain ⟨hroom, ⟨h0, hlt⟩, hnew⟩ := hfit
  obtain ⟨hts, hts63⟩ := absolute_eq h0 hlt
  obtain ⟨ev, hev⟩ : ∃ ev, ev = w.sim.newEvent (w.sim.absolute delay) w.sim.currentContext event :=
    ⟨_, rfl⟩
  rw [step_schedule h0 event hev]
  have hinv := h.enqueue ev hroom (hev ▸ hnew) (hev ▸ rfl) (hev ▸ hts) (hev ▸ hts63)
  exact ⟨_, hinv.issue (List.mem_append_right _ (List.mem_singleton_self _))⟩

theorem Inv.scheduleNow (h : w.Inv q) {event : Nat} (hfit : w.StepFits (.scheduleNow event)) :
    ∃ q, (w.step (.scheduleNow event)).Inv q := by
  have hinv := h.enqueue (w.sim.newEvent w.sim.currentTs w.sim.currentContext event)
    hfit.1 hfit.2 rfl le_rfl h.queued.currentTs_lt
  exact ⟨_, hinv.issue (List.mem_append_right _ (List.mem_singleton_self _))⟩

theorem Inv.scheduleWithContext (h : w.Inv q) {context : Nat} {delay : Int} {event : Nat}
    (hfit : w.StepFits (.scheduleWithContext context delay event)) :
    ∃ q, (w.step (.scheduleWithContext context delay event)).Inv q := by
  obtain ⟨hroom, ⟨h0, hlt⟩, hnew⟩ := hfit
  obtain ⟨hts, hts63⟩ := absolute_eq h0 hlt
  exact ⟨_, h.enqueue (w.sim.newEvent (w.sim.absolute delay) context event)
    hroom hnew rfl hts hts63⟩

theorem Inv.scheduleDestroy (h : w.Inv q) {event : Nat} (hnew : event ∉ w.objects) :
    (w.step (.scheduleDestroy event)).Inv q where
  queued :=
    { holds := h.queued.holds
      sorted := h.queued.sorted
      ahead := h.queued.ahead
      bounded := h.queued.bounded
      scheduled := h.queued.scheduled
      count := h.queued.count
      count_lt := h.queued.count_lt
      currentTs_lt := h.queued.currentTs_lt
      currentUid_lt := Nat.lt_succ_of_lt h.queued.currentUid_lt
      uid := by
        show (w.sim.uid + 1) % 2 ^ 32 = (4 + (w.drawn + 1)) % 2 ^ 32
        rw [h.queued.uid]
        omega
      pending := h.queued.pending
      asserts := h.queued.asserts }
  named :=
    { uid_range := fun a ha => by
        have hrange := h.named.uid_range a ha
        exact ⟨hrange.1, Nat.lt_succ_of_lt hrange.2⟩
      uid_inj := h.named.uid_inj
      impl_inj := h.named.impl_inj
      impl_mem := fun a ha => List.mem_cons_of_mem _ (h.named.impl_mem a ha)
      flag_mem := fun impl himpl => List.mem_cons_of_mem _ (h.named.flag_mem impl himpl)
      destroy := fun id hid => by
        rcases List.mem_append.mp hid with hid | hid
        · obtain ⟨h2, impl, himpl, hobj, hne⟩ := h.named.destroy id hid
          exact ⟨h2, impl, himpl, List.mem_cons_of_mem _ hobj, hne⟩
        · obtain rfl := List.mem_singleton.mp hid
          exact ⟨rfl, event, rfl, List.mem_cons_self, fun a ha heq =>
            hnew (heq ▸ h.named.impl_mem a ha)⟩
      issued := h.named.issued
      off_mem := fun id hid => by
        obtain ⟨impl, hobj, himpl⟩ := h.named.off_mem id hid
        exact ⟨impl, List.mem_cons_of_mem _ hobj, himpl⟩ }
  settled := ⟨h.settled.inOrder, h.settled.past, h.settled.known, h.settled.live, h.settled.split,
    h.settled.flags⟩

/-! ## Calling events off -/

/-- An `EventImpl` is flagged and the id that it was flagged by is noted. -/
structure Flagged (w w' : Execution) (id : EventId) (impl : Nat) : Prop where
  who : ∀ a ∈ w.scheduled, a.impl = impl ↔ a.id = id
  live : ∀ a ∈ w.invoked, a.impl ≠ impl
  object : impl ∈ w.objects
  idImpl : id.impl = some impl
  now : w'.now = w.now
  cancelled : w'.sim.cancelled = impl :: w.sim.cancelled
  destroy : w'.sim.destroyEvents = w.sim.destroyEvents
  scheduled : w'.scheduled = w.scheduled
  invoked : w'.invoked = w.invoked
  issued : w'.issued = w.issued
  objects : w'.objects = w.objects
  drawn : w'.drawn = w.drawn
  noted : ∀ id', id' ∈ w'.cancels ∨ id' ∈ w'.removes ↔
    id' = id ∨ id' ∈ w.cancels ∨ id' ∈ w.removes

theorem Flagged.named {id : EventId} {impl : Nat} (hf : Flagged w w' id impl) (h : w.Named) :
    w'.Named where
  uid_range := by
    rw [hf.scheduled, hf.drawn]
    exact h.uid_range
  uid_inj := by
    rw [hf.scheduled]
    exact h.uid_inj
  impl_inj := by
    rw [hf.scheduled]
    exact h.impl_inj
  impl_mem := by
    rw [hf.scheduled, hf.objects]
    exact h.impl_mem
  flag_mem := by
    rw [hf.cancelled, hf.objects]
    intro impl' himpl'
    rcases List.mem_cons.mp himpl' with rfl | himpl'
    · exact hf.object
    · exact h.flag_mem impl' himpl'
  destroy := by
    rw [hf.destroy, hf.objects, hf.scheduled]
    exact h.destroy
  issued := by
    rw [hf.issued, hf.scheduled]
    exact h.issued
  off_mem := by
    intro id' hid'
    rw [hf.objects]
    rcases (hf.noted id').mp hid' with rfl | hid'
    · exact ⟨impl, hf.object, hf.idImpl⟩
    · exact h.off_mem id' hid'

theorem Flagged.isCancelled_iff {id : EventId} {impl : Nat} (hf : Flagged w w' id impl)
    (a : Event) : w'.sim.isCancelled a.impl = true ↔
      a.impl = impl ∨ w.sim.isCancelled a.impl = true := by
  rw [Execution.isCancelled_iff, Execution.isCancelled_iff, hf.cancelled, List.mem_cons]

theorem Flagged.settled {id : EventId} {impl : Nat} (hf : Flagged w w' id impl)
    (h : w.Settled q) {q' : List Event} (hq : ∀ a ∈ q, a ∈ q' ∨ a.impl = impl) :
    w'.Settled q' where
  inOrder := by
    rw [hf.invoked]
    exact h.inOrder
  past := by
    rw [hf.invoked, hf.now]
    exact h.past
  known := by
    rw [hf.invoked, hf.scheduled]
    exact h.known
  live := by
    rw [hf.invoked]
    intro a ha
    rw [← Bool.not_eq_true, hf.isCancelled_iff]
    rintro (heq | hold)
    · exact hf.live a ha heq
    · rw [h.live a ha] at hold
      cases hold
  split := by
    rw [hf.scheduled, hf.invoked]
    intro a ha
    rw [hf.isCancelled_iff]
    rcases h.split a ha with hmem | hinv | hflag
    · rcases hq a hmem with hmem | heq
      · exact .inl hmem
      · exact .inr (.inr (.inl heq))
    · exact .inr (.inl hinv)
    · exact .inr (.inr (.inr hflag))
  flags := by
    rw [hf.scheduled]
    intro a ha
    rw [hf.isCancelled_iff, hf.who a ha, h.flags a ha]
    exact (hf.noted a.id).symm

/-- The `EventImpl` of a live id: that of one queued event, or of a destroy event. -/
theorem Inv.live_id (h : w.Inv q) {id : EventId}
    (hid : id.impl = none ∨ id ∈ w.issued ∨ id ∈ w.sim.destroyEvents)
    (hlive : w.sim.isExpired id = false) :
    (∃ a ∈ q, a.id = id) ∨ (id ∈ w.sim.destroyEvents ∧ id.uid = 2 ∧
      ∃ impl ∈ w.objects, id.impl = some impl ∧ ∀ a ∈ w.scheduled, a.impl ≠ impl) := by
  rcases hid with hnull | hissued | hdestroy
  · simp [DefaultSimulatorImpl.isExpired, hnull] at hlive
  · obtain ⟨a, ha, rfl⟩ := h.named.issued id hissued
    exact .inl ⟨a, h.queued_of_live ha hlive, rfl⟩
  · obtain ⟨h2, impl, himpl, hobj, hne⟩ := h.named.destroy id hdestroy
    exact .inr ⟨hdestroy, h2, impl, hobj, himpl, hne⟩

theorem Inv.not_invoked (h : w.Inv q) {a b : Event} (ha : a ∈ q) (hb : b ∈ w.invoked) :
    b.impl ≠ a.impl := by
  intro heq
  have hab := h.named.impl_inj b (h.settled.known b hb) a (h.queued.scheduled a ha) heq
  exact absurd (h.settled.past b hb) (hab ▸ h.queued.ahead a ha).not_ge

/-- The note of a live queued event, for any change that flags it. -/
theorem Inv.flagged_queued (h : w.Inv q) {a : Event} (ha : a ∈ q) (b : Event)
    (hb : b ∈ w.scheduled) : b.impl = a.impl ↔ b.id = a.id := by
  constructor
  · intro heq
    rw [h.named.impl_inj b hb a (h.queued.scheduled a ha) heq]
  · intro heq
    rw [id_inj heq]

theorem Inv.cancel (h : w.Inv q) {id : EventId}
    (hid : id.impl = none ∨ id ∈ w.issued ∨ id ∈ w.sim.destroyEvents) :
    (w.step (.cancel id)).Inv q := by
  cases hexp : w.sim.isExpired id with
  | true =>
      have hsame : w.step (.cancel id) = w := by
        simp [step, DefaultSimulatorImpl.cancel, hexp]
      rwa [hsame]
  | false =>
      have hstep : ∀ impl, id.impl = some impl → w.step (.cancel id) =
          { w with sim := w.sim.cancelImpl impl, cancels := id :: w.cancels } := by
        intro impl himpl
        simp [step, DefaultSimulatorImpl.cancel, hexp, himpl]
      have hflag : ∀ impl, id.impl = some impl → impl ∈ w.objects →
          (∀ a ∈ w.scheduled, a.impl = impl ↔ a.id = id) → (∀ a ∈ w.invoked, a.impl ≠ impl) →
            Flagged w (w.step (.cancel id)) id impl := by
        intro impl himpl hobj hwho hlive
        rw [hstep impl himpl]
        exact ⟨hwho, hlive, hobj, himpl, rfl, rfl, rfl, rfl, rfl, rfl, rfl, rfl, fun id' => by
          simp only [List.mem_cons, or_assoc]⟩
      have hqueued : ∀ impl, id.impl = some impl → (w.step (.cancel id)).Queued q := by
        intro impl himpl
        rw [hstep impl himpl]
        exact ⟨h.queued.holds, h.queued.sorted, h.queued.ahead, h.queued.bounded,
          h.queued.scheduled, h.queued.count, h.queued.count_lt, h.queued.currentTs_lt,
          h.queued.currentUid_lt, h.queued.uid, h.queued.pending, h.queued.asserts⟩
      rcases h.live_id hid hexp with ⟨a, ha, rfl⟩ | ⟨-, h2, impl, hobj, himpl, hne⟩
      · have hf := hflag a.impl rfl (h.named.impl_mem a (h.queued.scheduled a ha))
          (h.flagged_queued ha) fun b hb => h.not_invoked ha hb
        exact ⟨hqueued a.impl rfl, hf.named h.named, hf.settled h.settled fun b hb => .inl hb⟩
      · have hf := hflag impl himpl hobj (fun a ha => iff_of_false (hne a ha) fun heq => by
          have hrange := (h.named.uid_range a ha).1
          have huid : a.key.uid = id.uid := congrArg EventId.uid heq
          omega) fun a ha => hne a (h.settled.known a ha)
        exact ⟨hqueued impl himpl, hf.named h.named, hf.settled h.settled fun b hb => .inl hb⟩

/-- A destroy event is dropped; no scheduled event has an id like it. -/
theorem Inv.dropDestroy (h : w.Inv q) (id : EventId) {removes : List EventId}
    (hsub : w.removes ⊆ removes) (hnew : ∀ id' ∈ removes, id' ∈ w.removes ∨
      id'.uid = 2 ∧ ∃ impl ∈ w.objects, id'.impl = some impl) :
    Inv { w with
      sim := { w.sim with destroyEvents := w.sim.destroyEvents.erase id }
      removes := removes } q where
  queued := ⟨h.queued.holds, h.queued.sorted, h.queued.ahead, h.queued.bounded,
    h.queued.scheduled, h.queued.count, h.queued.count_lt, h.queued.currentTs_lt,
    h.queued.currentUid_lt, h.queued.uid, h.queued.pending, h.queued.asserts⟩
  named :=
    { uid_range := h.named.uid_range
      uid_inj := h.named.uid_inj
      impl_inj := h.named.impl_inj
      impl_mem := h.named.impl_mem
      flag_mem := h.named.flag_mem
      destroy := fun id' hid' => h.named.destroy id' (List.mem_of_mem_erase hid')
      issued := h.named.issued
      off_mem := by
        rintro id' (hid' | hid')
        · exact h.named.off_mem id' (.inl hid')
        · rcases hnew id' hid' with hold | ⟨-, himpl⟩
          · exact h.named.off_mem id' (.inr hold)
          · exact himpl }
  settled :=
    { inOrder := h.settled.inOrder
      past := h.settled.past
      known := h.settled.known
      live := h.settled.live
      split := h.settled.split
      flags := fun a ha => by
        refine (h.settled.flags a ha).trans (or_congr_right ⟨fun hr => hsub hr, fun hr => ?_⟩)
        rcases hnew a.id hr with hold | ⟨h2, -⟩
        · exact hold
        · have hrange := (h.named.uid_range a ha).1
          have huid : a.key.uid = 2 := h2
          omega }

theorem Inv.firstOfUid (h : w.Inv q) {a : Event} (ha : a ∈ q) : FirstOfUid q a :=
  ⟨ha, fun b hb heq => by
    rw [h.named.uid_inj b (h.queued.scheduled b hb) a (h.queued.scheduled a ha) heq]⟩

/-- A queued event is taken out and flagged. -/
theorem Inv.removeQueued (h : w.Inv q) {a : Event} (ha : a ∈ q)
    (hexp : w.sim.isExpired a.id = false) : (w.step (.remove a.id)).Inv (q.erase a) := by
  have hsched := h.queued.scheduled a ha
  have huid : a.id.uid ≠ 2 := by
    have hrange := (h.named.uid_range a hsched).1
    show a.key.uid ≠ 2
    omega
  obtain ⟨t, ht, hh⟩ := h.queued.holds
  obtain ⟨events, hremove, hh'⟩ := hh.remove h.queued.sorted (h.firstOfUid ha)
  have hsim : w.sim.remove a.id =
      { w.sim.cancelImpl a.impl with
        events := events
        unscheduledEvents := (w.sim.unscheduledEvents - 1).bmod (2 ^ 32) } := by
    have hremove' : w.sim.events.remove ⟨a.impl, ⟨a.id.ts, a.id.uid, a.id.context⟩⟩ = some events := hremove
    rw [DefaultSimulatorImpl.remove, if_neg huid, hexp, if_neg Bool.false_ne_true]
    dsimp only [Event.id] at hremove' ⊢
    rw [hremove']
  have hstep : w.step (.remove a.id) =
      { w with
        sim := { w.sim.cancelImpl a.impl with
          events := events
          unscheduledEvents := (w.sim.unscheduledEvents - 1).bmod (2 ^ 32) }
        removes := a.id :: w.removes } := by
    simp only [step, hsim, hexp, if_neg Bool.false_ne_true]
  have hf : Flagged w (w.step (.remove a.id)) a.id a.impl := by
    rw [hstep]
    exact ⟨h.flagged_queued ha, fun b hb => h.not_invoked ha hb, h.named.impl_mem a hsched, rfl, rfl,
      rfl, rfl, rfl, rfl, rfl, rfl, rfl, fun id' => by
        simp only [List.mem_cons]
        exact or_left_comm⟩
  have hlen := List.length_erase_of_mem ha
  have hpos := List.length_pos_of_mem ha
  have hcount_lt := h.queued.count_lt
  have hsub : ∀ b ∈ q.erase a, b ∈ q := fun b hb => List.mem_of_mem_erase hb
  refine ⟨?_, hf.named h.named, hf.settled h.settled fun b hb => ?_⟩
  · rw [hstep]
    exact
      { holds := ⟨t, ht, hh'⟩
        sorted := h.queued.sorted.sublist List.erase_sublist
        ahead := fun b hb => h.queued.ahead b (hsub b hb)
        bounded := fun b hb => h.queued.bounded b (hsub b hb)
        scheduled := fun b hb => h.queued.scheduled b (hsub b hb)
        count := by
          show (w.sim.unscheduledEvents - 1).bmod (2 ^ 32) = _
          rw [h.queued.count, bmod_of_lt (by omega) (by omega)]
          omega
        count_lt := by omega
        currentTs_lt := h.queued.currentTs_lt
        currentUid_lt := h.queued.currentUid_lt
        uid := h.queued.uid
        pending := h.queued.pending
        asserts := h.queued.asserts }
  · by_cases heq : b = a
    · exact .inr (by rw [heq])
    · exact .inl ((List.mem_erase_of_ne heq).mpr hb)

theorem Inv.remove (h : w.Inv q) {id : EventId}
    (hid : id.impl = none ∨ id ∈ w.issued ∨ id ∈ w.sim.destroyEvents) :
    ∃ q, (w.step (.remove id)).Inv q := by
  cases hexp : w.sim.isExpired id with
  | true =>
      by_cases h2 : id.uid = 2
      · have hstep : w.step (.remove id) = { w with
            sim := { w.sim with destroyEvents := w.sim.destroyEvents.erase id } } := by
          simp [step, DefaultSimulatorImpl.remove, hexp, h2]
        rw [hstep]
        exact ⟨q, h.dropDestroy id (List.Subset.refl _) fun _ hid' => .inl hid'⟩
      · have hstep : w.step (.remove id) = w := by
          simp [step, DefaultSimulatorImpl.remove, hexp, h2]
        rw [hstep]
        exact ⟨q, h⟩
  | false =>
      rcases h.live_id hid hexp with ⟨a, ha, rfl⟩ | ⟨-, h2, impl, hobj, himpl, -⟩
      · exact ⟨q.erase a, h.removeQueued ha hexp⟩
      · have hstep : w.step (.remove id) = { w with
            sim := { w.sim with destroyEvents := w.sim.destroyEvents.erase id }
            removes := id :: w.removes } := by
          simp [step, DefaultSimulatorImpl.remove, hexp, h2]
        rw [hstep]
        refine ⟨q, h.dropDestroy id (List.subset_cons_self _ _) fun id' hid' => ?_⟩
        rcases List.mem_cons.mp hid' with rfl | hid'
        · exact .inr ⟨h2, impl, hobj, himpl⟩
        · exact .inl hid'

/-! ## Running -/

theorem Inv.setScheduler (h : w.Inv q) (scheduler : CorrectScheduler) :
    (w.step (.setScheduler scheduler)).Inv q where
  queued :=
    { h.queued with
      holds := by
        obtain ⟨t, -, hh⟩ := h.queued.holds
        exact ⟨0, Nat.zero_le _,
          hh.setScheduler h.queued.sorted h.queued.bounded h.queued.count_lt scheduler⟩ }
  named := ⟨h.named.uid_range, h.named.uid_inj, h.named.impl_inj, h.named.impl_mem,
    h.named.flag_mem, h.named.destroy, h.named.issued, h.named.off_mem⟩
  settled := ⟨h.settled.inOrder, h.settled.past, h.settled.known, h.settled.live, h.settled.split,
    h.settled.flags⟩

/-- The stop flag and the place in the program play no part. -/
theorem Inv.elsewhere (h : w.Inv q) (stop : Bool) (phase : Phase) :
    Inv { w with sim := { w.sim with stop := stop }, phase := phase } q where
  queued := ⟨h.queued.holds, h.queued.sorted, h.queued.ahead, h.queued.bounded,
    h.queued.scheduled, h.queued.count, h.queued.count_lt, h.queued.currentTs_lt,
    h.queued.currentUid_lt, h.queued.uid, h.queued.pending, h.queued.asserts⟩
  named := ⟨h.named.uid_range, h.named.uid_inj, h.named.impl_inj, h.named.impl_mem,
    h.named.flag_mem, h.named.destroy, h.named.issued, h.named.off_mem⟩
  settled := ⟨h.settled.inOrder, h.settled.past, h.settled.known, h.settled.live, h.settled.split,
    h.settled.flags⟩

theorem processEventsWithContext_eq {s : DefaultSimulatorImpl} (h : s.eventsWithContext = []) :
    s.processEventsWithContext = s := by
  cases s
  simp only at h
  subst h
  rfl

theorem Inv.run (h : w.Inv q) : (w.step .run).Inv q := by
  have heq : w.sim.enterRun = { w.sim with stop := false } := by
    rw [DefaultSimulatorImpl.enterRun, processEventsWithContext_eq h.queued.pending]
  simp only [step, heq]
  exact h.elsewhere false .looping

theorem Inv.returned (h : w.Inv q) : (w.step .returned).Inv q := by
  simp only [step, processEventsWithContext_eq h.queued.pending]
  exact h.elsewhere w.sim.stop .looping

/-- The consistency test at the end of `Run` passes. -/
theorem Inv.leave (h : w.Inv q) : (w.step .leave).Inv q := by
  obtain ⟨t, -, hh⟩ := h.queued.holds
  have htest : (!w.sim.events.isEmpty || w.sim.unscheduledEvents == 0) = true := by
    rw [hh.isEmpty, h.queued.count]
    cases q <;> simp
  have heq : w.sim.leaveRun = w.sim := by
    rw [DefaultSimulatorImpl.leaveRun, htest, sim_assert_true]
  simp only [step, heq]
  exact h.elsewhere w.sim.stop .outside

/-- The head of the queue becomes the current event. -/
theorem Inv.processOneEvent (h : w.Inv q) (hgo : w.sim.goesOn) :
    (w.step .processOneEvent).Inv q.tail ∧
      w.sim.currentTs ≤ (w.step .processOneEvent).sim.currentTs := by
  obtain ⟨t, ht, hh⟩ := h.queued.holds
  have hne : q ≠ [] := by
    rintro rfl
    simp [DefaultSimulatorImpl.goesOn, hh.isEmpty] at hgo
  obtain ⟨next, events, hremove, hhead, hh'⟩ := hh.removeNext h.queued.sorted hne
  obtain ⟨rest, rfl⟩ : ∃ rest, q = next :: rest := List.head?_eq_some_iff.mp hhead
  have hmem : next ∈ next :: rest := List.mem_cons_self
  have hsched := h.queued.scheduled next hmem
  have hahead := h.queued.ahead next hmem
  have hlate : w.sim.currentTs ≤ next.key.ts := CalendarScheduler.stamp_le_ts
    (e := ⟨0, ⟨w.sim.currentTs, w.sim.currentUid, 0⟩⟩) hahead.le
  have hassert : (decide (w.sim.currentTs ≤ next.key.ts)) = true := decide_eq_true hlate
  have hcount : ((next :: rest).length : Int) = rest.length + 1 := by simp
  have hcount_lt := h.queued.count_lt
  rw [List.length_cons] at hcount_lt
  simp only [step, DefaultSimulatorImpl.takeEvent, hremove, hassert, sim_assert_true]
  refine ⟨⟨?queued, ?named, ?settled⟩, hlate⟩
  case queued =>
    exact
      { holds := ⟨next.key.ts, le_rfl, hh'⟩
        sorted := (List.pairwise_cons.mp h.queued.sorted).2
        ahead := (List.pairwise_cons.mp h.queued.sorted).1
        bounded := fun a ha => h.queued.bounded a (List.mem_cons_of_mem _ ha)
        scheduled := fun a ha => h.queued.scheduled a (List.mem_cons_of_mem _ ha)
        count := by
          show (w.sim.unscheduledEvents - 1).bmod (2 ^ 32) = _
          rw [h.queued.count, hcount, Int.add_sub_cancel, List.tail_cons]
          exact bmod_of_lt (by omega) (by omega)
        count_lt := Nat.lt_of_succ_lt hcount_lt
        currentTs_lt := h.queued.bounded next hmem
        currentUid_lt := (h.named.uid_range next hsched).2
        uid := h.queued.uid
        pending := h.queued.pending
        asserts := h.queued.asserts }
  case named =>
    exact ⟨h.named.uid_range, h.named.uid_inj, h.named.impl_inj, h.named.impl_mem,
      h.named.flag_mem, h.named.destroy, h.named.issued, h.named.off_mem⟩
  case settled =>
    have hpast : ∀ a ∈ w.invoked, a.stamp < next.stamp := fun a ha =>
      (h.settled.past a ha).trans_lt hahead
    cases hcan : w.sim.isCancelled next.impl with
    | true =>
        exact
          { inOrder := h.settled.inOrder
            past := fun a ha => (hpast a ha).le
            known := h.settled.known
            live := h.settled.live
            split := fun a ha => by
              rcases h.settled.split a ha with hq | hold
              · rcases List.mem_cons.mp hq with rfl | hq
                · exact .inr (.inr hcan)
                · exact .inl hq
              · exact .inr hold
            flags := h.settled.flags }
    | false =>
        have hinvoked : ∀ a, a ∈ w.invoked ++ [next] ↔ a ∈ w.invoked ∨ a = next := fun a => by
          rw [List.mem_append, List.mem_singleton]
        exact
          { inOrder := List.pairwise_append.mpr ⟨h.settled.inOrder, List.pairwise_singleton _ _,
              fun a ha b hb => List.mem_singleton.mp hb ▸ hpast a ha⟩
            past := fun a ha => by
              rcases (hinvoked a).mp ha with ha | rfl
              · exact (hpast a ha).le
              · exact le_rfl
            known := fun a ha => by
              rcases (hinvoked a).mp ha with ha | rfl
              · exact h.settled.known a ha
              · exact hsched
            live := fun a ha => by
              rcases (hinvoked a).mp ha with ha | rfl
              · exact h.settled.live a ha
              · exact hcan
            split := fun a ha => by
              rcases h.settled.split a ha with hq | hold | hold
              · rcases List.mem_cons.mp hq with rfl | hq
                · exact .inr (.inl ((hinvoked a).mpr (.inr rfl)))
                · exact .inl hq
              · exact .inr (.inl ((hinvoked a).mpr (.inl hold)))
              · exact .inr (.inr hold)
            flags := h.settled.flags }

/-! ## Executions from a new simulator -/

theorem inv_start (scheduler : CorrectScheduler) : (start scheduler).Inv [] where
  queued :=
    { holds := ⟨0, le_rfl, scheduler.create_holds⟩
      sorted := Agenda.sorted_nil
      ahead := fun e he => by cases he
      bounded := fun e he => by cases he
      scheduled := fun e he => by cases he
      count := rfl
      count_lt := by decide
      currentTs_lt := show (0 : Nat) < 2 ^ 63 by decide
      currentUid_lt := show (0 : Nat) < 4 + 0 by decide
      uid := rfl
      pending := rfl
      asserts := rfl }
  named :=
    { uid_range := fun e he => by cases he
      uid_inj := fun e he => by cases he
      impl_inj := fun e he => by cases he
      impl_mem := fun e he => by cases he
      flag_mem := fun e he => by cases he
      destroy := fun e he => by cases he
      issued := fun e he => by cases he
      off_mem := fun e he => by rcases he with he | he <;> cases he }
  settled :=
    { inOrder := Agenda.sorted_nil
      past := fun e he => by cases he
      known := fun e he => by cases he
      live := fun e he => by cases he
      split := fun e he => by cases he
      flags := fun e he => by cases he }

theorem Inv.step (h : w.Inv q) {call : Call} (hok : w.Asked call) (hfit : w.StepFits call) :
    ∃ q, (w.step call).Inv q := by
  cases call with
  | schedule delay event => exact h.schedule hfit
  | scheduleNow event => exact h.scheduleNow hfit
  | scheduleWithContext context delay event => exact h.scheduleWithContext hfit
  | scheduleDestroy event => exact ⟨q, h.scheduleDestroy hfit⟩
  | remove id => exact h.remove hok.2
  | cancel id => exact ⟨q, h.cancel hok.2⟩
  | stop => exact ⟨q, h.elsewhere true w.phase⟩
  | setScheduler scheduler => exact ⟨q, h.setScheduler scheduler⟩
  | run => exact ⟨q, h.run⟩
  | processOneEvent => exact ⟨q.tail, (h.processOneEvent hok.2).1⟩
  | returned => exact ⟨q, h.returned⟩
  | leave => exact ⟨q, h.leave⟩

theorem currentTs_remove (s : DefaultSimulatorImpl) (id : EventId) :
    (s.remove id).currentTs = s.currentTs := by
  unfold DefaultSimulatorImpl.remove
  split
  · rfl
  split
  · rfl
  split
  · rfl
  split <;> rfl

theorem currentTs_cancel (s : DefaultSimulatorImpl) (id : EventId) :
    (s.cancel id).currentTs = s.currentTs := by
  unfold DefaultSimulatorImpl.cancel
  split
  · rfl
  split <;> rfl

theorem Inv.currentTs_le (h : w.Inv q) {call : Call} (hok : w.Asked call) :
    w.sim.currentTs ≤ (w.step call).sim.currentTs := by
  cases call with
  | schedule | scheduleNow | scheduleWithContext | scheduleDestroy | stop | setScheduler | leave =>
      exact le_rfl
  | remove id => exact (currentTs_remove w.sim id).ge
  | cancel id => exact (currentTs_cancel w.sim id).ge
  | run | returned =>
      simp only [Execution.step, DefaultSimulatorImpl.enterRun,
        processEventsWithContext_eq h.queued.pending, le_refl]
  | processOneEvent => exact (h.processOneEvent hok.2).2

/-- The semantics of a discrete-event simulator: events are invoked in the order of their keys, each
at most once, and each scheduled one is invoked, queued or called off; an id has expired exactly
when its event was invoked or called off; the count is that of the queued events. -/
structure Semantics (w : Execution) : Prop where
  inOrder : Agenda.Sorted Event.stamp w.invoked
  once : w.invoked.Nodup
  known : ∀ e ∈ w.invoked, e ∈ w.scheduled ∧ ¬ w.CalledOff e
  queue : ∃ q t, w.sim.events.Holds q t ∧ w.sim.unscheduledEvents = q.length ∧
    (∀ e ∈ q, e ∈ w.scheduled ∧ e ∉ w.invoked) ∧
      ∀ e ∈ w.scheduled, e ∈ w.invoked ∨ e ∈ q ∨ w.CalledOff e
  expired : ∀ id ∈ w.issued, w.sim.isExpired id = true ↔
    (∃ e ∈ w.invoked, e.id = id) ∨ id ∈ w.cancels ∨ id ∈ w.removes
  asserts : w.sim.asserts = true

theorem Inv.semantics (h : w.Inv q) : w.Semantics where
  inOrder := h.settled.inOrder
  once := h.settled.inOrder.nodup
  known := fun e he => by
    refine ⟨h.settled.known e he, fun hoff => ?_⟩
    have hflag := (h.settled.flags e (h.settled.known e he)).mpr hoff
    rw [h.settled.live e he] at hflag
    cases hflag
  queue := by
    obtain ⟨t, -, hh⟩ := h.queued.holds
    refine ⟨q, t, hh, h.queued.count, fun e he => ⟨h.queued.scheduled e he, fun hinv => ?_⟩,
      fun e he => ?_⟩
    · exact absurd (h.settled.past e hinv) (h.queued.ahead e he).not_ge
    · rcases h.settled.split e he with hq | hinv | hflag
      · exact .inr (.inl hq)
      · exact .inl hinv
      · exact .inr (.inr ((h.settled.flags e he).mp hflag))
  expired := fun id hid => by
    obtain ⟨e, he, rfl⟩ := h.named.issued id hid
    rw [h.isExpired_iff he, h.invoked_or_calledOff he]
    refine or_congr_left ⟨fun hinv => ⟨e, hinv, rfl⟩, ?_⟩
    rintro ⟨a, ha, heq⟩
    exact id_inj heq ▸ ha
  asserts := h.queued.asserts

variable {tr : List (Execution × Call)} {scheduler : CorrectScheduler}

/-- Main theorem: along calls that fit, the simulator has the semantics of a discrete-event
simulator in every state, and its time never goes back. -/
theorem semantics_of_run (h : Run step (fun w call => w.Asked call ∧ w.StepFits call)
    (start scheduler) tr w) :
    w.Semantics ∧ ∀ p ∈ tr, p.1.Semantics ∧ p.1.sim.currentTs ≤ w.sim.currentTs := by
  have hinv : (∃ q, w.Inv q) ∧
      ∀ p ∈ tr, (∃ q, p.1.Inv q) ∧ p.1.sim.currentTs ≤ w.sim.currentTs := by
    induction h with
    | nil => exact ⟨⟨[], inv_start scheduler⟩, fun p hp => by cases hp⟩
    | @snoc tr s call hrun hok ih =>
        obtain ⟨⟨q, hq⟩, hall⟩ := ih
        have hle := hq.currentTs_le hok.1
        refine ⟨hq.step hok.1 hok.2, fun p hp => ?_⟩
        rcases List.mem_append.mp hp with hp | hp
        · exact ⟨(hall p hp).1, (hall p hp).2.trans hle⟩
        · rw [List.mem_singleton.mp hp]
          exact ⟨⟨q, hq⟩, hle⟩
  obtain ⟨⟨q, hq⟩, hall⟩ := hinv
  refine ⟨hq.semantics, fun p hp => ?_⟩
  obtain ⟨⟨q', hq'⟩, hle⟩ := hall p hp
  exact ⟨hq'.semantics, hle⟩

/-! ## Two runs -/

instance (w : Execution) : ∀ call, Decidable (w.Asked call)
  | .run => inferInstanceAs (Decidable (_ = _))
  | .processOneEvent | .leave => inferInstanceAs (Decidable (_ ∧ _))
  | .remove _ | .cancel _ => inferInstanceAs (Decidable (_ ∧ (_ ∨ _ ∨ _)))
  | .returned =>
      match h : w.phase with
      | .inside ev => .isTrue ⟨ev, h⟩
      | .outside | .looping => .isFalse fun ⟨ev, hev⟩ => by rw [h] at hev; cases hev
  | .schedule .. | .scheduleNow _ | .scheduleWithContext .. | .scheduleDestroy _ | .stop
  | .setScheduler _ => inferInstanceAs (Decidable (_ ≠ _))

instance (w : Execution) : Decidable w.Room := inferInstanceAs (Decidable (_ ∧ _))

instance (w : Execution) (delay : Int) : Decidable (w.Ahead delay) :=
  inferInstanceAs (Decidable (_ ∧ _))

instance (w : Execution) : ∀ call, Decidable (w.StepFits call)
  | .schedule .. | .scheduleWithContext .. => inferInstanceAs (Decidable (_ ∧ _ ∧ _))
  | .scheduleNow _ => inferInstanceAs (Decidable (_ ∧ _))
  | .scheduleDestroy _ => inferInstanceAs (Decidable (_ ∉ _))
  | .remove _ | .cancel _ | .stop | .setScheduler _ | .run | .processOneEvent | .returned
  | .leave => .isTrue trivial

/-- Events are cancelled and removed, from outside and from inside of an event, and the queue moves
to a calendar in between. -/
theorem semantics_cancel_and_remove : (Execution.Semantics
    ([.schedule 5 1, .schedule 5 2, .schedule 7 3, .schedule 9 4, .cancel ⟨some 2, 5, 0xffffffff, 5⟩,
      .run, .processOneEvent, .scheduleNow 5, .remove ⟨some 4, 9, 0xffffffff, 7⟩,
      .scheduleWithContext 3 1 6, .returned, .processOneEvent, .setScheduler calendarScheduler,
      .returned, .processOneEvent, .stop, .returned, .leave].foldl step (start listScheduler))) :=
  (semantics_of_run (run_of_passes step (fun w call => w.Asked call ∧ w.StepFits call)
    (start listScheduler)
    [.schedule 5 1, .schedule 5 2, .schedule 7 3, .schedule 9 4, .cancel ⟨some 2, 5, 0xffffffff, 5⟩,
      .run, .processOneEvent, .scheduleNow 5, .remove ⟨some 4, 9, 0xffffffff, 7⟩,
      .scheduleWithContext 3 1 6, .returned, .processOneEvent, .setScheduler calendarScheduler,
      .returned, .processOneEvent, .stop, .returned, .leave] (by decide +kernel))).1

/-- From inside the event at time 5 an event is scheduled with a context and the delay −3. -/
theorem time_goes_back : ∃ w tr, Run step Asked (start listScheduler) tr w ∧
    tr.map Prod.snd = [.schedule 5 1, .run, .processOneEvent, .scheduleWithContext 3 (-3) 2,
      .returned, .processOneEvent] ∧
      w.invoked = [⟨1, ⟨5, 4, 0xffffffff⟩⟩, ⟨2, ⟨2, 5, 3⟩⟩] ∧
        (∃ p ∈ tr, w.sim.currentTs < p.1.sim.currentTs) ∧ ¬ w.Semantics := by
  have hrun := run_of_passes step Asked (start listScheduler)
    [.schedule 5 1, .run, .processOneEvent, .scheduleWithContext 3 (-3) 2, .returned,
      .processOneEvent] (by decide +kernel)
  refine ⟨_, _, hrun, rfl, by decide +kernel, by decide +kernel, fun h => ?_⟩
  exact absurd h.asserts (by decide +kernel)

end Execution

end Ns3Raft.Sim
