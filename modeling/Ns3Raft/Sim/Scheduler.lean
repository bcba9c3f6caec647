import Ns3Raft.Sim.CalendarYear

/-! # Correct schedulers

A scheduler together with the proof that it answers as the agenda does, for
events with uids of their own that are not before the last one taken. The list
and the calendar are such schedulers.
-/

namespace Ns3Raft.Sim

structure CorrectScheduler where
  State : Type
  create : State
  isEmpty : State → Bool
  insert : State → Event → State
  removeNext : State → Option (Event × State)
  remove : State → Event → Option State
  /-- How many events are held. -/
  size : State → Nat
  /-- The agenda that is held, and the time of the last event taken. -/
  Holds : State → List Event → Nat → Prop
  create_holds : Holds create [] 0
  isEmpty_eq : ∀ {s q t}, Holds s q t → isEmpty s = q.isEmpty
  size_eq : ∀ {s q t}, Holds s q t → size s = q.length
  insert_holds : ∀ {s q t ev}, Holds s q t → Agenda.Sorted Event.stamp q →
    (∀ a ∈ q, a.stamp ≠ ev.stamp) → t ≤ ev.key.ts → ev.key.ts < 2 ^ 63 → q.length + 1 < 2 ^ 31 →
      Holds (insert s ev) (q.orderedInsert (fun a b => a.stamp ≤ b.stamp) ev) t
  removeNext_holds : ∀ {s q t}, Holds s q t → Agenda.Sorted Event.stamp q → q ≠ [] →
    ∃ ev s', removeNext s = some (ev, s') ∧ q.head? = some ev ∧ Holds s' q.tail ev.key.ts
  remove_holds : ∀ {s q t ev}, Holds s q t → Agenda.Sorted Event.stamp q → FirstOfUid q ev →
    ∃ s', remove s ev = some s' ∧ Holds s' (q.erase ev) t

/-- The list scheduler. -/
def listScheduler : CorrectScheduler where
  State := List Event
  create := []
  isEmpty := List.isEmpty
  insert := insertInOrder
  removeNext := ListScheduler.removeNext
  remove := eraseUid
  size := List.length
  Holds := fun s q _ => s = q
  create_holds := rfl
  isEmpty_eq := fun h => by rw [h]
  size_eq := fun h => by rw [h]
  insert_holds := by
    rintro s _ t ev rfl _ hfresh _ _ _
    exact insertInOrder_eq hfresh
  removeNext_holds := by
    rintro (_ | ⟨ev, s⟩) _ t rfl _ hne
    · exact absurd rfl hne
    · exact ⟨ev, s, rfl, rfl, rfl⟩
  remove_holds := by
    rintro s _ t ev rfl hs hfirst
    exact ⟨_, eraseUid_eq hs hfirst, rfl⟩

/-- The calendar scheduler. -/
def calendarScheduler : CorrectScheduler where
  State := CalendarScheduler
  create := .new
  isEmpty := CalendarScheduler.isEmpty
  insert := fun s ev => s.step (.insert ev)
  removeNext := CalendarScheduler.removeNext
  remove := CalendarScheduler.remove
  size := CalendarScheduler.qSize
  Holds := CalendarScheduler.Sound
  create_holds := CalendarScheduler.new_sound
  isEmpty_eq := CalendarScheduler.Sound.isEmpty_eq
  size_eq := CalendarScheduler.Sound.qSize
  insert_holds := by
    intro s q t ev h _ hfresh hlate hts hlt
    obtain ⟨s', hs', hsound⟩ := h.insert hfresh hlate hts (by omega)
    rw [CalendarScheduler.step, CalendarScheduler.apply, hs', Option.getD_some]
    exact hsound
  removeNext_holds := fun h hq hne => h.removeNext hq hne
  remove_holds := fun h _ hfirst => h.remove hfirst

/-- `m_events`. -/
structure EventQueue where
  scheduler : CorrectScheduler
  state : scheduler.State

namespace EventQueue

def isEmpty (e : EventQueue) : Bool := e.scheduler.isEmpty e.state

def insert (e : EventQueue) (ev : Event) : EventQueue := ⟨e.scheduler, e.scheduler.insert e.state ev⟩

def removeNext (e : EventQueue) : Option (Event × EventQueue) :=
  (e.scheduler.removeNext e.state).map fun (ev, s) => (ev, ⟨e.scheduler, s⟩)

def remove (e : EventQueue) (ev : Event) : Option EventQueue :=
  (e.scheduler.remove e.state ev).map fun s => ⟨e.scheduler, s⟩

/-- The loop of `SetScheduler`: the events of one queue are moved to another. -/
def moveAll : Nat → EventQueue → EventQueue → EventQueue
  | 0, _, new => new
  | fuel + 1, old, new =>
      if old.isEmpty then new
      else
        match old.removeNext with
        | none => new
        | some (next, old) => moveAll fuel old (new.insert next)

def setScheduler (e : EventQueue) (scheduler : CorrectScheduler) : EventQueue :=
  moveAll (e.scheduler.size e.state + 1) e ⟨scheduler, scheduler.create⟩

def Holds (e : EventQueue) (q : List Event) (t : Nat) : Prop := e.scheduler.Holds e.state q t

variable {e e' : EventQueue} {q : List Event} {t : Nat} {ev : Event}

theorem Holds.isEmpty (h : e.Holds q t) : e.isEmpty = q.isEmpty := e.scheduler.isEmpty_eq h

theorem Holds.insert (h : e.Holds q t) (hq : Agenda.Sorted Event.stamp q)
    (hfresh : ∀ a ∈ q, a.stamp ≠ ev.stamp) (hlate : t ≤ ev.key.ts) (hts : ev.key.ts < 2 ^ 63)
    (hlen : q.length + 1 < 2 ^ 31) :
    (e.insert ev).Holds (q.orderedInsert (fun a b => a.stamp ≤ b.stamp) ev) t :=
  e.scheduler.insert_holds h hq hfresh hlate hts hlen

theorem Holds.removeNext (h : e.Holds q t) (hq : Agenda.Sorted Event.stamp q) (hne : q ≠ []) :
    ∃ ev e', e.removeNext = some (ev, e') ∧ q.head? = some ev ∧ e'.Holds q.tail ev.key.ts := by
  obtain ⟨ev, s', hs', hhead, hh⟩ := e.scheduler.removeNext_holds h hq hne
  exact ⟨ev, ⟨e.scheduler, s'⟩, by rw [EventQueue.removeNext, hs', Option.map_some], hhead, hh⟩

theorem Holds.remove (h : e.Holds q t) (hq : Agenda.Sorted Event.stamp q)
    (hfirst : FirstOfUid q ev) : ∃ e', e.remove ev = some e' ∧ e'.Holds (q.erase ev) t := by
  obtain ⟨s', hs', hh⟩ := e.scheduler.remove_holds h hq hfirst
  exact ⟨⟨e.scheduler, s'⟩, by rw [EventQueue.remove, hs', Option.map_some], hh⟩

/-- Events moved in order go behind what was moved before. -/
theorem moveAll_holds {q' : List Event} {new : EventQueue} (fuel : Nat) (h : e.Holds q t)
    (hnew : new.Holds q' 0) (hq : Agenda.Sorted Event.stamp (q' ++ q))
    (hts : ∀ a ∈ q, a.key.ts < 2 ^ 63) (hlen : (q' ++ q).length < 2 ^ 31)
    (hfuel : q.length < fuel) : (moveAll fuel e new).Holds (q' ++ q) 0 := by
  induction fuel generalizing e q q' t new with
  | zero => cases hfuel
  | succ fuel ih =>
      rw [moveAll, h.isEmpty]
      cases q with
      | nil => simpa using hnew
      | cons a q =>
          have hsorted : Agenda.Sorted Event.stamp (a :: q) :=
            (List.pairwise_append.mp hq).2.1
          have hbefore : ∀ b ∈ q', b.stamp < a.stamp := fun b hb =>
            (List.pairwise_append.mp hq).2.2 b hb a List.mem_cons_self
          obtain ⟨ev, e', he', hhead, hh⟩ := h.removeNext hsorted (List.cons_ne_nil a q)
          obtain rfl : a = ev := Option.some.inj hhead
          rw [he']
          have hins := hnew.insert (List.pairwise_append.mp hq).1
            (fun b hb => (hbefore b hb).ne) (Nat.zero_le _) (hts a List.mem_cons_self) (by
              rw [List.length_append, List.length_cons] at hlen
              omega)
          rw [Agenda.insert_last hbefore] at hins
          have hassoc : q' ++ a :: q = q' ++ [a] ++ q := by simp
          rw [hassoc] at hq hlen ⊢
          exact ih hh hins hq (fun b hb => hts b (List.mem_cons_of_mem a hb)) hlen
            (by rw [List.length_cons] at hfuel; omega)

theorem Holds.setScheduler (h : e.Holds q t) (hq : Agenda.Sorted Event.stamp q)
    (hts : ∀ a ∈ q, a.key.ts < 2 ^ 63) (hlen : q.length < 2 ^ 31) (scheduler : CorrectScheduler) :
    (e.setScheduler scheduler).Holds q 0 := by
  have hsize : e.scheduler.size e.state = q.length := e.scheduler.size_eq h
  have hnew : (EventQueue.mk scheduler scheduler.create).Holds [] 0 := scheduler.create_holds
  have hmoved := moveAll_holds (e.scheduler.size e.state + 1) h hnew (by simpa using hq) hts
    (by simpa using hlen) (by omega)
  simpa [EventQueue.setScheduler] using hmoved

end EventQueue

end Ns3Raft.Sim
