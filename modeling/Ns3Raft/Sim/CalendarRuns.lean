import Ns3Raft.Sim.CalendarYear

/-! # The calendar beside the list

The calendar, the list scheduler and the agenda take the same operations. They
stay together as long as an event that is removed is the first of its uid and
the events can be counted in 32 bits.
-/

namespace Ns3Raft.Sim

open Transition

/-- `taken` is the time of the last event that was taken. -/
structure Beside where
  calendar : CalendarScheduler
  list : List Event
  agenda : List Event
  taken : Nat

namespace Beside

def start : Beside := ⟨.new, [], [], 0⟩

def step (p : Beside) (op : Op) : Beside where
  calendar := p.calendar.step op
  list := ListScheduler.step p.list op
  agenda := Agenda.step Event.stamp p.agenda op
  taken :=
    match op with
    | .removeNext => (p.agenda.head?.map fun ev => ev.key.ts).getD p.taken
    | _ => p.taken

/-- What is inserted is not before the last time taken, and before 2⁶³. -/
def InTime (p : Beside) : Op → Prop
  | .insert ev => p.taken ≤ ev.key.ts ∧ ev.key.ts < 2 ^ 63
  | _ => True

def Asked (p : Beside) (op : Op) : Prop := Agenda.Allowed Event.stamp p.agenda op ∧ p.InTime op

/-- The events can be counted, and what is removed is the first of its uid. -/
def StepFits (p : Beside) : Op → Prop
  | .insert _ => p.agenda.length + 1 < 2 ^ 32
  | .remove ev => FirstOfUid p.agenda ev
  | _ => True

instance (p : Beside) : ∀ op, Decidable (p.InTime op)
  | .insert _ => inferInstanceAs (Decidable (_ ∧ _))
  | .peekNext | .removeNext | .remove _ => .isTrue trivial

instance (p : Beside) (op : Op) : Decidable (p.Asked op) := inferInstanceAs (Decidable (_ ∧ _))

instance (p : Beside) : ∀ op, Decidable (p.StepFits op)
  | .insert _ => inferInstanceAs (Decidable (_ < _))
  | .remove _ => inferInstanceAs (Decidable (FirstOfUid _ _))
  | .peekNext | .removeNext => .isTrue trivial

/-- The calendar and the list hold the events of the agenda and give its answers. The width is
never zero and the top of the hand's window is not cut. -/
structure Together (p : Beside) : Prop where
  width_ne : p.calendar.width ≠ 0
  bucketTop : p.calendar.bucketTop =
    (p.calendar.lastPrio / p.calendar.width + 1) * p.calendar.width
  holds : p.calendar.events.Perm p.agenda
  isEmpty : p.calendar.isEmpty = p.agenda.isEmpty
  answers : ∀ op, Agenda.Allowed Event.stamp p.agenda op →
    p.calendar.answer op = Agenda.answer p.agenda op
  list : p.list = p.agenda

/-- What is kept along a run. -/
structure Sound (p : Beside) : Prop where
  calendar : p.calendar.Sound p.agenda p.taken
  sorted : Agenda.Sorted Event.stamp p.agenda
  list : p.list = p.agenda

variable {p : Beside} {op : Op}

theorem Sound.together (h : p.Sound) : p.Together where
  width_ne := h.calendar.stored.width_pos.ne'
  bucketTop := h.calendar.aimed.bucketTop
  holds := h.calendar.holds
  isEmpty := h.calendar.isEmpty_eq
  answers := by
    intro op hop
    cases op with
    | insert ev | remove ev => rfl
    | peekNext => exact h.calendar.peekNext h.sorted hop
    | removeNext =>
        obtain ⟨ev, s', hs', hhead, -⟩ := h.calendar.removeNext h.sorted hop
        rw [CalendarScheduler.answer, hs', Option.map_some, Agenda.answer, hhead]
  list := h.list

theorem sound_start : start.Sound where
  calendar := CalendarScheduler.new_sound
  sorted := Agenda.sorted_nil
  list := rfl

theorem Sound.list_step (h : p.Sound) (hop : Agenda.Allowed Event.stamp p.agenda op) :
    ListScheduler.step p.list op = Agenda.step Event.stamp p.agenda op ↔
      ∀ ev, op = .remove ev → FirstOfUid p.agenda ev := by
  rw [h.list]
  exact ListScheduler.step_eq_iff h.sorted hop

theorem calendar_step {s' : CalendarScheduler} (h : p.calendar.apply op = some s') :
    (p.step op).calendar = s' := by
  show (p.calendar.apply op).getD p.calendar = s'
  rw [h, Option.getD_some]

theorem Sound.step (h : p.Sound) (hok : p.Asked op) (hfit : p.StepFits op) :
    (p.step op).Sound where
  sorted := h.sorted.step hok.1
  list := (h.list_step hok.1).mpr fun ev hev => by
    subst hev
    exact hfit
  calendar := by
    cases op with
    | insert ev =>
        obtain ⟨s', hs', hsound⟩ := h.calendar.insert hok.1 hok.2.1 hok.2.2 hfit
        rw [calendar_step (show p.calendar.apply (.insert ev) = some s' from hs')]
        exact hsound
    | peekNext =>
        have hpeek := h.calendar.peekNext h.sorted hok.1
        obtain ⟨ev, hev⟩ : ∃ ev, p.agenda.head? = some ev :=
          Option.ne_none_iff_exists'.mp fun h0 => hok.1 (List.head?_eq_none_iff.mp h0)
        have happly : p.calendar.apply .peekNext = some p.calendar := by
          rw [CalendarScheduler.apply, hpeek, hev, Option.map_some]
        rw [calendar_step happly]
        exact h.calendar
    | removeNext =>
        obtain ⟨ev, s', hs', hhead, hsound⟩ := h.calendar.removeNext h.sorted hok.1
        have happly : p.calendar.apply .removeNext = some s' := by
          rw [CalendarScheduler.apply, hs', Option.map_some]
        have htaken : (p.step .removeNext).taken = ev.key.ts := by
          simp only [Beside.step, hhead, Option.map_some, Option.getD_some]
        rw [calendar_step happly, htaken]
        exact hsound
    | remove ev =>
        obtain ⟨s', hs', hsound⟩ := h.calendar.remove hfit
        rw [calendar_step (show p.calendar.apply (.remove ev) = some s' from hs')]
        exact hsound

theorem Sound.stepFits (h : p.Sound) (hok : p.Asked op) (ht : (p.step op).Together) :
    p.StepFits op := by
  cases op with
  | insert ev =>
      by_contra hge
      have hfull := h.calendar.insert_overflow ev (not_lt.mp hge)
      have hempty : (Agenda.step Event.stamp p.agenda (.insert ev)).isEmpty = true :=
        ht.isEmpty.symm.trans hfull
      have hlen := List.orderedInsert_length (fun a b => a.stamp ≤ b.stamp) p.agenda ev
      rw [List.isEmpty_iff] at hempty
      have hnil : (p.agenda.orderedInsert (fun a b => a.stamp ≤ b.stamp) ev).length = 0 :=
        congrArg List.length hempty
      omega
  | peekNext | removeNext => trivial
  | remove ev => exact (h.list_step hok.1).mp ht.list ev rfl

variable {tr : List (Beside × Op)}

/-- Main theorem: the calendar, the list and the agenda are together in every state of a run,
exactly when every removed event is the first of its uid and the events are never too many. -/
theorem together_iff (h : Run step Asked start tr p) :
    ((∀ x ∈ tr, x.1.Together) ∧ p.Together) ↔ ∀ x ∈ tr, x.1.StepFits x.2 :=
  h.kept_iff (P := Sound) (Q := Together) (C := StepFits) sound_start (fun _ h => h.together)
    (fun _ _ h hok hfit => h.step hok hfit) fun _ _ h hok ht => h.stepFits hok ht

/-- The calendar is resized, up and down. -/
def resizingOps : List Op :=
  [.insert ⟨1, ⟨9, 4, 0⟩⟩, .insert ⟨2, ⟨3, 5, 0⟩⟩, .insert ⟨3, ⟨70, 6, 0⟩⟩, .insert ⟨4, ⟨9, 7, 0⟩⟩,
    .insert ⟨5, ⟨1, 8, 0⟩⟩, .insert ⟨6, ⟨2000, 9, 0⟩⟩, .remove ⟨4, ⟨9, 7, 0⟩⟩, .removeNext,
    .removeNext, .peekNext, .removeNext, .insert ⟨7, ⟨12, 10, 0⟩⟩, .removeNext, .removeNext]

theorem together_resizing : (resizingOps.foldl step start).Together :=
  ((together_iff (run_of_passes step Asked start resizingOps (by decide +kernel))).mpr
    (by decide +kernel)).2

/-- Two events have the uid 4. The one at time 2 is removed, and the one at time 0 is met first. -/
theorem not_together_of_shared_uid : ∃ p tr, Run step Asked start tr p ∧
    tr.map Prod.snd = [.insert ⟨1, ⟨0, 4, 0⟩⟩, .insert ⟨2, ⟨2, 4, 0⟩⟩, .remove ⟨2, ⟨2, 4, 0⟩⟩] ∧
      p.agenda = [⟨1, ⟨0, 4, 0⟩⟩] ∧ p.calendar.events = [⟨1, ⟨0, 4, 0⟩⟩, ⟨2, ⟨2, 4, 0⟩⟩] ∧
        ¬ p.Together := by
  have hrun := run_of_passes step Asked start
    [.insert ⟨1, ⟨0, 4, 0⟩⟩, .insert ⟨2, ⟨2, 4, 0⟩⟩, .remove ⟨2, ⟨2, 4, 0⟩⟩] (by decide +kernel)
  refine ⟨_, _, hrun, rfl, by decide +kernel, by decide +kernel, fun h => ?_⟩
  exact absurd h.list (by decide +kernel)

end Beside

end Ns3Raft.Sim
