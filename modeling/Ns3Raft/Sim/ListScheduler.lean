import Ns3Raft.Sim.Event

/-! # The list scheduler

The events in one list. `Insert` and `Remove` are the loops that the calendar
scheduler has too, over one bucket; `Remove` looks at the uid of an event only.
-/

namespace Ns3Raft.Sim

/-- The loop of `Insert`: in front of the first event with a larger key, or at the end. -/
def insertInOrder (events : List Event) (ev : Event) : List Event :=
  match events with
  | [] => [ev]
  | e :: events => if ev.key.lt e.key then ev :: e :: events else e :: insertInOrder events ev

/-- The loop of `Remove`: the first event with the uid is erased. Nothing when an assertion
fails. -/
def eraseUid (events : List Event) (ev : Event) : Option (List Event) :=
  match events with
  | [] => none
  | e :: events =>
      if e.key.uid = ev.key.uid then
        if ev.impl = e.impl then some events else none
      else (eraseUid events ev).map (e :: ·)

/-- The event is there, and no event before it has its uid. -/
def FirstOfUid (events : List Event) (ev : Event) : Prop :=
  ev ∈ events ∧ ∀ a ∈ events, a.key.uid = ev.key.uid → ev.stamp ≤ a.stamp

instance (events : List Event) (ev : Event) : Decidable (FirstOfUid events ev) :=
  inferInstanceAs (Decidable (_ ∧ _))

variable {events : List Event} {ev e : Event}

theorem insertInOrder_eq (hfresh : ∀ a ∈ events, a.stamp ≠ ev.stamp) :
    insertInOrder events ev = events.orderedInsert (fun a b => a.stamp ≤ b.stamp) ev := by
  induction events with
  | nil => rfl
  | cons e events ih =>
      have hne : e.stamp ≠ ev.stamp := hfresh e List.mem_cons_self
      rw [insertInOrder, List.orderedInsert_cons, ih fun a ha => hfresh a (List.mem_cons_of_mem e ha)]
      refine if_congr ?_ rfl rfl
      rw [EventKey.lt_iff]
      exact ⟨fun h => h.le, fun h => lt_of_le_of_ne h hne.symm⟩

theorem insertInOrder_perm (events : List Event) (ev : Event) :
    (insertInOrder events ev).Perm (ev :: events) := by
  induction events with
  | nil => exact .refl _
  | cons e events ih =>
      rw [insertInOrder]
      split
      · exact .refl _
      · exact (ih.cons e).trans (.swap ev e events)

theorem sorted_insertInOrder (h : Agenda.Sorted Event.stamp events)
    (hfresh : ∀ a ∈ events, a.stamp ≠ ev.stamp) :
    Agenda.Sorted Event.stamp (insertInOrder events ev) := by
  rw [insertInOrder_eq hfresh]
  exact h.insert hfresh

theorem FirstOfUid.tail (h : FirstOfUid (e :: events) ev) (hne : e.key.uid ≠ ev.key.uid) :
    FirstOfUid events ev := by
  refine ⟨(List.mem_cons.mp h.1).resolve_left ?_, fun a ha => h.2 a (List.mem_cons_of_mem e ha)⟩
  rintro rfl
  exact hne rfl

theorem FirstOfUid.subset {sub : List Event} (h : FirstOfUid events ev) (hs : sub ⊆ events)
    (hmem : ev ∈ sub) : FirstOfUid sub ev :=
  ⟨hmem, fun a ha => h.2 a (hs ha)⟩

theorem eraseUid_eq (hs : Agenda.Sorted Event.stamp events) (h : FirstOfUid events ev) :
    eraseUid events ev = some (events.erase ev) := by
  induction events with
  | nil => cases h.1
  | cons e events ih =>
      rw [eraseUid]
      split
      case isTrue huid =>
        have hle : ev.stamp ≤ e.stamp := h.2 e List.mem_cons_self huid
        obtain rfl : ev = e :=
          hs.key_inj h.1 List.mem_cons_self (hle.antisymm (hs.head_le rfl h.1))
        rw [if_pos rfl, List.erase_cons_head]
      case isFalse huid =>
        have hne : (e == ev) = false := by
          rw [beq_eq_false_iff_ne]
          rintro rfl
          exact huid rfl
        rw [ih (List.pairwise_cons.mp hs).2 (h.tail huid), List.erase_cons_tail (by simp [hne])]
        rfl

/-- An event that is there but not the first of its uid is not what is erased. -/
theorem mem_eraseUid (hs : Agenda.Sorted Event.stamp events) (h : ¬ FirstOfUid events ev)
    (hmem : ev ∈ events) {rest : List Event} (he : eraseUid events ev = some rest) : ev ∈ rest := by
  induction events generalizing rest with
  | nil => cases hmem
  | cons e events ih =>
      rw [eraseUid] at he
      split at he
      case isTrue huid =>
        have hne : ev ≠ e := by
          rintro rfl
          exact h ⟨hmem, fun a ha _ => hs.head_le rfl ha⟩
        split at he
        · obtain rfl := Option.some.inj he
          exact (List.mem_cons.mp hmem).resolve_left hne
        · cases he
      case isFalse huid =>
        obtain ⟨rest', hrest, rfl⟩ := Option.map_eq_some_iff.mp he
        have hne : ev ≠ e := by
          rintro rfl
          exact huid rfl
        have htail : ev ∈ events := (List.mem_cons.mp hmem).resolve_left hne
        refine List.mem_cons_of_mem e (ih (List.pairwise_cons.mp hs).2 (fun hf => h ?_) htail hrest)
        refine ⟨hmem, fun a ha hau => ?_⟩
        rcases List.mem_cons.mp ha with rfl | ha
        · exact absurd hau huid
        · exact hf.2 a ha hau

/-! ## The scheduler -/

namespace ListScheduler

def peekNext (events : List Event) : Option Event := events.head?

def removeNext (events : List Event) : Option (Event × List Event) :=
  match events with
  | [] => none
  | next :: events => some (next, events)

def apply (events : List Event) : Op → Option (List Event)
  | .insert ev => some (insertInOrder events ev)
  | .peekNext => some events
  | .removeNext => (removeNext events).map Prod.snd
  | .remove ev => eraseUid events ev

def answer (events : List Event) : Op → Option Event
  | .insert _ | .remove _ => none
  | .peekNext => peekNext events
  | .removeNext => (removeNext events).map Prod.fst

def step (events : List Event) (op : Op) : List Event := (apply events op).getD events

theorem answer_eq (events : List Event) (op : Op) : answer events op = Agenda.answer events op := by
  cases op with
  | insert ev | remove ev | peekNext => rfl
  | removeNext => cases events <;> rfl

/-- The list is the agenda exactly as long as events are removed that are the first of their
uid. -/
theorem step_eq_iff (hs : Agenda.Sorted Event.stamp events) {op : Op}
    (hop : Agenda.Allowed Event.stamp events op) :
    step events op = Agenda.step Event.stamp events op ↔
      ∀ ev, op = .remove ev → FirstOfUid events ev := by
  cases op with
  | insert ev => exact iff_of_true (insertInOrder_eq hop) (fun _ h => by cases h)
  | peekNext => exact iff_of_true rfl (fun _ h => by cases h)
  | removeNext => exact iff_of_true (by cases events <;> rfl) (fun _ h => by cases h)
  | remove ev =>
      constructor
      · intro heq ev' hev
        obtain rfl := Agenda.Op.remove.inj hev
        by_contra hfirst
        have hmem : ev ∈ events := hop
        have hgone : ev ∉ step events (.remove ev) := by
          rw [heq]
          exact hs.nodup.not_mem_erase
        cases he : eraseUid events ev with
        | none => exact hgone (by simpa [step, apply, he] using hmem)
        | some rest =>
            have hin := mem_eraseUid hs hfirst hmem he
            exact hgone (by simpa [step, apply, he] using hin)
      · intro hfirst
        simp [step, apply, eraseUid_eq hs (hfirst ev rfl), Agenda.step]

end ListScheduler

end Ns3Raft.Sim
