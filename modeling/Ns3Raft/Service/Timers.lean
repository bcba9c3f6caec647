import Ns3Raft.Lib.Run
import Mathlib.Data.Prod.Lex

/-! # Delayed tasks

`ns3_service` keeps a task's cancellation in two places: a flag in the task, which
the next `schedule` clears, and the id of an event of the simulator, which
`insert` does not replace. A task that is scheduled again from its own execution
has the id of the event that ran, and its pending event outlives a `cancel`.
-/

namespace Ns3Raft.Service

open Transition

/-- An event of the simulator that is neither run nor cancelled, with the task that it executes. -/
structure TaskEvent where
  id : Nat
  task : Nat
  due : Nat
  deriving DecidableEq, Repr

/-- What happened. -/
inductive Happened where
  | scheduled (id task : Nat)
  | cancelled (task : Nat)
  | executed (id task : Nat)
  deriving DecidableEq, Repr

/-- `tasks` is the map `m_tasks`, and `flagged` are the tasks whose `cancelled_` is set. The log has the last that happened first. -/
structure TaskScheduler where
  now : Nat
  nextId : Nat
  events : List TaskEvent
  tasks : List (Nat × Nat)
  flagged : List Nat
  log : List Happened
  deriving DecidableEq, Repr

inductive Step where
  | schedule (task milliseconds : Nat)
  | cancel (task : Nat)
  | run (ev : TaskEvent)
  deriving DecidableEq, Repr

namespace TaskScheduler

def new : TaskScheduler := ⟨0, 0, [], [], [], []⟩

/-- `std::map::insert`: a binding that is there stays. -/
def insertTask (tasks : List (Nat × Nat)) (task id : Nat) : List (Nat × Nat) :=
  if tasks.any (·.1 = task) then tasks else (task, id) :: tasks

def schedule (s : TaskScheduler) (task milliseconds : Nat) : TaskScheduler :=
  { s with
    flagged := s.flagged.filter (· ≠ task)
    nextId := s.nextId + 1
    events := s.events ++ [⟨s.nextId, task, s.now + milliseconds⟩]
    tasks := insertTask s.tasks task s.nextId
    log := .scheduled s.nextId task :: s.log }

/-- An id of an event that has run cancels nothing. -/
def cancel (s : TaskScheduler) (task : Nat) : TaskScheduler :=
  let s := { s with flagged := task :: s.flagged, log := .cancelled task :: s.log }
  match s.tasks.find? (·.1 = task) with
  | none => s
  | some (_, id) =>
      { s with
        events := s.events.filter (·.id ≠ id)
        tasks := s.tasks.filter (·.1 ≠ task) }

/-- The simulator runs the event, and `execute` looks at the flag. -/
def runEvent (s : TaskScheduler) (ev : TaskEvent) : TaskScheduler :=
  { s with
    now := ev.due
    events := s.events.filter (·.id ≠ ev.id)
    log := if ev.task ∈ s.flagged then s.log else .executed ev.id ev.task :: s.log }

def step (s : TaskScheduler) : Step → TaskScheduler
  | .schedule task milliseconds => s.schedule task milliseconds
  | .cancel task => s.cancel task
  | .run ev => s.runEvent ev

/-- The simulator runs the first event. -/
def Asked (s : TaskScheduler) : Step → Prop
  | .run ev => ev ∈ s.events ∧ ∀ e ∈ s.events, ev.due < e.due ∨ ev.due = e.due ∧ ev.id ≤ e.id
  | _ => True

instance (s : TaskScheduler) : ∀ st, Decidable (s.Asked st)
  | .run _ => inferInstanceAs (Decidable (_ ∧ _))
  | .schedule .. | .cancel _ => .isTrue trivial

/-- The task was cancelled after the `schedule` that gave `id`. -/
def CancelledSince (id task : Nat) : List Happened → Prop
  | [] => False
  | .cancelled t :: log => t = task ∧ .scheduled id task ∈ log ∨ CancelledSince id task log
  | .scheduled .. :: log | .executed .. :: log => CancelledSince id task log

/-- No execution came after a `cancel` that followed its `schedule`. -/
def Quiet : List Happened → Prop
  | [] => True
  | .executed id task :: log => ¬ CancelledSince id task log ∧ Quiet log
  | .scheduled .. :: log | .cancelled _ :: log => Quiet log

/-- Every `schedule` leads to one execution at most and to none after a `cancel`, and a task that
is not cancelled has one pending event at most. -/
structure Disciplined (s : TaskScheduler) : Prop where
  once : ∀ id task, s.log.count (.executed id task) ≤ 1
  quiet : Quiet s.log
  single : ∀ e ∈ s.events, ∀ e' ∈ s.events, e.task = e'.task → e.task ∉ s.flagged → e = e'

/-- No event of the task is pending when it is scheduled. -/
def StepFits (s : TaskScheduler) : Step → Prop
  | .schedule task _ => ∀ e ∈ s.events, e.task ≠ task
  | _ => True

instance (s : TaskScheduler) : ∀ st, Decidable (s.StepFits st)
  | .schedule .. => inferInstanceAs (Decidable (∀ _ ∈ _, _))
  | .run _ | .cancel _ => .isTrue trivial

/-- The pending events and the log. -/
structure Sound (s : TaskScheduler) : Prop where
  ids_lt : ∀ e ∈ s.events, e.id < s.nextId
  id_inj : ∀ e ∈ s.events, ∀ e' ∈ s.events, e.id = e'.id → e = e'
  log_lt : ∀ id task, .scheduled id task ∈ s.log ∨ .executed id task ∈ s.log → id < s.nextId
  pending : ∀ e ∈ s.events, ∀ task, .executed e.id task ∉ s.log
  cancelled : ∀ e ∈ s.events, CancelledSince e.id e.task s.log → e.task ∈ s.flagged
  single : ∀ e ∈ s.events, ∀ e' ∈ s.events, e.task = e'.task → e = e'
  once : ∀ id task, s.log.count (.executed id task) ≤ 1
  quiet : Quiet s.log

variable {s : TaskScheduler} {log : List Happened} {id task : Nat} {h : Happened}

theorem Sound.disciplined (hs : s.Sound) : s.Disciplined where
  once := hs.once
  quiet := hs.quiet
  single := fun e he e' he' heq _ => hs.single e he e' he' heq

theorem sound_new : new.Sound where
  ids_lt := fun e he => by cases he
  id_inj := fun e he => by cases he
  log_lt := fun id task h => by rcases h with h | h <;> cases h
  pending := fun e he => by cases he
  cancelled := fun e he => by cases he
  single := fun e he => by cases he
  once := fun id task => by simp [new]
  quiet := trivial

theorem CancelledSince.scheduled_mem (hc : CancelledSince id task log) :
    .scheduled id task ∈ log := by
  induction log with
  | nil => exact hc.elim
  | cons h log ih =>
      cases h with
      | cancelled t =>
          rcases hc with ⟨-, hmem⟩ | hc
          · exact List.mem_cons_of_mem _ hmem
          · exact List.mem_cons_of_mem _ (ih hc)
      | scheduled id' t => exact List.mem_cons_of_mem _ (ih hc)
      | executed id' t => exact List.mem_cons_of_mem _ (ih hc)

/-! ## The steps -/

theorem Sound.schedule (hs : s.Sound) {milliseconds : Nat} (hfit : ∀ e ∈ s.events, e.task ≠ task) :
    (s.schedule task milliseconds).Sound := by
  have hmem : ∀ e, e ∈ (s.schedule task milliseconds).events ↔
      e ∈ s.events ∨ e = ⟨s.nextId, task, s.now + milliseconds⟩ := fun e => by
    show e ∈ s.events ++ [_] ↔ _
    rw [List.mem_append, List.mem_singleton]
  constructor
  case ids_lt =>
    intro e he
    rcases (hmem e).mp he with he | rfl
    · exact Nat.lt_succ_of_lt (hs.ids_lt e he)
    · exact Nat.lt_succ_self _
  case id_inj =>
    intro e he e' he' heq
    rcases (hmem e).mp he with he | he <;> rcases (hmem e').mp he' with he' | he'
    · exact hs.id_inj e he e' he' heq
    · rw [he'] at heq
      exact absurd heq (hs.ids_lt e he).ne
    · rw [he] at heq
      exact absurd heq.symm (hs.ids_lt e' he').ne
    · rw [he, he']
  case log_lt =>
    intro id' task' hlog
    show id' < s.nextId + 1
    simp only [TaskScheduler.schedule, List.mem_cons, Happened.scheduled.injEq, reduceCtorEq,
      false_or] at hlog
    rcases hlog with (⟨rfl, -⟩ | hlog) | hlog
    · exact Nat.lt_succ_self _
    · exact Nat.lt_succ_of_lt (hs.log_lt _ _ (.inl hlog))
    · exact Nat.lt_succ_of_lt (hs.log_lt _ _ (.inr hlog))
  case pending =>
    intro e he task' hlog
    simp only [TaskScheduler.schedule, List.mem_cons, reduceCtorEq, false_or] at hlog
    rcases (hmem e).mp he with he | rfl
    · exact hs.pending e he task' hlog
    · exact absurd (hs.log_lt _ _ (.inr hlog)) (Nat.lt_irrefl _)
  case cancelled =>
    intro e he hc
    have hc' : CancelledSince e.id e.task s.log := hc
    rcases (hmem e).mp he with he | rfl
    · exact List.mem_filter.mpr ⟨hs.cancelled e he hc', by simpa using hfit e he⟩
    · exact absurd (hs.log_lt _ _ (.inl hc'.scheduled_mem)) (Nat.lt_irrefl _)
  case single =>
    intro e he e' he' heq
    rcases (hmem e).mp he with he | he <;> rcases (hmem e').mp he' with he' | he'
    · exact hs.single e he e' he' heq
    · rw [he'] at heq
      exact absurd heq (hfit e he)
    · rw [he] at heq
      exact absurd heq.symm (hfit e' he')
    · rw [he, he']
  case once =>
    intro id' task'
    simpa [TaskScheduler.schedule] using hs.once id' task'
  case quiet => exact hs.quiet

/-- Fewer events are pending and the task is flagged. -/
theorem Sound.cancel (hs : s.Sound) : (s.cancel task).Sound := by
  obtain ⟨events, tasks, heq, hsub⟩ : ∃ events tasks, s.cancel task =
      { s with
        events := events
        tasks := tasks
        flagged := task :: s.flagged
        log := .cancelled task :: s.log } ∧ ∀ e ∈ events, e ∈ s.events := by
    unfold TaskScheduler.cancel
    dsimp only
    split
    · exact ⟨_, _, rfl, fun e he => he⟩
    · exact ⟨_, _, rfl, fun e he => (List.mem_filter.mp he).1⟩
  rw [heq]
  exact
    { ids_lt := fun e he => hs.ids_lt e (hsub e he)
      id_inj := fun e he e' he' => hs.id_inj e (hsub e he) e' (hsub e' he')
      log_lt := fun id' task' hlog => by
        simp only [List.mem_cons, reduceCtorEq, false_or] at hlog
        exact hs.log_lt id' task' hlog
      pending := fun e he task' hlog => by
        simp only [List.mem_cons, reduceCtorEq, false_or] at hlog
        exact hs.pending e (hsub e he) task' hlog
      cancelled := fun e he hc => by
        rcases hc with ⟨htask, -⟩ | hc
        · rw [htask]
          exact List.mem_cons_self
        · exact List.mem_cons_of_mem _ (hs.cancelled e (hsub e he) hc)
      single := fun e he e' he' => hs.single e (hsub e he) e' (hsub e' he')
      once := fun id' task' => by simpa using hs.once id' task'
      quiet := hs.quiet }

theorem Sound.runEvent (hs : s.Sound) {ev : TaskEvent} (hev : ev ∈ s.events) :
    (s.runEvent ev).Sound := by
  have hmem : ∀ e ∈ (s.runEvent ev).events, e ∈ s.events ∧ e.id ≠ ev.id := fun e he => by
    simpa [TaskScheduler.runEvent] using he
  by_cases hflag : ev.task ∈ s.flagged
  · have hlog : (s.runEvent ev).log = s.log := by simp [TaskScheduler.runEvent, hflag]
    exact
      { ids_lt := fun e he => hs.ids_lt e (hmem e he).1
        id_inj := fun e he e' he' => hs.id_inj e (hmem e he).1 e' (hmem e' he').1
        log_lt := by
          rw [hlog]
          exact hs.log_lt
        pending := fun e he => by
          rw [hlog]
          exact hs.pending e (hmem e he).1
        cancelled := fun e he => by
          rw [hlog]
          exact hs.cancelled e (hmem e he).1
        single := fun e he e' he' => hs.single e (hmem e he).1 e' (hmem e' he').1
        once := by
          rw [hlog]
          exact hs.once
        quiet := by
          rw [hlog]
          exact hs.quiet }
  · have hlog : (s.runEvent ev).log = .executed ev.id ev.task :: s.log := by
      simp [TaskScheduler.runEvent, hflag]
    exact
      { ids_lt := fun e he => hs.ids_lt e (hmem e he).1
        id_inj := fun e he e' he' => hs.id_inj e (hmem e he).1 e' (hmem e' he').1
        log_lt := fun id' task' h => by
          rw [hlog] at h
          simp only [List.mem_cons, reduceCtorEq, false_or, Happened.executed.injEq] at h
          rcases h with h | ⟨rfl, -⟩ | h
          · exact hs.log_lt id' task' (.inl h)
          · exact hs.ids_lt ev hev
          · exact hs.log_lt id' task' (.inr h)
        pending := fun e he task' h => by
          rw [hlog] at h
          simp only [List.mem_cons, Happened.executed.injEq] at h
          rcases h with ⟨hid, -⟩ | h
          · exact (hmem e he).2 hid
          · exact hs.pending e (hmem e he).1 task' h
        cancelled := fun e he hc => by
          rw [hlog] at hc
          exact hs.cancelled e (hmem e he).1 hc
        single := fun e he e' he' => hs.single e (hmem e he).1 e' (hmem e' he').1
        once := fun id' task' => by
          rw [hlog, List.count_cons]
          split
          case isTrue heq =>
            obtain ⟨rfl, rfl⟩ := Happened.executed.inj (beq_iff_eq.mp heq)
            rw [List.count_eq_zero_of_not_mem (hs.pending ev hev ev.task)]
          case isFalse => exact hs.once id' task'
        quiet := by
          rw [hlog]
          exact ⟨fun hc => hflag (hs.cancelled ev hev hc), hs.quiet⟩ }

theorem Sound.step (hs : s.Sound) {st : Step} (hok : s.Asked st) (hfit : s.StepFits st) :
    (s.step st).Sound := by
  cases st with
  | schedule task milliseconds => exact hs.schedule hfit
  | cancel task => exact hs.cancel
  | run ev => exact hs.runEvent hok.1

/-- With an event of the task pending, `schedule` makes a second live one. -/
theorem Sound.stepFits (hs : s.Sound) {st : Step} (hd : (s.step st).Disciplined) :
    s.StepFits st := by
  cases st with
  | schedule task milliseconds =>
      intro e he htask
      have hlive : e.task ∉ (s.schedule task milliseconds).flagged := by
        simp [TaskScheduler.schedule, htask]
      have hsame := hd.single e (List.mem_append_left _ he) ⟨s.nextId, task, s.now + milliseconds⟩
        (List.mem_append_right _ (List.mem_singleton_self _)) htask hlive
      have hlt := hs.ids_lt e he
      rw [hsame] at hlt
      exact Nat.lt_irrefl _ hlt
  | cancel task | run ev => trivial

/-! ## Runs -/

variable {tr : List (TaskScheduler × Step)}

/-- Main theorem: the discipline holds in every state of a run exactly when no task is scheduled
while an event of it is pending. -/
theorem disciplined_iff (hr : Run step Asked new tr s) :
    ((∀ p ∈ tr, p.1.Disciplined) ∧ s.Disciplined) ↔ ∀ p ∈ tr, p.1.StepFits p.2 :=
  hr.kept_iff (P := Sound) (Q := Disciplined) (C := StepFits) sound_new (fun _ h => h.disciplined)
    (fun _ _ h hok hfit => h.step hok hfit) fun _ _ h _ hd => h.stepFits hd

/-- A heartbeat chain, each beat scheduling the next one from its own execution. -/
theorem disciplined_chain :
    (([.schedule 1 100, .run ⟨0, 1, 100⟩, .schedule 1 100, .run ⟨1, 1, 200⟩, .cancel 1,
      .schedule 1 100, .cancel 1, .schedule 1 100, .run ⟨3, 1, 300⟩].foldl step new)).Disciplined :=
  ((disciplined_iff (run_of_passes step Asked new
    [.schedule 1 100, .run ⟨0, 1, 100⟩, .schedule 1 100, .run ⟨1, 1, 200⟩, .cancel 1,
      .schedule 1 100, .cancel 1, .schedule 1 100, .run ⟨3, 1, 300⟩] (by decide +kernel))).mpr
    (by decide +kernel)).2

/-- The beat at 100 schedules the next one; the leader steps down and is elected again. The event
of the old chain is not in the map, it is not cancelled, and it runs in the new term. -/
theorem two_heartbeat_chains : ∃ s tr, Run step Asked new tr s ∧
    tr.map Prod.snd = [.schedule 1 100, .run ⟨0, 1, 100⟩, .schedule 1 100, .cancel 1,
      .schedule 1 100, .run ⟨1, 1, 200⟩] ∧
      s.log = [.executed 1 1, .scheduled 2 1, .cancelled 1, .scheduled 1 1, .executed 0 1,
        .scheduled 0 1] ∧
        (∃ p ∈ tr, p.1.events = [⟨1, 1, 200⟩, ⟨2, 1, 200⟩] ∧ p.1.flagged = []) ∧
          ¬ s.Disciplined := by
  have hrun := run_of_passes step Asked new
    [.schedule 1 100, .run ⟨0, 1, 100⟩, .schedule 1 100, .cancel 1, .schedule 1 100,
      .run ⟨1, 1, 200⟩] (by decide +kernel)
  refine ⟨_, _, hrun, rfl, by decide +kernel, by decide +kernel, fun h => ?_⟩
  have hquiet : Quiet [.executed 1 1, .scheduled 2 1, .cancelled 1, .scheduled 1 1, .executed 0 1,
    .scheduled 0 1] := h.quiet
  exact hquiet.1 (.inl ⟨rfl, List.mem_cons_self⟩)

end TaskScheduler

end Ns3Raft.Service
