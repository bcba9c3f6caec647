import Ns3Raft.Sim.Scheduler

/-! # The default simulator

`DefaultSimulatorImpl` over a correct scheduler. Whether an event has expired is
told from its id alone, by comparing it with the current event.
-/

namespace Ns3Raft.Sim

/-- `impl` is nothing for a null pointer. -/
structure EventId where
  impl : Option Nat
  ts : Nat
  context : Nat
  uid : Nat
  deriving DecidableEq, Repr

structure EventWithContext where
  context : Nat
  timestamp : Nat
  event : Nat
  deriving DecidableEq, Repr

/-- `uid` and `currentUid` have 32 bits, `currentTs` has 64, and `unscheduledEvents` is an `int`.
`cancelled` are the `EventImpl`s whose flag is set, and `asserts` holds as long as no
`NS_ASSERT` has failed. -/
structure DefaultSimulatorImpl where
  events : EventQueue
  stop : Bool
  uid : Nat
  currentUid : Nat
  currentTs : Nat
  currentContext : Nat
  unscheduledEvents : Int
  eventCount : Nat
  eventsWithContext : List EventWithContext
  destroyEvents : List EventId
  cancelled : List Nat
  asserts : Bool

def Event.id (ev : Event) : EventId := ⟨some ev.impl, ev.key.ts, ev.key.context, ev.key.uid⟩

namespace DefaultSimulatorImpl

def noContext : Nat := 0xffffffff

/-- A new simulator, with its first scheduler set. -/
def new (scheduler : CorrectScheduler) : DefaultSimulatorImpl where
  events := ⟨scheduler, scheduler.create⟩
  stop := false
  uid := 4
  currentUid := 0
  currentTs := 0
  currentContext := noContext
  unscheduledEvents := 0
  eventCount := 0
  eventsWithContext := []
  destroyEvents := []
  cancelled := []
  asserts := true

def assert (s : DefaultSimulatorImpl) (c : Bool) : DefaultSimulatorImpl :=
  { s with asserts := s.asserts && c }

def isCancelled (s : DefaultSimulatorImpl) (impl : Nat) : Bool := s.cancelled.contains impl

/-- `EventImpl::Cancel`. -/
def cancelImpl (s : DefaultSimulatorImpl) (impl : Nat) : DefaultSimulatorImpl :=
  { s with cancelled := impl :: s.cancelled }

def setScheduler (s : DefaultSimulatorImpl) (scheduler : CorrectScheduler) : DefaultSimulatorImpl :=
  { s with events := s.events.setScheduler scheduler }

/-- The event that is made with the next uid. -/
def newEvent (s : DefaultSimulatorImpl) (ts context event : Nat) : Event :=
  ⟨event, ⟨ts, s.uid, context⟩⟩

/-- What all ways of scheduling end with. -/
def enqueue (s : DefaultSimulatorImpl) (ev : Event) : DefaultSimulatorImpl :=
  { s with
    uid := (s.uid + 1) % 2 ^ 32
    unscheduledEvents := (s.unscheduledEvents + 1).bmod (2 ^ 32)
    events := s.events.insert ev }

/-- `delay + TimeStep (m_currentTs)`, as an unsigned time step. -/
def absolute (s : DefaultSimulatorImpl) (delay : Int) : Nat :=
  ((s.currentTs + delay) % 2 ^ 64).toNat

def schedule (s : DefaultSimulatorImpl) (delay : Int) (event : Nat) :
    EventId × DefaultSimulatorImpl :=
  let ev := s.newEvent (s.absolute delay) s.currentContext event
  (ev.id, (s.assert (0 ≤ delay)).enqueue ev)

/-- Unlike `Schedule` it does not look at the sign of the delay. -/
def scheduleWithContext (s : DefaultSimulatorImpl) (main : Bool) (context : Nat) (delay : Int)
    (event : Nat) : DefaultSimulatorImpl :=
  if main then s.enqueue (s.newEvent (s.absolute delay) context event)
  else
    { s with eventsWithContext :=
        s.eventsWithContext ++ [⟨context, (delay % 2 ^ 64).toNat, event⟩] }

def scheduleNow (s : DefaultSimulatorImpl) (event : Nat) : EventId × DefaultSimulatorImpl :=
  let ev := s.newEvent s.currentTs s.currentContext event
  (ev.id, s.enqueue ev)

def scheduleDestroy (s : DefaultSimulatorImpl) (event : Nat) : EventId × DefaultSimulatorImpl :=
  let id : EventId := ⟨some event, s.currentTs, 0xffffffff, 2⟩
  (id, { s with destroyEvents := s.destroyEvents ++ [id], uid := (s.uid + 1) % 2 ^ 32 })

def processEventsWithContext (s : DefaultSimulatorImpl) : DefaultSimulatorImpl :=
  s.eventsWithContext.foldl (fun s event =>
    s.enqueue (s.newEvent ((s.currentTs + event.timestamp) % 2 ^ 64) event.context event.event))
    { s with eventsWithContext := [] }

def isExpired (s : DefaultSimulatorImpl) (id : EventId) : Bool :=
  match id.impl with
  | none => true
  | some impl =>
      if id.uid = 2 then s.isCancelled impl || !s.destroyEvents.contains id
      else
        id.ts < s.currentTs || (id.ts = s.currentTs && id.uid ≤ s.currentUid) || s.isCancelled impl

def remove (s : DefaultSimulatorImpl) (id : EventId) : DefaultSimulatorImpl :=
  if id.uid = 2 then { s with destroyEvents := s.destroyEvents.erase id }
  else if s.isExpired id then s
  else
    match id.impl with
    | none => s
    | some impl =>
        match s.events.remove ⟨impl, ⟨id.ts, id.uid, id.context⟩⟩ with
        | none => s.assert false
        | some events =>
            { s.cancelImpl impl with
              events := events
              unscheduledEvents := (s.unscheduledEvents - 1).bmod (2 ^ 32) }

def cancel (s : DefaultSimulatorImpl) (id : EventId) : DefaultSimulatorImpl :=
  if s.isExpired id then s
  else
    match id.impl with
    | none => s
    | some impl => s.cancelImpl impl

/-- `Run` up to its loop. -/
def enterRun (s : DefaultSimulatorImpl) : DefaultSimulatorImpl :=
  { s.processEventsWithContext with stop := false }

/-- The condition of the loop. -/
def goesOn (s : DefaultSimulatorImpl) : Bool := !s.events.isEmpty && !s.stop

/-- `ProcessOneEvent` up to `Invoke`: the event that is to be invoked. -/
def takeEvent (s : DefaultSimulatorImpl) : Option (Event × DefaultSimulatorImpl) :=
  match s.events.removeNext with
  | none => none
  | some (next, events) =>
      some (next, { s.assert (s.currentTs ≤ next.key.ts) with
        events := events
        unscheduledEvents := (s.unscheduledEvents - 1).bmod (2 ^ 32)
        eventCount := s.eventCount + 1
        currentTs := next.key.ts
        currentContext := next.key.context
        currentUid := next.key.uid })

/-- The assertion at the end of `Run`. -/
def leaveRun (s : DefaultSimulatorImpl) : DefaultSimulatorImpl :=
  s.assert (!s.events.isEmpty || s.unscheduledEvents == 0)

end DefaultSimulatorImpl

/-! ## Executions -/

/-- Where the main thread is: not in `Run`, in its loop, or in an event that it invoked. -/
inductive Phase where
  | outside
  | looping
  | inside (ev : Event)
  deriving DecidableEq, Repr

/-- The simulator with what has happened so far: the events that were put in the queue, those that
were invoked, the ids that were given out, and those that a call cancelled or removed. `objects`
are the `EventImpl`s used, and `drawn` counts the uids. -/
structure Execution where
  sim : DefaultSimulatorImpl
  phase : Phase
  scheduled : List Event
  invoked : List Event
  issued : List EventId
  cancels : List EventId
  removes : List EventId
  objects : List Nat
  drawn : Nat

inductive Call where
  | schedule (delay : Int) (event : Nat)
  | scheduleNow (event : Nat)
  | scheduleWithContext (context : Nat) (delay : Int) (event : Nat)
  | scheduleDestroy (event : Nat)
  | remove (id : EventId)
  | cancel (id : EventId)
  | stop
  | setScheduler (scheduler : CorrectScheduler)
  | run
  | processOneEvent
  | returned
  | leave

namespace Execution

def start (scheduler : CorrectScheduler) : Execution where
  sim := .new scheduler
  phase := .outside
  scheduled := []
  invoked := []
  issued := []
  cancels := []
  removes := []
  objects := []
  drawn := 0

/-- An event was put in the queue. -/
def enqueued (w : Execution) (ev : Event) (sim : DefaultSimulatorImpl) : Execution :=
  { w with
    sim := sim
    scheduled := w.scheduled ++ [ev]
    objects := ev.impl :: w.objects
    drawn := w.drawn + 1 }

def step (w : Execution) : Call → Execution
  | .schedule delay event =>
      let ev := w.sim.newEvent (w.sim.absolute delay) w.sim.currentContext event
      let (id, sim) := w.sim.schedule delay event
      { w.enqueued ev sim with issued := id :: w.issued }
  | .scheduleNow event =>
      let ev := w.sim.newEvent w.sim.currentTs w.sim.currentContext event
      let (id, sim) := w.sim.scheduleNow event
      { w.enqueued ev sim with issued := id :: w.issued }
  | .scheduleWithContext context delay event =>
      w.enqueued (w.sim.newEvent (w.sim.absolute delay) context event)
        (w.sim.scheduleWithContext true context delay event)
  | .scheduleDestroy event =>
      { w with
        sim := (w.sim.scheduleDestroy event).2
        objects := event :: w.objects
        drawn := w.drawn + 1 }
  | .remove id =>
      { w with
        sim := w.sim.remove id
        removes := if w.sim.isExpired id then w.removes else id :: w.removes }
  | .cancel id =>
      { w with
        sim := w.sim.cancel id
        cancels := if w.sim.isExpired id then w.cancels else id :: w.cancels }
  | .stop => { w with sim := { w.sim with stop := true } }
  | .setScheduler scheduler => { w with sim := w.sim.setScheduler scheduler }
  | .run => { w with sim := w.sim.enterRun, phase := .looping }
  | .processOneEvent =>
      match w.sim.takeEvent with
      | none => w
      | some (next, sim) =>
          { w with
            sim := sim
            phase := .inside next
            -- a cancelled event is not notified
            invoked := if w.sim.isCancelled next.impl then w.invoked else w.invoked ++ [next] }
  | .returned => { w with sim := w.sim.processEventsWithContext, phase := .looping }
  | .leave => { w with sim := w.sim.leaveRun, phase := .outside }

/-- Calls are made outside of `Run` or by the event that is being invoked, with ids that the
simulator gave out. -/
def Asked (w : Execution) : Call → Prop
  | .run => w.phase = .outside
  | .processOneEvent => w.phase = .looping ∧ w.sim.goesOn
  | .leave => w.phase = .looping ∧ w.sim.goesOn = false
  | .returned => ∃ ev, w.phase = .inside ev
  | .remove id | .cancel id =>
      w.phase ≠ .looping ∧ (id.impl = none ∨ id ∈ w.issued ∨ id ∈ w.sim.destroyEvents)
  | _ => w.phase ≠ .looping

/-- A uid is left, and the count of queued events fits in an `int`. -/
def Room (w : Execution) : Prop := 4 + w.drawn < 2 ^ 32 ∧ w.sim.unscheduledEvents + 1 < 2 ^ 31

/-- A delay that is not negative, to a time that fits in 63 bits. -/
def Ahead (w : Execution) (delay : Int) : Prop := 0 ≤ delay ∧ w.sim.currentTs + delay < 2 ^ 63

/-- There is room for the event, it is not before the current time, and its `EventImpl` is not in
use for another one. -/
def StepFits (w : Execution) : Call → Prop
  | .schedule delay event => w.Room ∧ w.Ahead delay ∧ event ∉ w.objects
  | .scheduleNow event => w.Room ∧ event ∉ w.objects
  | .scheduleWithContext _ delay event => w.Room ∧ w.Ahead delay ∧ event ∉ w.objects
  | .scheduleDestroy event => event ∉ w.objects
  | _ => True

end Execution

end Ns3Raft.Sim
