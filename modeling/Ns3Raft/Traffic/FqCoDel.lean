import Ns3Raft.Lib.RoundRobin
import Ns3Raft.Traffic.CoDel

/-! # FqCoDel

Every flow has a CoDel queue disc of its own. The flows that wait are in two lists, and the one at
the front is served while its deficit is positive.
-/

namespace Ns3Raft.Traffic

inductive FlowStatus where
  | inactive
  | newFlow
  | oldFlow
  deriving DecidableEq

structure FqCoDelFlow where
  queueDisc : CoDelQueueDisc
  deficit : Int
  status : FlowStatus

namespace FqCoDelFlow

def new (queueDisc : CoDelQueueDisc) : FqCoDelFlow := ⟨queueDisc, 0, .inactive⟩

/-- The deficit is an `int32_t`, and the argument a `uint32_t`. -/
def setDeficit (f : FqCoDelFlow) (deficit : Nat) : FqCoDelFlow := { f with deficit := int32 deficit }

def increaseDeficit (f : FqCoDelFlow) (deficit : Int) : FqCoDelFlow :=
  { f with deficit := int32 (f.deficit + int32 deficit) }

end FqCoDelFlow

/-- `maxSize` is a number of packets, which the flows' queue discs have as well. -/
structure FqCoDelQueueDisc where
  quantum : Nat
  flows : Nat
  dropBatchSize : Nat
  maxSize : Nat
  interval : Int
  target : Int
  classes : List FqCoDelFlow
  flowsIndices : List (Nat × Nat)
  newFlows : List Nat
  oldFlows : List Nat
  counters : QueueCounters

/-- What becomes of an item. A flow is known by its place among the classes. -/
inductive QueueEvent where
  | unclassified (item : QueueDiscItem)
  | refused (flow : Nat) (item : QueueDiscItem)
  | accepted (hash flow : Nat) (item : QueueDiscItem)
  | dropped (flow : Nat) (item : QueueDiscItem)
  | sent (flow : Nat) (item : QueueDiscItem)
  deriving DecidableEq

namespace FqCoDelQueueDisc

def new (quantum flows dropBatchSize maxSize : Nat) (interval target : Int) : FqCoDelQueueDisc :=
  ⟨quantum, flows, dropBatchSize, maxSize, interval, target, [], [], [], [], ⟨0, 0⟩⟩

def setFlow (s : FqCoDelQueueDisc) (i : Nat) (f : FqCoDelFlow) : FqCoDelQueueDisc :=
  { s with classes := s.classes.set i f }

/-- `PacketDequeued` is called for every item that leaves the queue of a flow. -/
def countDequeued (s : FqCoDelQueueDisc) (items : List QueueDiscItem) : FqCoDelQueueDisc :=
  { s with counters := items.foldl QueueCounters.packetDequeued s.counters }

/-! ## Enqueue -/

/-- The flow of a hash, which is created when there is none. -/
def flowOf (s : FqCoDelQueueDisc) (h : Nat) : Nat × FqCoDelQueueDisc :=
  match s.flowsIndices.lookup h with
  | some i => (i, s)
  | none =>
      (s.classes.length, { s with
        classes := s.classes ++ [.new (.new s.maxSize s.interval s.target)]
        flowsIndices := s.flowsIndices ++ [(h, s.classes.length)] })

/-- An inactive flow becomes a new one. -/
def activate (s : FqCoDelQueueDisc) (i : Nat) (f : FqCoDelFlow) : FqCoDelQueueDisc × FqCoDelFlow :=
  if f.status = .inactive then
    ({ s with newFlows := s.newFlows ++ [i] }, { f with status := .newFlow }.setDeficit s.quantum)
  else (s, f)

/-- The index of the flow with the largest backlog, and the backlog. -/
def fatFlow : Nat → Nat × Nat → List FqCoDelFlow → Nat × Nat
  | _, best, [] => best
  | i, (maxBacklog, index), f :: fs =>
      let bytes := f.queueDisc.counters.nBytes
      fatFlow (i + 1) (if bytes > maxBacklog then (bytes, i) else (maxBacklog, index)) fs

/-- The loop of `FqCoDelDrop`. `none` when the queue is empty, or when the fuel is spent. -/
def dropRounds (dropBatchSize threshold : Nat) :
    Nat → Nat → Nat → CoDelQueueDisc → List QueueDiscItem → Option (CoDelQueueDisc × List QueueDiscItem)
  | 0, _, _, _, _ => none
  | fuel + 1, count, len, qd, dropped =>
      match qd.dequeueInternal with
      | (none, _) => none
      | (some item, qd) =>
          let len := (len + item.size) % 2 ^ 32
          let count := (count + 1) % 2 ^ 32
          if count < dropBatchSize ∧ len < threshold then
            dropRounds dropBatchSize threshold fuel count len qd (dropped ++ [item])
          else some (qd, dropped ++ [item])

/-- `FqCoDelDrop`. `none` is the item that is not there, or no class at all. -/
def fqCoDelDrop (s : FqCoDelQueueDisc) : Option (Nat × List QueueEvent × FqCoDelQueueDisc) := do
  let (maxBacklog, index) := fatFlow 0 (0, 0) s.classes
  let f ← s.classes[index]?
  let fuel := f.queueDisc.queue.packets.length + 1
  let (qd, dropped) ← dropRounds s.dropBatchSize (maxBacklog >>> 1) fuel 0 0 f.queueDisc []
  some (index, dropped.map (.dropped index), (s.countDequeued dropped).setFlow index { f with queueDisc := qd })

/-- The item goes into the queue of a flow, or is dropped there. -/
def enqueueIn (s : FqCoDelQueueDisc) (now h i : Nat) (f : FqCoDelFlow) (item : QueueDiscItem) :
    QueueEvent × FqCoDelQueueDisc :=
  match f.queueDisc.enqueue now item with
  | (true, qd) =>
      (.accepted h i { item with timeStamp := now },
        { s.setFlow i { f with queueDisc := qd } with counters := s.counters.packetEnqueued item })
  | (false, qd) => (.refused i item, s.setFlow i { f with queueDisc := qd })

/-- `DoEnqueue`. `ret` is the hash of the item or the answer of the packet filters, if there is one that knows it.
`none` when the program ends. -/
def doEnqueue (s : FqCoDelQueueDisc) (now : Nat) (ret : Option Nat) (item : QueueDiscItem) :
    Option (Bool × List QueueEvent × FqCoDelQueueDisc) :=
  match ret with
  | none => some (false, [.unclassified item], s)
  | some ret =>
      if s.flows = 0 then none
      else do
        let h := ret % s.flows
        let (i, s) := s.flowOf h
        let f ← s.classes[i]?
        let (s, f) := s.activate i f
        let (event, s) := s.enqueueIn now h i f item
        if s.counters.nPackets > s.maxSize then
          let (_, dropped, s) ← s.fqCoDelDrop
          some (true, event :: dropped, s)
        else some (true, [event], s)

/-! ## Dequeue -/

/-- The first inner loop: new flows without a deficit become old ones. -/
def selectNew : Nat → FqCoDelQueueDisc → Option (Option Nat × FqCoDelQueueDisc)
  | 0, _ => none
  | fuel + 1, s =>
      match s.newFlows with
      | [] => some (none, s)
      | i :: newFlows => do
          let f ← s.classes[i]?
          if f.deficit ≤ 0 then
            let f := { f.increaseDeficit s.quantum with status := .oldFlow }
            selectNew fuel { s.setFlow i f with oldFlows := s.oldFlows ++ [i], newFlows }
          else some (some i, s)

/-- The second one: old flows without a deficit go to the end of their list. -/
def selectOld : Nat → FqCoDelQueueDisc → Option (Option Nat × FqCoDelQueueDisc)
  | 0, _ => none
  | fuel + 1, s =>
      match s.oldFlows with
      | [] => some (none, s)
      | i :: oldFlows => do
          let f ← s.classes[i]?
          if f.deficit ≤ 0 then
            selectOld fuel { s.setFlow i (f.increaseDeficit s.quantum) with oldFlows := oldFlows ++ [i] }
          else some (some i, s)

/-- The flow that the two loops find. -/
def select (fuel : Nat) (s : FqCoDelQueueDisc) : Option (Option Nat × FqCoDelQueueDisc) := do
  match ← selectNew fuel s with
  | (some i, s) => some (some i, s)
  | (none, s) => selectOld fuel s

/-- A flow without packets goes from the new flows to the old ones, or leaves. -/
def putBack (s : FqCoDelQueueDisc) (i : Nat) (f : FqCoDelFlow) : FqCoDelQueueDisc :=
  if s.newFlows ≠ [] then
    { s.setFlow i { f with status := .oldFlow } with oldFlows := s.oldFlows ++ [i], newFlows := s.newFlows.tail }
  else { s.setFlow i { f with status := .inactive } with oldFlows := s.oldFlows.tail }

/-- What is answered, with the events. -/
abbrev Dequeued : Type := Option QueueDiscItem × List QueueEvent × FqCoDelQueueDisc

/-- `Dequeue` of the flow at the front. -/
def dequeueFrom (s : FqCoDelQueueDisc) (now i : Nat) (f : FqCoDelFlow) : Dequeued :=
  let d := f.queueDisc.doDequeue now
  let f := { f with queueDisc := d.disc }
  let s := s.countDequeued (d.dropped ++ d.item.toList)
  match d.item with
  | none => (none, d.dropped.map (.dropped i), s.putBack i f)
  | some item => (some item, d.dropped.map (.dropped i) ++ [.sent i item], s.setFlow i (f.increaseDeficit (-item.size)))

/-- `DoDequeue`, with the events so far. `none` when the fuel is spent before the loop ends. -/
def dequeueLoop (now : Nat) : Nat → FqCoDelQueueDisc → List QueueEvent → Option Dequeued
  | 0, _, _ => none
  | fuel + 1, s, events => do
      match ← select fuel s with
      | (none, s) => some (none, events, s)
      | (some i, s) =>
          let f ← s.classes[i]?
          match s.dequeueFrom now i f with
          | (none, dropped, s) => dequeueLoop now fuel s (events ++ dropped)
          | (some item, out, s) => some (some item, events ++ out, s)

def doDequeue (s : FqCoDelQueueDisc) (now fuel : Nat) : Option Dequeued := dequeueLoop now fuel s []

end FqCoDelQueueDisc

end Ns3Raft.Traffic
