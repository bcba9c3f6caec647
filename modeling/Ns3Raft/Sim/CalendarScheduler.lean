import Mathlib.Algebra.Order.Ring.Int
import Ns3Raft.Sim.ListScheduler

/-! # The calendar scheduler

Buckets of `width` time units, taken round and round. The next event is looked
for from the bucket of the last one on, one year long, and by its key if there
is none in that year. A resize takes the width from the gaps between the first
events, which it takes out and puts back.
-/

namespace Ns3Raft.Sim

open Transition

/-- `lastPrio` and `bucketTop` are 64 bits wide, `qSize` has 32. -/
structure CalendarScheduler where
  buckets : List (List Event)
  width : Nat
  lastBucket : Nat
  bucketTop : Nat
  lastPrio : Nat
  qSize : Nat
  deriving DecidableEq, Repr

namespace CalendarScheduler

def nBuckets (s : CalendarScheduler) : Nat := s.buckets.length

def bucket (s : CalendarScheduler) (i : Nat) : List Event := s.buckets.getD i []

def setBucket (s : CalendarScheduler) (i : Nat) (b : List Event) : CalendarScheduler :=
  { s with buckets := s.buckets.set i b }

def hash (s : CalendarScheduler) (ts : Nat) : Nat := ts / s.width % s.nBuckets

def init (s : CalendarScheduler) (nBuckets width startPrio : Nat) : CalendarScheduler :=
  let s := { s with
    buckets := List.replicate nBuckets []
    width := width
    lastPrio := startPrio }
  { s with
    lastBucket := s.hash startPrio
    bucketTop := (startPrio / width + 1) * width % 2 ^ 64 }

def new : CalendarScheduler := init ⟨[], 0, 0, 0, 0, 0⟩ 2 1 0

def isEmpty (s : CalendarScheduler) : Bool := s.qSize == 0

def doInsert (s : CalendarScheduler) (ev : Event) : CalendarScheduler :=
  let bucket := s.hash ev.key.ts
  s.setBucket bucket (insertInOrder (s.bucket bucket) ev)

/-- The loop that `PeekNext` and `DoRemoveNext` both have: the bucket, its top and its front event
if that is below the top, or else what was made of the front event with the least key. Nothing
when the fuel does not reach round the calendar. -/
def scan {β : Type} (s : CalendarScheduler) (key : β → EventKey) (make : Nat → Event → β) :
    Nat → Nat → Nat → β → Option ((Nat × Nat × Event) ⊕ β)
  | 0, _, _, _ => none
  | fuel + 1, i, bucketTop, best =>
      match (s.bucket i).head?.filter fun next => next.key.ts < bucketTop with
      | some next => some (.inl (i, bucketTop, next))
      | none =>
          let best := (s.bucket i).head?.elim best fun next =>
            if next.key.lt (key best) then make i next else best
          let i := (i + 1) % s.nBuckets
          let bucketTop := (bucketTop + s.width) % 2 ^ 64
          if i = s.lastBucket then some (.inr best) else scan s key make fuel i bucketTop best

def peekNext (s : CalendarScheduler) : Option Event :=
  if s.isEmpty then none
  else
    let minEvent : Event := ⟨0, ⟨2 ^ 64 - 1, 2 ^ 32 - 1, 0⟩⟩
    match s.scan Event.key (fun _ next => next) s.nBuckets s.lastBucket s.bucketTop minEvent with
    | none => none
    | some (.inl (_, _, next)) => some next
    | some (.inr minEvent) => some minEvent

/-- Nothing when the assertion fails or no least event was found. -/
def doRemoveNext (s : CalendarScheduler) : Option (Event × CalendarScheduler) :=
  if s.isEmpty then none
  else
    let minKey : EventKey := ⟨2 ^ 64 - 1, 0, 0xffffffff⟩
    match s.scan (β := EventKey × Option Nat) Prod.fst (fun i next => (next.key, some i))
        s.nBuckets s.lastBucket s.bucketTop (minKey, none) with
    | none => none
    | some (.inl (i, bucketTop, next)) =>
        let s := { s with lastBucket := i, lastPrio := next.key.ts, bucketTop := bucketTop }
        some (next, s.setBucket i (s.bucket i).tail)
    | some (.inr (minKey, minBucket)) =>
        let s := { s with
          lastPrio := minKey.ts
          lastBucket := s.hash minKey.ts
          bucketTop := (minKey.ts / s.width + 1) * s.width % 2 ^ 64 }
        match minBucket with
        | none => none
        | some minBucket =>
            match s.bucket minBucket with
            | [] => none
            | next :: rest => some (next, s.setBucket minBucket rest)

/-! ## Resizing -/

/-- The first `nSamples` events are taken out. -/
def gather (s : CalendarScheduler) : Nat → Option (List Event × CalendarScheduler)
  | 0 => some ([], s)
  | nSamples + 1 =>
      match s.doRemoveNext with
      | none => none
      | some (ev, s) =>
          match gather s nSamples with
          | none => none
          | some (samples, s) => some (ev :: samples, s)

/-- The gaps between the samples, in 64 bits. -/
def separations : List Event → List Nat
  | cur :: next :: samples =>
      (next.key.ts + 2 ^ 64 - cur.key.ts) % 2 ^ 64 :: separations (next :: samples)
  | _ => []

def sum64 (l : List Nat) : Nat := l.foldl (fun total d => (total + d) % 2 ^ 64) 0

def nSamples (qSize : Nat) : Nat :=
  let n := if qSize ≤ 5 then qSize else 5 + qSize / 10
  if n > 25 then 25 else n

def widthOf (samples : List Event) : Nat :=
  let seps := separations samples
  let twiceAvg := sum64 seps / (samples.length - 1) * 2 % 2 ^ 64
  let totalSeparation := sum64 (seps.filter fun diff => diff ≤ twiceAvg)
  max (totalSeparation * 3 % 2 ^ 64) 1

/-- The new width, and the calendar after the samples were put back. -/
def calculateNewWidth (s : CalendarScheduler) : Option (Nat × CalendarScheduler) :=
  if s.qSize < 2 then some (1, s)
  else
    match s.gather (nSamples s.qSize) with
    | none => none
    | some (samples, s') =>
        let s' := samples.foldl doInsert s'
        some (widthOf samples,
          { s' with lastBucket := s.lastBucket, bucketTop := s.bucketTop, lastPrio := s.lastPrio })

def doResize (s : CalendarScheduler) (newSize newWidth : Nat) : CalendarScheduler :=
  s.buckets.flatten.foldl doInsert (s.init newSize newWidth s.lastPrio)

def resize (s : CalendarScheduler) (newSize : Nat) : Option CalendarScheduler :=
  s.calculateNewWidth.map fun (newWidth, s) => s.doResize newSize newWidth

def resizeUp (s : CalendarScheduler) : Option CalendarScheduler :=
  if s.qSize > s.nBuckets * 2 ∧ s.nBuckets < 32768 then s.resize (s.nBuckets * 2) else some s

def resizeDown (s : CalendarScheduler) : Option CalendarScheduler :=
  if s.qSize < s.nBuckets / 2 then s.resize (s.nBuckets / 2) else some s

/-! ## The operations -/

def insert (s : CalendarScheduler) (ev : Event) : Option CalendarScheduler :=
  let s := s.doInsert ev
  { s with qSize := (s.qSize + 1) % 2 ^ 32 }.resizeUp

/-- `m_qSize--`. -/
def countDown (s : CalendarScheduler) : CalendarScheduler :=
  { s with qSize := (s.qSize + 2 ^ 32 - 1) % 2 ^ 32 }

def removeNext (s : CalendarScheduler) : Option (Event × CalendarScheduler) :=
  if s.isEmpty then none
  else
    match s.doRemoveNext with
    | none => none
    | some (ev, s) => s.countDown.resizeDown.map (ev, ·)

def remove (s : CalendarScheduler) (ev : Event) : Option CalendarScheduler :=
  if s.isEmpty then none
  else
    let bucket := s.hash ev.key.ts
    match eraseUid (s.bucket bucket) ev with
    | none => none
    | some rest => (s.setBucket bucket rest).countDown.resizeDown

def apply (s : CalendarScheduler) : Op → Option CalendarScheduler
  | .insert ev => s.insert ev
  | .peekNext => s.peekNext.map fun _ => s
  | .removeNext => s.removeNext.map Prod.snd
  | .remove ev => s.remove ev

def answer (s : CalendarScheduler) : Op → Option Event
  | .insert _ | .remove _ => none
  | .peekNext => s.peekNext
  | .removeNext => s.removeNext.map Prod.fst

def step (s : CalendarScheduler) (op : Op) : CalendarScheduler := (s.apply op).getD s

end CalendarScheduler

end Ns3Raft.Sim
