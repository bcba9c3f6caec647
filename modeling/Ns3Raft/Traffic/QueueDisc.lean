import Mathlib.Algebra.Order.Ring.Int
import Mathlib.Data.List.Basic

/-! # Queue discs

What queue discs and their internal queues share: items, the counters that callbacks
keep, and the drop-tail queue.
-/

namespace Ns3Raft.Traffic

/-- An item, which its pointer tells from others. -/
structure QueueDiscItem where
  uid : Nat
  size : Nat
  timeStamp : Nat
  size_lt : size < 2 ^ 32
  deriving DecidableEq

/-- `m_nPackets` and `m_nBytes`, of type `uint32_t`. -/
structure QueueCounters where
  nPackets : Nat
  nBytes : Nat
  deriving DecidableEq

namespace QueueCounters

def packetEnqueued (c : QueueCounters) (item : QueueDiscItem) : QueueCounters :=
  ⟨(c.nPackets + 1) % 2 ^ 32, (c.nBytes + item.size) % 2 ^ 32⟩

def packetDequeued (c : QueueCounters) (item : QueueDiscItem) : QueueCounters :=
  ⟨(c.nPackets + 2 ^ 32 - 1) % 2 ^ 32, (c.nBytes + 2 ^ 32 - item.size) % 2 ^ 32⟩

/-- Counters that tell these numbers, up to overflow. -/
structure Counts (c : QueueCounters) (packets bytes : Nat) : Prop where
  nPackets : c.nPackets = packets % 2 ^ 32
  nBytes : c.nBytes = bytes % 2 ^ 32

variable {c : QueueCounters} {packets bytes : Nat}

theorem Counts.enqueued (h : c.Counts packets bytes) (item : QueueDiscItem) :
    (c.packetEnqueued item).Counts (packets + 1) (bytes + item.size) := by
  refine ⟨?_, ?_⟩
  · rw [packetEnqueued, h.nPackets, Nat.mod_add_mod]
  · rw [packetEnqueued, h.nBytes, Nat.mod_add_mod]

theorem Counts.dequeued {item : QueueDiscItem} (h : c.Counts (packets + 1) (item.size + bytes)) :
    (c.packetDequeued item).Counts packets bytes := by
  have hsize := item.size_lt
  refine ⟨?_, ?_⟩
  · rw [packetDequeued, h.nPackets]
    dsimp only
    omega
  · rw [packetDequeued, h.nBytes]
    dsimp only
    omega

end QueueCounters

def sizes (items : List QueueDiscItem) : Nat := (items.map QueueDiscItem.size).sum

@[simp] theorem sizes_nil : sizes [] = 0 := rfl

@[simp] theorem sizes_cons (item : QueueDiscItem) (items : List QueueDiscItem) :
    sizes (item :: items) = item.size + sizes items := List.sum_cons

theorem sizes_append (items items' : List QueueDiscItem) : sizes (items ++ items') = sizes items + sizes items' := by
  rw [sizes, List.map_append, List.sum_append]
  rfl

/-- A queue whose maximum size is a number of packets. -/
structure DropTailQueue where
  packets : List QueueDiscItem
  counters : QueueCounters
  maxSize : Nat
  deriving DecidableEq

namespace DropTailQueue

def new (maxSize : Nat) : DropTailQueue := ⟨[], ⟨0, 0⟩, maxSize⟩

/-- A full queue does not take the item. -/
def enqueue (q : DropTailQueue) (item : QueueDiscItem) : Option DropTailQueue :=
  if (q.counters.nPackets + 1) % 2 ^ 32 > q.maxSize then none
  else some { q with packets := q.packets ++ [item], counters := q.counters.packetEnqueued item }

def dequeue (q : DropTailQueue) : Option (QueueDiscItem × DropTailQueue) :=
  if q.counters.nPackets = 0 then none
  else
    match q.packets with
    | [] => none
    | item :: packets => some (item, { q with packets, counters := q.counters.packetDequeued item })

/-- The counters tell what is in the queue. -/
structure Valid (q : DropTailQueue) : Prop where
  counts : q.counters.Counts q.packets.length (sizes q.packets)
  length_lt : q.packets.length < 2 ^ 32

variable {q q' : DropTailQueue} {item : QueueDiscItem}

theorem Valid.nPackets (hq : q.Valid) : q.counters.nPackets = q.packets.length :=
  hq.counts.nPackets.trans (Nat.mod_eq_of_lt hq.length_lt)

theorem Valid.enqueue (hq : q.Valid) (hlt : q.packets.length + 1 < 2 ^ 32) (h : q.enqueue item = some q') :
    q'.Valid ∧ q'.packets = q.packets ++ [item] ∧ q'.maxSize = q.maxSize := by
  rw [DropTailQueue.enqueue] at h
  split at h
  · cases h
  obtain rfl := Option.some.inj h
  refine ⟨⟨?_, ?_⟩, rfl, rfl⟩
  · dsimp only
    rw [sizes_append, List.length_append]
    exact hq.counts.enqueued item
  · rw [List.length_append]
    exact hlt

theorem Valid.dequeue_none (hq : q.Valid) (h : q.dequeue = none) : q.packets = [] := by
  rw [DropTailQueue.dequeue, hq.nPackets] at h
  split at h
  · next hzero => exact List.eq_nil_of_length_eq_zero hzero
  · cases hp : q.packets with
    | nil => rfl
    | cons item packets =>
        rw [hp] at h
        cases h

theorem dequeue_some (h : q.dequeue = some (item, q')) : q.packets = item :: q'.packets ∧
    q' = { q with packets := q'.packets, counters := q.counters.packetDequeued item } := by
  rw [DropTailQueue.dequeue] at h
  split at h
  · cases h
  cases hp : q.packets with
  | nil =>
      rw [hp] at h
      cases h
  | cons item' packets =>
      rw [hp] at h
      obtain ⟨rfl, rfl⟩ := Prod.mk.inj (Option.some.inj h)
      exact ⟨rfl, rfl⟩

theorem Valid.dequeue (hq : q.Valid) (h : q.dequeue = some (item, q')) : q'.Valid := by
  obtain ⟨hpackets, heq⟩ := dequeue_some h
  have hcounts := hq.counts
  have hlt := hq.length_lt
  rw [hpackets, List.length_cons] at hcounts hlt
  rw [heq]
  exact ⟨hcounts.dequeued, Nat.lt_of_succ_lt hlt⟩

end DropTailQueue

end Ns3Raft.Traffic
