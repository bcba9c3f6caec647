import Ns3Raft.Traffic.CoDel

/-! # CoDel at another time

Two runs of `CoDelQueueDisc` whose times differ by a number of CoDel time units.
-/

namespace Ns3Raft.Traffic

/-! ## Times -/

section

variable {a b m : Nat}

theorem natCast_wrap (x : Nat) : ((x % 2 ^ 32 : Nat) : Int) = (x : Int) % 2 ^ 32 := by
  rw [Int.natCast_emod, Int.natCast_pow]
  rfl

theorem time2CoDel_natCast (now : Nat) : time2CoDel now = now / 1024 % 2 ^ 32 := by
  have hcast : (now : Int) / 2 ^ 10 % 2 ^ 32 = ((now / 1024 % 2 ^ 32 : Nat) : Int) := by
    rw [natCast_wrap, Int.natCast_ediv]
    rfl
  rw [time2CoDel, hcast, Int.toNat_natCast]

end

/-! ## The shifted state -/

def QueueDiscItem.delay (m : Nat) (item : QueueDiscItem) : QueueDiscItem :=
  { item with timeStamp := item.timeStamp + 1024 * m }

def DropTailQueue.delay (m : Nat) (q : DropTailQueue) : DropTailQueue :=
  { q with packets := q.packets.map (QueueDiscItem.delay m) }

namespace CoDelQueueDisc

variable {s : CoDelQueueDisc} {m now fa dn : Nat} {item : QueueDiscItem}

/-- The state with its items moved in time, and with other times of its own. -/
def delay (m fa dn : Nat) (s : CoDelQueueDisc) : CoDelQueueDisc :=
  { s with queue := s.queue.delay m, firstAboveTime := fa, dropNext := dn }

/-- The item is not below the target, and the queue is not too short. -/
def above (s : CoDelQueueDisc) (item : QueueDiscItem) (now : Nat) : Bool :=
  !(coDelTimeBefore (time2CoDel ((now : Int) - item.timeStamp)) (time2CoDel s.target) ||
    decide (s.queue.counters.nBytes < s.minBytes))

/-- The time that is set when an item is above for the first time. -/
def aboveTime (s : CoDelQueueDisc) (now : Nat) : Nat := (time2CoDel now + time2CoDel s.interval) % 2 ^ 32

theorem okToDrop_some (s : CoDelQueueDisc) (item : QueueDiscItem) (now : Nat) :
    s.okToDrop (some item) now =
      if s.above item now = false then (false, { s with firstAboveTime := 0 })
      else if s.firstAboveTime = 0 then (false, { s with firstAboveTime := s.aboveTime now })
      else (coDelTimeAfter (time2CoDel now) s.firstAboveTime, s) := by
  rw [okToDrop, above]
  cases coDelTimeBefore (time2CoDel ((now : Int) - item.timeStamp)) (time2CoDel s.target) ||
    decide (s.queue.counters.nBytes < s.minBytes) <;> rfl

def Dequeuing.delay (m fa dn : Nat) (d : Dequeuing) : Dequeuing :=
  ⟨d.item.map (QueueDiscItem.delay m), d.dropped.map (QueueDiscItem.delay m), d.disc.delay m fa dn⟩

theorem dequeueInternal_firstAboveTime (s : CoDelQueueDisc) : s.dequeueInternal.2.firstAboveTime = s.firstAboveTime := by
  unfold dequeueInternal
  cases s.queue.dequeue <;> rfl

/-- The last dropping state was not long ago. -/
def recent (s : CoDelQueueDisc) (now : Nat) : Bool :=
  decide (int32 ((s.count : Int) - s.lastCount) > 1) &&
    coDelTimeBefore ((now + 2 ^ 32 - s.dropNext) % 2 ^ 32) (16 * time2CoDel s.interval % 2 ^ 32)

/-- The dropping state begins, with the old drop rate or a new one. -/
def restart (s : CoDelQueueDisc) (recent : Bool) : CoDelQueueDisc :=
  let s := { s with dropping := true }
  let s :=
    if recent then { s with count := (int32 ((s.count : Int) - s.lastCount)).toNat }.newtonStep
    else { s with count := 1, recInvSqrt := 0xffff }
  { s with lastCount := s.count }

theorem startDropping_eq (s : CoDelQueueDisc) (now : Nat) :
    s.startDropping now = { s.restart (s.recent now) with dropNext := (s.restart (s.recent now)).controlLaw now } := by
  by_cases hrecent : int32 ((s.count : Int) - s.lastCount) > 1 ∧
      coDelTimeBefore ((now + 2 ^ 32 - s.dropNext) % 2 ^ 32) (16 * time2CoDel s.interval % 2 ^ 32) = true
  · have hans : s.recent now = true := by
      rw [recent, Bool.and_eq_true, decide_eq_true_eq]
      exact hrecent
    rw [hans]
    simp only [startDropping, restart, if_pos hrecent, if_true]
  · have hans : s.recent now = false := by
      rw [recent, ← Bool.not_eq_true, Bool.and_eq_true, decide_eq_true_eq]
      exact hrecent
    rw [hans]
    simp only [startDropping, restart, if_neg hrecent, Bool.false_eq_true, if_false]

theorem doDequeue_none {s₁ : CoDelQueueDisc} (h : s.dequeueInternal = (none, s₁)) :
    s.doDequeue now = ⟨none, [], { s₁ with dropping := false }⟩ := by
  rw [doDequeue, h]

theorem doDequeue_some {s₁ s₂ : CoDelQueueDisc} {ok : Bool} (h : s.dequeueInternal = (some item, s₁))
    (hok : s₁.okToDrop (some item) now = (ok, s₂)) : s.doDequeue now = s₂.dropOrKeep now item ok := by
  rw [doDequeue, h]
  simp only [hok]

inductive QueueOp where
  | enqueue (item : QueueDiscItem)
  | dequeue

/-- The calls of a run, with their times. -/
abbrev Schedule := List (Nat × QueueOp)

/-- The packets that a call drops, and the one it returns. -/
structure Outcome where
  dropped : List Nat
  returned : Option Nat
  deriving DecidableEq, Repr

def step (s : CoDelQueueDisc) : Nat × QueueOp → Outcome × CoDelQueueDisc
  | (now, .enqueue item) => (⟨if (s.enqueue now item).1 then [] else [item.uid], none⟩, (s.enqueue now item).2)
  | (now, .dequeue) =>
      (⟨(s.doDequeue now).dropped.map QueueDiscItem.uid, (s.doDequeue now).item.map QueueDiscItem.uid⟩, (s.doDequeue now).disc)

def run (s : CoDelQueueDisc) : Schedule → List Outcome
  | [] => []
  | e :: es => (s.step e).1 :: run (s.step e).2 es

/-- The same calls `m` units later. -/
def later (m : Nat) (es : Schedule) : Schedule := es.map fun e => (e.1 + 1024 * m, e.2)

end CoDelQueueDisc

end Ns3Raft.Traffic
