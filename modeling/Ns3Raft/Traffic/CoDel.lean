import Ns3Raft.Traffic.QueueDisc

/-! # CoDel

`CoDelQueueDisc` drops packets from the front of its queue while they have waited for too
long. Times are in units of 1024 ns, of type `uint32_t`.
-/

namespace Ns3Raft.Traffic

def int32 (n : Int) : Int := (n + 2 ^ 31) % 2 ^ 32 - 2 ^ 31

/-- `Time2CoDel`, of a time in nanoseconds. -/
def time2CoDel (ns : Int) : Nat := (ns / 2 ^ 10 % 2 ^ 32).toNat

def coDelTimeAfter (a b : Nat) : Bool := decide (int32 (int32 a - int32 b) > 0)

def coDelTimeAfterEq (a b : Nat) : Bool := decide (int32 (int32 a - int32 b) ≥ 0)

def coDelTimeBefore (a b : Nat) : Bool := decide (int32 (int32 a - int32 b) < 0)

/-- Times of the attributes are in nanoseconds. -/
structure CoDelQueueDisc where
  queue : DropTailQueue
  counters : QueueCounters
  minBytes : Nat
  interval : Int
  target : Int
  count : Nat
  lastCount : Nat
  dropping : Bool
  recInvSqrt : Nat
  firstAboveTime : Nat
  dropNext : Nat

namespace CoDelQueueDisc

def new (maxSize : Nat) (interval target : Int) : CoDelQueueDisc :=
  ⟨.new maxSize, ⟨0, 0⟩, 1500, interval, target, 0, 0, false, 0xffff, 0, 0⟩

def newtonStep (s : CoDelQueueDisc) : CoDelQueueDisc :=
  let invsqrt := s.recInvSqrt <<< 16 % 2 ^ 32
  let invsqrt2 := (invsqrt * invsqrt) >>> 32
  let val := (3 <<< 32 + 2 ^ 64 - s.count * invsqrt2 % 2 ^ 64) % 2 ^ 64
  let val := (val >>> 2 * invsqrt % 2 ^ 64) >>> (32 - 2 + 1)
  { s with recInvSqrt := val >>> 16 % 2 ^ 16 }

def reciprocalDivide (a r : Nat) : Nat := (a * r) >>> 32

def controlLaw (s : CoDelQueueDisc) (t : Nat) : Nat :=
  (t + reciprocalDivide (time2CoDel s.interval) (s.recInvSqrt <<< 16 % 2 ^ 32)) % 2 ^ 32

/-- `Enqueue`; the answer is whether the item is taken. -/
def enqueue (s : CoDelQueueDisc) (now : Nat) (item : QueueDiscItem) : Bool × CoDelQueueDisc :=
  if (s.counters.nPackets + 1) % 2 ^ 32 > s.queue.maxSize then (false, s)
  else
    match s.queue.enqueue { item with timeStamp := now } with
    | none => (false, s)
    | some queue => (true, { s with queue, counters := s.counters.packetEnqueued item })

/-- `Dequeue` of the internal queue. -/
def dequeueInternal (s : CoDelQueueDisc) : Option QueueDiscItem × CoDelQueueDisc :=
  match s.queue.dequeue with
  | none => (none, s)
  | some (item, queue) => (some item, { s with queue, counters := s.counters.packetDequeued item })

def okToDrop (s : CoDelQueueDisc) (item : Option QueueDiscItem) (now : Nat) : Bool × CoDelQueueDisc :=
  match item with
  | none => (false, { s with firstAboveTime := 0 })
  | some item =>
      let sojournTime := time2CoDel ((now : Int) - item.timeStamp)
      if coDelTimeBefore sojournTime (time2CoDel s.target) || decide (s.queue.counters.nBytes < s.minBytes) then
        (false, { s with firstAboveTime := 0 })
      else if s.firstAboveTime = 0 then
        (false, { s with firstAboveTime := (time2CoDel now + time2CoDel s.interval) % 2 ^ 32 })
      else (coDelTimeAfter (time2CoDel now) s.firstAboveTime, s)

/-- The variables of the loop of `DoDequeue`; `dropped` is what `DropAfterDequeue` was called for. -/
structure Dequeuing where
  item : Option QueueDiscItem
  dropped : List QueueDiscItem
  disc : CoDelQueueDisc

def countDrop (s : CoDelQueueDisc) : CoDelQueueDisc := { s with count := (s.count + 1) % 2 ^ 32 }.newtonStep

/-- The next drop, or the end of the dropping state. -/
def scheduleDrop (s : CoDelQueueDisc) (ok : Bool) : CoDelQueueDisc :=
  if ok then { s with dropNext := s.controlLaw s.dropNext } else { s with dropping := false }

/-- One round of the loop in the dropping state. -/
def dropRound (now : Nat) (d : Dequeuing) : Dequeuing :=
  let (item, s) := d.disc.countDrop.dequeueInternal
  let (ok, s) := s.okToDrop item now
  ⟨item, d.dropped ++ d.item.toList, s.scheduleDrop ok⟩

/-- Every round takes a packet or is the last one, so that `fuel` is one more than the length of the queue. -/
def dropLoop (now : Nat) : Nat → Dequeuing → Dequeuing
  | 0, d => d
  | fuel + 1, d =>
      if d.disc.dropping && coDelTimeAfterEq (time2CoDel now) d.disc.dropNext then dropLoop now fuel (dropRound now d)
      else d

/-- `m_dropping` becomes true, with the drop rate of the last time if that is not long ago. -/
def startDropping (s : CoDelQueueDisc) (now : Nat) : CoDelQueueDisc :=
  let s := { s with dropping := true }
  let delta := int32 ((s.count : Int) - s.lastCount)
  let s :=
    if delta > 1 ∧ coDelTimeBefore ((now + 2 ^ 32 - s.dropNext) % 2 ^ 32) (16 * time2CoDel s.interval % 2 ^ 32) then
      { s with count := delta.toNat }.newtonStep
    else { s with count := 1, recInvSqrt := 0xffff }
  let s := { s with lastCount := s.count }
  { s with dropNext := s.controlLaw now }

/-- The first packet is dropped, and the dropping state begins. -/
def enterDropping (now : Nat) (item : QueueDiscItem) (s : CoDelQueueDisc) : Dequeuing :=
  let (next, s) := s.dequeueInternal
  let (_, s) := s.okToDrop next now
  ⟨next, [item], s.startDropping (time2CoDel now)⟩

/-- What becomes of an item that has been popped; `ok` is the answer of `OkToDrop`. -/
def dropOrKeep (s : CoDelQueueDisc) (now : Nat) (item : QueueDiscItem) (ok : Bool) : Dequeuing :=
  if s.dropping then
    if ok then dropLoop now (s.queue.packets.length + 1) ⟨some item, [], s⟩
    else ⟨some item, [], { s with dropping := false }⟩
  else if ok then enterDropping now item s
  else ⟨some item, [], s⟩

def doDequeue (s : CoDelQueueDisc) (now : Nat) : Dequeuing :=
  match s.dequeueInternal with
  | (none, s) => ⟨none, [], { s with dropping := false }⟩
  | (some item, s) => (s.okToDrop (some item) now).2.dropOrKeep now item (s.okToDrop (some item) now).1

/-! ## What is taken from the queue -/

/-- Both pairs of counters tell what is in the queue. -/
structure Valid (s : CoDelQueueDisc) : Prop where
  queue : s.queue.Valid
  counters : s.counters = s.queue.counters

/-- From `s` to `s'` the items `taken` have left the queue at its front. -/
structure Takes (s : CoDelQueueDisc) (taken : List QueueDiscItem) (s' : CoDelQueueDisc) : Prop where
  packets : s.queue.packets = taken ++ s'.queue.packets
  valid : s.Valid → s'.Valid
  maxSize : s'.queue.maxSize = s.queue.maxSize

variable {s s' s'' : CoDelQueueDisc} {taken taken' : List QueueDiscItem} {now : Nat}

theorem Takes.of_eq (hqueue : s'.queue = s.queue) (hcounters : s'.counters = s.counters) : Takes s [] s' := by
  refine ⟨by rw [hqueue, List.nil_append], fun h => ?_, by rw [hqueue]⟩
  exact ⟨hqueue ▸ h.queue, by rw [hqueue, hcounters, h.counters]⟩

theorem Takes.trans (h : Takes s taken s') (h' : Takes s' taken' s'') : Takes s (taken ++ taken') s'' :=
  ⟨by rw [h.packets, h'.packets, List.append_assoc], fun hs => h'.valid (h.valid hs), h'.maxSize.trans h.maxSize⟩

theorem Takes.keep (h : Takes s taken s') (h' : Takes s' [] s'') : Takes s taken s'' :=
  List.append_nil taken ▸ h.trans h'

theorem takes_dequeueInternal (s : CoDelQueueDisc) : Takes s s.dequeueInternal.1.toList s.dequeueInternal.2 := by
  rw [dequeueInternal]
  cases hq : s.queue.dequeue with
  | none => exact .of_eq rfl rfl
  | some x =>
      obtain ⟨hpackets, heq⟩ := DropTailQueue.dequeue_some hq
      refine ⟨hpackets, fun hs => ⟨hs.queue.dequeue hq, ?_⟩, (congrArg DropTailQueue.maxSize heq :)⟩
      show s.counters.packetDequeued x.1 = x.2.counters
      rw [hs.counters]
      exact (congrArg DropTailQueue.counters heq).symm

theorem dequeueInternal_none (hs : s.Valid) (h : s.dequeueInternal.1 = none) :
    s.dequeueInternal.2.queue.packets = [] := by
  rw [dequeueInternal] at *
  cases hq : s.queue.dequeue with
  | none => exact hs.queue.dequeue_none hq
  | some x =>
      rw [hq] at h
      cases h

theorem takes_okToDrop (s : CoDelQueueDisc) (item : Option QueueDiscItem) (now : Nat) :
    Takes s [] (s.okToDrop item now).2 := by
  cases item with
  | none => exact .of_eq rfl rfl
  | some item =>
      rw [okToDrop]
      split
      · exact .of_eq rfl rfl
      split
      · exact .of_eq rfl rfl
      · exact .of_eq rfl rfl

theorem takes_scheduleDrop (s : CoDelQueueDisc) (ok : Bool) : Takes s [] (s.scheduleDrop ok) := by
  cases ok with
  | true => exact .of_eq rfl rfl
  | false => exact .of_eq rfl rfl

theorem takes_dropRound (now : Nat) (d : Dequeuing) :
    Takes d.disc (dropRound now d).item.toList (dropRound now d).disc := by
  have hstart : Takes d.disc [] d.disc.countDrop := .of_eq rfl rfl
  exact ((hstart.trans (takes_dequeueInternal _)).keep (takes_okToDrop _ _ now)).keep (takes_scheduleDrop _ _)

theorem dropRound_none {d : Dequeuing} (h : (dropRound now d).item = none) :
    (dropRound now d).disc.dropping = false := by
  have hdisc : (dropRound now d).disc = (d.disc.countDrop.dequeueInternal.2.okToDrop (dropRound now d).item now).2.scheduleDrop
      (d.disc.countDrop.dequeueInternal.2.okToDrop (dropRound now d).item now).1 := rfl
  rw [hdisc, h]
  rfl

/-- The items of `d` were taken from `s`, and there is no item when none was left. -/
structure DequeuedFrom (s : CoDelQueueDisc) (d : Dequeuing) : Prop where
  takes : Takes s (d.dropped ++ d.item.toList) d.disc
  none : s.Valid → d.item = none → d.disc.queue.packets = []

theorem DequeuedFrom.keep {item : Option QueueDiscItem} (h : DequeuedFrom s ⟨item, taken, s'⟩)
    (hs : Takes s' [] s'') : DequeuedFrom s ⟨item, taken, s''⟩ := by
  refine ⟨h.takes.keep hs, fun hv hnone => ?_⟩
  have hpackets := hs.packets
  rw [h.none hv hnone] at hpackets
  exact hpackets.symm

/-- One more item is dequeued, and those before it are dropped. -/
theorem DequeuedFrom.next (h : Takes s taken s') :
    DequeuedFrom s ⟨s'.dequeueInternal.1, taken, s'.dequeueInternal.2⟩ :=
  ⟨h.trans (takes_dequeueInternal s'), fun hv hnone => dequeueInternal_none (h.valid hv) hnone⟩

theorem DequeuedFrom.dropRound {d : Dequeuing} (h : DequeuedFrom s d) (now : Nat) :
    DequeuedFrom s (dropRound now d) := by
  have hstart : Takes d.disc [] d.disc.countDrop := .of_eq rfl rfl
  exact ((DequeuedFrom.next (h.takes.keep hstart)).keep (takes_okToDrop _ _ now)).keep (takes_scheduleDrop _ _)

theorem DequeuedFrom.dropLoop {d : Dequeuing} (h : DequeuedFrom s d) (now fuel : Nat) :
    DequeuedFrom s (dropLoop now fuel d) := by
  induction fuel generalizing d with
  | zero => exact h
  | succ fuel ih =>
      rw [CoDelQueueDisc.dropLoop]
      split
      · exact ih (h.dropRound now)
      · exact h

theorem takes_startDropping (s : CoDelQueueDisc) (now : Nat) : Takes s [] (s.startDropping now) := by
  rw [startDropping]
  split
  · exact .of_eq rfl rfl
  · exact .of_eq rfl rfl

theorem DequeuedFrom.enterDropping {item : QueueDiscItem} (h : Takes s [item] s') (now : Nat) :
    DequeuedFrom s (enterDropping now item s') :=
  ((DequeuedFrom.next h).keep (takes_okToDrop _ _ now)).keep (takes_startDropping _ _)

theorem DequeuedFrom.dropOrKeep {item : QueueDiscItem} (h : Takes s [item] s') (now : Nat) (ok : Bool) :
    DequeuedFrom s (s'.dropOrKeep now item ok) := by
  have hitem : DequeuedFrom s ⟨some item, [], s'⟩ := ⟨h, fun _ h => nomatch h⟩
  rw [CoDelQueueDisc.dropOrKeep]
  split
  · split
    · exact hitem.dropLoop now _
    · exact hitem.keep (.of_eq rfl rfl)
  split
  · exact .enterDropping h now
  · exact hitem

theorem dequeuedFrom_doDequeue (s : CoDelQueueDisc) (now : Nat) : DequeuedFrom s (s.doDequeue now) := by
  have htakes := takes_dequeueInternal s
  have hnone := @dequeueInternal_none s
  rw [doDequeue]
  rcases hd : s.dequeueInternal with ⟨item, s'⟩
  rw [hd] at htakes hnone
  cases item with
  | none =>
      have hempty : DequeuedFrom s ⟨none, [], s'⟩ := ⟨htakes, fun hv _ => hnone hv rfl⟩
      exact hempty.keep (.of_eq rfl rfl)
  | some item => exact .dropOrKeep (htakes.keep (takes_okToDrop s' (some item) now)) now _

theorem dropLoop_of_not_dropping {d : Dequeuing} (h : d.disc.dropping = false) {fuel : Nat} :
    dropLoop now fuel d = d := by
  cases fuel with
  | zero => rfl
  | succ fuel => rw [dropLoop, h, Bool.false_and, if_neg Bool.false_ne_true]

/-- The loop does not stop for lack of fuel. -/
theorem dropLoop_stops (now : Nat) {fuel : Nat} {d : Dequeuing} (hv : d.disc.Valid)
    (hfuel : d.disc.queue.packets.length < fuel) :
    ((dropLoop now fuel d).disc.dropping &&
      coDelTimeAfterEq (time2CoDel now) (dropLoop now fuel d).disc.dropNext) = false := by
  induction fuel generalizing d with
  | zero => exact absurd hfuel (Nat.not_lt_zero _)
  | succ fuel ih =>
      rw [dropLoop]
      split
      · have htakes := takes_dropRound now d
        cases hitem : (dropRound now d).item with
        | none =>
            have hstopped := dropRound_none hitem
            rw [dropLoop_of_not_dropping hstopped, hstopped, Bool.false_and]
        | some item =>
            refine ih (htakes.valid hv) ?_
            have hlen := congrArg List.length htakes.packets
            rw [hitem, List.length_append] at hlen
            simp only [Option.toList_some, List.length_singleton] at hlen
            omega
      · next hstop => exact Bool.eq_false_iff.mpr hstop

end CoDelQueueDisc

end Ns3Raft.Traffic
