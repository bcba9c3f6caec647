import Ns3Raft.Traffic.CoDelShift

/-! # Overflow of CoDel's comparisons

The comparisons of `CoDelQueueDisc` subtract signed numbers of 32 bits. Nothing overflows while
the clock keeps to one side of the largest of them.
-/

namespace Ns3Raft.Traffic

namespace CoDelQueueDisc

variable {s : CoDelQueueDisc} {now : Nat} {item : QueueDiscItem}

/-! ## The comparisons that are made -/

variable {lo hi hi' : Nat} {k : Int}

/-- A time of the state stands for an instant since the start, between two turns, that is one interval ahead at most. -/
def Instant (lo : Nat) (k : Int) (hi t : Nat) : Prop :=
  ∃ n : Nat, t = n % 2 ^ 32 ∧ lo ≤ n ∧ (2 * k - 1) * 2 ^ 31 ≤ (n : Int) ∧ n ≤ hi

theorem Instant.mono {t : Nat} (h : Instant lo k hi t) (hle : hi ≤ hi') : Instant lo k hi' t := by
  obtain ⟨n, heq, hlo, hturn, hn⟩ := h
  exact ⟨n, heq, hlo, hturn, Nat.le_trans hn hle⟩

/-- `I`, the interval in CoDel time units. -/
def units (s : CoDelQueueDisc) : Nat := time2CoDel s.interval

/-- The times of a state at `hi` units. -/
structure Timely (lo : Nat) (k : Int) (now : Nat) (s : CoDelQueueDisc) : Prop where
  items : ∀ item ∈ s.queue.packets, lo ≤ item.timeStamp / 1024 ∧ item.timeStamp ≤ now
  above : s.firstAboveTime ≠ 0 → Instant lo k (now / 1024 + s.units) s.firstAboveTime
  next : s.dropping = true ∨ s.count ≠ s.lastCount → Instant lo k (now / 1024 + s.units) s.dropNext

/-- The moment of a dequeue. -/
structure Moment (lo : Nat) (k : Int) (units now : Nat) : Prop where
  start : lo ≤ now / 1024
  span : now / 1024 < lo + 2 ^ 31
  turn : (2 * k - 1) * 2 ^ 31 ≤ ((now / 1024 : Nat) : Int)
  ahead : ((now / 1024 + units : Nat) : Int) < (2 * k + 1) * 2 ^ 31

/-- The attributes are small. -/
structure Small (s : CoDelQueueDisc) : Prop where
  interval : 17 * s.units ≤ 2 ^ 31
  target : time2CoDel s.target < 2 ^ 31

theorem reciprocalDivide_le {a r : Nat} (h : r < 2 ^ 32) : reciprocalDivide a r ≤ a := by
  rw [reciprocalDivide, Nat.shiftRight_eq_div_pow]
  exact Nat.div_le_of_le_mul (Nat.mul_comm (2 ^ 32) a ▸ Nat.mul_le_mul_left a (Nat.le_of_lt h))

/-- The control law is ahead by an interval at most. -/
theorem Instant.controlLaw {t : Nat} (h : Instant lo k hi t) : Instant lo k (hi + s.units) (s.controlLaw t) := by
  obtain ⟨n, rfl, hlo, hturn, hn⟩ := h
  have hle := reciprocalDivide_le (a := time2CoDel s.interval) (Nat.mod_lt (s.recInvSqrt <<< 16) (Nat.two_pow_pos 32))
  refine ⟨n + reciprocalDivide (time2CoDel s.interval) (s.recInvSqrt <<< 16 % 2 ^ 32), ?_, by omega, by omega, ?_⟩
  · rw [CoDelQueueDisc.controlLaw, Nat.mod_add_mod]
  · rw [units]
    omega

def attributes (s : CoDelQueueDisc) : Int × Int := (s.interval, s.target)

variable {s' : CoDelQueueDisc}

theorem units_eq (h : s'.attributes = s.attributes) : s'.units = s.units :=
  congrArg time2CoDel (Prod.mk.inj h).1

theorem Small.of_eq (hs : s.Small) (h : s'.attributes = s.attributes) : s'.Small := by
  refine ⟨units_eq h ▸ hs.interval, ?_⟩
  rw [(Prod.mk.inj h).2]
  exact hs.target

theorem dequeueInternal_attributes (s : CoDelQueueDisc) : s.dequeueInternal.2.attributes = s.attributes := by
  unfold dequeueInternal
  cases s.queue.dequeue <;> rfl

theorem okToDrop_attributes (s : CoDelQueueDisc) (item : Option QueueDiscItem) (now : Nat) :
    (s.okToDrop item now).2.attributes = s.attributes := by
  cases item with
  | none => rfl
  | some item =>
    rw [okToDrop_some]
    split
    · rfl
    split
    · rfl
    · rfl

/-- An item that was enqueued since the start. -/
def Enqueued (lo now : Nat) (item : QueueDiscItem) : Prop := lo ≤ item.timeStamp / 1024 ∧ item.timeStamp ≤ now

/-- The times of a state, without that of the next drop. -/
structure Stamped (lo : Nat) (k : Int) (now : Nat) (s : CoDelQueueDisc) : Prop where
  items : ∀ item ∈ s.queue.packets, Enqueued lo now item
  above : s.firstAboveTime ≠ 0 → Instant lo k (now / 1024 + s.units) s.firstAboveTime

theorem Stamped.okToDrop (h : Stamped lo k now s) (hm : Moment lo k s.units now) (item : Option QueueDiscItem) :
    Stamped lo k now (s.okToDrop item now).2 := by
  have hunits := units_eq (okToDrop_attributes s item now)
  refine ⟨?_, ?_⟩
  · have htakes := (takes_okToDrop s item now).packets
    rw [List.nil_append] at htakes
    rw [← htakes]
    exact h.items
  · rw [hunits]
    cases item with
    | none => exact fun hset => absurd rfl hset
    | some item =>
      rw [okToDrop_some]
      split
      · exact fun hset => absurd rfl hset
      split
      · intro _
        refine ⟨now / 1024 + s.units, ?_, Nat.le_add_right_of_le hm.start, ?_, Nat.le_refl _⟩
        · show (time2CoDel now + time2CoDel s.interval) % 2 ^ 32 = _
          rw [time2CoDel_natCast, Nat.mod_add_mod]
          rfl
        · have hturn := hm.turn
          omega
      · exact h.above

theorem Stamped.dequeueInternal (h : Stamped lo k now s) :
    Stamped lo k now s.dequeueInternal.2 ∧ ∀ it ∈ s.dequeueInternal.1, Enqueued lo now it := by
  have htakes := (takes_dequeueInternal s).packets
  have hunits := units_eq (dequeueInternal_attributes s)
  have hitems := h.items
  rw [htakes] at hitems
  refine ⟨⟨fun it hit => hitems it (List.mem_append_right _ hit), ?_⟩, fun it hit => hitems it (List.mem_append_left _ ?_)⟩
  · rw [hunits, dequeueInternal_firstAboveTime]
    exact h.above
  · rw [Option.mem_def] at hit
    rw [hit]
    exact List.mem_singleton_self it

theorem Stamped.scheduleDrop (h : Stamped lo k now s) (ok : Bool) : Stamped lo k now (s.scheduleDrop ok) := by
  cases ok with
  | true => exact ⟨h.items, h.above⟩
  | false => exact ⟨h.items, h.above⟩

theorem Instant.scheduleDrop (h : Instant lo k hi s.dropNext) (ok : Bool) :
    Instant lo k (hi + s.units) (s.scheduleDrop ok).dropNext := by
  cases ok with
  | true => exact h.controlLaw
  | false => exact h.mono (Nat.le_add_right _ _)

theorem Timely.mono {now' : Nat} (h : Timely lo k now s) (hle : now ≤ now') : Timely lo k now' s := by
  have hunits : now / 1024 + s.units ≤ now' / 1024 + s.units := Nat.add_le_add_right (Nat.div_le_div_right hle) _
  refine ⟨fun it hit => ?_, fun hset => (h.above hset).mono hunits, fun hnext => (h.next hnext).mono hunits⟩
  obtain ⟨hlo, hts⟩ := h.items it hit
  exact ⟨hlo, Nat.le_trans hts hle⟩

/-- The queue disc before its first packet. -/
def fresh (maxSize minBytes : Nat) (interval target : Int) : CoDelQueueDisc := { new maxSize interval target with minBytes }

def InOrder (es : Schedule) : Prop := (es.map Prod.fst).Pairwise (· ≤ ·)

/-- The calls are within 2^31 units of each other. -/
def Short (es : Schedule) : Prop := ∀ e ∈ es, ∀ e' ∈ es, e'.1 / 1024 < e.1 / 1024 + 2 ^ 31

def bulk (uid : Nat) : QueueDiscItem := ⟨uid, 3000, 0, by decide⟩

end CoDelQueueDisc

end Ns3Raft.Traffic
