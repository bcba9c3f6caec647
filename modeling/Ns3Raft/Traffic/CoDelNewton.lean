import Mathlib.Analysis.Real.Sqrt
import Ns3Raft.Lib.InverseRoot
import Ns3Raft.Traffic.CoDelOverflow

/-! # The reciprocal of CoDel

`NewtonStep` runs once for each count, also where the count falls because a dropping state begins with
the drop rate of the last one. The reciprocal never passes `2 ^ 16 / √count`, and it keeps within
`2 ^ 16 / √(2 * peak)`, where the peak is the greatest count since the count was last set to one.
-/

namespace Ns3Raft.Traffic

open Lib.InverseRoot

namespace CoDelQueueDisc

variable {s s' : CoDelQueueDisc} {now : Nat}

/-! ## The calls -/

/-- The variables of `NewtonStep`. -/
def invsqrt (s : CoDelQueueDisc) : Nat := s.recInvSqrt <<< 16 % 2 ^ 32

def invsqrt2 (s : CoDelQueueDisc) : Nat := (s.invsqrt * s.invsqrt) >>> 32

def val (s : CoDelQueueDisc) : Nat := (3 <<< 32 + 2 ^ 64 - s.count * s.invsqrt2 % 2 ^ 64) % 2 ^ 64

theorem newtonStep_eq (s : CoDelQueueDisc) :
    s.newtonStep = { s with recInvSqrt := (s.val >>> 2 * s.invsqrt % 2 ^ 64) >>> (32 - 2 + 1) >>> 16 % 2 ^ 16 } := rfl

/-- What `ControlLaw` adds to a time. -/
def increment (s : CoDelQueueDisc) : Nat := reciprocalDivide (time2CoDel s.interval) s.invsqrt

/-- The steps of `DoDequeue` that touch the count and its reciprocal, with the states they are taken in. -/
inductive Call where
  | newtonStep (s : CoDelQueueDisc)
  | countOne
  | controlLaw (s : CoDelQueueDisc)

def counted (s : CoDelQueueDisc) : CoDelQueueDisc := { s with count := (s.count + 1) % 2 ^ 32 }

/-- The state after a popped item was judged. -/
def judged (s : CoDelQueueDisc) (now : Nat) : Bool × CoDelQueueDisc := s.dequeueInternal.2.okToDrop s.dequeueInternal.1 now

def dropRoundCalls (now : Nat) (d : Dequeuing) : List Call :=
  .newtonStep d.disc.counted ::
    if (d.disc.countDrop.judged now).1 then [.controlLaw (d.disc.countDrop.judged now).2] else []

def dropLoopCalls (now : Nat) : Nat → Dequeuing → List Call
  | 0, _ => []
  | fuel + 1, d =>
      if d.disc.dropping && coDelTimeAfterEq (time2CoDel now) d.disc.dropNext then
        dropRoundCalls now d ++ dropLoopCalls now fuel (dropRound now d)
      else []

/-- The old count less the one that the last dropping state began with. -/
def resumed (s : CoDelQueueDisc) : CoDelQueueDisc :=
  { s with dropping := true, count := (int32 ((s.count : Int) - s.lastCount)).toNat }

def startDroppingCalls (s : CoDelQueueDisc) (now : Nat) : List Call :=
  [if s.recent now then .newtonStep s.resumed else .countOne, .controlLaw (s.restart (s.recent now))]

def dropOrKeepCalls (s : CoDelQueueDisc) (now : Nat) (item : QueueDiscItem) (ok : Bool) : List Call :=
  if ok then
    if s.dropping then dropLoopCalls now (s.queue.packets.length + 1) ⟨some item, [], s⟩
    else (s.judged now).2.startDroppingCalls (time2CoDel now)
  else []

def doDequeueCalls (s : CoDelQueueDisc) (now : Nat) : List Call :=
  match s.dequeueInternal with
  | (none, _) => []
  | (some item, s) => (s.okToDrop (some item) now).2.dropOrKeepCalls now item (s.okToDrop (some item) now).1

def stepCalls (s : CoDelQueueDisc) : Nat × QueueOp → List Call
  | (_, .enqueue _) => []
  | (now, .dequeue) => s.doDequeueCalls now

def runCalls (s : CoDelQueueDisc) : Schedule → List Call
  | [] => []
  | e :: es => s.stepCalls e ++ (s.step e).2.runCalls es

/-- The state after a run. -/
def ranTo (s : CoDelQueueDisc) (es : Schedule) : CoDelQueueDisc := es.foldl (fun s e => (s.step e).2) s

/-- The greatest count since the count was last one, after a call. -/
def Call.peak (peak : Nat) : Call → Nat
  | .newtonStep s => max peak s.count
  | .countOne => 1
  | .controlLaw _ => peak

def peakAfter (peak : Nat) (calls : List Call) : Nat := calls.foldl Call.peak peak

variable {peak : Nat}

/-! ## One step -/

theorem invsqrt_eq (hrec : s.recInvSqrt < 2 ^ 16) : s.invsqrt = s.recInvSqrt * 2 ^ 16 := by
  rw [invsqrt, Nat.shiftLeft_eq, Nat.mod_eq_of_lt (by omega)]

theorem invsqrt2_eq (hrec : s.recInvSqrt < 2 ^ 16) : s.invsqrt2 = s.recInvSqrt ^ 2 := by
  have hsq : s.recInvSqrt * 2 ^ 16 * (s.recInvSqrt * 2 ^ 16) = s.recInvSqrt ^ 2 * 2 ^ 32 := by ring
  rw [invsqrt2, invsqrt_eq hrec, Nat.shiftRight_eq_div_pow, hsq, Nat.mul_div_cancel _ (by omega)]

/-- The state that `NewtonStep` is called in, where the count has its new value and the reciprocal the old one. -/
structure Ready (peak : Nat) (s : CoDelQueueDisc) : Prop where
  rec_lt : s.recInvSqrt < 2 ^ 16
  count_lt : s.count < 2 ^ 32
  near : s.count * s.recInvSqrt ^ 2 + 5 ≤ 2 ^ 33
  zero : s.count = 0 → s.recInvSqrt ≤ 1
  low : 2 ^ 32 ≤ (s.recInvSqrt + 1) ^ 2 * (2 * peak)

/-- What holds of a count and its reciprocal. -/
structure Rooted (peak : Nat) (s : CoDelQueueDisc) : Prop where
  rec_lt : s.recInvSqrt < 2 ^ 16
  count_lt : s.count < 2 ^ 32
  high : s.count * s.recInvSqrt ^ 2 ≤ 2 ^ 32
  low : 2 ^ 32 ≤ (s.recInvSqrt + 1) ^ 2 * (2 * peak)
  count_le : s.count ≤ peak

theorem Ready.val_eq (h : Ready peak s) : s.val = 12 * 2 ^ 30 - s.count * s.recInvSqrt ^ 2 := by
  have hnear := h.near
  rw [val, invsqrt2_eq h.rec_lt]
  omega

/-- Nothing wraps in `NewtonStep`. -/
structure NewtonFits (s : CoDelQueueDisc) : Prop where
  difference : s.count * s.invsqrt2 ≤ 3 * 2 ^ 32
  product : s.val >>> 2 * s.invsqrt < 2 ^ 64

theorem Ready.fits (h : Ready peak s) : NewtonFits s where
  difference := by
    rw [invsqrt2_eq h.rec_lt]
    have hnear := h.near
    omega
  product := by
    have hrec := h.rec_lt
    have hquarter : (12 * 2 ^ 30 - s.count * s.recInvSqrt ^ 2) / 2 ^ 2 ≤ 3 * 2 ^ 30 := by omega
    rw [h.val_eq, invsqrt_eq h.rec_lt, Nat.shiftRight_eq_div_pow]
    calc _ ≤ 3 * 2 ^ 30 * (s.recInvSqrt * 2 ^ 16) := Nat.mul_le_mul_right _ hquarter
      _ < 2 ^ 64 := by omega

theorem Ready.recInvSqrt_eq (h : Ready peak s) :
    s.newtonStep.recInvSqrt = newton (2 ^ 30) s.count s.recInvSqrt % 2 ^ 16 := by
  have hproduct := h.fits.product
  rw [newtonStep_eq]
  dsimp only
  rw [Nat.mod_eq_of_lt hproduct, h.val_eq, invsqrt_eq h.rec_lt, Nat.shiftRight_eq_div_pow, Nat.shiftRight_eq_div_pow,
    Nat.shiftRight_eq_div_pow, Nat.div_div_eq_div_mul, ← Nat.mul_assoc, Nat.mul_div_mul_right _ _ (by omega)]
  rfl

theorem Ready.newton_lt (h : Ready peak s) : newton (2 ^ 30) s.count s.recInvSqrt < 2 ^ 16 := by
  have hrec : s.recInvSqrt ^ 2 ≤ 65535 ^ 2 := Nat.pow_le_pow_left (Nat.le_of_lt_succ h.rec_lt) 2
  have hnear := h.near
  by_contra hge
  have hsq : (2 ^ 16) ^ 2 ≤ newton (2 ^ 30) s.count s.recInvSqrt ^ 2 := Nat.pow_le_pow_left (Nat.le_of_not_lt hge) 2
  rcases Nat.eq_zero_or_pos s.count with hzero | hpos
  · have hle := newton_le (h := 2 ^ 30) (by omega) s.count s.recInvSqrt
    have hone := h.zero hzero
    omega
  rcases Nat.lt_or_ge (s.count * s.recInvSqrt ^ 2) (4 * 2 ^ 30) with hlt | hle
  · have hroot := newton_mul_sq_lt (h := 2 ^ 30) (by omega) hlt
    have hone : 1 * newton (2 ^ 30) s.count s.recInvSqrt ^ 2 ≤ s.count * newton (2 ^ 30) s.count s.recInvSqrt ^ 2 :=
      Nat.mul_le_mul_right _ hpos
    omega
  · have hroot := newton_mul_sq_le (h := 2 ^ 30) (c := s.count) (r := s.recInvSqrt) (by omega) (by omega)
    have hcount : 2 ≤ s.count := by
      by_contra hlt
      have hone : s.count = 1 := by omega
      rw [hone] at hle
      omega
    have htwo : 2 * newton (2 ^ 30) s.count s.recInvSqrt ^ 2 ≤ s.count * newton (2 ^ 30) s.count s.recInvSqrt ^ 2 :=
      Nat.mul_le_mul_right _ hcount
    omega

/-- The new reciprocal is within `2 ^ 16 / √2` and `2 ^ 16` times the inverse root, or not below the old one. -/
theorem Ready.newtonStep (h : Ready peak s) : Rooted (max peak s.count) s.newtonStep := by
  have heq := h.recInvSqrt_eq
  rw [Nat.mod_eq_of_lt h.newton_lt] at heq
  have hnear := h.near
  have hgrown := Nat.mul_le_mul_left 2 (Nat.le_max_left peak s.count)
  have hcount := Nat.mul_le_mul_left 2 (Nat.le_max_right peak s.count)
  constructor
  · rw [heq]
    exact h.newton_lt
  · exact h.count_lt
  · rw [heq]
    exact newton_mul_sq_le (h := 2 ^ 30) (c := s.count) (r := s.recInvSqrt) (by omega) (by omega)
  · rw [heq]
    rcases Nat.le_total (s.count * s.recInvSqrt ^ 2) (4 * 2 ^ 30) with hbelow | habove
    · have hback := le_newton (h := 2 ^ 30) (by omega) hbelow
      calc 2 ^ 32 ≤ (s.recInvSqrt + 1) ^ 2 * (2 * peak) := h.low
        _ ≤ _ := Nat.mul_le_mul (Nat.pow_le_pow_left (Nat.succ_le_succ hback) 2) hgrown
    · calc 2 ^ 32 ≤ (newton (2 ^ 30) s.count s.recInvSqrt + 1) ^ 2 * (2 * s.count) :=
          near_newton (h := 2 ^ 30) (by omega) habove (by omega)
        _ ≤ _ := Nat.mul_le_mul_left _ hcount
  · exact Nat.le_max_right _ _

theorem Ready.newtonStep_le_one (h : Ready peak s) (hone : s.recInvSqrt ≤ 1) : s.newtonStep.recInvSqrt ≤ 1 := by
  have hle := newton_le (h := 2 ^ 30) (by omega) s.count s.recInvSqrt
  rw [h.recInvSqrt_eq, Nat.mod_eq_of_lt h.newton_lt]
  omega

/-! ## Between the steps -/

/-- The count has not fallen below the one that the dropping state began with, unless it has wrapped around. -/
structure Kept (peak : Nat) (s : CoDelQueueDisc) : Prop extends Rooted peak s where
  last : s.lastCount ≤ s.count ∨ s.recInvSqrt ≤ 1

/-- The variables that the steps are about. -/
def reciprocal (s : CoDelQueueDisc) : Nat × Nat × Nat := (s.count, s.lastCount, s.recInvSqrt)

theorem kept_one (hrec : s.recInvSqrt = 0xffff) (hcount : s.count ≤ 1) (hlast : s.lastCount ≤ s.count) : Kept 1 s where
  rec_lt := by omega
  count_lt := by omega
  high := by
    have hone := Nat.mul_le_mul_right (0xffff ^ 2) hcount
    rw [hrec]
    omega
  low := by
    rw [hrec]
    omega
  count_le := hcount
  last := .inl hlast

theorem Kept.of_eq (h : Kept peak s) (heq : s'.reciprocal = s.reciprocal) : Kept peak s' := by
  simp only [reciprocal, Prod.mk.injEq] at heq
  obtain ⟨hcount, hlast, hrec⟩ := heq
  exact {
    rec_lt := by rw [hrec]; exact h.rec_lt
    count_lt := by rw [hcount]; exact h.count_lt
    high := by rw [hcount, hrec]; exact h.high
    low := by rw [hrec]; exact h.low
    count_le := by rw [hcount]; exact h.count_le
    last := by rw [hcount, hlast, hrec]; exact h.last }

/-- At the end of the counter the reciprocal is one at most. -/
theorem Rooted.le_one_of_full (h : Rooted peak s) (hfull : s.count + 1 = 2 ^ 32) : s.recInvSqrt ≤ 1 := by
  have hhigh := h.high
  by_contra hgt
  have hsq : 2 ^ 2 ≤ s.recInvSqrt ^ 2 := Nat.pow_le_pow_left (Nat.lt_of_not_le hgt) 2
  have hfour := Nat.mul_le_mul_left s.count hsq
  omega

theorem Rooted.near_succ (h : Rooted peak s) : (s.count + 1) * s.recInvSqrt ^ 2 + 5 ≤ 2 ^ 33 := by
  have hrec : s.recInvSqrt ^ 2 ≤ 65535 ^ 2 := Nat.pow_le_pow_left (Nat.le_of_lt_succ h.rec_lt) 2
  have hhigh := h.high
  rw [Nat.succ_mul]
  rcases Nat.lt_or_ge s.count 2 with hsmall | htwo
  · have hone := Nat.mul_le_mul_right (s.recInvSqrt ^ 2) (Nat.le_of_lt_succ hsmall)
    omega
  · have hhalf := Nat.mul_le_mul_right (s.recInvSqrt ^ 2) htwo
    omega

theorem Kept.counted (h : Kept peak s) : Ready peak s.counted ∧ (s.lastCount ≤ s.counted.count ∨ s.recInvSqrt ≤ 1) := by
  have hlt := h.count_lt
  rcases Nat.lt_or_ge (s.count + 1) (2 ^ 32) with hnext | hfull
  · have hcount : s.counted.count = s.count + 1 := Nat.mod_eq_of_lt hnext
    refine ⟨⟨h.rec_lt, Nat.mod_lt _ (by omega), ?_, fun hzero => by omega, h.low⟩, ?_⟩
    · rw [hcount]
      exact h.near_succ
    · rw [hcount]
      exact h.last.imp_left fun hle => Nat.le_succ_of_le hle
  · have hone := h.le_one_of_full (by omega)
    have hzero : s.counted.count = 0 := by
      change (s.count + 1) % 2 ^ 32 = 0
      omega
    refine ⟨⟨h.rec_lt, Nat.mod_lt _ (by omega), ?_, fun _ => hone, h.low⟩, .inr hone⟩
    rw [hzero]
    omega

theorem Kept.countDrop (h : Kept peak s) : Kept (max peak s.counted.count) s.countDrop where
  toRooted := h.counted.1.newtonStep
  last := h.counted.2.imp_right fun hone => h.counted.1.newtonStep_le_one hone

/-- A dropping state that resumes an old one begins with a count that is not above the old one. -/
theorem Kept.resumed (h : Kept peak s) (hdelta : int32 ((s.count : Int) - s.lastCount) > 1) : Ready peak s.resumed := by
  have hlt := h.count_lt
  have hhigh := h.high
  have hsmall : (int32 ((s.count : Int) - s.lastCount)).toNat < 2 ^ 31 := by
    unfold int32
    omega
  have hnear : (int32 ((s.count : Int) - s.lastCount)).toNat * s.recInvSqrt ^ 2 ≤ 2 ^ 32 := by
    rcases h.last with hlast | hone
    · have hle : (int32 ((s.count : Int) - s.lastCount)).toNat ≤ s.count := by
        unfold int32 at *
        omega
      exact (Nat.mul_le_mul_right _ hle).trans hhigh
    · have hsq : s.recInvSqrt ^ 2 ≤ 1 ^ 2 := Nat.pow_le_pow_left hone 2
      have hmul := Nat.mul_le_mul_left (int32 ((s.count : Int) - s.lastCount)).toNat hsq
      omega
  refine ⟨h.rec_lt, hsmall.trans (by omega), (Nat.add_le_add_right hnear 5).trans (by omega), fun hzero => ?_, h.low⟩
  change (int32 ((s.count : Int) - s.lastCount)).toNat = 0 at hzero
  omega

/-! ## The drop times -/

/-- How far the increment of `ControlLaw` may be below `interval / √count`: by what the root of twice the
peak is away from the root of the count, by one unit of the reciprocal, and by one unit of time. -/
noncomputable def controlError (peak : Nat) (s : CoDelQueueDisc) : ℝ :=
  s.units * (1 / √s.count - 1 / √(2 * peak)) + s.units / 2 ^ 16 + 1

theorem Rooted.recInvSqrt_le (h : Rooted peak s) (hcount : 0 < s.count) : (s.recInvSqrt : ℝ) ≤ 2 ^ 16 / √s.count := by
  have hpos : (0 : ℝ) < √s.count := Real.sqrt_pos.2 (by exact_mod_cast hcount)
  have hhigh : (s.count : ℝ) * (s.recInvSqrt : ℝ) ^ 2 ≤ (2 ^ 16) ^ 2 := by exact_mod_cast h.high
  rw [le_div_iff₀ hpos]
  refine abs_le_of_sq_le_sq' ?_ (by norm_num) |>.2
  rw [mul_pow, Real.sq_sqrt (Nat.cast_nonneg _)]
  linarith

theorem Rooted.le_recInvSqrt (h : Rooted peak s) : 2 ^ 16 / √(2 * peak) ≤ (s.recInvSqrt : ℝ) + 1 := by
  have hlow : ((2 : ℝ) ^ 16) ^ 2 ≤ ((s.recInvSqrt : ℝ) + 1) ^ 2 * (2 * peak) := by exact_mod_cast h.low
  have hnonneg : (0 : ℝ) ≤ 2 * peak := by positivity
  refine div_le_of_le_mul₀ (Real.sqrt_nonneg _) (by positivity) ?_
  refine abs_le_of_sq_le_sq' ?_ (by positivity) |>.2
  rw [mul_pow, Real.sq_sqrt hnonneg]
  exact hlow

theorem Rooted.increment_le (h : Rooted peak s) : s.increment ≤ s.units :=
  reciprocalDivide_le (Nat.mod_lt _ (by omega))

theorem Rooted.increment_eq (h : Rooted peak s) : s.increment = s.units * s.recInvSqrt / 2 ^ 16 := by
  rw [increment, reciprocalDivide, invsqrt_eq h.rec_lt, Nat.shiftRight_eq_div_pow, ← Nat.mul_assoc,
    show (2 : Nat) ^ 32 = 2 ^ 16 * 2 ^ 16 by rfl, Nat.mul_div_mul_right _ _ (by omega)]
  rfl

theorem Rooted.le_increment (h : Rooted peak s) : s.units / √s.count - controlError peak s ≤ s.increment := by
  have hfloor : s.units * s.recInvSqrt < 2 ^ 16 * (s.increment + 1) := by
    rw [h.increment_eq]
    exact Nat.lt_mul_div_succ _ (by omega)
  have hreal : (s.units : ℝ) * s.recInvSqrt ≤ 2 ^ 16 * (s.increment + 1) := by exact_mod_cast hfloor.le
  have hroot := mul_le_mul_of_nonneg_left h.le_recInvSqrt (show (0 : ℝ) ≤ s.units from Nat.cast_nonneg _)
  have hexpand : s.units / √s.count - controlError peak s =
      (s.units * (2 ^ 16 / √(2 * peak)) - s.units) / 2 ^ 16 - 1 := by
    unfold controlError
    ring
  rw [hexpand, sub_le_iff_le_add, div_le_iff₀ (by norm_num)]
  linarith

theorem controlError_le (peak : Nat) (s : CoDelQueueDisc) : controlError peak s ≤ s.units + s.units / 2 ^ 16 + 1 := by
  have hroot : 1 / √(s.count : ℝ) ≤ 1 := by
    rcases Nat.eq_zero_or_pos s.count with hzero | hpos
    · rw [hzero, Nat.cast_zero, Real.sqrt_zero, div_zero]
      exact zero_le_one
    · rw [one_div]
      exact inv_le_one_of_one_le₀ (Real.one_le_sqrt.2 (by exact_mod_cast hpos))
  have hpeak : (0 : ℝ) ≤ 1 / √(2 * peak) := by positivity
  have hscaled := mul_le_mul_of_nonneg_left (show 1 / √(s.count : ℝ) - 1 / √(2 * peak) ≤ 1 by linarith)
    (show (0 : ℝ) ≤ s.units from Nat.cast_nonneg _)
  unfold controlError
  linarith

/-- While the count has only grown, less than three tenths of the time are missing, and two units. -/
theorem controlError_count (s : CoDelQueueDisc) :
    controlError s.count s = s.units / √s.count * (1 - 1 / √2) + s.units / 2 ^ 16 + 1 := by
  rw [controlError, Real.sqrt_mul zero_le_two]
  ring

/-- What is promised of a call, after calls whose counts have reached `peak`. -/
def Call.Sound (peak : Nat) : Call → Prop
  | .newtonStep s => NewtonFits s ∧ (0 < s.count → (s.newtonStep.recInvSqrt : ℝ) ≤ 2 ^ 16 / √s.count)
  | .countOne => True
  | .controlLaw s =>
      s.count ≤ peak ∧ s.increment ≤ s.units ∧ s.units / √s.count - controlError peak s ≤ s.increment ∧
        controlError peak s ≤ s.units + s.units / 2 ^ 16 + 1

def Sound (peak : Nat) : List Call → Prop
  | [] => True
  | call :: calls => call.Sound peak ∧ Sound (call.peak peak) calls

theorem Sound.append {calls later : List Call} (h : Sound peak calls) (hlater : Sound (peakAfter peak calls) later) :
    Sound peak (calls ++ later) := by
  induction calls generalizing peak with
  | nil => exact hlater
  | cons call calls ih => exact ⟨h.1, ih h.2 hlater⟩

theorem peakAfter_append (calls later : List Call) :
    peakAfter peak (calls ++ later) = peakAfter (peakAfter peak calls) later := List.foldl_append

theorem Sound.at {before later : List Call} {call : Call} (h : Sound peak (before ++ call :: later)) :
    call.Sound (peakAfter peak before) := by
  induction before generalizing peak with
  | nil => exact h.1
  | cons first before ih => exact ih h.2

theorem Ready.sound (h : Ready peak s) : (Call.newtonStep s).Sound peak :=
  ⟨h.fits, fun hcount => h.newtonStep.recInvSqrt_le hcount⟩

theorem Rooted.sound (h : Rooted peak s) : (Call.controlLaw s).Sound peak :=
  ⟨h.count_le, h.increment_le, h.le_increment, controlError_le peak s⟩

/-! ## Runs -/

theorem dequeueInternal_reciprocal (s : CoDelQueueDisc) : s.dequeueInternal.2.reciprocal = s.reciprocal := by
  unfold dequeueInternal
  cases s.queue.dequeue <;> rfl

theorem okToDrop_reciprocal (s : CoDelQueueDisc) (item : Option QueueDiscItem) (now : Nat) :
    (s.okToDrop item now).2.reciprocal = s.reciprocal := by
  cases item with
  | none => rfl
  | some item =>
    rw [okToDrop_some]
    split
    · rfl
    split
    · rfl
    · rfl

theorem judged_reciprocal (s : CoDelQueueDisc) (now : Nat) : (s.judged now).2.reciprocal = s.reciprocal :=
  (okToDrop_reciprocal _ _ _).trans (dequeueInternal_reciprocal s)

theorem scheduleDrop_reciprocal (s : CoDelQueueDisc) (ok : Bool) : (s.scheduleDrop ok).reciprocal = s.reciprocal := by
  cases ok <;> rfl

/-- The calls of a part of `DoDequeue` are sound, and the state after it is kept. -/
structure Runs (peak : Nat) (calls : List Call) (s : CoDelQueueDisc) : Prop where
  sound : Sound peak calls
  kept : Kept (peakAfter peak calls) s

theorem Runs.append {calls later : List Call} (h : Runs peak calls s) (hlater : Runs (peakAfter peak calls) later s') :
    Runs peak (calls ++ later) s' where
  sound := h.sound.append hlater.sound
  kept := by
    rw [peakAfter_append]
    exact hlater.kept

theorem Kept.dropRound {d : Dequeuing} (h : Kept peak d.disc) (now : Nat) :
    Runs peak (dropRoundCalls now d) (dropRound now d).disc := by
  have hcounted := h.countDrop.of_eq (judged_reciprocal d.disc.countDrop now)
  have hdisc : (CoDelQueueDisc.dropRound now d).disc =
      (d.disc.countDrop.judged now).2.scheduleDrop (d.disc.countDrop.judged now).1 := rfl
  rw [hdisc]
  unfold dropRoundCalls
  cases (d.disc.countDrop.judged now).1
  · exact ⟨⟨h.counted.1.sound, trivial⟩, hcounted.of_eq (scheduleDrop_reciprocal _ _)⟩
  · exact ⟨⟨h.counted.1.sound, hcounted.sound, trivial⟩, hcounted.of_eq (scheduleDrop_reciprocal _ _)⟩

theorem Kept.dropLoop {d : Dequeuing} (h : Kept peak d.disc) (now fuel : Nat) :
    Runs peak (dropLoopCalls now fuel d) (dropLoop now fuel d).disc := by
  induction fuel generalizing peak d with
  | zero => exact ⟨trivial, h⟩
  | succ fuel ih =>
    unfold dropLoopCalls CoDelQueueDisc.dropLoop
    split
    · exact (h.dropRound now).append (ih (h.dropRound now).kept)
    · exact ⟨trivial, h⟩

theorem Kept.restart (h : Kept peak s) (now : Nat) :
    (if s.recent now then Call.newtonStep s.resumed else Call.countOne).Sound peak ∧
      Kept ((if s.recent now then Call.newtonStep s.resumed else Call.countOne).peak peak) (s.restart (s.recent now)) := by
  cases hrecent : s.recent now
  · exact ⟨trivial, kept_one rfl (Nat.le_refl 1) (Nat.le_refl 1)⟩
  · have hdelta : int32 ((s.count : Int) - s.lastCount) > 1 := by
      rw [recent, Bool.and_eq_true, decide_eq_true_eq] at hrecent
      exact hrecent.1
    have hready := h.resumed hdelta
    have hroot := hready.newtonStep
    exact ⟨hready.sound, ⟨hroot.rec_lt, hroot.count_lt, hroot.high, hroot.low, hroot.count_le⟩, .inl (Nat.le_refl _)⟩

theorem Kept.startDropping (h : Kept peak s) (now : Nat) :
    Runs peak (s.startDroppingCalls now) (s.startDropping now) := by
  obtain ⟨hsound, hkept⟩ := h.restart now
  rw [startDropping_eq]
  exact ⟨⟨hsound, hkept.sound, trivial⟩, hkept.of_eq rfl⟩

theorem Kept.dropOrKeep (h : Kept peak s) (now : Nat) (item : QueueDiscItem) (ok : Bool) :
    Runs peak (s.dropOrKeepCalls now item ok) (s.dropOrKeep now item ok).disc := by
  unfold dropOrKeepCalls CoDelQueueDisc.dropOrKeep
  cases ok
  · cases s.dropping
    · exact ⟨trivial, h⟩
    · exact ⟨trivial, h.of_eq rfl⟩
  · cases s.dropping
    · exact (h.of_eq (judged_reciprocal s now)).startDropping _
    · exact h.dropLoop now _

theorem Kept.doDequeue (h : Kept peak s) (now : Nat) : Runs peak (s.doDequeueCalls now) (s.doDequeue now).disc := by
  have hinternal := h.of_eq (dequeueInternal_reciprocal s)
  unfold doDequeueCalls
  cases hdequeue : s.dequeueInternal with
  | mk popped s₁ =>
    rw [hdequeue] at hinternal
    cases popped with
    | none =>
      rw [doDequeue_none hdequeue]
      exact ⟨trivial, hinternal.of_eq rfl⟩
    | some item =>
      rw [doDequeue_some hdequeue (Prod.mk.eta (p := s₁.okToDrop (some item) now)).symm]
      exact (hinternal.of_eq (okToDrop_reciprocal s₁ (some item) now)).dropOrKeep now item _

theorem enqueue_reciprocal (s : CoDelQueueDisc) (now : Nat) (item : QueueDiscItem) :
    (s.enqueue now item).2.reciprocal = s.reciprocal := by
  unfold enqueue
  split
  · rfl
  · cases s.queue.enqueue { item with timeStamp := now } <;> rfl

theorem Kept.step (h : Kept peak s) (e : Nat × QueueOp) : Runs peak (s.stepCalls e) (s.step e).2 := by
  obtain ⟨now, op⟩ := e
  cases op with
  | enqueue item => exact ⟨trivial, h.of_eq (enqueue_reciprocal s now item)⟩
  | dequeue => exact h.doDequeue now

theorem Kept.run (h : Kept peak s) (es : Schedule) : Runs peak (s.runCalls es) (s.ranTo es) := by
  induction es generalizing peak s with
  | nil => exact ⟨trivial, h⟩
  | cons e es ih => exact (h.step e).append (ih (h.step e).kept)

theorem kept_fresh (maxSize minBytes : Nat) (interval target : Int) : Kept 1 (fresh maxSize minBytes interval target) :=
  kept_one rfl (Nat.zero_le 1) (Nat.le_refl 0)

/-- In every run `NewtonStep` computes without a wrap, the reciprocal is at most `2 ^ 16 / √count`, and what
`ControlLaw` adds is at most the interval and below `interval / √count` by the error at most. -/
theorem newton_never_wraps (maxSize minBytes : Nat) (interval target : Int) (es : Schedule) :
    (∀ before call later, (fresh maxSize minBytes interval target).runCalls es = before ++ call :: later →
      call.Sound (peakAfter 1 before)) ∧
    (0 < ((fresh maxSize minBytes interval target).ranTo es).count →
      (((fresh maxSize minBytes interval target).ranTo es).recInvSqrt : ℝ) ≤
        2 ^ 16 / √((fresh maxSize minBytes interval target).ranTo es).count) := by
  have hruns := (kept_fresh maxSize minBytes interval target).run es
  refine ⟨fun before call later heq => ?_, hruns.kept.recInvSqrt_le⟩
  have hsound := hruns.sound
  rw [heq] at hsound
  exact hsound.at

end CoDelQueueDisc

end Ns3Raft.Traffic
