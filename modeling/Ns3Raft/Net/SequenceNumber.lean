import Mathlib.Data.UInt
import Mathlib.Tactic.Common

/-! # Sequence numbers

`SequenceNumber` is a template; the code that uses it only compares numbers, adds
sizes and takes differences as `uint32_t`. Positions in a stream are numbers of that
kind too, and as long as a stream is short enough its positions and their sequence
numbers compare alike.
-/

namespace Ns3Raft.Net

/-- The operators of `SequenceNumber`. -/
class Sequence (κ : Type) where
  gt : κ → κ → Bool
  add : κ → Nat → κ
  /-- The difference as it is cast to `uint32_t`. -/
  sub : κ → κ → Nat

namespace Sequence

variable {κ : Type} [DecidableEq κ] [Sequence κ]

omit [DecidableEq κ] in
def le (a b : κ) : Bool := !gt a b

def ge (a b : κ) : Bool := gt a b || a = b

def lt (a b : κ) : Bool := !gt a b && a ≠ b

instance : Sequence Nat where
  gt a b := b < a
  add a n := a + n
  sub a b := a - b

@[simp] theorem gt_nat (a b : Nat) : gt a b = decide (b < a) := rfl

@[simp] theorem add_nat (a n : Nat) : add a n = a + n := rfl

@[simp] theorem sub_nat (a b : Nat) : sub a b = a - b := rfl

@[simp] theorem le_nat (a b : Nat) : le a b = decide (a ≤ b) := by
  rw [le, gt_nat, ← decide_not, decide_eq_decide]
  omega

@[simp] theorem ge_nat (a b : Nat) : ge a b = decide (b ≤ a) := by
  rw [ge, gt_nat, ← Bool.decide_or, decide_eq_decide]
  omega

@[simp] theorem lt_nat (a b : Nat) : lt a b = decide (a < b) := by
  rw [lt, gt_nat, ← decide_not, ← Bool.decide_and, decide_eq_decide]
  omega

/-- Positions from `lo` to `hi` and their numbers compare alike. -/
structure Embeds (φ : Nat → κ) (lo hi : Nat) : Prop where
  gt : ∀ x y, lo ≤ x → x ≤ hi → lo ≤ y → y ≤ hi → gt (φ x) (φ y) = decide (y < x)
  inj : ∀ x y, lo ≤ x → x ≤ hi → lo ≤ y → y ≤ hi → (φ x = φ y ↔ x = y)
  add : ∀ x n, add (φ x) n = φ (x + n)
  sub : ∀ x y, x ≤ hi → lo ≤ y → y ≤ x → sub (φ x) (φ y) = x - y

variable {φ : Nat → κ} {lo hi x y : Nat}

omit [DecidableEq κ] in
theorem Embeds.le (h : Embeds φ lo hi) (hx : lo ≤ x) (hx' : x ≤ hi) (hy : lo ≤ y) (hy' : y ≤ hi) :
    le (φ x) (φ y) = decide (x ≤ y) := by
  rw [Sequence.le, h.gt x y hx hx' hy hy', ← decide_not, decide_eq_decide]
  omega

theorem Embeds.ge (h : Embeds φ lo hi) (hx : lo ≤ x) (hx' : x ≤ hi) (hy : lo ≤ y) (hy' : y ≤ hi) :
    ge (φ x) (φ y) = decide (y ≤ x) := by
  rw [Sequence.ge, h.gt x y hx hx' hy hy', ← Bool.decide_or, decide_eq_decide, h.inj x y hx hx' hy hy']
  omega

theorem Embeds.lt (h : Embeds φ lo hi) (hx : lo ≤ x) (hx' : x ≤ hi) (hy : lo ≤ y) (hy' : y ≤ hi) :
    lt (φ x) (φ y) = decide (x < y) := by
  rw [Sequence.lt, h.gt x y hx hx' hy hy', ← decide_not, ← Bool.decide_and, decide_eq_decide, Ne,
    h.inj x y hx hx' hy hy']
  omega

end Sequence

structure SequenceNumber32 where
  value : UInt32
  deriving DecidableEq, Repr

namespace SequenceNumber32

open Sequence

/-- `halfMaxValue`. -/
def halfMaxValue : UInt32 := 2147483647

instance : Sequence SequenceNumber32 where
  gt a b := (b.value < a.value && a.value - b.value ≤ halfMaxValue) ||
    (a.value < b.value && halfMaxValue < b.value - a.value)
  add a n := ⟨a.value + UInt32.ofNat n⟩
  sub a b := (a.value - b.value).toNat

variable {a b base : SequenceNumber32} {x y n : Nat}

theorem sub_eq : sub a b = (2 ^ 32 + a.value.toNat - b.value.toNat) % 2 ^ 32 := by
  change (a.value - b.value).toNat = _
  have ha := a.value.toNat_lt
  have hb := b.value.toNat_lt
  rw [UInt32.toNat_sub]
  omega

/-- A number is greater than those less than half the space behind it; numbers half the space
apart are compared by their values. -/
theorem gt_eq (h : sub a b ≠ 2 ^ 31) : gt a b = decide (0 < sub a b ∧ sub a b < 2 ^ 31) := by
  rw [sub_eq] at *
  have ha := a.value.toNat_lt
  have hb := b.value.toNat_lt
  have hhalf : halfMaxValue.toNat = 2 ^ 31 - 1 := rfl
  change (decide (b.value < a.value) && decide (a.value - b.value ≤ halfMaxValue) ||
    decide (a.value < b.value) && decide (halfMaxValue < b.value - a.value)) = _
  rw [Bool.eq_iff_iff]
  simp only [Bool.or_eq_true, Bool.and_eq_true, decide_eq_true_eq, UInt32.lt_iff_toNat_lt, UInt32.le_iff_toNat_le,
    UInt32.toNat_sub, hhalf]
  omega

theorem eq_iff : a = b ↔ sub a b = 0 := by
  rw [sub_eq]
  have ha := a.value.toNat_lt
  have hb := b.value.toNat_lt
  constructor
  · rintro rfl
    omega
  · intro h
    have heq : a.value.toNat = b.value.toNat := by omega
    cases a
    cases b
    rw [mk.injEq]
    exact UInt32.toNat_inj.mp heq

theorem add_add (base : SequenceNumber32) (x n : Nat) : add (add base x) n = add base (x + n) := by
  change mk (base.value + UInt32.ofNat x + UInt32.ofNat n) = mk (base.value + UInt32.ofNat (x + n))
  rw [UInt32.ofNat_add, UInt32.add_assoc]

theorem sub_add_add (base : SequenceNumber32) (x y : Nat) :
    sub (add base x) (add base y) = (2 ^ 32 + x % 2 ^ 32 - y % 2 ^ 32) % 2 ^ 32 := by
  have hvalue : ∀ z, (add base z).value.toNat = (base.value.toNat + z) % 2 ^ 32 := fun z => by
    change (base.value + UInt32.ofNat z).toNat = _
    rw [UInt32.toNat_add, UInt32.toNat_ofNat']
    omega
  rw [sub_eq, hvalue, hvalue]
  have hb := base.value.toNat_lt
  omega

theorem add_sub_self (base a : SequenceNumber32) : add base (sub a base) = a := by
  cases a
  change mk (base.value + UInt32.ofNat (_ - base.value).toNat) = _
  rw [UInt32.ofNat_toNat, UInt32.add_comm, UInt32.sub_add_cancel]

/-- Positions that are close enough compare as their sequence numbers do. -/
theorem gt_add_add (base : SequenceNumber32) (hx : x < y + 2 ^ 31) (hy : y < x + 2 ^ 31) :
    gt (add base x) (add base y) = decide (y < x) := by
  rw [gt_eq (by rw [sub_add_add]; omega), sub_add_add, decide_eq_decide]
  omega

theorem sub_add_add_of_le (base : SequenceNumber32) (hle : y ≤ x) (hx : x < y + 2 ^ 32) :
    sub (add base x) (add base y) = x - y := by
  rw [sub_add_add]
  omega

theorem add_eq_add_iff (base : SequenceNumber32) (hx : x < y + 2 ^ 32) (hy : y < x + 2 ^ 32) :
    add base x = add base y ↔ x = y := by
  rw [eq_iff, sub_add_add]
  omega

theorem lt_add_add (base : SequenceNumber32) (hx : x < y + 2 ^ 31) (hy : y < x + 2 ^ 31) :
    lt (add base x) (add base y) = decide (x < y) := by
  rw [lt, gt_add_add base hx hy, ← decide_not, ← Bool.decide_and, decide_eq_decide, Ne,
    add_eq_add_iff base (by omega) (by omega)]
  omega

theorem embeds (base : SequenceNumber32) (lo hi : Nat) (hnear : hi < lo + 2 ^ 31) : Embeds (add base) lo hi where
  gt y z hy hy' hz hz' := gt_add_add base (by omega) (by omega)
  inj y z hy hy' hz hz' := add_eq_add_iff base (by omega) (by omega)
  add := add_add base
  sub y z hy hz hle := sub_add_add_of_le base hle (by omega)

end SequenceNumber32

end Ns3Raft.Net
