import Mathlib.Tactic.Linarith
import Mathlib.Tactic.Ring

/-! # Inverse square roots by Newton's method

One step of Newton's method for `1 / √c`, on numbers that are scaled so that their square is compared
with `4 * h`, and truncated twice.
-/

namespace Ns3Raft.Lib.InverseRoot

/-- The step from `r`, which is `√(4 * h)` times an estimate. -/
def newton (h c r : Nat) : Nat := (12 * h - c * r ^ 2) / 4 * r / (2 * h)

variable {h c r : Nat}

/-- A step is three halves of the estimate at most. -/
theorem newton_le (hh : 0 < h) (c r : Nat) : newton h c r ≤ 3 * r / 2 := by
  have hquarter : (12 * h - c * r ^ 2) / 4 ≤ 3 * h := by omega
  calc newton h c r ≤ 3 * h * r / (2 * h) := Nat.div_le_div_right (Nat.mul_le_mul_right _ hquarter)
    _ = 3 * r * h / (2 * h) := by rw [Nat.mul_right_comm]
    _ = 3 * r / 2 := Nat.mul_div_mul_right _ _ hh

/-- Half of what is left of three, times the estimate, is the inverse root at most. -/
theorem mul_sq_le {u q : Int} (hq : q ≤ 4 * u) : q * (3 * u - q) ^ 2 ≤ 4 * u ^ 3 := by
  have hnonneg : 0 ≤ (u - q) ^ 2 * (4 * u - q) := mul_nonneg (sq_nonneg _) (by linarith)
  linarith [show 4 * u ^ 3 - q * (3 * u - q) ^ 2 = (u - q) ^ 2 * (4 * u - q) by ring]

theorem mul_sq_lt {u q : Int} (hq : q < u) (hu : 0 ≤ u) : q * (3 * u - q) ^ 2 < 4 * u ^ 3 := by
  have hpos : 0 < (u - q) ^ 2 * (4 * u - q) := mul_pos (pow_pos (by linarith) 2) (by linarith)
  linarith [show 4 * u ^ 3 - q * (3 * u - q) ^ 2 = (u - q) ^ 2 * (4 * u - q) by ring]

/-- What the truncations leave of the step, squared. -/
theorem newton_sq_le (hq : c * r ^ 2 ≤ 12 * h) :
    (c * newton h c r ^ 2 : Int) * (8 * h) ^ 2 ≤ (c * r ^ 2) * (12 * h - c * r ^ 2) ^ 2 := by
  have hdiv : newton h c r * (2 * h) ≤ (12 * h - c * r ^ 2) / 4 * r := Nat.div_mul_le_self _ _
  have hquarter : (12 * h - c * r ^ 2) / 4 * 4 ≤ 12 * h - c * r ^ 2 := Nat.div_mul_le_self _ _
  have hstep : newton h c r * (8 * h) ≤ (12 * h - c * r ^ 2) * r :=
    calc newton h c r * (8 * h) = newton h c r * (2 * h) * 4 := by ring
      _ ≤ (12 * h - c * r ^ 2) / 4 * r * 4 := Nat.mul_le_mul_right _ hdiv
      _ = (12 * h - c * r ^ 2) / 4 * 4 * r := by ring
      _ ≤ (12 * h - c * r ^ 2) * r := Nat.mul_le_mul_right _ hquarter
  have hsq : c * (newton h c r * (8 * h)) ^ 2 ≤ c * ((12 * h - c * r ^ 2) * r) ^ 2 :=
    Nat.mul_le_mul_left _ (Nat.pow_le_pow_left hstep 2)
  have hint : (c * (newton h c r * (8 * h)) ^ 2 : Int) ≤ c * ((12 * h - c * r ^ 2) * r) ^ 2 := by
    have hcast := Int.ofNat_le.2 hsq
    push_cast [Nat.cast_sub hq] at hcast
    exact hcast
  linarith [show (c * newton h c r ^ 2 : Int) * (8 * h) ^ 2 = c * (newton h c r * (8 * h)) ^ 2 by ring,
    show (c * r ^ 2 : Int) * (12 * h - c * r ^ 2) ^ 2 = c * ((12 * h - c * r ^ 2) * r) ^ 2 by ring]

/-- A step never ends above the inverse root. -/
theorem newton_mul_sq_le (hh : 0 < h) (hq : c * r ^ 2 ≤ 12 * h) : c * newton h c r ^ 2 ≤ 4 * h := by
  have hsq := newton_sq_le hq
  have hcast : ((c * r ^ 2 : Nat) : Int) ≤ (12 * h : Nat) := Int.ofNat_le.2 hq
  push_cast at hcast
  have hbound := mul_sq_le (u := 4 * h) (q := c * r ^ 2) (by linarith)
  have hpos : (0 : Int) < (8 * h) ^ 2 := by positivity
  have hint : (c * newton h c r ^ 2 : Int) ≤ 4 * h := by
    refine le_of_mul_le_mul_right ?_ hpos
    linarith [show (4 * (h : Int)) * (8 * h) ^ 2 = 4 * (4 * h) ^ 3 by ring,
      show (c * r ^ 2 : Int) * (12 * h - c * r ^ 2) ^ 2 = (c * r ^ 2) * (3 * (4 * h) - c * r ^ 2) ^ 2 by ring]
  exact_mod_cast hint

theorem newton_mul_sq_lt (hh : 0 < h) (hq : c * r ^ 2 < 4 * h) : c * newton h c r ^ 2 < 4 * h := by
  have hsq := newton_sq_le (show c * r ^ 2 ≤ 12 * h by omega)
  have hcast : ((c * r ^ 2 : Nat) : Int) < (4 * h : Nat) := Int.ofNat_lt.2 hq
  push_cast at hcast
  have hbound := mul_sq_lt (u := 4 * h) (q := c * r ^ 2) hcast (by positivity)
  have hpos : (0 : Int) < (8 * h) ^ 2 := by positivity
  have hint : (c * newton h c r ^ 2 : Int) < 4 * h := by
    refine lt_of_mul_lt_mul_right ?_ hpos.le
    linarith [show (4 * (h : Int)) * (8 * h) ^ 2 = 4 * (4 * h) ^ 3 by ring,
      show (c * r ^ 2 : Int) * (12 * h - c * r ^ 2) ^ 2 = (c * r ^ 2) * (3 * (4 * h) - c * r ^ 2) ^ 2 by ring]
  exact_mod_cast hint

/-- From below the inverse root a step never goes back. -/
theorem le_newton (hh : 0 < h) (hq : c * r ^ 2 ≤ 4 * h) : r ≤ newton h c r := by
  have hhalf : 2 * h ≤ (12 * h - c * r ^ 2) / 4 := by omega
  rw [newton, Nat.le_div_iff_mul_le (by omega)]
  calc r * (2 * h) = 2 * h * r := Nat.mul_comm _ _
    _ ≤ (12 * h - c * r ^ 2) / 4 * r := Nat.mul_le_mul_right _ hhalf

theorem le_mul_sq {u s : Int} (hu : 18 ≤ u) (hs : 2 ≤ s) (hsu : s ≤ u) :
    2 * u ^ 3 ≤ (2 * u - s - 3) * (u + s) ^ 2 := by
  have hsq : s ^ 2 ≤ u * s := by nlinarith
  have hcube : s ^ 3 ≤ u ^ 2 * s := by nlinarith
  have hlinear : 18 * (u * (2 * s - 3)) ≤ u * (u * (2 * s - 3)) :=
    mul_le_mul_of_nonneg_right hu (mul_nonneg (by linarith) (by linarith))
  have hslope : 9 * (u * s) ≤ 18 * (u * (2 * s - 3)) := by nlinarith
  linarith [show (2 * u - s - 3) * (u + s) ^ 2 - 2 * u ^ 3 = u * (u * (2 * s - 3)) + u ^ 2 * s - 6 * (u * s) - s ^ 3 - 3 * s ^ 2 by ring]

/-- From above it, but less than `√2` times it, a step ends one unit below `1 / √2` of it at most. -/
theorem near_newton (hh : 5 ≤ h) (hlow : 4 * h ≤ c * r ^ 2) (hhigh : c * r ^ 2 + 5 ≤ 8 * h) :
    4 * h ≤ (newton h c r + 1) ^ 2 * (2 * c) := by
  have hover : (12 * h - c * r ^ 2) / 4 * r ≤ 2 * h * (newton h c r + 1) := (Nat.lt_mul_div_succ _ (by omega)).le
  have hquarter : 12 * h - c * r ^ 2 - 3 ≤ 4 * ((12 * h - c * r ^ 2) / 4) := by omega
  have hstep : (12 * h - c * r ^ 2 - 3) * r ≤ 8 * h * (newton h c r + 1) :=
    calc (12 * h - c * r ^ 2 - 3) * r ≤ 4 * ((12 * h - c * r ^ 2) / 4) * r := Nat.mul_le_mul_right _ hquarter
      _ = 4 * ((12 * h - c * r ^ 2) / 4 * r) := Nat.mul_assoc _ _ _
      _ ≤ 4 * (2 * h * (newton h c r + 1)) := Nat.mul_le_mul_left _ hover
      _ = 8 * h * (newton h c r + 1) := by ring
  have hsq : 2 * c * ((12 * h - c * r ^ 2 - 3) * r) ^ 2 ≤ 2 * c * (8 * h * (newton h c r + 1)) ^ 2 :=
    Nat.mul_le_mul_left _ (Nat.pow_le_pow_left hstep 2)
  have hint : (2 * c * ((12 * h - c * r ^ 2 - 3) * r) ^ 2 : Int) ≤ 2 * c * (8 * h * (newton h c r + 1)) ^ 2 := by
    have hcast := Int.ofNat_le.2 hsq
    push_cast [Nat.cast_sub (show c * r ^ 2 ≤ 12 * h by omega), Nat.cast_sub (show 3 ≤ 12 * h - c * r ^ 2 by omega)] at hcast
    exact hcast
  have hcastlow : ((4 * h : Nat) : Int) ≤ (c * r ^ 2 : Nat) := Int.ofNat_le.2 hlow
  have hcasthigh : ((c * r ^ 2 + 5 : Nat) : Int) ≤ (8 * h : Nat) := Int.ofNat_le.2 hhigh
  push_cast at hcastlow hcasthigh
  have hcube := le_mul_sq (u := 4 * h) (s := 8 * h - 3 - c * r ^ 2) (by omega) (by linarith) (by linarith)
  have hpos : (0 : Int) < (8 * h) ^ 2 := by positivity
  have hroot : (4 * h : Int) ≤ (newton h c r + 1) ^ 2 * (2 * c) := by
    refine le_of_mul_le_mul_right ?_ hpos
    linarith [show (4 * (h : Int)) * (8 * h) ^ 2 = 2 * (2 * (4 * h) ^ 3) by ring,
      show (2 * c * ((12 * h - c * r ^ 2 - 3) * r) ^ 2 : Int) =
        2 * ((2 * (4 * h) - (8 * h - 3 - c * r ^ 2) - 3) * (4 * h + (8 * h - 3 - c * r ^ 2)) ^ 2) by ring,
      show (2 * c * (8 * h * (newton h c r + 1)) ^ 2 : Int) = (newton h c r + 1) ^ 2 * (2 * c) * (8 * h) ^ 2 by ring]
  exact_mod_cast hroot

end Ns3Raft.Lib.InverseRoot
