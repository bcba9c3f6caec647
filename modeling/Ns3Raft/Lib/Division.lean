import Mathlib.Algebra.Order.Ring.Nat
import Mathlib.Tactic.Ring

/-! # Quotients

Two facts about quotients of natural numbers: an invariant of a division that develops its
digits in rounds, and division by a rounded reciprocal.
-/

namespace Division

variable {a b den rem res s z digits : Nat}

/-! ## Long division -/

/-- So many digits of `a / b` are there; `z` zeros at the end of `b` are left out of the
remainder. -/
def Partial (a b z digits res rem : Nat) : Prop := a * 2 ^ digits = res * b + rem * 2 ^ z

theorem Partial.shift (h : Partial a b z digits res rem) (s : Nat) :
    Partial a b z (digits + s) (res * 2 ^ s) (rem * 2 ^ s) := by
  unfold Partial at *
  rw [pow_add, ← mul_assoc, h]
  ring

/-- The digits of a quotient are added to the result. -/
theorem Partial.divide (h : Partial a b z digits res rem) (hb : b = den * 2 ^ z) :
    Partial a b z digits (res + rem / den) (rem % den) := by
  unfold Partial at *
  rw [h, hb]
  have hdiv := Nat.div_add_mod rem den
  calc res * (den * 2 ^ z) + rem * 2 ^ z
      = res * (den * 2 ^ z) + (den * (rem / den) + rem % den) * 2 ^ z := by rw [hdiv]
    _ = (res + rem / den) * (den * 2 ^ z) + rem % den * 2 ^ z := by ring

theorem Partial.quotient (h : Partial a b z digits res rem) (hrem : rem * 2 ^ z < b) : a * 2 ^ digits / b = res := by
  have hpos : 0 < b := Nat.lt_of_le_of_lt (Nat.zero_le _) hrem
  rw [h, Nat.add_comm, Nat.add_mul_div_right _ _ hpos, Nat.div_eq_of_lt hrem, Nat.zero_add]

/-- Nothing is left, so the digits to come are zero. -/
theorem Partial.quotient_zero (h : Partial a b z digits res 0) (hb : 0 < b) (s : Nat) :
    a * 2 ^ (digits + s) / b = res * 2 ^ s := by
  have hshift := h.shift s
  rw [Nat.zero_mul] at hshift
  exact hshift.quotient (by rw [Nat.zero_mul]; exact hb)

/-! ## Reciprocals -/

/-- `r` is `w / v`, rounded up. -/
def Reciprocal (w v r : Nat) : Prop := w ≤ v * r ∧ v * r < w + v

variable {w v r t : Nat}

theorem Reciprocal.pos (h : Reciprocal w v r) : 0 < v := by
  have hlt := Nat.lt_of_le_of_lt h.1 h.2
  omega

/-- The quotient by a number is the product with its reciprocal, while the error of rounding
stays below one part in `v`. -/
theorem Reciprocal.mul_div (h : Reciprocal w v r) (ht : t * v ≤ w) : t * r / w = t / v := by
  have hv := h.pos
  rcases Nat.eq_zero_or_pos t with rfl | htpos
  · simp
  have hw : 0 < w := Nat.lt_of_lt_of_le (Nat.mul_pos htpos hv) ht
  have hsplit := Nat.div_add_mod t v
  have hmod := Nat.mod_lt t hv
  apply Nat.div_eq_of_lt_le
  · -- `t / v * w ≤ t * r`
    refine Nat.le_of_mul_le_mul_left ?_ hv
    calc v * (t / v * w) = v * (t / v) * w := by ring
      _ ≤ t * w := Nat.mul_le_mul_right w (by omega)
      _ ≤ t * (v * r) := Nat.mul_le_mul_left t h.1
      _ = v * (t * r) := by ring
  · -- `t * r < (t / v + 1) * w`
    refine Nat.lt_of_mul_lt_mul_left (a := v) ?_
    calc v * (t * r) = t * (v * r) := by ring
      _ < t * (w + v) := Nat.mul_lt_mul_of_pos_left h.2 htpos
      _ = t * w + t * v := Nat.mul_add t w v
      _ ≤ t * w + w := Nat.add_le_add_left ht _
      _ = (t + 1) * w := by ring
      _ ≤ (v * (t / v) + v) * w := Nat.mul_le_mul_right w (by omega)
      _ = v * ((t / v + 1) * w) := by ring

/-- The quotient rounded down is the reciprocal when it comes out even, and else one less. -/
theorem reciprocal_of_div (hv : 0 < v) (h : v * (w / v) ≠ w) : Reciprocal w v (w / v + 1) := by
  have hsplit := Nat.div_add_mod w v
  have hmod := Nat.mod_lt w hv
  rw [Reciprocal, Nat.mul_add, Nat.mul_one]
  omega

theorem reciprocal_of_dvd (hv : 0 < v) (h : v * (w / v) = w) : Reciprocal w v (w / v) := by
  rw [Reciprocal]
  omega

end Division
