import Mathlib.Data.Nat.ModEq
import Mathlib.Data.Nat.Prime.Basic

/-! # One's complement sums

The carries out of a word are added at its low end. The sum keeps its remainder modulo the largest
word, and no power of two is a multiple of that, so no single bit can be wrong unseen.
-/

namespace OnesComplement

variable {w n m k : Nat}

/-- The carries out of `w` bits are added until there are none. -/
def fold (w n : Nat) : Nat :=
  if n < 2 ^ w ∨ w = 0 then n else fold w (n % 2 ^ w + n / 2 ^ w)
termination_by n
decreasing_by
  rename_i h
  have hpos := Nat.two_pow_pos w
  have hone : 1 < 2 ^ w := Nat.one_lt_two_pow fun hw => h (.inr hw)
  have hquot : 0 < n / 2 ^ w := Nat.div_pos (Nat.le_of_not_lt fun hlt => h (.inl hlt)) hpos
  have hsplit := Nat.div_add_mod n (2 ^ w)
  have hmore : n / 2 ^ w < 2 ^ w * (n / 2 ^ w) := (Nat.lt_mul_iff_one_lt_left hquot).2 hone
  omega

theorem fold_of_lt (h : n < 2 ^ w) : fold w n = n := by
  rw [fold, if_pos (.inl h)]

theorem fold_of_le (hw : w ≠ 0) (h : 2 ^ w ≤ n) : fold w n = fold w (n % 2 ^ w + n / 2 ^ w) := by
  rw [fold, if_neg (by simp only [not_or, not_lt]; exact ⟨h, hw⟩)]

theorem two_pow_modEq_one (w : Nat) : 2 ^ w ≡ 1 [MOD 2 ^ w - 1] := by
  have hsplit : 2 ^ w = 1 + (2 ^ w - 1) := (Nat.add_sub_cancel' (Nat.one_le_two_pow)).symm
  calc 2 ^ w = 1 + (2 ^ w - 1) := hsplit
    _ ≡ 1 [MOD 2 ^ w - 1] := Nat.add_modEq_right

theorem carry_modEq (w n : Nat) : n % 2 ^ w + n / 2 ^ w ≡ n [MOD 2 ^ w - 1] :=
  calc n % 2 ^ w + n / 2 ^ w = n % 2 ^ w + 1 * (n / 2 ^ w) := by rw [Nat.one_mul]
    _ ≡ n % 2 ^ w + 2 ^ w * (n / 2 ^ w) [MOD 2 ^ w - 1] := ((two_pow_modEq_one w).symm.mul_right _).add_left _
    _ = n := Nat.mod_add_div n (2 ^ w)

theorem fold_modEq (w n : Nat) : fold w n ≡ n [MOD 2 ^ w - 1] := by
  induction n using fold.induct w with
  | case1 n h =>
    rw [fold, if_pos h]
  | case2 n h ih =>
    rw [fold, if_neg h]
    exact ih.trans (carry_modEq w n)

theorem fold_lt (hw : w ≠ 0) (n : Nat) : fold w n < 2 ^ w := by
  induction n using fold.induct w with
  | case1 n h =>
    rw [fold, if_pos h]
    exact h.resolve_right hw
  | case2 n h ih =>
    rw [fold, if_neg h]
    exact ih

theorem fold_pos (h : 0 < n) : 0 < fold w n := by
  induction n using fold.induct w with
  | case1 n hdone =>
    rw [fold, if_pos hdone]
    exact h
  | case2 n hmore ih =>
    rw [fold, if_neg hmore]
    refine ih ?_
    have hquot := Nat.div_pos (Nat.le_of_not_lt fun hlt => hmore (.inl hlt)) (Nat.two_pow_pos w)
    omega

/-- The largest word stands for zero, of every sum but the empty one. -/
theorem fold_eq_max_iff (hw : 1 < w) : fold w n = 2 ^ w - 1 ↔ 0 < n ∧ 2 ^ w - 1 ∣ n := by
  have hmod := fold_modEq w n
  have hmax : 0 < 2 ^ w - 1 := by
    have hone := Nat.one_lt_two_pow (show w ≠ 0 by omega)
    omega
  constructor
  · intro heq
    rw [heq] at hmod
    refine ⟨Nat.pos_of_ne_zero fun hzero => ?_, (hmod.dvd_iff (Nat.dvd_refl _)).1 (Nat.dvd_refl _)⟩
    rw [hzero, fold_of_lt (Nat.two_pow_pos w)] at heq
    omega
  · rintro ⟨hpos, hdvd⟩
    have hlt := fold_lt (show w ≠ 0 by omega) n
    have hle := Nat.le_of_dvd (fold_pos hpos) ((hmod.dvd_iff (Nat.dvd_refl _)).2 hdvd)
    omega

/-! ## A single bit -/

theorem not_dvd_two_pow (hw : 1 < w) (k : Nat) : ¬ 2 ^ w - 1 ∣ 2 ^ k := by
  intro hdvd
  obtain ⟨j, -, hj⟩ := (Nat.dvd_prime_pow Nat.prime_two).1 hdvd
  have hfour : 2 ^ 2 ≤ 2 ^ w := Nat.pow_le_pow_right (by decide) hw
  obtain ⟨v, rfl⟩ := Nat.exists_eq_add_of_lt hw
  rw [Nat.pow_succ] at hj hfour
  cases j with
  | zero => omega
  | succ j =>
    rw [Nat.pow_succ] at hj
    omega

/-- Where one of two sums is a multiple of the largest word, a bit apart from it is none. -/
theorem not_dvd_of_bit (hw : 1 < w) (hdvd : 2 ^ w - 1 ∣ n) (hbit : m = n + 2 ^ k ∨ m + 2 ^ k = n) : ¬ 2 ^ w - 1 ∣ m := by
  intro hm
  refine not_dvd_two_pow hw k ?_
  rcases hbit with rfl | rfl
  · exact (Nat.dvd_add_right hdvd).1 hm
  · exact (Nat.dvd_add_right hm).1 hdvd

theorem xor_one (n : Nat) : n ^^^ 1 = n + 1 ∧ n % 2 = 0 ∨ (n ^^^ 1) + 1 = n ∧ n % 2 = 1 := by
  have hdiv : (n ^^^ 1) / 2 = n / 2 ^^^ 0 := Nat.xor_div_two_pow (a := n) (b := 1) (n := 1)
  have hmod : (n ^^^ 1) % 2 = n % 2 ^^^ 1 := Nat.xor_mod_two_pow (a := n) (b := 1) (n := 1)
  rw [Nat.xor_zero] at hdiv
  rcases Nat.mod_two_eq_zero_or_one n with heven | hodd
  · rw [heven, Nat.zero_xor] at hmod
    exact .inl ⟨by omega, heven⟩
  · rw [hodd, Nat.xor_self] at hmod
    exact .inr ⟨by omega, hodd⟩

/-- A flipped bit is added, or taken away. -/
theorem xor_two_pow (n k : Nat) : n ^^^ 2 ^ k = n + 2 ^ k ∨ (n ^^^ 2 ^ k) + 2 ^ k = n := by
  have hpos := Nat.two_pow_pos k
  have hdiv := Nat.xor_div_two_pow (a := n) (b := 2 ^ k) (n := k)
  have hmod := Nat.xor_mod_two_pow (a := n) (b := 2 ^ k) (n := k)
  rw [Nat.div_self hpos] at hdiv
  rw [Nat.mod_self, Nat.xor_zero] at hmod
  have hn := Nat.div_add_mod n (2 ^ k)
  have hx := Nat.div_add_mod (n ^^^ 2 ^ k) (2 ^ k)
  rw [hdiv, hmod] at hx
  rcases xor_one (n / 2 ^ k) with ⟨hone, -⟩ | ⟨hone, -⟩
  · rw [hone, Nat.mul_succ] at hx
    exact .inl (by omega)
  · rw [← hone, Nat.mul_succ] at hn
    exact .inr (by omega)

end OnesComplement
