import Mathlib.Data.Nat.Digits.Lemmas
import Mathlib.Tactic.Ring

/-! # Windows of binary numbers

The value of some consecutive bits of a number, in particular of a number that is stored in
words.
-/

/-- The value of the `len` bits from bit `lo` on. -/
def window (x lo len : Nat) : Nat := x / 2 ^ lo % 2 ^ len

namespace window

variable {x lo len a b w : Nat}

theorem lt (x lo len : Nat) : window x lo len < 2 ^ len := Nat.mod_lt _ (Nat.two_pow_pos len)

theorem add (x lo a b : Nat) : window x lo (a + b) = window x lo a + 2 ^ a * window x (lo + a) b := by
  rw [window, pow_add, Nat.mod_mul, Nat.div_div_eq_div_mul, ← pow_add]
  rfl

/-- A window is a part of the number, so its bits are the number's. -/
theorem window_of_le (h : a + b ≤ len) : window (window x lo len) a b = window x (lo + a) b := by
  obtain ⟨rest, rfl⟩ := Nat.exists_eq_add_of_le h
  have hpow : 2 ^ (a + b + rest) = 2 ^ a * 2 ^ (b + rest) := by rw [Nat.add_assoc, pow_add]
  rw [window, window, hpow, Nat.mod_mul_right_div_self, Nat.div_div_eq_div_mul, ← pow_add,
    Nat.mod_mod_of_dvd _ (pow_dvd_pow 2 (Nat.le_add_right b rest))]
  rfl

/-- Bits that are cut off above do not matter. -/
theorem mod_of_le (h : lo + len ≤ a) : window (x % 2 ^ a) lo len = window x lo len := by
  have hwhole : window (window x 0 a) lo len = window x (0 + lo) len := window_of_le h
  rw [Nat.zero_add] at hwhole
  rw [← hwhole]
  simp [window]

/-- A shift to the left in `w` bits and then to the right. -/
theorem shifts (h : len ≤ a) (ha : a ≤ w) : x * 2 ^ (w - a) % 2 ^ w / 2 ^ (w - len) = window x (a - len) len := by
  have hw : 2 ^ w = 2 ^ (w - a) * 2 ^ a := by rw [← pow_add]; congr 1; omega
  have hlen : 2 ^ (w - len) = 2 ^ (w - a) * 2 ^ (a - len) := by rw [← pow_add]; congr 1; omega
  have ha' : 2 ^ a = 2 ^ (a - len) * 2 ^ len := by rw [← pow_add]; congr 1; omega
  rw [hw, Nat.mul_comm x, Nat.mul_mod_mul_left, hlen, Nat.mul_div_mul_left _ _ (Nat.two_pow_pos _), ha',
    Nat.mod_mul_right_div_self]
  rfl

/-- The same where zeros come in from below. -/
theorem shifts_over (h : a ≤ len) (hlen : len ≤ w) : x * 2 ^ (w - a) % 2 ^ w / 2 ^ (w - len) = window x 0 a * 2 ^ (len - a) := by
  have hw : 2 ^ w = 2 ^ (w - a) * 2 ^ a := by rw [← pow_add]; congr 1; omega
  have ha : 2 ^ (w - a) = 2 ^ (w - len) * 2 ^ (len - a) := by rw [← pow_add]; congr 1; omega
  rw [hw, Nat.mul_comm x, Nat.mul_mod_mul_left, ha, Nat.mul_assoc, Nat.mul_div_cancel_left _ (Nat.two_pow_pos _),
    window, pow_zero, Nat.div_one, Nat.mul_comm]

/-- A number on top of some bits. -/
theorem mul_add (hx : x < 2 ^ a) (v : Nat) (hv : v < 2 ^ b) : window (v * 2 ^ a + x) a b = v := by
  rw [window, Nat.add_comm, Nat.add_mul_div_right _ _ (Nat.two_pow_pos a), Nat.div_eq_of_lt hx, Nat.zero_add,
    Nat.mod_eq_of_lt hv]

/-- The disjunction of disjoint bits is a sum. -/
theorem or_eq_add (hx : x < 2 ^ a) (v : Nat) : v * 2 ^ a ||| x = v * 2 ^ a + x := by
  rw [Nat.mul_comm, Nat.two_pow_add_eq_or_of_lt hx]

/-- A word is a window of the number that the words are the digits of. -/
theorem getElem_eq {ws : List Nat} (hws : ∀ word ∈ ws, word < 2 ^ w) (i : Nat) (hi : i < ws.length) :
    ws[i] = window (Nat.ofDigits (2 ^ w) ws) (w * i) w := by
  have hdrop := Nat.ofDigits_div_pow_eq_ofDigits_drop i (Nat.two_pow_pos w) ws hws
  rw [window, pow_mul, hdrop, List.drop_eq_getElem_cons hi, Nat.ofDigits_cons, Nat.add_mul_mod_self_left]
  exact (Nat.mod_eq_of_lt (hws _ (List.getElem_mem hi))).symm

end window
