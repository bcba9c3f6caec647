import Mathlib.Data.List.Basic
import Mathlib.Data.List.Range

/-! # Memory, cell by cell

A memory gives every address a cell. A block of it is read into a list and written
from one; what is written outside a block does not show in it.
-/

namespace Memory

variable {β : Type*}

def read (m : Nat → β) (a n : Nat) : List β := (List.range' a n).map m

def write (m : Nat → β) (a : Nat) (bs : List β) : Nat → β :=
  fun x => if x < a then m x else (bs[x - a]?).getD (m x)

variable (m : Nat → β) {a c n k : Nat} {bs : List β}

@[simp] theorem read_length (a n : Nat) : (read m a n).length = n := by simp [read]

@[simp] theorem read_zero (a : Nat) : read m a 0 = [] := rfl

theorem read_succ (a n : Nat) : read m a (n + 1) = m a :: read m (a + 1) n := by
  simp [read, List.range'_succ]

theorem read_add (a n k : Nat) : read m a (n + k) = read m a n ++ read m (a + n) k := by
  induction n generalizing a with
  | zero => simp
  | succ n ih =>
      have hassoc : a + 1 + n = a + (n + 1) := by omega
      rw [Nat.succ_add, read_succ, ih, read_succ, hassoc, List.cons_append]

theorem read_take (h : k ≤ n) : (read m a n).take k = read m a k := by
  obtain ⟨d, rfl⟩ := Nat.exists_eq_add_of_le h
  rw [read_add, List.take_left' (read_length m a k)]

theorem read_drop (h : k ≤ n) : (read m a n).drop k = read m (a + k) (n - k) := by
  obtain ⟨d, rfl⟩ := Nat.exists_eq_add_of_le h
  rw [read_add, List.drop_left' (read_length m a k), Nat.add_sub_cancel_left]

theorem read_congr {m m' : Nat → β} (h : ∀ x, a ≤ x → x < a + n → m x = m' x) :
    read m a n = read m' a n := by
  apply List.map_congr_left
  intro x hx
  obtain ⟨hle, hlt⟩ := List.mem_range'_1.mp hx
  exact h x hle hlt

theorem write_of_outside {x : Nat} (h : x < a ∨ a + bs.length ≤ x) : write m a bs x = m x := by
  unfold write
  by_cases hx : x < a
  · exact if_pos hx
  · rw [if_neg hx, List.getElem?_eq_none (by omega), Option.getD_none]

theorem read_write_of_disjoint (h : c + n ≤ a ∨ a + bs.length ≤ c) :
    read (write m a bs) c n = read m c n := by
  apply read_congr
  intro x hle hlt
  exact write_of_outside m (by omega)

@[simp] theorem read_write_same : read (write m a bs) a bs.length = bs := by
  apply List.ext_getElem?
  intro i
  by_cases hi : i < bs.length
  · simp [read, write, hi]
  · rw [List.getElem?_eq_none (by simpa using hi), List.getElem?_eq_none (by simpa using hi)]

/-- A block after a write inside it. -/
theorem read_write_inside (hle : c ≤ a) (hfit : a + bs.length ≤ c + n) :
    read (write m a bs) c n =
      (read m c n).take (a - c) ++ bs ++ (read m c n).drop (a - c + bs.length) := by
  obtain ⟨d, rfl⟩ := Nat.exists_eq_add_of_le hle
  obtain ⟨r, rfl⟩ : ∃ r, n = d + bs.length + r := Nat.exists_eq_add_of_le (by omega)
  have hbefore : read (write m (c + d) bs) c d = read m c d :=
    read_write_of_disjoint m (by omega)
  have hafter : read (write m (c + d) bs) (c + (d + bs.length)) r = read m (c + (d + bs.length)) r :=
    read_write_of_disjoint m (by omega)
  rw [read_add, read_add, hbefore, read_write_same, hafter, Nat.add_sub_cancel_left,
    read_take m (by omega), read_drop m (by omega), Nat.add_sub_cancel_left]

end Memory
