import Mathlib.Data.Nat.ModEq
import Mathlib.Tactic.Common

/-! # Circular lists

A list that is read from a head on, around its end.
-/

namespace Circular

variable {α : Type} {cells : List α} {head i d : Nat} {x : α}

/-- The cell at a distance from the head. -/
def slot (cells : List α) (head i : Nat) : Option α := cells[(head + i) % cells.length]?

theorem index_inj {n : Nat} (hi : i < n) (hd : d < n) (h : (head + i) % n = (head + d) % n) : i = d :=
  Nat.ModEq.eq_of_lt_of_lt (Nat.ModEq.add_left_cancel' head h) hi hd

theorem slot_set (hi : i < cells.length) (hd : d < cells.length) :
    slot (cells.set ((head + d) % cells.length) x) head i = if i = d then some x else slot cells head i := by
  have hpos : 0 < cells.length := Nat.lt_of_le_of_lt (Nat.zero_le i) hi
  rw [slot, List.length_set]
  split
  · rename_i heq
    rw [heq, List.getElem?_set_self (Nat.mod_lt _ hpos)]
  · rename_i hne
    exact List.getElem?_set_ne fun h => hne (index_inj hd hi h).symm

/-- The head moves on, and the cell it leaves comes last. -/
theorem slot_advance (hhead : head < cells.length) (hi : i < cells.length) :
    slot (cells.set head x) ((head + 1) % cells.length) i = if i + 1 < cells.length then slot cells head (i + 1) else some x := by
  have hindex : ((head + 1) % cells.length + i) % cells.length = (head + (i + 1)) % cells.length := by
    rw [Nat.mod_add_mod, Nat.add_assoc, Nat.add_comm 1]
  rw [slot, List.length_set, hindex]
  split
  · rename_i hlt
    have hne : head ≠ (head + (i + 1)) % cells.length := fun h => by
      have hindices : (head + 0) % cells.length = (head + (i + 1)) % cells.length := by
        rw [Nat.add_zero, Nat.mod_eq_of_lt hhead]
        exact h
      have hzero := index_inj (by omega) hlt hindices
      omega
    exact List.getElem?_set_ne hne
  · rename_i hge
    have hwrap : head + (i + 1) = head + cells.length := by omega
    rw [hwrap, Nat.add_mod_right, Nat.mod_eq_of_lt hhead, List.getElem?_set_self hhead]

theorem slot_replicate {n : Nat} (hn : 0 < n) (head i : Nat) : slot (List.replicate n x) head i = some x := by
  rw [slot, List.length_replicate, List.getElem?_replicate, if_pos (Nat.mod_lt _ hn)]

end Circular
