import Mathlib.Data.List.Basic

/-! # Ranges of a list

Reading and writing a range of a list, as memory is read and written.
-/

namespace Slices

variable {α : Type*}

def slice (xs : List α) (off len : Nat) : List α := (xs.drop off).take len

def overwrite (xs : List α) (off : Nat) (vs : List α) : List α :=
  xs.take off ++ vs ++ xs.drop (off + vs.length)

variable {xs vs : List α} {off len k : Nat}

theorem getElem?_slice : (slice xs off len)[k]? = if k < len then xs[off + k]? else none := by
  rw [slice, List.getElem?_take]
  split
  · rw [List.getElem?_drop]
  · rfl

theorem length_slice (h : off + len ≤ xs.length) : (slice xs off len).length = len := by
  rw [slice, List.length_take, List.length_drop]
  omega

theorem slice_congr {ys : List α} (h : ∀ k, off ≤ k → k < off + len → xs[k]? = ys[k]?) :
    slice xs off len = slice ys off len := by
  apply List.ext_getElem?
  intro k
  rw [getElem?_slice, getElem?_slice]
  split
  · exact h (off + k) (Nat.le_add_right off k) (by omega)
  · rfl

theorem slice_zero : slice xs off 0 = [] := List.take_zero

/-- Two ranges side by side. -/
theorem slice_append (m n : Nat) : slice xs off (m + n) = slice xs off m ++ slice xs (off + m) n := by
  rw [slice, List.take_add, List.drop_drop]
  rfl

theorem slice_slice {off' len' : Nat} (h : off' + len' ≤ len) :
    slice (slice xs off len) off' len' = slice xs (off + off') len' := by
  apply List.ext_getElem?
  intro k
  rw [getElem?_slice, getElem?_slice, getElem?_slice]
  by_cases hk : k < len'
  · rw [if_pos hk, if_pos (by omega), if_pos hk, Nat.add_assoc]
  · rw [if_neg hk, if_neg hk]

theorem drop_slice (n : Nat) : (slice xs off len).drop n = slice xs (off + n) (len - n) := by
  rw [slice, slice, List.drop_take, List.drop_drop]

theorem take_slice (n : Nat) : (slice xs off len).take n = slice xs off (min n len) := by
  rw [slice, slice, List.take_take]

theorem length_overwrite (h : off + vs.length ≤ xs.length) : (overwrite xs off vs).length = xs.length := by
  simp only [overwrite, List.length_append, List.length_take, List.length_drop]
  omega

theorem overwrite_nil : overwrite xs off [] = xs := by simp [overwrite]

theorem getElem?_overwrite (h : off + vs.length ≤ xs.length) :
    (overwrite xs off vs)[k]? =
      if off ≤ k ∧ k < off + vs.length then vs[k - off]? else xs[k]? := by
  have htake : (xs.take off).length = off := by
    rw [List.length_take]
    omega
  rw [overwrite, List.append_assoc]
  rcases Nat.lt_or_ge k off with hk | hk
  · rw [List.getElem?_append_left (by omega), List.getElem?_take_of_lt hk, if_neg (by omega)]
  · rw [List.getElem?_append_right (by omega), htake]
    rcases Nat.lt_or_ge (k - off) vs.length with hv | hv
    · rw [List.getElem?_append_left hv, if_pos ⟨hk, by omega⟩]
    · rw [List.getElem?_append_right hv, List.getElem?_drop, if_neg (by omega)]
      congr 1
      omega

/-- What is written is read. -/
theorem slice_overwrite_self (h : off + vs.length ≤ xs.length) :
    slice (overwrite xs off vs) off vs.length = vs := by
  apply List.ext_getElem?
  intro k
  rw [getElem?_slice, getElem?_overwrite h]
  by_cases hk : k < vs.length
  · rw [if_pos hk, if_pos ⟨by omega, by omega⟩, Nat.add_sub_cancel_left]
  · rw [if_neg hk, List.getElem?_eq_none (by omega)]

/-- A part of what is written. -/
theorem slice_overwrite_part {off' : Nat} (h : off + vs.length ≤ xs.length) (hle : off ≤ off')
    (hge : off' + len ≤ off + vs.length) :
    slice (overwrite xs off vs) off' len = slice vs (off' - off) len := by
  apply List.ext_getElem?
  intro k
  rw [getElem?_slice, getElem?_slice, getElem?_overwrite h]
  by_cases hk : k < len
  · rw [if_pos hk, if_pos ⟨by omega, by omega⟩, if_pos hk]
    congr 1
    omega
  · rw [if_neg hk, if_neg hk]

/-- A range beside the written one is as it was. -/
theorem slice_overwrite_of_disjoint {off' : Nat} (h : off + vs.length ≤ xs.length)
    (hd : off' + len ≤ off ∨ off + vs.length ≤ off') :
    slice (overwrite xs off vs) off' len = slice xs off' len :=
  slice_congr fun k hk hk' => by rw [getElem?_overwrite h, if_neg (by omega)]

/-- A range around the written one. -/
theorem slice_overwrite_inside {off' : Nat} (h : off' + len ≤ xs.length) (hle : off' ≤ off)
    (hge : off + vs.length ≤ off' + len) :
    slice (overwrite xs off vs) off' len = overwrite (slice xs off' len) (off - off') vs := by
  have hin : off - off' + vs.length ≤ (slice xs off' len).length := by
    rw [length_slice h]
    omega
  apply List.ext_getElem?
  intro k
  rw [getElem?_slice, getElem?_overwrite (by omega), getElem?_overwrite hin, getElem?_slice]
  by_cases hk : k < len
  · rw [if_pos hk, if_pos hk]
    by_cases hv : off ≤ off' + k ∧ off' + k < off + vs.length
    · rw [if_pos hv, if_pos (by omega)]
      congr 1
      omega
    · rw [if_neg hv, if_neg (by omega)]
  · rw [if_neg hk, if_neg hk, if_neg (by omega)]

/-- Two writes side by side. -/
theorem overwrite_overwrite {us : List α} (h : off + us.length + vs.length ≤ xs.length) :
    overwrite (overwrite xs off us) (off + us.length) vs = overwrite xs off (us ++ vs) := by
  have hus : (overwrite xs off us).length = xs.length := length_overwrite (by omega)
  have hlen : (us ++ vs).length = us.length + vs.length := List.length_append
  apply List.ext_getElem?
  intro k
  rw [getElem?_overwrite (by omega), getElem?_overwrite (by omega), getElem?_overwrite (by omega), hlen]
  rcases Nat.lt_or_ge k (off + us.length) with hk | hk
  · rw [if_neg (by omega)]
    by_cases hoff : off ≤ k
    · rw [if_pos ⟨hoff, hk⟩, if_pos (by omega), List.getElem?_append_left (by omega)]
    · rw [if_neg (by omega), if_neg (by omega)]
  · rw [if_neg (show ¬(off ≤ k ∧ k < off + us.length) by omega)]
    by_cases hv : k < off + us.length + vs.length
    · rw [if_pos ⟨hk, hv⟩, if_pos (by omega), List.getElem?_append_right (by omega)]
      congr 1
      omega
    · rw [if_neg (by omega), if_neg (by omega)]

theorem overwrite_append_left {ys : List α} (h : off + vs.length ≤ xs.length) :
    overwrite (xs ++ ys) off vs = overwrite xs off vs ++ ys := by
  simp only [overwrite]
  rw [List.take_append_of_le_length (by omega), List.drop_append_of_le_length (by omega)]
  simp

theorem overwrite_append_right {ys : List α} (h : xs.length ≤ off) :
    overwrite (xs ++ ys) off vs = xs ++ overwrite ys (off - xs.length) vs := by
  simp only [overwrite]
  rw [List.take_append, List.take_of_length_le h, List.drop_append, List.drop_of_length_le (by omega)]
  have hsum : off + vs.length - xs.length = off - xs.length + vs.length := by omega
  rw [hsum]
  simp

end Slices
