import Mathlib.Data.List.Basic

/-! # Records laid end to end

A data file of records one after another and an index file that holds where each
begins. Where a record ends is told by the next offset, or by the end of the
data for the last one.
-/

namespace Records

variable {β : Type*}

/-- Write over a file from a position on; what lies beyond stays. -/
def overwrite (f : List β) (pos : Nat) (xs : List β) : List β :=
  f.take pos ++ xs ++ f.drop (pos + xs.length)

/-- Read `n` items; `none` when the file ends before. -/
def readAt (f : List β) (pos n : Nat) : Option (List β) :=
  if pos + n ≤ f.length then some ((f.drop pos).take n) else none

def offsets (base : Nat) : List (List β) → List Nat
  | [] => []
  | r :: rs => base :: offsets (base + r.length) rs

@[simp] theorem offsets_length (base : Nat) (rs : List (List β)) :
    (offsets base rs).length = rs.length := by
  induction rs generalizing base with
  | nil => rfl
  | cons r rs ih => simp [offsets, ih]

theorem offsets_append (base : Nat) (rs ts : List (List β)) :
    offsets base (rs ++ ts) = offsets base rs ++ offsets (base + rs.flatten.length) ts := by
  induction rs generalizing base with
  | nil => simp [offsets]
  | cons r rs ih => simp [offsets, ih, Nat.add_assoc]

theorem offsets_take (base k : Nat) (rs : List (List β)) :
    (offsets base rs).take k = offsets base (rs.take k) := by
  induction rs generalizing base k with
  | nil => simp [offsets]
  | cons r rs ih =>
      cases k with
      | zero => rfl
      | succ k => simp [offsets, ih]

theorem offsets_drop (base k : Nat) (rs : List (List β)) :
    (offsets base rs).drop k = offsets (base + (rs.take k).flatten.length) (rs.drop k) := by
  induction rs generalizing base k with
  | nil => simp [offsets]
  | cons r rs ih =>
      cases k with
      | zero => simp
      | succ k => simp [offsets, ih, Nat.add_assoc]

theorem offsets_getElem? (base : Nat) (rs : List (List β)) {k : Nat} (hk : k < rs.length) :
    (offsets base rs)[k]? = some (base + (rs.take k).flatten.length) := by
  induction rs generalizing base k with
  | nil => simp at hk
  | cons r rs ih =>
      cases k with
      | zero => simp [offsets]
      | succ k => simp [offsets, ih _ (by simpa using hk), Nat.add_assoc]

theorem offsets_drop_cons {rs : List (List β)} {k : Nat} (hk : k < rs.length) :
    (offsets 0 rs).drop k = (rs.take k).flatten.length :: (offsets 0 rs).drop (k + 1) := by
  have hget := offsets_getElem? 0 rs hk
  rw [List.getElem?_eq_getElem (by simpa using hk), Option.some.injEq, Nat.zero_add] at hget
  rw [List.drop_eq_getElem_cons (by simpa using hk), hget]

/-- Moving all records moves every offset. -/
theorem offsets_map_add (base d : Nat) (rs : List (List β)) :
    (offsets base rs).map (· + d) = offsets (base + d) rs := by
  induction rs generalizing base with
  | nil => rfl
  | cons r rs ih =>
      simp only [offsets, List.map_cons, ih]
      congr 2
      omega

theorem offsets_map_sub (base d : Nat) (rs : List (List β)) (h : d ≤ base) :
    (offsets base rs).map (· - d) = offsets (base - d) rs := by
  have hadd := offsets_map_add (base - d) d rs
  rw [Nat.sub_add_cancel h] at hadd
  rw [← hadd, List.map_map]
  conv_rhs => rw [← List.map_id (offsets (base - d) rs)]
  refine List.map_congr_left fun v _ => ?_
  simp

theorem flatten_split (k : Nat) (rs : List (List β)) :
    rs.flatten = (rs.take k).flatten ++ (rs.drop k).flatten := by
  rw [← List.flatten_append, List.take_append_drop]

theorem flatten_take_length_le (k : Nat) (rs : List (List β)) :
    (rs.take k).flatten.length ≤ rs.flatten.length := by
  rw [flatten_split k rs, List.length_append]
  omega

theorem flatten_drop (k : Nat) (rs : List (List β)) :
    rs.flatten.drop (rs.take k).flatten.length = (rs.drop k).flatten := by
  rw [flatten_split k rs, List.drop_left]

theorem flatten_take (k : Nat) (rs : List (List β)) :
    rs.flatten.take (rs.take k).flatten.length = (rs.take k).flatten := by
  rw [flatten_split k rs, List.take_left]

/-- The bytes between an offset and the next one are the record. -/
theorem flatten_slice {rs : List (List β)} {k : Nat} (hk : k < rs.length) :
    (rs.flatten.drop (rs.take k).flatten.length).take rs[k].length = rs[k] := by
  rw [flatten_drop, List.drop_eq_getElem_cons hk, List.flatten_cons, List.take_left]

theorem flatten_take_succ {rs : List (List β)} {k : Nat} (hk : k < rs.length) :
    (rs.take (k + 1)).flatten.length = (rs.take k).flatten.length + rs[k].length := by
  rw [List.take_succ_eq_append_getElem hk, List.flatten_append, List.length_append,
    List.flatten_singleton]

theorem readAt_record {rs : List (List β)} {k : Nat} (hk : k < rs.length) :
    readAt rs.flatten (rs.take k).flatten.length rs[k].length = some rs[k] := by
  have hle := flatten_take_length_le (k + 1) rs
  rw [flatten_take_succ hk] at hle
  rw [readAt, if_pos hle, flatten_slice hk]

theorem overwrite_zero (f xs : List β) : overwrite f 0 xs = xs ++ f.drop xs.length := by
  rw [overwrite, List.take_zero, List.nil_append, Nat.zero_add]

theorem overwrite_of_length_le (f : List β) {pos : Nat} {xs : List β}
    (h : f.length ≤ pos + xs.length) : overwrite f pos xs = f.take pos ++ xs := by
  rw [overwrite, List.drop_eq_nil_of_le h, List.append_nil]

theorem take_overwrite (f : List β) {pos : Nat} (xs : List β) (h : pos ≤ f.length) :
    (overwrite f pos xs).take (pos + xs.length) = f.take pos ++ xs := by
  unfold overwrite
  rw [List.take_append_of_le_length (by simp [Nat.min_eq_left h])]
  rw [List.take_of_length_le (by simp [Nat.min_eq_left h])]

/-- The end of a file is moved to its start from a copy that may be longer, and the rest cut off. -/
theorem take_overwrite_copy (f y : List β) {n : Nat} (h : n ≤ f.length) :
    (overwrite f 0 ((f ++ y).drop n)).take (f.length - n) = f.drop n := by
  rw [overwrite_zero, List.drop_append_of_le_length h, List.append_assoc,
    ← List.length_drop, List.take_left]

theorem overwrite_length (f : List β) {pos : Nat} (xs : List β) (h : pos ≤ f.length) :
    (overwrite f pos xs).length = max f.length (pos + xs.length) := by
  simp only [overwrite, List.length_append, List.length_take, List.length_drop]
  omega

/-! ## Replacing the tail -/

/-- Bytes left over behind the last record belong to it. -/
def extendLast : List (List β) → List β → List (List β)
  | [], _ => []
  | [r], x => [r ++ x]
  | r :: r' :: rs, x => r :: extendLast (r' :: rs) x

@[simp] theorem extendLast_nil (rs : List (List β)) : extendLast rs [] = rs := by
  induction rs with
  | nil => rfl
  | cons r rs ih =>
      cases rs with
      | nil => simp [extendLast]
      | cons r' rs => simp [extendLast, ih]

@[simp] theorem extendLast_length (rs : List (List β)) (x : List β) :
    (extendLast rs x).length = rs.length := by
  induction rs with
  | nil => rfl
  | cons r rs ih =>
      cases rs with
      | nil => rfl
      | cons r' rs => simp [extendLast, ih]

theorem extendLast_flatten {rs : List (List β)} (h : rs ≠ []) (x : List β) :
    (extendLast rs x).flatten = rs.flatten ++ x := by
  induction rs with
  | nil => exact absurd rfl h
  | cons r rs ih =>
      cases rs with
      | nil => simp [extendLast]
      | cons r' rs => simp [extendLast, ih]

theorem offsets_extendLast (base : Nat) (rs : List (List β)) (x : List β) :
    offsets base (extendLast rs x) = offsets base rs := by
  induction rs generalizing base with
  | nil => rfl
  | cons r rs ih =>
      cases rs with
      | nil => rfl
      | cons r' rs => simp [extendLast, offsets, ih]

theorem forall_extendLast {P : List β → Prop} {rs : List (List β)} {x : List β}
    (hP : ∀ r, P r → P (r ++ x)) (h : ∀ r ∈ rs, P r) : ∀ r ∈ extendLast rs x, P r := by
  induction rs with
  | nil => simp [extendLast]
  | cons r rs ih =>
      cases rs with
      | nil => simpa [extendLast] using hP r (h r (by simp))
      | cons r' rs =>
          intro t ht
          rcases List.mem_cons.mp ht with rfl | ht
          · exact h t (by simp)
          · exact ih (fun u hu => h u (List.mem_cons_of_mem _ hu)) t ht

/-- What stays of the old data when the records from `k` on are replaced by
`new`: nothing if records are cut off, else all bytes beyond the new ones. -/
def leftover (rs : List (List β)) (k : Nat) (new : List (List β)) : List β :=
  if k + new.length < rs.length then [] else (rs.drop k).flatten.drop new.flatten.length

theorem leftover_eq_nil_iff (rs new : List (List β)) (k : Nat) :
    leftover rs k new = [] ↔ (rs.length ≤ k + new.length →
      rs.flatten.length ≤ (rs.take k).flatten.length + new.flatten.length) := by
  have hlen : rs.flatten.length = (rs.take k).flatten.length + (rs.drop k).flatten.length := by
    rw [← List.length_append, ← flatten_split]
  unfold leftover
  split
  · simp only [true_iff]
    intro h
    omega
  · rw [List.drop_eq_nil_iff]
    omega

theorem overwrite_offsets {rs new : List (List β)} {k : Nat}
    (h : rs.length ≤ k + new.length) :
    overwrite (offsets 0 rs) k (offsets (rs.take k).flatten.length new) =
      offsets 0 (rs.take k ++ new) := by
  rw [overwrite_of_length_le _ (by simpa using h), offsets_take, offsets_append, Nat.zero_add]

theorem overwrite_flatten {rs new : List (List β)} {k : Nat} (h : rs.length ≤ k + new.length)
    (hnew : new ≠ []) :
    overwrite rs.flatten (rs.take k).flatten.length new.flatten =
      (rs.take k ++ extendLast new (leftover rs k new)).flatten := by
  rw [overwrite, flatten_take, List.flatten_append, extendLast_flatten hnew, leftover,
    if_neg (by omega), ← List.drop_drop, flatten_drop, List.append_assoc]

end Records
