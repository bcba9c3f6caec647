import Mathlib.Data.List.Basic

/-! # Maps with keys in order

The bindings of a map, the least key first, and the maps whose keys follow one
another without a gap.
-/

namespace OrderedMap

variable {α : Type*}

def find (m : List (Nat × α)) (k : Nat) : Option α :=
  match m with
  | [] => none
  | (k', a) :: m => if k' = k then some a else find m k

/-- The binding of a key is made or replaced. -/
def insert (k : Nat) (a : α) : List (Nat × α) → List (Nat × α)
  | [] => [(k, a)]
  | (k', b) :: m =>
      if k' < k then (k', b) :: insert k a m
      else if k' = k then (k, a) :: m
      else (k, a) :: (k', b) :: m

def erase (m : List (Nat × α)) (k : Nat) : List (Nat × α) := m.filter fun b => b.1 ≠ k

/-- Everything from the lower bound of a key on is erased. -/
def eraseFrom (m : List (Nat × α)) (k : Nat) : List (Nat × α) := m.filter fun b => b.1 < k

/-- The first binding above a key. -/
def upperBound (m : List (Nat × α)) (k : Nat) : Option (Nat × α) := m.find? fun b => k < b.1

/-- The map of a list, from a key on. -/
def numbered (start : Nat) : List α → List (Nat × α)
  | [] => []
  | a :: as => (start, a) :: numbered (start + 1) as

@[simp] theorem numbered_length (start : Nat) (as : List α) :
    (numbered start as).length = as.length := by
  induction as generalizing start with
  | nil => rfl
  | cons a as ih => simp [numbered, ih]

theorem find_cons_of_ne {k k' : Nat} (h : k' ≠ k) (a : α) (m : List (Nat × α)) :
    find ((k', a) :: m) k = find m k := by
  rw [find, if_neg h]

theorem find_numbered {start k : Nat} (h : start ≤ k) (as : List α) :
    find (numbered start as) k = as[k - start]? := by
  induction as generalizing start with
  | nil => rfl
  | cons a as ih =>
      rcases Nat.eq_or_lt_of_le h with rfl | hlt
      · simp [numbered, find]
      · rw [numbered, find, if_neg (by omega), ih hlt]
        obtain ⟨d, hd⟩ : ∃ d, k - start = d + 1 := ⟨k - start - 1, by omega⟩
        rw [hd, List.getElem?_cons_succ]
        congr 1
        omega

theorem find_numbered_of_lt {start k : Nat} (h : k < start) (as : List α) :
    find (numbered start as) k = none := by
  induction as generalizing start with
  | nil => rfl
  | cons a as ih =>
      rw [numbered, find, if_neg (by omega)]
      exact ih (by omega)

theorem insert_cons_of_lt {k k' : Nat} (h : k' < k) (a b : α) (m : List (Nat × α)) :
    insert k a ((k', b) :: m) = (k', b) :: insert k a m := by
  rw [insert, if_pos h]

/-- A binding at or just behind the keys leaves no gap, and nothing else is touched. -/
theorem insert_numbered {start k : Nat} (a : α) (as : List α) (hs : start ≤ k)
    (hn : k ≤ start + as.length) : insert k a (numbered start as) =
      numbered start (as.take (k - start) ++ a :: as.drop (k - start + 1)) := by
  induction as generalizing start with
  | nil =>
      obtain rfl : k = start := by
        rw [List.length_nil] at hn
        omega
      simp [numbered, insert]
  | cons b as ih =>
      rw [List.length_cons] at hn
      rcases Nat.eq_or_lt_of_le hs with rfl | hlt
      · simp [numbered, insert]
      · obtain ⟨d, hd⟩ : ∃ d, k - start = d + 1 := ⟨k - start - 1, by omega⟩
        have hd' : k - (start + 1) = d := by omega
        rw [numbered, insert, if_pos hlt, ih hlt (by omega), hd, hd']
        rfl

theorem insert_numbered_end {start k : Nat} (a : α) (as : List α) (h : k = start + as.length) :
    insert k a (numbered start as) = numbered start (as ++ [a]) := by
  have hk : k - start = as.length := by omega
  rw [insert_numbered a as (by omega) (by omega), hk, List.take_length,
    List.drop_eq_nil_of_le (by omega)]

theorem eraseFrom_numbered_of_le {start k : Nat} (h : k ≤ start) (as : List α) :
    eraseFrom (numbered start as) k = [] := by
  induction as generalizing start with
  | nil => rfl
  | cons a as ih =>
      have hlt : ¬ start < k := by omega
      simpa [eraseFrom, numbered, hlt] using ih (show k ≤ start + 1 by omega)

theorem eraseFrom_numbered {start k : Nat} (as : List α) (hs : start ≤ k) :
    eraseFrom (numbered start as) k = numbered start (as.take (k - start)) := by
  induction as generalizing start with
  | nil => simp [eraseFrom, numbered]
  | cons a as ih =>
      rcases Nat.eq_or_lt_of_le hs with rfl | hlt
      · have hrest := eraseFrom_numbered_of_le (Nat.le_succ start) as
        simpa [eraseFrom, numbered] using hrest
      · obtain ⟨d, hd⟩ : ∃ d, k - start = d + 1 := ⟨k - start - 1, by omega⟩
        have hd' : k - (start + 1) = d := by omega
        have ih' := ih hlt
        rw [hd'] at ih'
        rw [hd, List.take_succ_cons, numbered, numbered, ← ih']
        simp [eraseFrom, hlt]

theorem erase_numbered_of_lt {start k : Nat} (h : k < start) (as : List α) :
    erase (numbered start as) k = numbered start as := by
  induction as generalizing start with
  | nil => rfl
  | cons a as ih =>
      have hne : start ≠ k := by omega
      have ih' := ih (show k < start + 1 by omega)
      unfold erase at ih' ⊢
      rw [numbered, List.filter_cons_of_pos (by simpa using hne), ih']

theorem erase_numbered (start : Nat) (as : List α) :
    erase (numbered start as) start = numbered (start + 1) as.tail := by
  cases as with
  | nil => rfl
  | cons a as =>
      have hrest := erase_numbered_of_lt (Nat.lt_succ_self start) as
      unfold erase at hrest ⊢
      rw [numbered, List.filter_cons_of_neg (by simp), hrest]
      rfl

/-- Erasing key after key from the front. -/
theorem foldl_erase_numbered (start n : Nat) (as : List α) :
    (List.range' start n).foldl erase (numbered start as) = numbered (start + n) (as.drop n) := by
  induction n generalizing start as with
  | zero => simp
  | succ n ih =>
      rw [List.range'_succ, List.foldl_cons, erase_numbered, ih, List.drop_tail]
      congr 1
      omega

theorem foldl_erase_cons {k : Nat} (a : α) (m : List (Nat × α)) (ks : List Nat)
    (h : ∀ k' ∈ ks, k' ≠ k) : ks.foldl erase ((k, a) :: m) = (k, a) :: ks.foldl erase m := by
  induction ks generalizing m with
  | nil => rfl
  | cons k' ks ih =>
      have hk : k ≠ k' := (h k' (by simp)).symm
      have hstep : erase ((k, a) :: m) k' = (k, a) :: erase m k' := by
        unfold erase
        rw [List.filter_cons_of_pos (by simpa using hk)]
      rw [List.foldl_cons, List.foldl_cons, hstep]
      exact ih _ fun k' hk' => h k' (List.mem_cons_of_mem _ hk')

end OrderedMap
