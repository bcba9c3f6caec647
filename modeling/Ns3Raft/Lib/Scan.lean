import Mathlib.Algebra.Order.Ring.Int
import Mathlib.Data.List.Induction
import Mathlib.Order.Defs.LinearOrder

/-! # The best item of a list

A scan keeps the item with the greatest key, and the later one of two that are level. It may
stop at an item than which there is no better one.
-/

namespace Scan

variable {α κ : Type*} [LinearOrder κ] (key : α → κ)

def better (b : Option α) (x : α) : Option α :=
  match b with
  | none => some x
  | some y => if key y ≤ key x then some x else some y

def best (xs : List α) : Option α := xs.foldl (better key) none

variable {key} {xs : List α} {x y : α}

@[simp] theorem best_nil : best key [] = none := rfl

theorem best_snoc (xs : List α) (x : α) : best key (xs ++ [x]) = better key (best key xs) x := by
  rw [best, List.foldl_append]
  rfl

theorem better_isSome (b : Option α) (x : α) : (better key b x).isSome = true := by
  cases b with
  | none => rfl
  | some y =>
      show (if key y ≤ key x then some x else some y).isSome = true
      split <;> rfl

theorem better_mem {b : Option α} (h : y ∈ better key b x) : y = x ∨ y ∈ b := by
  cases b with
  | none => exact .inl (Option.some.inj h).symm
  | some z =>
      change y ∈ (if key z ≤ key x then some x else some z) at h
      split at h
      · exact .inl (Option.some.inj h).symm
      · exact .inr h

theorem best_eq_none_iff : best key xs = none ↔ xs = [] := by
  induction xs using List.reverseRecOn with
  | nil => simp
  | append_singleton xs x ih =>
      refine iff_of_false (fun h => ?_) (by simp)
      rw [best_snoc] at h
      have hsome : (better key (best key xs) x).isSome := better_isSome (best key xs) x
      rw [h] at hsome
      cases hsome

/-- What is kept is one of the items, and none has a greater key. -/
theorem best_spec (h : best key xs = some y) : y ∈ xs ∧ ∀ x ∈ xs, key x ≤ key y := by
  induction xs using List.reverseRecOn generalizing y with
  | nil => cases h
  | append_singleton xs x ih =>
      rw [best_snoc] at h
      cases hb : best key xs with
      | none =>
          rw [hb] at h
          obtain rfl := Option.some.inj h
          obtain rfl := best_eq_none_iff.mp hb
          simp
      | some z =>
          obtain ⟨hmem, hmax⟩ := ih hb
          rw [hb] at h
          unfold better at h
          dsimp only at h
          by_cases hle : key z ≤ key x
          · rw [if_pos hle] at h
            obtain rfl := Option.some.inj h
            refine ⟨by simp, fun w hw => ?_⟩
            rcases List.mem_append.mp hw with hw | hw
            · exact le_trans (hmax w hw) hle
            · rw [List.mem_singleton.mp hw]
          · rw [if_neg hle] at h
            obtain rfl := Option.some.inj h
            refine ⟨List.mem_append_left _ hmem, fun w hw => ?_⟩
            rcases List.mem_append.mp hw with hw | hw
            · exact hmax w hw
            · rw [List.mem_singleton.mp hw]
              exact le_of_lt (not_le.mp hle)

/-- An item that is better than all before it is kept. -/
theorem best_snoc_of_le (h : ∀ z ∈ xs, key z ≤ key x) : best key (xs ++ [x]) = some x := by
  rw [best_snoc]
  cases hb : best key xs with
  | none => rfl
  | some z => exact if_pos (h z (best_spec hb).1)

/-! ## Stopping early -/

variable (top : α → Bool)

/-- The items up to the first that satisfies `top`. -/
def upTo : List α → List α
  | [] => []
  | x :: xs => if top x then [x] else x :: upTo xs

theorem upTo_of_none (h : xs.find? top = none) : upTo top xs = xs := by
  induction xs with
  | nil => rfl
  | cons x xs ih =>
      rw [List.find?_eq_none] at h
      rw [upTo, if_neg (h x List.mem_cons_self), ih (List.find?_eq_none.mpr fun y hy => h y (List.mem_cons_of_mem _ hy))]

theorem upTo_of_some (h : xs.find? top = some y) :
    ∃ before, upTo top xs = before ++ [y] ∧ ∀ z ∈ before, z ∈ xs ∧ top z = false := by
  induction xs with
  | nil => cases h
  | cons x xs ih =>
      rw [upTo]
      by_cases hx : top x = true
      · rw [List.find?_cons_of_pos hx] at h
        obtain rfl := Option.some.inj h
        exact ⟨[], if_pos hx, nofun⟩
      · rw [List.find?_cons_of_neg hx] at h
        obtain ⟨before, heq, hbefore⟩ := ih h
        refine ⟨x :: before, ?_, fun z hz => ?_⟩
        · rw [if_neg hx, heq]
          rfl
        · rcases List.mem_cons.mp hz with rfl | hz
          · exact ⟨List.mem_cons_self, Bool.not_eq_true _ ▸ hx⟩
          · exact ⟨List.mem_cons_of_mem _ (hbefore z hz).1, (hbefore z hz).2⟩

end Scan
