import Mathlib.Data.Multiset.AddSub

/-! # Ledgers of open items

An item is opened, and closed at most once. The balance of a list of postings is
the multiset of the items still open; closing an item that is not open has none.
-/

namespace Ledger

variable {α : Type*} [DecidableEq α]

inductive Posting (α : Type*) where
  | opened (a : α)
  | closed (a : α)
  deriving DecidableEq

def post (m : Multiset α) : Posting α → Option (Multiset α)
  | .opened a => some (a ::ₘ m)
  | .closed a => if a ∈ m then some (m.erase a) else none

def balance (m : Multiset α) (ps : List (Posting α)) : Option (Multiset α) := ps.foldlM post m

@[simp] theorem balance_nil (m : Multiset α) : balance m [] = some m := rfl

theorem balance_cons (m : Multiset α) (p : Posting α) (ps : List (Posting α)) :
    balance m (p :: ps) = (post m p).bind (balance · ps) := by
  simp [balance, List.foldlM_cons, bind]

theorem balance_append (m : Multiset α) (ps qs : List (Posting α)) :
    balance m (ps ++ qs) = (balance m ps).bind (balance · qs) := by
  simp [balance, List.foldlM_append, bind]

theorem balance_opened (m : Multiset α) (a : α) : balance m [.opened a] = some (m + {a}) := by
  rw [balance_cons, Multiset.add_comm]
  rfl

theorem balance_closed {m : Multiset α} {a : α} (h : a ∈ m) :
    balance m [.closed a] = some (m.erase a) := by
  rw [balance_cons]
  simp [post, h]

/-- Everything that was open at the start or opened since is open or closed. -/
theorem count_balance {m m' : Multiset α} {ps : List (Posting α)} (h : balance m ps = some m')
    (a : α) : m.count a + ps.count (.opened a) = m'.count a + ps.count (.closed a) := by
  induction ps generalizing m with
  | nil =>
      obtain rfl : m = m' := by simpa using h
      simp
  | cons p ps ih =>
      rw [balance_cons] at h
      cases p with
      | opened b =>
          have hrest := ih (m := b ::ₘ m) h
          by_cases hab : a = b
          · subst hab
            simp only [Multiset.count_cons_self, List.count_cons_self] at *
            simp only [List.count_cons, beq_iff_eq, reduceCtorEq, ↓reduceIte] at *
            omega
          · simp only [Multiset.count_cons_of_ne hab] at hrest
            simp [Ne.symm hab, hrest]
      | closed b =>
          by_cases hb : b ∈ m
          · have hrest := ih (m := m.erase b) (by simpa [post, hb] using h)
            by_cases hab : a = b
            · subst hab
              have hpos := Multiset.count_pos.mpr hb
              rw [Multiset.count_erase_self] at hrest
              simp only [List.count_cons_self, List.count_cons, beq_iff_eq, reduceCtorEq,
                ↓reduceIte] at *
              omega
            · rw [Multiset.count_erase_of_ne hab] at hrest
              simp [Ne.symm hab, hrest]
          · simp [post, hb] at h

/-- No item is closed more often than it was opened. -/
theorem count_closed_le {m m' : Multiset α} {ps : List (Posting α)} (h : balance m ps = some m')
    (a : α) : ps.count (.closed a) ≤ m.count a + ps.count (.opened a) := by
  have := count_balance h a
  omega

end Ledger
