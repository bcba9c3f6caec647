import Mathlib.Data.Finset.Card
import Mathlib.Data.List.Sort

/-! # Majorities of a finite set

Two majorities of one set meet, and so do majorities of two sets that differ by
at most one element. The element in the middle of a sorted list of values is
reached by a majority of them.
-/

namespace Majority

variable {α : Type*}

/-- In a sorted list, a property that is passed on upwards holds at a position exactly
if it holds of as many elements as there are from that position on. -/
theorem getElem_iff_le_countP {R : α → α → Prop} {p : α → Bool} {xs : List α}
    (hs : xs.Pairwise R) (hp : ∀ a b, R a b → p a → p b) {k : Nat} (hk : k < xs.length) :
    p xs[k] ↔ xs.length - k ≤ xs.countP p := by
  constructor
  · intro h
    have hall : ∀ a ∈ xs.drop k, p a := by
      rw [List.drop_eq_getElem_cons hk]
      intro a ha
      rcases List.mem_cons.mp ha with rfl | ha
      · exact h
      · have hpair := hs.drop (i := k)
        rw [List.drop_eq_getElem_cons hk, List.pairwise_cons] at hpair
        exact hp _ _ (hpair.1 a ha) h
    have hcount : (xs.drop k).countP p = xs.length - k := by
      rw [List.countP_eq_length.mpr hall, List.length_drop]
    rw [← hcount]
    exact (List.drop_sublist k xs).countP_le
  · intro h
    by_contra hno
    have hnone : ∀ a ∈ xs.take (k + 1), ¬ p a := by
      intro a ha hpa
      obtain ⟨i, hi, rfl⟩ := List.getElem_of_mem ha
      rw [List.length_take] at hi
      rw [List.getElem_take] at hpa
      rcases Nat.eq_or_lt_of_le (show i ≤ k by omega) with rfl | hlt
      · exact hno hpa
      · exact hno (hp _ _ (List.pairwise_iff_getElem.mp hs i k (by omega) hk hlt) hpa)
    have hzero : (xs.take (k + 1)).countP p = 0 := List.countP_eq_zero.mpr hnone
    have hsplit : xs.countP p = (xs.take (k + 1)).countP p + (xs.drop (k + 1)).countP p := by
      rw [← List.countP_append, List.take_append_drop]
    have hrest : (xs.drop (k + 1)).countP p ≤ xs.length - (k + 1) := by
      rw [← List.length_drop]
      exact List.countP_le_length
    omega

def IsMajority (U Q : Finset α) : Prop := Q ⊆ U ∧ U.card < 2 * Q.card

theorem IsMajority.nonempty {U Q : Finset α} (h : IsMajority U Q) : Q.Nonempty := by
  rw [← Finset.card_pos]
  have := h.2
  omega

variable [DecidableEq α]

theorem IsMajority.meet {U Q R : Finset α} (hq : IsMajority U Q) (hr : IsMajority U R) :
    ∃ a, a ∈ Q ∧ a ∈ R := by
  have hcard : U.card < Q.card + R.card := by
    have := hq.2
    have := hr.2
    omega
  obtain ⟨a, ha⟩ := Finset.inter_nonempty_of_card_lt_card_add_card hq.1 hr.1 hcard
  exact ⟨a, Finset.mem_inter.mp ha⟩

/-- The voters of one set are those of the other, with one more or one less. -/
def Adjacent (U V : Finset α) : Prop := (U \ V).card + (V \ U).card ≤ 1

theorem Adjacent.refl (U : Finset α) : Adjacent U U := by simp [Adjacent]

theorem Adjacent.symm {U V : Finset α} (h : Adjacent U V) : Adjacent V U := by
  unfold Adjacent at *
  omega

theorem Adjacent.meet {U V Q R : Finset α} (h : Adjacent U V) (hq : IsMajority U Q)
    (hr : IsMajority V R) : ∃ a, a ∈ Q ∧ a ∈ R := by
  have hU : (U ∪ V).card = U.card + (V \ U).card := by
    rw [← Finset.union_sdiff_self_eq_union, Finset.card_union_of_disjoint Finset.disjoint_sdiff]
  have hV : (V ∪ U).card = V.card + (U \ V).card := by
    rw [← Finset.union_sdiff_self_eq_union, Finset.card_union_of_disjoint Finset.disjoint_sdiff]
  rw [Finset.union_comm] at hV
  have hcard : (U ∪ V).card < Q.card + R.card := by
    have := hq.2
    have := hr.2
    unfold Adjacent at h
    omega
  obtain ⟨a, ha⟩ := Finset.inter_nonempty_of_card_lt_card_add_card
    (hq.1.trans Finset.subset_union_left) (hr.1.trans Finset.subset_union_right) hcard
  exact ⟨a, Finset.mem_inter.mp ha⟩

end Majority
