import Mathlib.Algebra.Order.Ring.Int
import Mathlib.Logic.Equiv.Basic
import Mathlib.Order.Basic

/-! # Binary heaps

The keys of the slots 1, …, `n - 1` of an array, slot `i / 2` being the parent
of slot `i`. A new leaf rises to its place and a replaced slot sinks to its own,
by exchanges of a slot and its parent.
-/

namespace Heap

variable {κ : Type*} [LinearOrder κ] {f : Nat → κ} {n i c : Nat}

/-- No slot is below its parent. -/
def Ordered (f : Nat → κ) (n : Nat) : Prop := ∀ j, 1 < j → j < n → f (j / 2) ≤ f j

/-- In order but for slot `i` and its parent. -/
structure Rising (f : Nat → κ) (n i : Nat) : Prop where
  rest : ∀ j, 1 < j → j < n → j ≠ i → f (j / 2) ≤ f j
  past : ∀ j, 1 < i → j / 2 = i → j < n → f (i / 2) ≤ f j

/-- In order but for slot `i` and its children. -/
structure Sinking (f : Nat → κ) (n i : Nat) : Prop where
  rest : ∀ j, 1 < j → j < n → j / 2 ≠ i → f (j / 2) ≤ f j
  past : ∀ j, 1 < i → j / 2 = i → j < n → f (i / 2) ≤ f j

instance (f : Nat → κ) (n : Nat) : Decidable (Ordered f n) :=
  decidable_of_iff (∀ j < n, 1 < j → f (j / 2) ≤ f j)
    ⟨fun h j h1 hn => h j hn h1, fun h j hn h1 => h j h1 hn⟩

theorem Ordered.root_le (h : Ordered f n) : ∀ j, 0 < j → j < n → f 1 ≤ f j := by
  intro j
  induction j using Nat.strongRecOn with
  | ind j ih =>
      intro h0 hn
      rcases Nat.lt_or_ge 1 j with h1 | h1
      · exact (ih (j / 2) (by omega) (by omega) (by omega)).trans (h j h1 hn)
      · rw [show j = 1 by omega]

theorem Ordered.mono {m : Nat} (h : Ordered f n) (hm : m ≤ n) : Ordered f m :=
  fun j h1 hj => h j h1 (Nat.lt_of_lt_of_le hj hm)

theorem Ordered.congr {g : Nat → κ} (h : Ordered f n) (hg : ∀ j, j < n → g j = f j) :
    Ordered g n := by
  intro j h1 hj
  rw [hg j hj, hg (j / 2) (by omega)]
  exact h j h1 hj

/-! ## Rising -/

theorem Ordered.rising (h : Ordered f n) : Rising f (n + 1) n where
  rest := fun j h1 hj hne => h j h1 (by omega)
  past := fun j h1 hj hn => by omega

theorem Rising.congr {g : Nat → κ} (h : Rising f n i) (hi : i < n)
    (hg : ∀ j, j < n → g j = f j) : Rising g n i where
  rest := fun j h1 hj hne => by
    rw [hg j hj, hg (j / 2) (by omega)]
    exact h.rest j h1 hj hne
  past := fun j h1 hj hn => by
    rw [hg j hn, hg (i / 2) (by omega)]
    exact h.past j h1 hj hn

theorem Rising.done (h : Rising f n i) (hi : i ≤ 1 ∨ f (i / 2) ≤ f i) : Ordered f n := by
  intro j h1 hj
  by_cases hji : j = i
  · subst hji
    rcases hi with hi | hi
    · omega
    · exact hi
  · exact h.rest j h1 hj hji

theorem Rising.exchange (h : Rising f n i) (h1 : 1 < i) (hn : i < n) (hlt : f i ≤ f (i / 2)) :
    Rising (f ∘ Equiv.swap i (i / 2)) n (i / 2) := by
  have hpar : i / 2 ≠ i := by omega
  constructor
  · intro j hj1 hjn hne
    by_cases hji : j = i
    · subst hji
      simpa using hlt
    have hj : Equiv.swap i (i / 2) j = j := Equiv.swap_apply_of_ne_of_ne hji hne
    simp only [Function.comp_apply, hj]
    by_cases hc : j / 2 = i
    · rw [hc, Equiv.swap_apply_left]
      exact h.past j h1 hc hjn
    by_cases hs : j / 2 = i / 2
    · -- the other child of the parent
      rw [hs, Equiv.swap_apply_right]
      exact hlt.trans (hs ▸ h.rest j hj1 hjn hji)
    · rw [Equiv.swap_apply_of_ne_of_ne hc hs]
      exact h.rest j hj1 hjn hji
  · intro j hk1 hj hjn
    have hgp : f (i / 2 / 2) ≤ f (i / 2) := h.rest (i / 2) hk1 (by omega) hpar
    have htop : Equiv.swap i (i / 2) (i / 2 / 2) = i / 2 / 2 :=
      Equiv.swap_apply_of_ne_of_ne (by omega) (by omega)
    simp only [Function.comp_apply, htop]
    by_cases hji : j = i
    · rw [hji, Equiv.swap_apply_left]
      exact hgp
    · rw [Equiv.swap_apply_of_ne_of_ne hji (by omega)]
      exact hgp.trans (hj ▸ h.rest j (by omega) hjn hji)

/-! ## Sinking -/

theorem Sinking.done (h : Sinking f n i) (hi : ∀ j, 1 < j → j / 2 = i → j < n → f i ≤ f j) :
    Ordered f n := by
  intro j h1 hj
  by_cases hji : j / 2 = i
  · rw [hji]
    exact hi j h1 hji hj
  · exact h.rest j h1 hj hji

theorem Sinking.exchange (h : Sinking f n i) (hc : c / 2 = i) (hc1 : 1 < c) (hcn : c < n)
    (hle : f c ≤ f i) (hleast : ∀ j, 1 < j → j / 2 = i → j < n → f c ≤ f j) :
    Sinking (f ∘ Equiv.swap i c) n c := by
  have hne : c ≠ i := by omega
  constructor
  · intro j hj1 hjn hjc
    by_cases hji : j / 2 = i
    · rw [Function.comp_apply, Function.comp_apply, hji, Equiv.swap_apply_left]
      by_cases hjc' : j = c
      · rw [hjc', Equiv.swap_apply_right]
        exact hle
      · rw [Equiv.swap_apply_of_ne_of_ne (by omega) hjc']
        exact hleast j hj1 hji hjn
    have hp : Equiv.swap i c (j / 2) = j / 2 := Equiv.swap_apply_of_ne_of_ne hji hjc
    simp only [Function.comp_apply, hp]
    by_cases hj : j = i
    · subst hj
      rw [Equiv.swap_apply_left]
      exact h.past c hj1 hc hcn
    · rw [Equiv.swap_apply_of_ne_of_ne hj (fun hjc' => hji (hjc' ▸ hc))]
      exact h.rest j hj1 hjn hji
  · intro j _ hj hjn
    rw [Function.comp_apply, Function.comp_apply, hc, Equiv.swap_apply_left,
      Equiv.swap_apply_of_ne_of_ne (by omega) (by omega), ← hj]
    exact h.rest j (by omega) hjn (by omega)

/-! ## The last leaf in the place of slot `i` -/

/-- The last leaf fits under the parent of the slot that it is moved to. -/
theorem Ordered.replace (h : Ordered f (n + 1)) (hi : i < n)
    (hfit : i ≤ 1 ∨ f (i / 2) ≤ f n) : Sinking (f ∘ Equiv.swap i n) n i := by
  have hstay : ∀ j, j < n → j ≠ i → Equiv.swap i n j = j :=
    fun j hj hji => Equiv.swap_apply_of_ne_of_ne hji (by omega)
  constructor
  · intro j h1 hj hji
    rw [Function.comp_apply, Function.comp_apply, hstay (j / 2) (by omega) hji]
    by_cases hj' : j = i
    · subst hj'
      rw [Equiv.swap_apply_left]
      rcases hfit with hfit | hfit
      · omega
      · exact hfit
    · rw [hstay j hj hj']
      exact h j h1 (by omega)
  · intro j h1 hj hjn
    rw [Function.comp_apply, Function.comp_apply, hstay (i / 2) (by omega) (by omega),
      hstay j hjn (by omega)]
    have hchild : f i ≤ f j := hj ▸ h j (by omega) (by omega)
    exact (h i h1 (by omega)).trans hchild

/-- A leaf that does not fit under the parent is below all the children. -/
theorem Ordered.leaf_lt_child (h : Ordered f (n + 1)) (hi1 : 1 < i) (hi : i < n)
    (hlt : f n < f (i / 2)) {j : Nat} (hj : j / 2 = i) (hjn : j < n) :
    (f ∘ Equiv.swap i n) i < (f ∘ Equiv.swap i n) j := by
  rw [Function.comp_apply, Function.comp_apply, Equiv.swap_apply_left,
    Equiv.swap_apply_of_ne_of_ne (by omega) (by omega)]
  have hchild : f i ≤ f j := hj ▸ h j (by omega) (by omega)
  exact hlt.trans_le ((h i hi1 (by omega)).trans hchild)

theorem not_ordered_replace (hi1 : 1 < i) (hi : i < n) (hlt : f n < f (i / 2)) :
    ¬ Ordered (f ∘ Equiv.swap i n) n := by
  intro ho
  have hup := ho i hi1 hi
  rw [Function.comp_apply, Function.comp_apply, Equiv.swap_apply_left,
    Equiv.swap_apply_of_ne_of_ne (by omega) (by omega)] at hup
  exact absurd hlt hup.not_gt

end Heap
