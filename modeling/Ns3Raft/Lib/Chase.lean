import Mathlib.Data.Finset.Card
import Mathlib.Logic.Relation

/-! # Chasing pointers

A pointer is set to a node because of a mark of that node, and after every mark
of its owner. Marks then rise along a chase, so it meets no node twice, and in a
finite set of nodes it is over after as many hops as there are nodes.
-/

namespace Chase

variable {α : Type*} {R : α → α → Prop}

/-- A mark of `b` stands above all marks of `a`. -/
def Above {μ : Type*} [LT μ] (M : α → Set μ) (a b : α) : Prop := ∃ m ∈ M b, ∀ m' ∈ M a, m' < m

theorem Above.trans {μ : Type*} [Preorder μ] {M : α → Set μ} {a b c : α} (h : Above M a b)
    (h' : Above M b c) : Above M a c := by
  obtain ⟨m, hm, hall⟩ := h
  obtain ⟨m', hm', hall'⟩ := h'
  exact ⟨m', hm', fun x hx => (hall x hx).trans (hall' m hm)⟩

theorem not_above_self {μ : Type*} [Preorder μ] {M : α → Set μ} {a : α} : ¬ Above M a a := by
  rintro ⟨m, hm, hall⟩
  exact lt_irrefl m (hall m hm)

/-- Every node of an acyclic chase is new. -/
theorem nodup_of_acyclic (hR : ∀ a, ¬ Relation.TransGen R a a) {l : List α}
    (h : l.IsChain R) : l.Nodup := by
  have hlift : l.IsChain (Relation.TransGen R) := h.imp fun _ _ => .single
  refine hlift.pairwise.imp fun {a b} hab heq => ?_
  subst heq
  exact hR a hab

/-- A chase stays in the set of the nodes that are pointed to. -/
theorem mem_of_isChain {S : Set α} (hS : ∀ a b, R a b → b ∈ S) {a : α} {l : List α}
    (h : (a :: l).IsChain R) : ∀ b ∈ l, b ∈ S := by
  induction l generalizing a with
  | nil => exact fun b hb => absurd hb List.not_mem_nil
  | cons c l ih =>
      intro b hb
      rw [List.isChain_cons_cons] at h
      rcases List.mem_cons.mp hb with rfl | hb
      · exact hS a b h.1
      · exact ih h.2 b hb

/-- A chase through a finite set of nodes has at most as many hops. -/
theorem length_le_card [DecidableEq α] {S : Finset α} (hR : ∀ a, ¬ Relation.TransGen R a a)
    (hS : ∀ a b, R a b → b ∈ S) {a : α} {l : List α} (h : (a :: l).IsChain R) :
    l.length ≤ S.card := by
  have hnodup : l.Nodup := (nodup_of_acyclic hR h).of_cons
  rw [← List.toFinset_card_of_nodup hnodup]
  refine Finset.card_le_card fun b hb => ?_
  exact mem_of_isChain (S := S) hS h b (List.mem_toFinset.mp hb)

/-- A chase of bounded length comes to a node that points nowhere. -/
theorem exists_end {n : Nat} {a : α} (h : ∀ l, (a :: l).IsChain R → l.length ≤ n) :
    ∃ l, (a :: l).IsChain R ∧ ∀ c, ¬ R ((a :: l).getLast (List.cons_ne_nil a l)) c := by
  induction n generalizing a with
  | zero =>
      refine ⟨[], List.IsChain.singleton a, fun c hc => ?_⟩
      have hlen := h [c] (.cons_cons hc (.singleton c))
      simp at hlen
  | succ n ih =>
      by_cases hend : ∃ b, R a b
      · obtain ⟨b, hb⟩ := hend
        have hrest : ∀ l, (b :: l).IsChain R → l.length ≤ n := by
          intro l hl
          have hlen := h (b :: l) (List.isChain_cons_cons.mpr ⟨hb, hl⟩)
          simpa using hlen
        obtain ⟨l, hl, hlast⟩ := ih hrest
        exact ⟨b :: l, List.isChain_cons_cons.mpr ⟨hb, hl⟩, hlast⟩
      · exact ⟨[], List.IsChain.singleton a, fun c hc => hend ⟨c, hc⟩⟩

end Chase
