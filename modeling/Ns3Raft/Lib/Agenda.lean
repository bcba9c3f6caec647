import Mathlib.Data.List.Sort

/-! # The agenda of a priority queue

What a queue that serves the least key first is meant to hold: its items in
order of their keys, which are pairwise distinct.
-/

namespace Agenda

variable {α κ : Type*} [LinearOrder κ] {key : α → κ} {q q' items : List α} {a e : α}

inductive Op (α : Type*) where
  | insert (e : α)
  | peekNext
  | removeNext
  | remove (e : α)
  deriving DecidableEq, Repr

variable (key) in
def Sorted (q : List α) : Prop := q.Pairwise fun a b => key a < key b

variable (key) in
/-- The new key is not in use, there is a next item, the item to remove is there. -/
def Allowed (q : List α) : Op α → Prop
  | .insert e => ∀ a ∈ q, key a ≠ key e
  | .peekNext | .removeNext => q ≠ []
  | .remove e => e ∈ q

instance [DecidableEq α] (q : List α) : ∀ op, Decidable (Allowed key q op)
  | .insert _ => inferInstanceAs (Decidable (∀ _ ∈ _, _))
  | .peekNext | .removeNext => inferInstanceAs (Decidable (_ ≠ _))
  | .remove _ => inferInstanceAs (Decidable (_ ∈ _))

variable (key) in
def step [DecidableEq α] (q : List α) : Op α → List α
  | .insert e => q.orderedInsert (fun a b => key a ≤ key b) e
  | .peekNext => q
  | .removeNext => q.tail
  | .remove e => q.erase e

/-- What the operation returns. -/
def answer (q : List α) : Op α → Option α
  | .insert _ | .remove _ => none
  | .peekNext | .removeNext => q.head?

/-! ## Order -/

theorem sorted_nil : Sorted key ([] : List α) := List.Pairwise.nil

theorem Sorted.key_ne (h : Sorted key q) : q.Pairwise fun a b => key a ≠ key b :=
  h.imp fun hlt => hlt.ne

theorem Sorted.nodup (h : Sorted key q) : q.Nodup :=
  h.imp fun hlt heq => hlt.ne (congrArg key heq)

theorem Sorted.key_inj (h : Sorted key q) (ha : a ∈ q) (he : e ∈ q) (hk : key a = key e) :
    a = e := by
  have hnd : (q.map key).Nodup := List.pairwise_map.mpr h.key_ne
  exact List.inj_on_of_nodup_map hnd ha he hk

theorem Sorted.head_le (h : Sorted key q) (he : q.head? = some e) (ha : a ∈ q) :
    key e ≤ key a := by
  cases q with
  | nil => cases he
  | cons b q =>
      obtain rfl : b = e := Option.some.inj he
      rcases List.mem_cons.mp ha with rfl | ha
      · exact le_rfl
      · exact (List.rel_of_pairwise_cons h ha).le

theorem Sorted.insert (h : Sorted key q) (hfresh : ∀ a ∈ q, key a ≠ key e) :
    Sorted key (q.orderedInsert (fun a b => key a ≤ key b) e) := by
  induction q with
  | nil => exact List.pairwise_singleton _ _
  | cons b q ih =>
      obtain ⟨hb, hq⟩ := List.pairwise_cons.mp h
      have hne : key b ≠ key e := hfresh b List.mem_cons_self
      rw [List.orderedInsert_cons]
      split
      case isTrue hle =>
        have heb : key e < key b := lt_of_le_of_ne hle hne.symm
        refine List.pairwise_cons.mpr ⟨fun a ha => ?_, h⟩
        rcases List.mem_cons.mp ha with rfl | ha
        · exact heb
        · exact heb.trans (hb a ha)
      case isFalse hle =>
        refine List.pairwise_cons.mpr
          ⟨fun a ha => ?_, ih hq fun a ha => hfresh a (List.mem_cons_of_mem b ha)⟩
        rcases List.mem_orderedInsert _ |>.mp ha with rfl | ha
        · exact not_le.mp hle
        · exact hb a ha

/-- A key above all others goes to the end. -/
theorem insert_last (h : ∀ a ∈ q, key a < key e) :
    q.orderedInsert (fun a b => key a ≤ key b) e = q ++ [e] := by
  induction q with
  | nil => rfl
  | cons b q ih =>
      rw [List.orderedInsert_cons, if_neg (not_le.mpr (h b List.mem_cons_self)),
        ih fun a ha => h a (List.mem_cons_of_mem b ha), List.cons_append]

/-- The order is kept by every operation. -/
theorem Sorted.step [DecidableEq α] (h : Sorted key q) {op : Op α} (hop : Allowed key q op) :
    Sorted key (Agenda.step key q op) := by
  cases op with
  | insert e => exact h.insert hop
  | peekNext => exact h
  | removeNext => exact h.sublist (List.tail_sublist q)
  | remove e => exact h.sublist List.erase_sublist

/-! ## Queues that hold the same items -/

/-- The least item of any arrangement is the head of the agenda. -/
theorem Sorted.head?_of_least (h : Sorted key q) (hp : items.Perm q) (he : e ∈ items)
    (hleast : ∀ a ∈ items, key e ≤ key a) : q.head? = some e := by
  cases q with
  | nil => exact absurd (hp.subset he) List.not_mem_nil
  | cons b q =>
      have hbe : key b ≤ key e := h.head_le rfl (hp.subset he)
      have heb : key e ≤ key b := hleast b (hp.symm.subset List.mem_cons_self)
      rw [List.head?_cons, h.key_inj List.mem_cons_self (hp.subset he) (hbe.antisymm heb)]

theorem Sorted.perm_tail [DecidableEq α] (h : Sorted key q) (hp : items.Perm q)
    (he : q.head? = some e) : (items.erase e).Perm q.tail := by
  cases q with
  | nil => cases he
  | cons b q =>
      obtain rfl : b = e := Option.some.inj he
      simpa using hp.erase b

theorem perm_insert (key : α → κ) (hp : items.Perm q) :
    (e :: items).Perm (q.orderedInsert (fun a b => key a ≤ key b) e) :=
  (hp.cons e).trans (List.perm_orderedInsert _ e q).symm

end Agenda
