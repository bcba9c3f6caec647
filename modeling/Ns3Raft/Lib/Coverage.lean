import Mathlib.Data.List.Basic

/-! # Covering items by their providers

A record lists an item under a provider. Providers are chosen, and records are dropped, until nothing
is left: as long as only items of chosen providers go, each with all its records, every item is covered.
-/

namespace Coverage

variable {ρ α β : Type*} {provider : ρ → α} {item : ρ → β} {all left : List ρ} {chosen chosen' : α → Prop}

/-- A chosen provider has the item of the record. -/
def Covered (provider : ρ → α) (item : ρ → β) (all : List ρ) (chosen : α → Prop) (r : ρ) : Prop :=
  ∃ r' ∈ all, item r' = item r ∧ chosen (provider r')

/-- What is not covered has all its records left. -/
structure Progress (provider : ρ → α) (item : ρ → β) (all left : List ρ) (chosen : α → Prop) : Prop where
  mem : ∀ r ∈ left, r ∈ all
  left_or : ∀ r ∈ all, r ∈ left ∨ Covered provider item all chosen r

theorem Covered.mono {r : ρ} (h : Covered provider item all chosen r) (hle : ∀ a, chosen a → chosen' a) :
    Covered provider item all chosen' r := by
  obtain ⟨r', hmem, hitem, hchosen⟩ := h
  exact ⟨r', hmem, hitem, hle _ hchosen⟩

theorem Progress.start : Progress provider item all all chosen :=
  ⟨fun _ h => h, fun _ h => .inl h⟩

theorem Progress.mono (h : Progress provider item all left chosen) (hle : ∀ a, chosen a → chosen' a) :
    Progress provider item all left chosen' where
  mem := h.mem
  left_or r hr := (h.left_or r hr).imp_right (·.mono hle)

/-- Items of chosen providers are dropped. -/
theorem Progress.drop (h : Progress provider item all left chosen) (gone : β → Prop) [DecidablePred gone]
    (hgone : ∀ r ∈ all, gone (item r) → Covered provider item all chosen r) :
    Progress provider item all (left.filter fun r => ¬ gone (item r)) chosen where
  mem r hr := h.mem r (List.mem_of_mem_filter hr)
  left_or r hr := by
    rcases h.left_or r hr with hleft | hcovered
    · by_cases hitem : gone (item r)
      · exact .inr (hgone r hr hitem)
      · exact .inl (List.mem_filter.2 ⟨hleft, decide_eq_true hitem⟩)
    · exact .inr hcovered

theorem Progress.covered (h : Progress provider item all [] chosen) {r : ρ} (hr : r ∈ all) :
    Covered provider item all chosen r :=
  (h.left_or r hr).resolve_left List.not_mem_nil

end Coverage
