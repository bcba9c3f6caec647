import Mathlib.Logic.Function.Basic
import Mathlib.Tactic.Simps.Basic
import Ns3Raft.Lib.Majority

/-! # Replication of a log under elected leaders

Every term has at most one winner, who only extends its log; everyone else takes
prefixes of the winner's log. `ballot v t` is the vote of `v` in term `t`
together with the log `v` held when it voted, `base t` the log the winner
started from, `lead t` what it has grown to, and `acked v t` how much of it `v`
has taken while in term `t`.
-/

namespace Replication

open Majority

variable {S E : Type*}

structure State (S E : Type*) where
  term : S → ℕ
  log : S → List E
  ballot : S → ℕ → Option (S × List E)
  winner : ℕ → Option S
  base : ℕ → List E
  lead : ℕ → List E
  acked : S → ℕ → ℕ

def State.empty (S E : Type*) : State S E where
  term _ := 0
  log _ := []
  ballot _ _ := none
  winner _ := none
  base _ := []
  lead _ := []
  acked _ _ := 0

def lastTerm (τ : E → ℕ) (l : List E) : ℕ := (l.getLast?.map τ).getD 0

/-- The comparison of two logs by last term, then by length. -/
def UpToDate (τ : E → ℕ) (a b : List E) : Prop :=
  lastTerm τ b < lastTerm τ a ∨ (lastTerm τ a = lastTerm τ b ∧ b.length ≤ a.length)

/-! ## Operations -/

section Operations

variable [DecidableEq S] (s : State S E)

@[simps] def State.advance (v : S) (t : ℕ) : State S E :=
  { s with term := Function.update s.term v t }

/-- `v` votes for `c` in its own term. -/
@[simps] def State.vote (v c : S) : State S E :=
  { s with
    ballot := Function.update s.ballot v
      (Function.update (s.ballot v) (s.term v) (some (c, s.log v))) }

@[simps] def State.win (v : S) : State S E :=
  { s with
    winner := Function.update s.winner (s.term v) (some v)
    base := Function.update s.base (s.term v) (s.log v)
    lead := Function.update s.lead (s.term v) (s.log v) }

@[simps] def State.extend (v : S) (e : E) : State S E :=
  { s with
    log := Function.update s.log v (s.log v ++ [e])
    lead := Function.update s.lead (s.term v) (s.lead (s.term v) ++ [e]) }

/-- `v` has `new` for its log after it took the first `m` entries of the winner's. -/
@[simps] def State.accept (v : S) (m : ℕ) (new : List E) : State S E :=
  { s with
    log := Function.update s.log v new
    acked := Function.update s.acked v
      (Function.update (s.acked v) (s.term v) (max (s.acked v (s.term v)) m)) }

end Operations

/-- The log after the prefix `p` has been offered: kept when it already begins
with `p`, cut down to `p` otherwise. -/
def Adopts (old p new : List E) : Prop := (p <+: old ∧ new = old) ∨ (¬ p <+: old ∧ new = p)

/-! ## What a step leaves alone -/

/-- Winners and bases stay, led logs, terms and acknowledgements grow. -/
structure Evolves (s s' : State S E) : Prop where
  term : ∀ v, s.term v ≤ s'.term v
  winner : ∀ t w, s.winner t = some w → s'.winner t = some w
  base : ∀ t, s.winner t ≠ none → s'.base t = s.base t
  lead : ∀ t, s.winner t ≠ none → s.lead t <+: s'.lead t
  acked : ∀ v t, s.acked v t ≤ s'.acked v t

section Evolution

variable {s s' s'' : State S E}

theorem Evolves.refl (s : State S E) : Evolves s s where
  term _ := Nat.le_refl _
  winner _ _ h := h
  base _ _ := rfl
  lead _ _ := List.prefix_refl _
  acked _ _ := Nat.le_refl _

theorem Evolves.trans (h : Evolves s s') (h' : Evolves s' s'') : Evolves s s'' where
  term v := (h.term v).trans (h'.term v)
  winner t w hw := h'.winner t w (h.winner t w hw)
  base t hw := by
    obtain ⟨w, hw'⟩ := Option.ne_none_iff_exists'.mp hw
    rw [h'.base t (by simp [h.winner t w hw']), h.base t hw]
  lead t hw := by
    obtain ⟨w, hw'⟩ := Option.ne_none_iff_exists'.mp hw
    exact (h.lead t hw).trans (h'.lead t (by simp [h.winner t w hw']))
  acked v t := (h.acked v t).trans (h'.acked v t)

theorem Evolves.winner_ne (h : Evolves s s') {t : ℕ} (hw : s.winner t ≠ none) :
    s'.winner t ≠ none := by
  obtain ⟨w, hw⟩ := Option.ne_none_iff_exists'.mp hw
  simp [h.winner t w hw]

variable [DecidableEq S]

theorem evolves_advance {v : S} {t : ℕ} (ht : s.term v < t) : Evolves s (s.advance v t) := by
  refine { Evolves.refl s with term := fun u => ?_ }
  by_cases hu : u = v
  · subst hu
    simpa using ht.le
  · simp [Function.update_of_ne hu]

theorem evolves_vote (v c : S) : Evolves s (s.vote v c) := { Evolves.refl s with }

omit [DecidableEq S] in
theorem evolves_win {v : S} (hw : s.winner (s.term v) = none) : Evolves s (s.win v) := by
  have hne : ∀ {t}, s.winner t ≠ none → t ≠ s.term v := by
    rintro t ht rfl
    exact ht hw
  refine { Evolves.refl s with winner := fun t w h => ?_, base := fun t h => ?_,
                               lead := fun t h => ?_ }
  · have := hne (by simp [h] : s.winner t ≠ none)
    simp [Function.update_of_ne this, h]
  · simp [Function.update_of_ne (hne h)]
  · simp [Function.update_of_ne (hne h)]

theorem evolves_extend (v : S) (e : E) : Evolves s (s.extend v e) := by
  refine { Evolves.refl s with lead := fun t _ => ?_ }
  by_cases ht : t = s.term v
  · subst ht
    simp
  · simp [Function.update_of_ne ht]

theorem evolves_accept (v : S) (m : ℕ) (new : List E) : Evolves s (s.accept v m new) := by
  refine { Evolves.refl s with acked := fun u t => ?_ }
  by_cases hu : u = v
  · subst hu
    by_cases ht : t = s.term u
    · subst ht
      simp
    · simp [Function.update_of_ne ht]
  · simp [Function.update_of_ne hu]

end Evolution

/-! ## What a step of one leaves to the others -/

section Ownership

variable {s s' : State S E}

/-- Only `v` changes its log, term and votes, and only `v` can have won a term. -/
structure Own (v : S) (s s' : State S E) : Prop extends Evolves s s' where
  ballot : ∀ u t p, s.ballot u t = some p → s'.ballot u t = some p
  other : ∀ u, u ≠ v → s'.log u = s.log u ∧ s'.term u = s.term u ∧ ∀ t, s'.ballot u t = s.ballot u t
  won : ∀ u t, u ≠ v → s'.winner t = some u → s.winner t = some u

theorem Own.refl (v : S) (s : State S E) : Own v s s where
  toEvolves := Evolves.refl s
  ballot _ _ _ h := h
  other _ _ := ⟨rfl, rfl, fun _ => rfl⟩
  won _ _ _ h := h

variable [DecidableEq S]

theorem own_advance {v : S} {t : ℕ} (ht : s.term v < t) : Own v s (s.advance v t) where
  toEvolves := evolves_advance ht
  ballot _ _ _ h := h
  other u hu := by simp [Function.update_of_ne hu]
  won _ _ _ h := h

theorem own_vote {v : S} (c : S) (hb : s.ballot v (s.term v) = none) : Own v s (s.vote v c) where
  toEvolves := evolves_vote v c
  ballot := by
    intro u t p h
    by_cases hu : u = v
    · subst hu
      have hne : t ≠ s.term u := by
        rintro rfl
        simp [hb] at h
      simpa [Function.update_of_ne hne] using h
    · simpa [Function.update_of_ne hu] using h
  other u hu := by simp [Function.update_of_ne hu]
  won _ _ _ h := h

omit [DecidableEq S] in
theorem own_win {v : S} (hw : s.winner (s.term v) = none) : Own v s (s.win v) where
  toEvolves := evolves_win hw
  ballot _ _ _ h := h
  other _ _ := ⟨rfl, rfl, fun _ => rfl⟩
  won := by
    intro u t hu h
    by_cases ht : t = s.term v
    · subst ht
      simp only [State.win_winner, Function.update_self, Option.some.injEq] at h
      exact absurd h.symm hu
    · simpa [Function.update_of_ne ht] using h

theorem own_extend (v : S) (e : E) : Own v s (s.extend v e) where
  toEvolves := evolves_extend v e
  ballot _ _ _ h := h
  other u hu := by simp [Function.update_of_ne hu]
  won _ _ _ h := h

theorem own_accept (v : S) (m : ℕ) (new : List E) : Own v s (s.accept v m new) where
  toEvolves := evolves_accept v m new
  ballot _ _ _ h := h
  other u hu := by simp [Function.update_of_ne hu]
  won _ _ _ h := h

end Ownership

end Replication
