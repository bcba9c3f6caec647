import Ns3Raft.Lib.Replication.Log

/-! # Elected leaders keep what a majority holds

The invariant with votes: a voter that holds a prefix of a term's log keeps it,
unless a later term was won without it. It holds initially and every step
preserves it.
-/

namespace Replication

open Majority

variable {S E : Type*} (τ : E → ℕ) (U : Finset S) {s s' : State S E}

/-- `v` took, or itself led, the first `i` entries of term `t`. -/
def Holds (s : State S E) (v : S) (t i : ℕ) : Prop :=
  s.winner t ≠ none ∧ i ≤ (s.lead t).length ∧ (i ≤ s.acked v t ∨ s.winner t = some v)

/-- A term after `t` and up to `b` was won without the prefix `p`. -/
def Lost (s : State S E) (t b : ℕ) (p : List E) : Prop :=
  ∃ t', t < t' ∧ t' ≤ b ∧ s.winner t' ≠ none ∧ ¬ p <+: s.base t'

def Kept (s : State S E) (v : S) (t b : ℕ) (l : List E) : Prop :=
  ∀ i, Holds s v t i → (s.lead t).take i <+: l ∨ Lost s t b ((s.lead t).take i)

/-- The votes that made `w` the winner of `t`. -/
def Elected (s : State S E) (w : S) (t : ℕ) : Prop :=
  ∃ Q, IsMajority U Q ∧ ∀ u ∈ Q, ∃ l, s.ballot u t = some (w, l) ∧ UpToDate τ (s.base t) l ∧
    ∀ t' < t, Kept s u t' (t - 1) l

structure Inv (s : State S E) : Prop extends LogInv τ s where
  rooted_ballot : ∀ v t c l, s.ballot v t = some (c, l) → Rooted τ s l
  ballot_le : ∀ v t c l, s.ballot v t = some (c, l) → t ≤ s.term v
  ballot_candidate : ∀ v t c l, s.ballot v t = some (c, l) →
    ∃ l', s.ballot c t = some (c, l') ∧ (∀ e ∈ l', τ e < t) ∧ UpToDate τ l' l
  ballot_log : ∀ v c l, s.ballot v (s.term v) = some (c, l) → s.winner (s.term v) = none →
    s.log v = l
  kept_log : ∀ v t, Kept s v t (s.term v) (s.log v)
  kept_ballot : ∀ v t c l, s.ballot v t = some (c, l) → ∀ t' < t, Kept s v t' t l
  elected : ∀ t w, s.winner t = some w → Elected τ U s w t

inductive Step [DecidableEq S] (s : State S E) : State S E → Prop where
  | advance (v : S) (t : ℕ) : s.term v < t → Step s (s.advance v t)
  | vote (v c : S) (l : List E) : s.ballot v (s.term v) = none →
      (c = v ∧ l = s.log v ∧ ∀ e ∈ l, τ e < s.term v) ∨ s.ballot c (s.term v) = some (c, l) →
      UpToDate τ l (s.log v) → Step s (s.vote v c)
  | win (v : S) (Q : Finset S) : s.winner (s.term v) = none → IsMajority U Q →
      (∀ u ∈ Q, ∃ l, s.ballot u (s.term v) = some (v, l)) → Step s (s.win v)
  | extend (v : S) (e : E) : s.winner (s.term v) = some v → τ e = s.term v →
      Step s (s.extend v e)
  | accept (v w : S) (m : ℕ) (new : List E) : s.winner (s.term v) = some w → w ≠ v →
      m ≤ (s.lead (s.term v)).length → Adopts (s.log v) ((s.lead (s.term v)).take m) new →
      Step s (s.accept v m new)

variable {τ U}

theorem Lost.mono (h : Evolves s s') {t b b' : ℕ} {p : List E} (hb : b ≤ b')
    (hl : Lost s t b p) : Lost s' t b' p := by
  obtain ⟨t', h1, h2, hw, hp⟩ := hl
  exact ⟨t', h1, h2.trans hb, h.winner_ne hw, by rwa [h.base t' hw]⟩

/-- A claim about a log survives when the holder holds no more than before. -/
theorem Kept.mono (h : Evolves s s') {v : S} {t b b' : ℕ} {l : List E} (hb : b ≤ b')
    (hh : ∀ i, Holds s' v t i → Holds s v t i) (hk : Kept s v t b l) : Kept s' v t b' l := by
  intro i hi
  have hold := hh i hi
  have htake : (s'.lead t).take i = (s.lead t).take i := by
    obtain ⟨z, hz⟩ := h.lead t hold.1
    rw [← hz, List.take_append_of_le_length hold.2.1]
  rw [htake]
  exact (hk i hold).imp id (Lost.mono h hb)

/-- The votes of a term stay what they were when nobody in it holds more of an
earlier term. -/
theorem Elected.mono (h : Evolves s s') {w : S} {t : ℕ} (hw : s.winner t ≠ none)
    (hb : ∀ u p, s.ballot u t = some p → s'.ballot u t = some p)
    (hh : ∀ u l, s.ballot u t = some (w, l) → ∀ t' < t, ∀ i, Holds s' u t' i → Holds s u t' i)
    (he : Elected τ U s w t) : Elected τ U s' w t := by
  obtain ⟨Q, hQ, hall⟩ := he
  refine ⟨Q, hQ, fun u hu => ?_⟩
  obtain ⟨l, h1, h2, h3⟩ := hall u hu
  exact ⟨l, hb u _ h1, by rwa [h.base t hw],
    fun t' ht' => (h3 t' ht').mono h (Nat.le_refl _) (hh u l h1 t' ht')⟩

theorem Inv.empty : Inv τ U (State.empty S E) where
  toLogInv := .empty
  rooted_ballot := by simp [State.empty]
  ballot_le := by simp [State.empty]
  ballot_candidate := by simp [State.empty]
  ballot_log := by simp [State.empty]
  kept_log := by simp [State.empty, Kept, Holds]
  kept_ballot := by simp [State.empty]
  elected := by simp [State.empty]

variable [DecidableEq S]

theorem Inv.advance (hi : Inv τ U s) {v : S} {t : ℕ} (ht : s.term v < t) :
    Inv τ U (s.advance v t) := by
  have hev := evolves_advance ht
  exact
    { toLogInv := hi.toLogInv.advance ht
      rooted_ballot := hi.rooted_ballot
      ballot_le := fun u t c l h => (hi.ballot_le u t c l h).trans (hev.term u)
      ballot_candidate := hi.ballot_candidate
      ballot_log := by
        intro u c l hb hw
        by_cases hu : u = v
        · subst hu
          simp only [State.advance_ballot, State.advance_term, Function.update_self] at hb
          have := hi.ballot_le u t c l hb
          omega
        · simp only [State.advance_ballot, State.advance_winner, State.advance_term,
            Function.update_of_ne hu] at hb hw
          exact hi.ballot_log u c l hb hw
      kept_log := fun u t => (hi.kept_log u t).mono hev (hev.term u) fun _ h => h
      kept_ballot := hi.kept_ballot
      elected := hi.elected }

theorem Inv.vote (hi : Inv τ U s) {v c : S} {l : List E} (hb : s.ballot v (s.term v) = none)
    (hc : (c = v ∧ l = s.log v ∧ ∀ e ∈ l, τ e < s.term v) ∨ s.ballot c (s.term v) = some (c, l))
    (hu : UpToDate τ l (s.log v)) : Inv τ U (s.vote v c) := by
  have hold : ∀ u t p, s.ballot u t = some p → (s.vote v c).ballot u t = some p := by
    intro u t p h
    by_cases hu : u = v
    · subst hu
      have hne : t ≠ s.term u := by
        rintro rfl
        simp [hb] at h
      simpa [Function.update_of_ne hne] using h
    · simpa [Function.update_of_ne hu] using h
  have hnew : ∀ u t d l', (s.vote v c).ballot u t = some (d, l') →
      s.ballot u t = some (d, l') ∨ (u = v ∧ t = s.term v ∧ d = c ∧ l' = s.log v) := by
    intro u t d l' h
    by_cases hu : u = v
    · subst hu
      by_cases hne : t = s.term u
      · subst hne
        simp only [State.vote_ballot, Function.update_self, Option.some.injEq,
          Prod.mk.injEq] at h
        exact .inr ⟨rfl, rfl, h.1.symm, h.2.symm⟩
      · exact .inl (by simpa [Function.update_of_ne hne] using h)
    · exact .inl (by simpa [Function.update_of_ne hu] using h)
  have hcand : ∃ l', (s.vote v c).ballot c (s.term v) = some (c, l') ∧
      (∀ e ∈ l', τ e < s.term v) ∧ UpToDate τ l' (s.log v) := by
    rcases hc with ⟨rfl, rfl, hlt⟩ | hc
    · exact ⟨s.log c, by simp, hlt, hu⟩
    · obtain ⟨l', hl', hlt, -⟩ := hi.ballot_candidate c _ c l hc
      have heq : l = l' := by simpa [hc] using hl'
      subst heq
      exact ⟨l, hold _ _ _ hc, hlt, hu⟩
  exact
    { toLogInv := hi.toLogInv.vote v c
      rooted_ballot := by
        intro u t d l' h
        rcases hnew u t d l' h with h | ⟨rfl, rfl, rfl, rfl⟩
        · exact hi.rooted_ballot u t d l' h
        · exact hi.rooted_log u
      ballot_le := by
        intro u t d l' h
        rcases hnew u t d l' h with h | ⟨rfl, rfl, rfl, rfl⟩
        · exact hi.ballot_le u t d l' h
        · exact Nat.le_refl _
      ballot_candidate := by
        intro u t d l' h
        rcases hnew u t d l' h with h | ⟨rfl, rfl, rfl, rfl⟩
        · obtain ⟨l'', h1, h2, h3⟩ := hi.ballot_candidate u t d l' h
          exact ⟨l'', hold _ _ _ h1, h2, h3⟩
        · exact hcand
      ballot_log := by
        intro u d l' h hw
        rcases hnew u _ d l' h with h | ⟨rfl, -, rfl, rfl⟩
        · exact hi.ballot_log u d l' h hw
        · rfl
      kept_log := hi.kept_log
      kept_ballot := by
        intro u t d l' h t' ht'
        rcases hnew u t d l' h with h | ⟨rfl, rfl, rfl, rfl⟩
        · exact hi.kept_ballot u t d l' h t' ht'
        · exact hi.kept_log u t'
      elected := fun t w hw =>
        (hi.elected t w hw).mono (evolves_vote v c) (by simp [show s.winner t = some w from hw]) (fun u p => hold u t p)
          fun _ _ _ _ _ _ h => h }

omit [DecidableEq S] in
theorem Inv.win (hi : Inv τ U s) {v : S} {Q : Finset S} (hw : s.winner (s.term v) = none)
    (hQ : IsMajority U Q) (hv : ∀ u ∈ Q, ∃ l, s.ballot u (s.term v) = some (v, l)) :
    Inv τ U (s.win v) := by
  have hev := evolves_win hw
  have hacked := hi.acked_zero hw
  -- the log of the winner is the one it stood with
  obtain ⟨lv, hlv, hcast⟩ : ∃ l, s.ballot v (s.term v) = some (v, l) ∧
      ∀ u l', s.ballot u (s.term v) = some (v, l') → UpToDate τ l l' := by
    obtain ⟨u, hu⟩ := hQ.nonempty
    obtain ⟨l, hl⟩ := hv u hu
    obtain ⟨l', hl', -, -⟩ := hi.ballot_candidate u _ v l hl
    refine ⟨l', hl', fun u' l'' h => ?_⟩
    obtain ⟨l₃, h1, -, h3⟩ := hi.ballot_candidate u' _ v l'' h
    have heq : l' = l₃ := by simpa [hl'] using h1
    exact heq ▸ h3
  have hlog : s.log v = lv := hi.ballot_log v v lv hlv hw
  have hhold : ∀ u t, t ≠ s.term v → ∀ i, Holds (s.win v) u t i → Holds s u t i := by
    intro u t hne i h
    simpa [Holds, Function.update_of_ne hne] using h
  -- of the new term only the winner holds anything
  have hheld : ∀ u i, Holds (s.win v) u (s.term v) i → i = 0 ∨ u = v := by
    rintro u i ⟨-, -, hi' | hi'⟩
    · exact .inl (by simpa [hacked] using hi')
    · exact .inr (by simpa [eq_comm] using hi')
  have hkept : ∀ u t c l, s.ballot u t = some (c, l) → ∀ t' < t, ∀ i, Holds (s.win v) u t' i →
      i = 0 ∨ Holds s u t' i := by
    intro u t c l hb t' ht' i hh
    by_cases hne : t' = s.term v
    · subst hne
      refine (hheld u i hh).imp id fun huv => ?_
      subst huv
      have := hi.ballot_le u t c l hb
      omega
    · exact .inr (hhold u t' hne i hh)
  refine
    { toLogInv := hi.toLogInv.win hw
      rooted_ballot := fun u t c l h => (hi.rooted_ballot u t c l h).mono hev
      ballot_le := hi.ballot_le
      ballot_candidate := hi.ballot_candidate
      ballot_log := ?_
      kept_log := ?_
      kept_ballot := ?_
      elected := ?_ }
  · intro u c l hb ht
    by_cases hne : s.term u = s.term v
    · simp [hne] at ht
    · exact hi.ballot_log u c l hb (by simpa [Function.update_of_ne hne] using ht)
  · intro u t
    by_cases hne : t = s.term v
    · subst hne
      intro i hh
      rcases hheld u i hh with rfl | rfl
      · simp
      · exact .inl (by simpa using List.take_prefix i (s.log u))
    · exact (hi.kept_log u t).mono hev (Nat.le_refl _) (hhold u t hne)
  · intro u t c l hb t' ht' i hh
    rcases hkept u t c l hb t' ht' i hh with rfl | hold
    · simp
    · have hne : t' ≠ s.term v := by
        rintro rfl
        exact hold.1 hw
      exact (hi.kept_ballot u t c l hb t' ht').mono hev (Nat.le_refl _) (hhold u t' hne) i hh
  · intro t w ht
    by_cases hne : t = s.term v
    · subst hne
      have hwv : v = w := by simpa using ht
      subst hwv
      refine ⟨Q, hQ, fun u hu => ?_⟩
      obtain ⟨l, hl⟩ := hv u hu
      refine ⟨l, hl, by simpa [hlog] using hcast u l hl, fun t' ht' i hh => ?_⟩
      have hold := hhold u t' ht'.ne i hh
      have heq : (s.win v).lead t' = s.lead t' := by simp [Function.update_of_ne ht'.ne]
      simp only [heq]
      refine (hi.kept_ballot u _ v l hl t' ht' i hold).imp id ?_
      -- a term lost up to the new one was lost before it
      rintro ⟨t₂, h1, h2, h3, h4⟩
      have hne : t₂ ≠ s.term v := by
        rintro rfl
        exact h3 hw
      exact Lost.mono hev (Nat.le_refl _) ⟨t₂, h1, by omega, h3, h4⟩
    · have ht' : s.winner t = some w := by simpa [Function.update_of_ne hne] using ht
      obtain ⟨R, hR, hall⟩ := hi.elected t w ht'
      refine ⟨R, hR, fun u hu => ?_⟩
      obtain ⟨l, h1, h2, h3⟩ := hall u hu
      refine ⟨l, h1, by simpa [Function.update_of_ne hne] using h2, fun t' ht' i hh => ?_⟩
      rcases hkept u t w l h1 t' ht' i hh with rfl | hold
      · simp
      · have hne : t' ≠ s.term v := by
          rintro rfl
          exact hold.1 hw
        exact (h3 t' ht').mono hev (Nat.le_refl _) (hhold u t' hne) i hh

theorem Inv.extend (hi : Inv τ U s) {v : S} {e : E} (hw : s.winner (s.term v) = some v)
    (he : τ e = s.term v) : Inv τ U (s.extend v e) := by
  have hev := evolves_extend (s := s) v e
  have hne : s.winner (s.term v) ≠ none := by simp [hw]
  have hlog := hi.winner_log v hw
  -- only the winner holds more of the term than before
  have hhold : ∀ u t, (u = v → t ≠ s.term v) → ∀ i, Holds (s.extend v e) u t i → Holds s u t i := by
    rintro u t hut i ⟨h1, h2, h3⟩
    by_cases ht : t = s.term v
    · subst ht
      have hu : s.winner (s.term v) ≠ some u := by
        rw [hw]
        rintro h
        exact hut (by simpa using h.symm) rfl
      have h3 : i ≤ s.acked u (s.term v) := h3.resolve_right hu
      exact ⟨h1, h3.trans (hi.acked_le u _ h1), .inl h3⟩
    · exact ⟨h1, by simpa [Function.update_of_ne ht] using h2, h3⟩
  have hvoted : ∀ u t c l, s.ballot u t = some (c, l) → ∀ t' < t, u = v → t' ≠ s.term v := by
    rintro u t c l hb t' ht' rfl rfl
    have := hi.ballot_le u t c l hb
    omega
  refine
    { toLogInv := hi.toLogInv.extend hw he
      rooted_ballot := fun u t c l h => (hi.rooted_ballot u t c l h).mono hev
      ballot_le := hi.ballot_le
      ballot_candidate := hi.ballot_candidate
      ballot_log := ?_
      kept_log := ?_
      kept_ballot := fun u t c l hb t' ht' => (hi.kept_ballot u t c l hb t' ht').mono hev
        (Nat.le_refl _) (hhold u t' (hvoted u t c l hb t' ht'))
      elected := fun t w ht => (hi.elected t w ht).mono hev
        (by simp [show s.winner t = some w from ht]) (fun _ _ h => h) fun u l hb t' ht' => hhold u t' (hvoted u t w l hb t' ht') }
  · intro u c l hb ht
    have hu : u ≠ v := by
      rintro rfl
      exact hne ht
    simpa [Function.update_of_ne hu] using hi.ballot_log u c l hb ht
  · intro u t
    by_cases hut : u = v ∧ t = s.term v
    · obtain ⟨rfl, rfl⟩ := hut
      intro i hi'
      exact .inl (by simpa [hlog] using List.take_prefix i (s.lead (s.term u) ++ [e]))
    · have hk := (hi.kept_log u t).mono hev (Nat.le_refl _)
        (hhold u t (fun h h' => hut ⟨h, h'⟩))
      intro i h
      refine (hk i h).imp (fun hp => hp.trans ?_) id
      by_cases hu : u = v
      · subst hu
        simp
      · simp [Function.update_of_ne hu]

omit [DecidableEq S] in
/-- A prefix of an earlier term that the cut takes away was lost: the winner of
the present term began without it. -/
theorem Inv.lost_of_cut (hi : Inv τ U s) {v : S} {t m i : ℕ} (hne : s.winner (s.term v) ≠ none)
    (ht : t < s.term v) (hp : (s.lead t).take i <+: s.log v)
    (hcut : ¬ (s.lead (s.term v)).take m <+: s.log v) :
    (s.lead t).take i <+: (s.lead (s.term v)).take m ∨
      Lost s t (s.term v) ((s.lead t).take i) := by
  by_cases hb : (s.lead t).take i <+: s.base (s.term v)
  · rcases List.prefix_or_prefix_of_prefix (hb.trans (hi.base_initial hne))
      (List.take_prefix m _) with h | h
    · exact .inl h
    · exact absurd (h.trans hp) hcut
  · exact .inr ⟨s.term v, ht, Nat.le_refl _, hne, hb⟩

theorem Inv.accept (hi : Inv τ U s) {v w : S} {m : ℕ} {new : List E}
    (hw : s.winner (s.term v) = some w) (hwv : w ≠ v) (hm : m ≤ (s.lead (s.term v)).length)
    (ha : Adopts (s.log v) ((s.lead (s.term v)).take m) new) : Inv τ U (s.accept v m new) := by
  have hev := evolves_accept (s := s) v m new
  have hne : s.winner (s.term v) ≠ none := by simp [hw]
  have hhold : ∀ u t, (u = v → t ≠ s.term v) → ∀ i, Holds (s.accept v m new) u t i →
      Holds s u t i := by
    rintro u t hut i ⟨h1, h2, h3⟩
    refine ⟨h1, h2, h3.imp_left fun h => ?_⟩
    by_cases hu : u = v
    · subst hu
      simpa [Function.update_of_ne (hut rfl)] using h
    · simpa [Function.update_of_ne hu] using h
  have hvoted : ∀ u t c l, s.ballot u t = some (c, l) → ∀ t' < t, u = v → t' ≠ s.term v := by
    rintro u t c l hb t' ht' rfl rfl
    have := hi.ballot_le u t c l hb
    omega
  refine
    { toLogInv := hi.toLogInv.accept hw hwv hm ha
      rooted_ballot := fun u t c l h => (hi.rooted_ballot u t c l h).mono hev
      ballot_le := hi.ballot_le
      ballot_candidate := hi.ballot_candidate
      ballot_log := ?_
      kept_log := ?_
      kept_ballot := fun u t c l hb t' ht' => (hi.kept_ballot u t c l hb t' ht').mono hev
        (Nat.le_refl _) (hhold u t' (hvoted u t c l hb t' ht'))
      elected := fun t w' ht => (hi.elected t w' ht).mono hev
        (by simp [show s.winner t = some w' from ht]) (fun _ _ h => h)
        fun u l hb t' ht' => hhold u t' (hvoted u t w' l hb t' ht') }
  · intro u c l hb ht
    have hu : u ≠ v := by
      rintro rfl
      exact hne ht
    simpa [Function.update_of_ne hu] using hi.ballot_log u c l hb ht
  · intro u t
    by_cases hu : u = v
    · subst hu
      simp only [State.accept_log, Function.update_self]
      intro i hh
      by_cases ht : t = s.term u
      · subst ht
        refine .inl ((List.take_prefix_take_left ?_).trans (hi.adopts_held hne ha))
        rcases hh.2.2 with h | h
        · simpa using h
        · have h : s.winner (s.term u) = some u := h
          rw [hw] at h
          exact absurd (by simpa using h) hwv
      · have hold := hhold u t (fun _ => ht) i hh
        rcases (hi.kept_log u t).mono hev (Nat.le_refl _) (hhold u t fun _ => ht) i hh with hp | hl
        · rcases ha with ⟨-, rfl⟩ | ⟨hcut, rfl⟩
          · exact .inl hp
          rcases Nat.eq_zero_or_pos i with rfl | hpos
          · exact .inl (by simp)
          have hlt : t < s.term u := by
            refine lt_of_le_of_ne ?_ ht
            rcases hold.2.2 with h | h
            · exact (hi.acked_pos u t (by omega)).2
            · exact hi.winner_term t u h
          exact (hi.lost_of_cut hne hlt hp hcut).imp id (Lost.mono hev (Nat.le_refl _))
        · exact .inr hl
    · simpa [Function.update_of_ne hu] using
        (hi.kept_log u t).mono hev (Nat.le_refl _) (hhold u t fun h => absurd h hu)

theorem Step.evolves (h : Step τ U s s') : Evolves s s' := by
  cases h with
  | advance v t ht => exact evolves_advance ht
  | vote v c l _ _ _ => exact evolves_vote v c
  | win v Q hw _ _ => exact evolves_win hw
  | extend v e _ _ => exact evolves_extend v e
  | accept v w m new _ _ _ _ => exact evolves_accept v m new

theorem Inv.step (hi : Inv τ U s) (h : Step τ U s s') : Inv τ U s' := by
  cases h with
  | advance v t ht => exact hi.advance ht
  | vote v c l hb hc hu => exact hi.vote hb hc hu
  | win v Q hw hQ hv => exact hi.win hw hQ hv
  | extend v e hw he => exact hi.extend hw he
  | accept v w m new hw hwv hm ha => exact hi.accept hw hwv hm ha

end Replication
