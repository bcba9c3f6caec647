import Ns3Raft.Lib.Replication.State

/-! # Logs that come from elected leaders

The part of the replication invariant that does not speak of votes: a term is
won at most once, by someone in that term, and whoever takes entries takes them
from its winner. It gives log matching and the soundness of acknowledgements.
-/

namespace Replication

variable {S E : Type*} (τ : E → ℕ) {s s' : State S E}

/-- Every prefix of the log is a prefix of what the winner of its last term led. -/
def Rooted (s : State S E) (x : List E) : Prop :=
  ∀ y e, y ++ [e] <+: x → s.winner (τ e) ≠ none ∧ y ++ [e] <+: s.lead (τ e)

structure LogInv (s : State S E) : Prop where
  rooted_log : ∀ v, Rooted τ s (s.log v)
  rooted_lead : ∀ t, s.winner t ≠ none → Rooted τ s (s.lead t)
  log_le : ∀ v, ∀ e ∈ s.log v, τ e ≤ s.term v
  base_lt : ∀ t, s.winner t ≠ none → ∀ e ∈ s.base t, τ e < t
  lead_eq : ∀ t, s.winner t ≠ none →
    ∃ new, s.lead t = s.base t ++ new ∧ ∀ e ∈ new, τ e = t
  winner_term : ∀ t w, s.winner t = some w → t ≤ s.term w
  winner_log : ∀ w, s.winner (s.term w) = some w → s.log w = s.lead (s.term w)
  acked_le : ∀ v t, s.winner t ≠ none → s.acked v t ≤ (s.lead t).length
  acked_pos : ∀ v t, 0 < s.acked v t → s.winner t ≠ none ∧ t ≤ s.term v
  held : ∀ v, s.winner (s.term v) ≠ none →
    (s.lead (s.term v)).take (s.acked v (s.term v)) <+: s.log v

variable {τ}

theorem Rooted.mono (h : Evolves s s') {x : List E} (hx : Rooted τ s x) : Rooted τ s' x := by
  intro y e hy
  obtain ⟨hw, hp⟩ := hx y e hy
  exact ⟨h.winner_ne hw, hp.trans (h.lead _ hw)⟩

theorem Rooted.of_initial {x y : List E} (hy : Rooted τ s y) (h : x <+: y) : Rooted τ s x :=
  fun z e hz => hy z e (hz.trans h)

/-! ## Log matching -/

theorem Rooted.getElem {x : List E} (hx : Rooted τ s x) {i : ℕ} (h : i < x.length) :
    s.winner (τ x[i]) ≠ none ∧ x.take (i + 1) <+: s.lead (τ x[i]) := by
  have hp : x.take i ++ [x[i]] <+: x := by
    rw [List.take_append_getElem h]
    exact List.take_prefix _ _
  obtain ⟨h1, h2⟩ := hx _ _ hp
  rw [List.take_append_getElem h] at h2
  exact ⟨h1, h2⟩

theorem Rooted.matching {x y : List E} (hx : Rooted τ s x) (hy : Rooted τ s y) {i : ℕ}
    (hix : i < x.length) (hiy : i < y.length) (ht : τ x[i] = τ y[i]) :
    x.take (i + 1) = y.take (i + 1) := by
  have h1 := (hx.getElem hix).2
  have h2 := (hy.getElem hiy).2
  rw [← ht] at h2
  rw [List.prefix_iff_eq_take.mp h1, List.prefix_iff_eq_take.mp h2]
  simp only [List.length_take]
  congr 1
  omega

/-- Log matching in terms of the entries found at an index. -/
theorem Rooted.take_eq {x y : List E} (hx : Rooted τ s x) (hy : Rooted τ s y) {i t : ℕ}
    (h1 : (x[i]?).map τ = some t) (h2 : (y[i]?).map τ = some t) :
    x.take (i + 1) = y.take (i + 1) := by
  obtain ⟨e, he, rfl⟩ := Option.map_eq_some_iff.mp h1
  obtain ⟨e', he', ht⟩ := Option.map_eq_some_iff.mp h2
  obtain ⟨hi, rfl⟩ := List.getElem?_eq_some_iff.mp he
  obtain ⟨hi', rfl⟩ := List.getElem?_eq_some_iff.mp he'
  exact hx.matching hy hi hi' ht.symm

/-- An entry of the winner's log that goes in where the terms begin to differ. -/
theorem adopts_write {v : S} {p : ℕ} {e : E} (htake : (s.log v).take p = (s.lead (s.term v)).take p)
    (he : (s.lead (s.term v))[p]? = some e) (hdiff : ((s.log v)[p]?).map τ ≠ some (τ e)) :
    Adopts (s.log v) ((s.lead (s.term v)).take (p + 1)) ((s.log v).take p ++ [e]) := by
  obtain ⟨hp, rfl⟩ := List.getElem?_eq_some_iff.mp he
  have heq : (s.log v).take p ++ [(s.lead (s.term v))[p]] = (s.lead (s.term v)).take (p + 1) := by
    rw [htake, List.take_append_getElem hp]
  refine .inr ⟨fun hpre => hdiff ?_, heq⟩
  obtain ⟨z, hz⟩ := hpre
  have hlen : p < ((s.lead (s.term v)).take (p + 1)).length := by
    rw [List.length_take]
    omega
  rw [← hz, List.getElem?_append_left hlen, List.getElem?_take_of_lt (Nat.lt_succ_self p),
    List.getElem?_eq_getElem hp, Option.map_some]

namespace LogInv

theorem lead_le (hi : LogInv τ s) {t : ℕ} (ht : s.winner t ≠ none) : ∀ e ∈ s.lead t, τ e ≤ t := by
  intro e he
  obtain ⟨new, h1, h2⟩ := hi.lead_eq t ht
  rw [h1, List.mem_append] at he
  rcases he with h | h
  · exact (hi.base_lt t ht e h).le
  · exact (h2 e h).le

theorem base_initial (hi : LogInv τ s) {t : ℕ} (ht : s.winner t ≠ none) : s.base t <+: s.lead t := by
  obtain ⟨new, h1, -⟩ := hi.lead_eq t ht
  exact h1 ▸ List.prefix_append _ _

/-- Terms do not decrease along a rooted log. -/
theorem term_le (hi : LogInv τ s) {x : List E} (hx : Rooted τ s x) {i j : ℕ} (hij : i ≤ j)
    (hj : j < x.length) : τ (x.get ⟨i, by omega⟩) ≤ τ x[j] := by
  obtain ⟨h1, h2⟩ := hx.getElem hj
  refine hi.lead_le h1 _ (h2.subset ?_)
  rw [List.mem_take_iff_getElem]
  exact ⟨i, by omega, rfl⟩

/-- An entry of the term itself lies beyond the base of the term. -/
theorem base_lt_length (hi : LogInv τ s) {t i : ℕ} (ht : s.winner t ≠ none)
    (h : i < (s.lead t).length) (he : τ (s.lead t)[i] = t) : (s.base t).length ≤ i := by
  by_contra hlt
  obtain ⟨new, h1, -⟩ := hi.lead_eq t ht
  have hmem : (s.lead t)[i] ∈ s.base t := by
    simp only [h1, List.getElem_append_left (by omega : i < (s.base t).length)]
    exact List.getElem_mem _
  exact (hi.base_lt t ht _ hmem).ne he

/-- A log in a term that nobody has won holds no entry of the term. -/
theorem log_lt (hi : LogInv τ s) {v : S} (hw : s.winner (s.term v) = none) :
    ∀ e ∈ s.log v, τ e < s.term v := by
  intro e he
  refine lt_of_le_of_ne (hi.log_le v e he) fun heq => ?_
  obtain ⟨i, hi', rfl⟩ := List.mem_iff_getElem.mp he
  exact ((hi.rooted_log v).getElem hi').1 (heq ▸ hw)

theorem acked_zero (hi : LogInv τ s) {t : ℕ} (hw : s.winner t = none) (v : S) :
    s.acked v t = 0 := by
  by_contra h
  exact (hi.acked_pos v t (Nat.pos_of_ne_zero h)).1 hw

/-- A log that has the term of the winner's entry in front of `p` has all of them. -/
theorem take_of_term (hi : LogInv τ s) {v : S} (hw : s.winner (s.term v) ≠ none) {p t : ℕ}
    (hlog : ((s.log v)[p]?).map τ = some t) (hlead : ((s.lead (s.term v))[p]?).map τ = some t) :
    (s.log v).take (p + 1) = (s.lead (s.term v)).take (p + 1) :=
  (hi.rooted_log v).take_eq (hi.rooted_lead _ hw) hlog hlead

/-- The prefix that was acknowledged to the winner of the present term is there,
in the log of the winner and in the log of the one who acknowledged it. -/
theorem take_acked (hi : LogInv τ s) {v w : S} (hw : s.winner (s.term w) = some w)
    (hv : s.term v ≤ s.term w) {k : ℕ} (hk : k ≤ s.acked v (s.term w)) :
    (s.log v).take k = (s.log w).take k ∧ k ≤ (s.log w).length := by
  have hne : s.winner (s.term w) ≠ none := by simp [hw]
  have hlen := hi.acked_le v _ hne
  rw [hi.winner_log w hw]
  refine ⟨?_, by omega⟩
  rcases Nat.eq_zero_or_pos k with rfl | hpos
  · simp
  have hterm : s.term v = s.term w := by
    have := (hi.acked_pos v (s.term w) (by omega)).2
    omega
  have hheld := hi.held v (by rwa [hterm])
  rw [hterm] at hheld
  have hp : (s.lead (s.term w)).take k <+: s.log v :=
    (List.take_prefix_take_left hk).trans hheld
  rw [List.prefix_iff_eq_take.mp hp, List.length_take, Nat.min_eq_left (by omega)]

theorem empty : LogInv τ (State.empty S E) := by
  constructor <;> simp [State.empty, Rooted]

variable [DecidableEq S]

theorem advance (hi : LogInv τ s) {v : S} {t : ℕ} (ht : s.term v < t) :
    LogInv τ (s.advance v t) := by
  have hev := evolves_advance ht
  exact
    { rooted_log := hi.rooted_log
      rooted_lead := hi.rooted_lead
      log_le := fun u e he => (hi.log_le u e he).trans (hev.term u)
      base_lt := hi.base_lt
      lead_eq := hi.lead_eq
      winner_term := fun t w hw => (hi.winner_term t w hw).trans (hev.term w)
      winner_log := by
        intro w hw
        by_cases hu : w = v
        · subst hu
          simp only [State.advance_winner, State.advance_term, Function.update_self] at hw
          have := hi.winner_term t w hw
          omega
        · simp only [State.advance_winner, State.advance_term, Function.update_of_ne hu] at hw
          simpa [Function.update_of_ne hu] using hi.winner_log w hw
      acked_le := hi.acked_le
      acked_pos := fun u t h => ⟨(hi.acked_pos u t h).1, (hi.acked_pos u t h).2.trans (hev.term u)⟩
      held := by
        intro u hw
        by_cases hu : u = v
        · subst hu
          -- nothing is acknowledged in a term to come
          have hzero : s.acked u t = 0 := by
            by_contra h
            have := (hi.acked_pos u t (Nat.pos_of_ne_zero h)).2
            omega
          simp [hzero]
        · simp only [State.advance_winner, State.advance_term, Function.update_of_ne hu] at hw
          simpa [Function.update_of_ne hu] using hi.held u hw }

theorem vote (hi : LogInv τ s) (v c : S) : LogInv τ (s.vote v c) :=
  ⟨hi.rooted_log, hi.rooted_lead, hi.log_le, hi.base_lt, hi.lead_eq, hi.winner_term,
    hi.winner_log, hi.acked_le, hi.acked_pos, hi.held⟩

omit [DecidableEq S] in
theorem win (hi : LogInv τ s) {v : S} (hw : s.winner (s.term v) = none) : LogInv τ (s.win v) := by
  have hev := evolves_win hw
  have hacked := hi.acked_zero hw
  refine
    { rooted_log := fun u => (hi.rooted_log u).mono hev
      rooted_lead := ?_
      log_le := hi.log_le
      base_lt := ?_
      lead_eq := ?_
      winner_term := ?_
      winner_log := ?_
      acked_le := ?_
      acked_pos := fun u t h => ⟨hev.winner_ne (hi.acked_pos u t h).1, (hi.acked_pos u t h).2⟩
      held := ?_ }
  · intro t ht
    by_cases hne : t = s.term v
    · subst hne
      simpa using (hi.rooted_log v).mono hev
    · simp only [State.win_winner, State.win_lead, Function.update_of_ne hne] at ht ⊢
      exact (hi.rooted_lead t ht).mono hev
  · intro t ht
    by_cases hne : t = s.term v
    · subst hne
      simpa using hi.log_lt hw
    · simp only [State.win_winner, State.win_base, Function.update_of_ne hne] at ht ⊢
      exact hi.base_lt t ht
  · intro t ht
    by_cases hne : t = s.term v
    · subst hne
      exact ⟨[], by simp, by simp⟩
    · simp only [State.win_winner, State.win_lead, State.win_base, Function.update_of_ne hne] at ht ⊢
      exact hi.lead_eq t ht
  · intro t w ht
    by_cases hne : t = s.term v
    · subst hne
      simp only [State.win_winner, Function.update_self, Option.some.injEq] at ht
      exact ht ▸ Nat.le_refl _
    · exact hi.winner_term t w (by simpa [Function.update_of_ne hne] using ht)
  · intro w ht
    by_cases hne : s.term w = s.term v
    · have hwv : w = v := by simpa [hne, eq_comm] using ht
      subst hwv
      simp
    · simp only [State.win_winner, State.win_term, State.win_log, State.win_lead,
        Function.update_of_ne hne] at ht ⊢
      exact hi.winner_log w ht
  · intro u t ht
    by_cases hne : t = s.term v
    · subst hne
      simp [hacked]
    · simp only [State.win_winner, State.win_lead, Function.update_of_ne hne] at ht ⊢
      exact hi.acked_le u t ht
  · intro u ht
    by_cases hne : s.term u = s.term v
    · simp [hne, hacked]
    · simp only [State.win_winner, State.win_term, Function.update_of_ne hne] at ht
      simpa [Function.update_of_ne hne] using hi.held u ht

theorem extend (hi : LogInv τ s) {v : S} {e : E} (hw : s.winner (s.term v) = some v)
    (he : τ e = s.term v) : LogInv τ (s.extend v e) := by
  have hev := evolves_extend (s := s) v e
  have hlog := hi.winner_log v hw
  have hroot : Rooted τ (s.extend v e) (s.log v ++ [e]) := by
    intro y e' hy
    rcases List.prefix_concat_iff.mp hy with hy | hy
    · obtain ⟨rfl, h⟩ := List.append_inj' hy rfl
      obtain rfl : e' = e := by simpa using h
      exact ⟨by simp [he, hw], by simp [he, hlog]⟩
    · exact (hi.rooted_log v).mono hev y e' hy
  refine
    { rooted_log := ?_
      rooted_lead := ?_
      log_le := ?_
      base_lt := hi.base_lt
      lead_eq := ?_
      winner_term := hi.winner_term
      winner_log := ?_
      acked_le := fun u t ht => (hi.acked_le u t ht).trans (hev.lead t ht).length_le
      acked_pos := hi.acked_pos
      held := ?_ }
  · intro u
    by_cases hu : u = v
    · subst hu
      simpa using hroot
    · simpa [Function.update_of_ne hu] using (hi.rooted_log u).mono hev
  · intro t ht
    by_cases hne : t = s.term v
    · subst hne
      simpa [hlog] using hroot
    · simpa [Function.update_of_ne hne] using (hi.rooted_lead t ht).mono hev
  · intro u e' he'
    by_cases hu : u = v
    · subst hu
      simp only [State.extend_log, Function.update_self, List.mem_append,
        List.mem_singleton] at he'
      rcases he' with h | rfl
      · exact hi.log_le u e' h
      · exact he.le
    · exact hi.log_le u e' (by simpa [Function.update_of_ne hu] using he')
  · intro t ht
    obtain ⟨new, h1, h2⟩ := hi.lead_eq t ht
    by_cases hne : t = s.term v
    · subst hne
      refine ⟨new ++ [e], by simp [h1], ?_⟩
      intro e' he'
      rcases List.mem_append.mp he' with h | h
      · exact h2 e' h
      · exact (List.mem_singleton.mp h) ▸ he
    · exact ⟨new, by simpa [Function.update_of_ne hne] using h1, h2⟩
  · intro w ht
    simp only [State.extend_winner, State.extend_term] at ht
    by_cases hu : w = v
    · subst hu
      simp [hlog]
    · have hne : s.term w ≠ s.term v := by
        intro h
        rw [h, hw] at ht
        exact hu (by simpa using ht.symm)
      simpa [Function.update_of_ne hu, Function.update_of_ne hne] using hi.winner_log w ht
  · intro u ht
    simp only [State.extend_winner, State.extend_term] at ht
    have hheld := hi.held u ht
    have hle := hi.acked_le u _ ht
    by_cases hu : u = v
    · subst hu
      simpa [hlog] using List.take_prefix (s.acked u (s.term u)) (s.lead (s.term u) ++ [e])
    · by_cases hne : s.term u = s.term v
      · rw [hne] at hheld hle
        simpa [Function.update_of_ne hu, hne, List.take_append_of_le_length hle] using hheld
      · simpa [Function.update_of_ne hu, Function.update_of_ne hne] using hheld

omit [DecidableEq S] in
/-- What a server takes from the winner of its term is rooted and of terms up to it. -/
theorem adopted (hi : LogInv τ s) {v : S} {m : ℕ} {new : List E}
    (hne : s.winner (s.term v) ≠ none)
    (ha : Adopts (s.log v) ((s.lead (s.term v)).take m) new) :
    Rooted τ s new ∧ ∀ e ∈ new, τ e ≤ s.term v := by
  rcases ha with ⟨-, rfl⟩ | ⟨-, rfl⟩
  · exact ⟨hi.rooted_log v, hi.log_le v⟩
  · exact ⟨(hi.rooted_lead _ hne).of_initial (List.take_prefix _ _),
      fun e he => hi.lead_le hne e (List.mem_of_mem_take he)⟩

omit [DecidableEq S] in
/-- The acknowledged prefix of the present term is never cut. -/
theorem adopts_held (hi : LogInv τ s) {v : S} {m : ℕ} {new : List E}
    (hne : s.winner (s.term v) ≠ none)
    (ha : Adopts (s.log v) ((s.lead (s.term v)).take m) new) :
    (s.lead (s.term v)).take (max (s.acked v (s.term v)) m) <+: new := by
  have hheld := hi.held v hne
  rcases Nat.le_total (s.acked v (s.term v)) m with hm | hm
  · rw [Nat.max_eq_right hm]
    rcases ha with ⟨h1, rfl⟩ | ⟨-, rfl⟩
    · exact h1
    · exact List.prefix_refl _
  · rw [Nat.max_eq_left hm]
    rcases ha with ⟨-, rfl⟩ | ⟨h1, -⟩
    · exact hheld
    · exact absurd ((List.take_prefix_take_left hm).trans hheld) h1

theorem accept (hi : LogInv τ s) {v w : S} {m : ℕ} {new : List E}
    (hw : s.winner (s.term v) = some w) (hwv : w ≠ v) (hm : m ≤ (s.lead (s.term v)).length)
    (ha : Adopts (s.log v) ((s.lead (s.term v)).take m) new) :
    LogInv τ (s.accept v m new) := by
  have hev := evolves_accept (s := s) v m new
  have hne : s.winner (s.term v) ≠ none := by simp [hw]
  have hnew := hi.adopted hne ha
  refine
    { rooted_log := ?_
      rooted_lead := fun t ht => (hi.rooted_lead t ht).mono hev
      log_le := ?_
      base_lt := hi.base_lt
      lead_eq := hi.lead_eq
      winner_term := hi.winner_term
      winner_log := ?_
      acked_le := ?_
      acked_pos := ?_
      held := ?_ }
  · intro u
    by_cases hu : u = v
    · subst hu
      simpa using hnew.1.mono hev
    · simpa [Function.update_of_ne hu] using (hi.rooted_log u).mono hev
  · intro u e he
    by_cases hu : u = v
    · subst hu
      exact hnew.2 e (by simpa using he)
    · exact hi.log_le u e (by simpa [Function.update_of_ne hu] using he)
  · intro u ht
    have hu : u ≠ v := by
      rintro rfl
      simp only [State.accept_winner, State.accept_term, hw, Option.some.injEq] at ht
      exact hwv ht
    simpa [Function.update_of_ne hu] using hi.winner_log u ht
  · intro u t ht
    have hle := hi.acked_le u t ht
    by_cases hu : u = v
    · subst hu
      by_cases hterm : t = s.term u
      · subst hterm
        simpa using ⟨hle, hm⟩
      · simpa [Function.update_of_ne hterm] using hle
    · simpa [Function.update_of_ne hu] using hle
  · intro u t h
    by_cases hut : u = v ∧ t = s.term v
    · obtain ⟨rfl, rfl⟩ := hut
      exact ⟨hne, Nat.le_refl _⟩
    · refine hi.acked_pos u t ?_
      by_cases hu : u = v
      · subst hu
        simpa [Function.update_of_ne (fun h => hut ⟨rfl, h⟩)] using h
      · simpa [Function.update_of_ne hu] using h
  · intro u ht
    by_cases hu : u = v
    · subst hu
      simpa using hi.adopts_held hne ha
    · simpa [Function.update_of_ne hu] using hi.held u ht

end LogInv

end Replication
