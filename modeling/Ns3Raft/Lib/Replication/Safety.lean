import Ns3Raft.Lib.Replication.Preservation

/-! # What the replication invariant gives

A prefix that a majority holds, and whose last entry is of the term it is held
in, is below every later winner; two such prefixes are therefore comparable.
-/

namespace Replication

open Majority

variable {S E : Type*} {τ : E → ℕ} {U : Finset S} {s s' : State S E}

/-! ## Chosen prefixes -/

/-- The first `n` entries that the winner of `t` led are held by a majority, and
the last of them is of term `t`. -/
def Chosen (τ : E → ℕ) (U : Finset S) (s : State S E) (t n : ℕ) : Prop :=
  (∃ h : n - 1 < (s.lead t).length, 0 < n ∧ τ (s.lead t)[n - 1] = t) ∧
    ∃ R, IsMajority U R ∧ ∀ v ∈ R, Holds s v t n

theorem Chosen.won {t n : ℕ} (h : Chosen τ U s t n) : s.winner t ≠ none := by
  obtain ⟨-, R, hR, hall⟩ := h
  obtain ⟨v, hv⟩ := hR.nonempty
  exact (hall v hv).1

theorem Chosen.le_length {t n : ℕ} (h : Chosen τ U s t n) : n ≤ (s.lead t).length := by
  obtain ⟨⟨h1, h2, -⟩, -⟩ := h
  omega

theorem Holds.mono (h : Evolves s s') {v : S} {t i : ℕ} (hh : Holds s v t i) :
    Holds s' v t i :=
  ⟨h.winner_ne hh.1, hh.2.1.trans (h.lead t hh.1).length_le,
    hh.2.2.imp (fun h1 => h1.trans (h.acked v t)) (h.winner t v)⟩

theorem Chosen.mono (h : Evolves s s') {t n : ℕ} (hc : Chosen τ U s t n) :
    Chosen τ U s' t n := by
  have hw := hc.won
  obtain ⟨⟨h1, h2, h3⟩, R, hR, hall⟩ := hc
  have hp := h.lead t hw
  refine ⟨⟨h1.trans_le hp.length_le, h2, ?_⟩, R, hR, fun v hv => (hall v hv).mono h⟩
  rw [← hp.getElem h1]
  exact h3

theorem lastTerm_of_pos (τ : E → ℕ) {l : List E} (h : 0 < l.length) :
    lastTerm τ l = τ (l[l.length - 1]) := by
  have hne : l ≠ [] := by
    rintro rfl
    simp at h
  simp [lastTerm, List.getLast?_eq_getLast_of_ne_nil hne, List.getLast_eq_getElem]

variable [DecidableEq S]

/-- Leader completeness, by induction on the later term: a voter of its winner
also holds the chosen prefix, and the base beats that voter's log. -/
theorem Inv.chosen_base (hi : Inv τ U s) {t n : ℕ} (hc : Chosen τ U s t n) :
    ∀ t', t < t' → s.winner t' ≠ none → (s.lead t).take n <+: s.base t' := by
  intro t'
  induction t' using Nat.strong_induction_on with
  | _ t' ih =>
      intro htt' hw'
      obtain ⟨w, hw⟩ := Option.ne_none_iff_exists'.mp hw'
      obtain ⟨⟨hlen, hpos, hterm⟩, R, hR, hheld⟩ := hc
      obtain ⟨Q, hQ, hvotes⟩ := hi.elected t' w hw
      obtain ⟨u, huQ, huR⟩ := hQ.meet hR
      obtain ⟨l, hl, hup, hkept⟩ := hvotes u huQ
      have hwon := (hheld u huR).1
      have hP : (s.lead t).take n <+: l := by
        rcases hkept t htt' n (hheld u huR) with h | ⟨t₂, h1, h2, h3, h4⟩
        · exact h
        · exact absurd (ih t₂ (by omega) h1 h3) h4
      have hPlen : ((s.lead t).take n).length = n := by
        rw [List.length_take]
        omega
      have hnl : n ≤ l.length := hPlen ▸ hP.length_le
      have hroot : Rooted τ s l := hi.rooted_ballot u t' w l hl
      have hln : τ (l[n - 1]) = t := by
        rw [← hP.getElem (by omega : n - 1 < ((s.lead t).take n).length)]
        simpa using hterm
      have hlast : t ≤ lastTerm τ l := by
        rw [lastTerm_of_pos τ (by omega)]
        exact hln.symm.le.trans (hi.term_le hroot (by omega) (by omega))
      have hbpos : 0 < (s.base t').length := by
        rcases hup with h | h
        · by_contra hz
          have hnil : s.base t' = [] := List.length_eq_zero_iff.mp (by omega)
          simp [hnil, lastTerm] at h
        · omega
      have hbroot : Rooted τ s (s.base t') :=
        (hi.rooted_lead t' hw').of_initial (hi.base_initial hw')
      -- the term the base ends in
      obtain ⟨t₂, ht₂⟩ : ∃ t₂, lastTerm τ (s.base t') = t₂ := ⟨_, rfl⟩
      have hend := hbroot.getElem (i := (s.base t').length - 1) (by omega)
      rw [← lastTerm_of_pos τ hbpos, ht₂, Nat.sub_add_cancel hbpos, List.take_length] at hend
      have hlt : t₂ < t' := by
        rw [← ht₂, lastTerm_of_pos τ hbpos]
        exact hi.base_lt t' hw' _ (List.getElem_mem _)
      have hge : lastTerm τ l ≤ t₂ := by
        rw [← ht₂]
        rcases hup with h | h
        · exact h.le
        · exact h.1.ge
      rcases Nat.lt_or_ge t t₂ with htt₂ | htt₂
      · have hbase := ih t₂ hlt htt₂ hend.1
        have hlong : (s.base t₂).length ≤ (s.base t').length - 1 := by
          refine hi.base_lt_length hend.1 (by have := hend.2.length_le; omega) ?_
          rw [← hend.2.getElem (by omega), ← lastTerm_of_pos τ hbpos, ht₂]
        exact hbase.trans (List.prefix_of_prefix_length_le (hi.base_initial hend.1) hend.2
          (by omega))
      · obtain rfl : t₂ = t := by omega
        have hlen' : l.length ≤ (s.base t').length := by
          rcases hup with h | h
          · omega
          · exact h.2
        exact List.prefix_of_prefix_length_le (List.take_prefix n _) hend.2 (by omega)

theorem Inv.chosen_lead (hi : Inv τ U s) {t n t' : ℕ} (hc : Chosen τ U s t n) (h : t ≤ t')
    (hw : s.winner t' ≠ none) : (s.lead t).take n <+: s.lead t' := by
  rcases Nat.lt_or_eq_of_le h with h | rfl
  · exact (hi.chosen_base hc t' h hw).trans (hi.base_initial hw)
  · exact List.take_prefix n _

/-- State machine safety: chosen prefixes hold the same entry at every index they share. -/
theorem Inv.chosen_agree (hi : Inv τ U s) {t n t' n' i : ℕ} (hc : Chosen τ U s t n)
    (hc' : Chosen τ U s t' n') (h : i < n) (h' : i < n') :
    (s.lead t)[i]? = (s.lead t')[i]? := by
  wlog hle : t ≤ t' generalizing t t' n n'
  · exact (this hc' hc h' h (by omega)).symm
  have hp := hi.chosen_lead hc hle hc'.won
  have hlen := hc.le_length
  obtain ⟨z, hz⟩ := hp
  rw [← hz, List.getElem?_append_left (by rw [List.length_take]; omega),
    List.getElem?_take_of_lt h]

/-! ## Prefixes that stay -/

/-- The first `q` entries of `v`, those to come included, are part of a chosen prefix of its term or of
an earlier one. Who is alone needs nobody else. -/
def Firm (τ : E → ℕ) (U : Finset S) (s : State S E) (v : S) (q : ℕ) : Prop :=
  U = {v} ∨ q = 0 ∨
    ∃ t n, Chosen τ U s t n ∧ q ≤ n ∧ t ≤ s.term v ∧ (s.log v).take q <+: s.lead t

omit [DecidableEq S] in
theorem Firm.anti {v : S} {q q' : ℕ} (h : Firm τ U s v q) (hle : q' ≤ q) : Firm τ U s v q' := by
  rcases h with h | rfl | ⟨t, n, hc, hn, ht, hp⟩
  · exact .inl h
  · exact .inr (.inl (Nat.le_zero.mp hle))
  · exact .inr (.inr ⟨t, n, hc, hle.trans hn, ht, (List.take_prefix_take_left hle).trans hp⟩)

/-- Later leaders have the first entries of a chosen prefix in the same places. -/
theorem Inv.chosen_take (hi : Inv τ U s) {t n t' q : ℕ} (hc : Chosen τ U s t n) (h : t ≤ t')
    (hw : s.winner t' ≠ none) (hq : q ≤ n) : (s.lead t').take q = (s.lead t).take q := by
  have hp := List.prefix_iff_eq_take.mp (hi.chosen_lead hc h hw)
  have hlen := hc.le_length
  have htake := congrArg (List.take q) hp
  rw [List.take_take, List.take_take, List.length_take] at htake
  rw [show min q n = q by omega, show min q (min n (s.lead t).length) = q by omega] at htake
  exact htake.symm

/-- What a step does to the log of `v`. -/
theorem Step.log_cases (h : Step τ U s s') (v : S) :
    s'.log v = s.log v ∨
      (∃ e, s.winner (s.term v) = some v ∧ s'.log v = s.log v ++ [e]) ∨
      ∃ m, s.winner (s.term v) ≠ none ∧ m ≤ (s.lead (s.term v)).length ∧
        ¬ (s.lead (s.term v)).take m <+: s.log v ∧ s'.log v = (s.lead (s.term v)).take m := by
  cases h with
  | advance u t _ => exact .inl rfl
  | vote u c l _ _ _ => exact .inl rfl
  | win u Q _ _ _ => exact .inl rfl
  | extend u e hw _ =>
      by_cases hu : v = u
      · subst hu
        exact .inr (.inl ⟨e, hw, by simp⟩)
      · exact .inl (by simp [Function.update_of_ne hu])
  | accept u w m new hw _ hm ha =>
      by_cases hu : v = u
      · subst hu
        rcases ha with ⟨-, rfl⟩ | ⟨hcut, rfl⟩
        · exact .inl (by simp)
        · exact .inr (.inr ⟨m, by simp [hw], hm, hcut, by simp⟩)
      · exact .inl (by simp [Function.update_of_ne hu])

/-- What `v` has of a firm prefix stays. -/
theorem Firm.keeps (hi : Inv τ U s) (hstep : Step τ U s s') {v : S} {q : ℕ} (h : Firm τ U s v q)
    (halone : U = {v} → s.log v <+: s'.log v) (hq : q ≤ (s.log v).length) :
    q ≤ (s'.log v).length ∧ (s'.log v).take q = (s.log v).take q := by
  have hgrown : s.log v <+: s'.log v →
      q ≤ (s'.log v).length ∧ (s'.log v).take q = (s.log v).take q := by
    rintro ⟨z, hz⟩
    rw [← hz, List.length_append, List.take_append_of_le_length hq]
    exact ⟨by omega, rfl⟩
  rcases h with h | rfl | ⟨t, n, hc, hn, ht, hp⟩
  · exact hgrown (halone h)
  · simp
  rcases hstep.log_cases v with hlog | ⟨e, -, hlog⟩ | ⟨m, hw, hm, hcut, hlog⟩
  · exact hgrown (hlog ▸ List.prefix_refl _)
  · exact hgrown (hlog ▸ List.prefix_append _ _)
  · have hlead := hi.chosen_take hc ht hw hn
    have hhad : (s.log v).take q = (s.lead (s.term v)).take q := by
      rw [hlead, List.prefix_iff_eq_take.mp hp, List.length_take, Nat.min_eq_left hq]
    -- a cut inside of the prefix would have cut nothing
    have hqm : q ≤ m := by
      by_contra hmq
      refine hcut ?_
      have htake := congrArg (List.take m) hhad
      rw [List.take_take, List.take_take, Nat.min_eq_left (by omega)] at htake
      exact htake ▸ List.take_prefix _ _
    rw [hlog, List.length_take, List.take_take, Nat.min_eq_left hqm, hhad]
    exact ⟨by omega, rfl⟩

theorem Firm.step (hi : Inv τ U s) (hstep : Step τ U s s') {v : S} {q : ℕ} (h : Firm τ U s v q) :
    Firm τ U s' v q := by
  have hev := hstep.evolves
  rcases h with h | rfl | ⟨t, n, hc, hn, ht, hp⟩
  · exact .inl h
  · exact .inr (.inl rfl)
  refine .inr (.inr ⟨t, n, hc.mono hev, hn, ht.trans (hev.term v), ?_⟩)
  refine List.IsPrefix.trans ?_ (hev.lead t hc.won)
  rcases hstep.log_cases v with hlog | ⟨e, hw, hlog⟩ | ⟨m, hw, hm, hcut, hlog⟩
  · rwa [hlog]
  · -- a leader has all of what is chosen
    have hlen := (hi.chosen_lead hc ht (by simp [hw])).length_le
    rw [List.length_take, Nat.min_eq_left hc.le_length, ← hi.winner_log v hw] at hlen
    rwa [hlog, List.take_append_of_le_length (by omega)]
  · rw [hlog, List.take_take, Nat.min_comm, ← List.take_take, hi.chosen_take hc ht hw hn, List.take_take]
    exact List.take_prefix _ _

/-- The entry at `i` is in a chosen prefix, or in the log of who is alone. -/
def Settled (τ : E → ℕ) (U : Finset S) (s : State S E) (i : ℕ) (e : E) : Prop :=
  (∃ v, U = {v} ∧ (s.log v)[i]? = some e) ∨
    ∃ t n, Chosen τ U s t n ∧ i < n ∧ (s.lead t)[i]? = some e

omit [DecidableEq S] in
theorem Firm.getElem? {v : S} {q i t : ℕ} (hp : (s.log v).take q <+: s.lead t) (hq : i < q)
    (hlen : i < (s.log v).length) : (s.log v)[i]? = (s.lead t)[i]? := by
  obtain ⟨z, hz⟩ := hp
  rw [← hz, List.getElem?_append_left (by rw [List.length_take]; omega), List.getElem?_take_of_lt hq]

omit [DecidableEq S] in
theorem Firm.settled {v : S} {q i : ℕ} {e : E} (h : Firm τ U s v q) (hq : i < q)
    (he : (s.log v)[i]? = some e) : Settled τ U s i e := by
  obtain ⟨hlen, -⟩ := List.getElem?_eq_some_iff.mp he
  rcases h with h | rfl | ⟨t, n, hc, hn, -, hp⟩
  · exact .inl ⟨v, h, he⟩
  · omega
  · exact .inr ⟨t, n, hc, by omega, Firm.getElem? hp hq hlen ▸ he⟩

omit [DecidableEq S] in
theorem Settled.mono (hev : Evolves s s') (halone : ∀ v, U = {v} → s.log v <+: s'.log v) {i : ℕ} {e : E}
    (h : Settled τ U s i e) : Settled τ U s' i e := by
  have hgrown : ∀ {x y : List E}, x <+: y → x[i]? = some e → y[i]? = some e := by
    rintro x y ⟨z, rfl⟩ he
    obtain ⟨hlen, -⟩ := List.getElem?_eq_some_iff.mp he
    rwa [List.getElem?_append_left hlen]
  rcases h with ⟨v, h, he⟩ | ⟨t, n, hc, hn, he⟩
  · exact .inl ⟨v, h, hgrown (halone v h) he⟩
  · exact .inr ⟨t, n, hc.mono hev, hn, hgrown (hev.lead t hc.won) he⟩

/-- A firm prefix has every settled entry in its place. -/
theorem Settled.agree (hi : Inv τ U s) {v : S} {q i : ℕ} {e : E} (h : Settled τ U s i e) (hv : v ∈ U)
    (hf : Firm τ U s v q) (hq : i < q) (hlen : i < (s.log v).length) : (s.log v)[i]? = some e := by
  rcases h with ⟨u, rfl, he⟩ | ⟨t, n, hc, hn, he⟩
  · rwa [Finset.mem_singleton.mp hv]
  have hchosen := hc
  rcases hf with rfl | rfl | ⟨t', n', hc', hn', -, hp'⟩
  · -- a majority of one has kept what it holds
    obtain ⟨-, R, hR, hheld⟩ := hc
    obtain ⟨u, hu⟩ := hR.nonempty
    obtain rfl := Finset.mem_singleton.mp (hR.1 hu)
    rcases hi.kept_log u t n (hheld u hu) with hp | ⟨t', h1, -, h3, h4⟩
    · obtain ⟨z, hz⟩ := hp
      have hlead := (List.getElem?_eq_some_iff.mp he).1
      rw [← hz, List.getElem?_append_left (by rw [List.length_take]; omega), List.getElem?_take_of_lt hn, he]
    · exact absurd (hi.chosen_base hchosen t' h1 h3) h4
  · omega
  · rw [Firm.getElem? hp' hq hlen, ← he]
    exact hi.chosen_agree hc' hc (by omega) hn

omit [DecidableEq S] in
/-- What the winner of its term has chosen is firm with it. -/
theorem Inv.firm_of_chosen (hi : Inv τ U s) {v : S} {n : ℕ} (hw : s.winner (s.term v) = some v)
    (hc : Chosen τ U s (s.term v) n) : Firm τ U s v n :=
  .inr (.inr ⟨s.term v, n, hc, Nat.le_refl _, Nat.le_refl _, by
    rw [hi.winner_log v hw]
    exact List.take_prefix _ _⟩)

/-- What is chosen by the present term is firm for who has no entries that differ from its winner's. -/
theorem Inv.firm_of_agree (hi : Inv τ U s) {v : S} {t n q : ℕ} (hw : s.winner (s.term v) ≠ none)
    (hc : Chosen τ U s t n) (ht : t ≤ s.term v) (hq : q ≤ n)
    (hp : (s.log v).take q <+: s.lead (s.term v)) : Firm τ U s v q := by
  refine .inr (.inr ⟨t, n, hc, hq, ht, ?_⟩)
  have hle : ((s.log v).take q).length ≤ q := by
    rw [List.length_take]
    omega
  have htake := List.prefix_iff_eq_take.mp hp
  rw [htake, hi.chosen_take hc ht hw (hle.trans hq)]
  exact List.take_prefix _ _

end Replication
