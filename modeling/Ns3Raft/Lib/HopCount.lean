import Mathlib.Data.FinEnum
import Mathlib.Data.Finset.Card
import Mathlib.Data.List.Basic
import Mathlib.Logic.Function.Basic

/-! # Growing a table by hop count

A table holds one entry for each vertex that has been reached. A pass with the number `h` goes through the
edges and gives an entry to the end of an edge that has none yet, if the entry of its start counts `h` hops.
The passes end when nothing is added, and then each entry is that of a walk with as few hops as any.

Walks begin with seeds. Seeds of fewer hops than `base` are at vertices that no walk enters.
-/

namespace Ns3Raft.Lib.HopCount

variable {V E : Type} (dist : E → Nat) (extend : V → E → E)

section

variable [DecidableEq V]

/-- One edge of a pass; the flag tells that something was added. -/
def relax (h : Nat) (acc : (V → Option E) × Bool) (edge : V × V) : (V → Option E) × Bool :=
  match acc.1 edge.2, acc.1 edge.1 with
  | none, some e => if dist e = h then (Function.update acc.1 edge.2 (some (extend edge.2 e)), true) else acc
  | _, _ => acc

def pass (edges : List (V × V)) (h : Nat) (table : V → Option E) : (V → Option E) × Bool :=
  edges.foldl (relax dist extend h) (table, false)

/-- `none` when the fuel is spent before a pass adds nothing. -/
def grow (edges : List (V × V)) : Nat → Nat → (V → Option E) → Option (V → Option E)
  | 0, _, _ => none
  | fuel + 1, h, table =>
      if (pass dist extend edges h table).2 then grow edges fuel (h + 1) (pass dist extend edges h table).1
      else some (pass dist extend edges h table).1

end

/-- The entries that walks give. -/
inductive Walk (edges : List (V × V)) (base : Nat) (seed : V → E → Prop) (allowed : V → Prop) : V → E → Prop where
  | seed {v : V} {e : E} : seed v e → Walk edges base seed allowed v e
  | step {u v : V} {e : E} : Walk edges base seed allowed u e → base ≤ dist e → (u, v) ∈ edges → allowed v →
      Walk edges base seed allowed v (extend v e)

structure Sown (base : Nat) (seed : V → E → Prop) (allowed : V → Prop) : Prop where
  extend : ∀ v e, dist (extend v e) = dist e + 1
  le : ∀ v e, seed v e → dist e ≤ base
  low : ∀ v e, seed v e → dist e < base → ¬ allowed v
  high : ∀ v e, seed v e → dist e = base → allowed v

variable {dist extend} {edges edges' : List (V × V)} {base h : Nat} {seed : V → E → Prop} {allowed : V → Prop}
  {table : V → Option E} {u v : V} {e e' : E}

theorem Walk.allowed_of_le (hw : Walk dist extend edges base seed allowed v e) (hs : Sown dist extend base seed allowed)
    (hle : base ≤ dist e) : allowed v := by
  cases hw with
  | seed hseed => exact hs.high v e hseed (Nat.le_antisymm (hs.le v e hseed) hle)
  | step _ _ _ hallowed => exact hallowed

theorem Walk.not_allowed_of_lt (hw : Walk dist extend edges base seed allowed v e)
    (hs : Sown dist extend base seed allowed) (hlt : dist e < base) : ¬ allowed v := by
  cases hw with
  | seed hseed => exact hs.low v e hseed hlt
  | step _ hbase =>
    rw [hs.extend] at hlt
    omega

/-- Walks to one vertex begin with seeds of one kind. -/
theorem Walk.base_le (hw : Walk dist extend edges base seed allowed v e) (hw' : Walk dist extend edges base seed allowed v e')
    (hs : Sown dist extend base seed allowed) (hle : base ≤ dist e) : base ≤ dist e' := by
  by_contra hlt
  exact hw'.not_allowed_of_lt hs (Nat.lt_of_not_le hlt) (hw.allowed_of_le hs hle)

/-! ## Layers -/

/-- The table is right for the walks of `h` hops at most. -/
structure Layered (dist : E → Nat) (extend : V → E → E) (edges : List (V × V)) (base : Nat) (seed : V → E → Prop)
    (allowed : V → Prop) (h : Nat) (table : V → Option E) : Prop where
  sound : ∀ v e, table v = some e → Walk dist extend edges base seed allowed v e ∧ dist e ≤ h
  complete : ∀ v e, Walk dist extend edges base seed allowed v e → dist e ≤ h → ∃ e', table v = some e' ∧ dist e' ≤ dist e
  blocked : ∀ v, table v = none → allowed v

/-- What a pass has done after some of its edges. -/
structure Passing (dist : E → Nat) (extend : V → E → E) (edges : List (V × V)) (h : Nat) (table : V → Option E)
    (before : List (V × V)) (acc : (V → Option E) × Bool) : Prop where
  old : ∀ v e, table v = some e → acc.1 v = some e
  new : ∀ v e, acc.1 v = some e → table v = some e ∨
    (table v = none ∧ ∃ u e₀, (u, v) ∈ edges ∧ table u = some e₀ ∧ dist e₀ = h ∧ e = extend v e₀)
  served : ∀ edge ∈ before, ∀ e, table edge.1 = some e → dist e = h → acc.1 edge.2 ≠ none
  added : acc.2 = true → ∃ edge ∈ edges, table edge.2 = none ∧ acc.1 edge.2 ≠ none
  kept : acc.2 = false → acc.1 = table

theorem Passing.start (edges : List (V × V)) (h : Nat) (table : V → Option E) :
    Passing dist extend edges h table [] (table, false) :=
  ⟨fun _ _ hv => hv, fun _ _ hv => .inl hv, fun _ hmem => absurd hmem List.not_mem_nil, fun h => Bool.noConfusion h, fun _ => rfl⟩

/-- An edge that adds nothing leads to a vertex with an entry, or starts at one without an entry of `h` hops. -/
theorem Passing.skip {before : List (V × V)} {acc : (V → Option E) × Bool} (hp : Passing dist extend edges h table before acc)
    (hskip : ∀ e, table u = some e → dist e = h → acc.1 v ≠ none) :
    Passing dist extend edges h table (before ++ [(u, v)]) acc where
  old := hp.old
  new := hp.new
  served edge hmem := by
    rcases List.mem_append.1 hmem with hbefore | hlast
    · exact hp.served edge hbefore
    · obtain rfl := List.mem_singleton.1 hlast
      exact hskip
  added := hp.added
  kept := hp.kept

variable [DecidableEq V]

theorem Passing.add {before : List (V × V)} {acc : (V → Option E) × Bool} (hp : Passing dist extend edges h table before acc)
    (hmem : (u, v) ∈ edges) (hnone : acc.1 v = none) (hu : table u = some e) (he : dist e = h) :
    Passing dist extend edges h table (before ++ [(u, v)]) (Function.update acc.1 v (some (extend v e)), true) := by
  have hv : table v = none := by
    cases hv : table v with
    | none => rfl
    | some e' => rw [hp.old v e' hv] at hnone; exact absurd hnone (by simp)
  refine ⟨fun w e' hw => ?_, fun w e' hw => ?_, fun edge hedge e' he' hdist => ?_, fun _ => ⟨(u, v), hmem, hv, by simp⟩, fun h => Bool.noConfusion h⟩
  · dsimp only
    rw [Function.update_of_ne]
    · exact hp.old w e' hw
    · rintro rfl
      rw [hv] at hw
      exact absurd hw (by simp)
  · by_cases hwv : w = v
    · subst hwv
      dsimp only at hw
      rw [Function.update_self] at hw
      exact .inr ⟨hv, u, e, hmem, hu, he, (Option.some.inj hw).symm⟩
    · dsimp only at hw
      rw [Function.update_of_ne hwv] at hw
      exact hp.new w e' hw
  · by_cases hwv : edge.2 = v
    · rw [hwv]
      simp
    · dsimp only
      rw [Function.update_of_ne hwv]
      rcases List.mem_append.1 hedge with hbefore | hlast
      · exact hp.served edge hbefore e' he' hdist
      · exact absurd (congrArg Prod.snd (List.mem_singleton.1 hlast)) hwv

theorem Passing.relax {before : List (V × V)} {acc : (V → Option E) × Bool} (hp : Passing dist extend edges h table before acc)
    (hext : ∀ v e, dist (extend v e) = dist e + 1) (hmem : (u, v) ∈ edges) :
    Passing dist extend edges h table (before ++ [(u, v)]) (HopCount.relax dist extend h acc (u, v)) := by
  unfold HopCount.relax
  dsimp only
  cases hv : acc.1 v with
  | some e => exact hp.skip fun _ _ _ => by rw [hv]; simp
  | none =>
    cases hu : acc.1 u with
    | none =>
      refine hp.skip fun e he => ?_
      rw [hp.old u e he] at hu
      exact absurd hu (by simp)
    | some e =>
      dsimp only
      split
      · next hdist =>
        -- An entry that this pass has added counts one hop more.
        rcases hp.new u e hu with hold | ⟨-, _, e₀, -, -, hdist₀, rfl⟩
        · exact hp.add hmem hv hold hdist
        · rw [hext] at hdist
          omega
      · next hdist =>
        refine hp.skip fun e' he' hdist' => ?_
        rw [hp.old u e' he'] at hu
        obtain rfl := Option.some.inj hu
        exact absurd hdist' hdist

theorem Passing.foldl {before : List (V × V)} {acc : (V → Option E) × Bool} (later : List (V × V))
    (hp : Passing dist extend edges h table before acc) (hext : ∀ v e, dist (extend v e) = dist e + 1)
    (hmem : ∀ edge ∈ later, edge ∈ edges) :
    Passing dist extend edges h table (before ++ later) (later.foldl (HopCount.relax dist extend h) acc) := by
  induction later generalizing before acc with
  | nil => rwa [List.append_nil]
  | cons edge later ih =>
    have hstep := ih (hp.relax hext (hmem edge List.mem_cons_self)) fun edge' hedge => hmem edge' (List.mem_cons_of_mem _ hedge)
    rwa [List.append_assoc] at hstep

theorem passing_pass (hext : ∀ v e, dist (extend v e) = dist e + 1) (edges : List (V × V)) (h : Nat) (table : V → Option E) :
    Passing dist extend edges h table edges (pass dist extend edges h table) :=
  (Passing.start edges h table).foldl edges hext fun _ hedge => hedge

/-- The end of an edge has an entry if a walk of `h` hops leads to its start. -/
theorem Layered.served (hl : Layered dist extend edges base seed allowed h table) (hs : Sown dist extend base seed allowed)
    (hu : Walk dist extend edges base seed allowed u e) (hbase : base ≤ dist e) (hle : dist e ≤ h) (hmem : (u, v) ∈ edges)
    (hallowed : allowed v) :
    ∃ e', (pass dist extend edges h table).1 v = some e' ∧ dist e' ≤ dist e + 1 := by
  have hp := passing_pass hs.extend edges h table
  obtain ⟨e₀, he₀, hdist₀⟩ := hl.complete u e hu hle
  have hwalk := (hl.sound u e₀ he₀).1
  rcases Nat.lt_or_eq_of_le (hdist₀.trans hle) with hlt | heq
  · -- The start has an entry of an earlier layer, so its successors have one too.
    have hstep : Walk dist extend edges base seed allowed v (extend v e₀) :=
      .step hwalk (hu.base_le hwalk hs hbase) hmem hallowed
    obtain ⟨e', he', hdist'⟩ := hl.complete v _ hstep (by rw [hs.extend]; omega)
    rw [hs.extend] at hdist'
    exact ⟨e', hp.old v e' he', by omega⟩
  · obtain ⟨e', he'⟩ := Option.ne_none_iff_exists'.1 (hp.served (u, v) hmem e₀ he₀ heq)
    refine ⟨e', he', ?_⟩
    rcases hp.new v e' he' with hold | ⟨-, _, e₁, -, -, hdist₁, rfl⟩
    · have hle' := (hl.sound v e' hold).2
      omega
    · rw [hs.extend]
      omega

theorem Layered.pass (hl : Layered dist extend edges base seed allowed h table) (hs : Sown dist extend base seed allowed)
    (hbase : base ≤ h) : Layered dist extend edges base seed allowed (h + 1) (HopCount.pass dist extend edges h table).1 := by
  have hp := passing_pass hs.extend edges h table
  refine ⟨fun v e hv => ?_, fun v e hwalk hle => ?_, fun v hv => ?_⟩
  · rcases hp.new v e hv with hold | ⟨hnone, u, e₀, hmem, hu, hdist, rfl⟩
    · exact ⟨(hl.sound v e hold).1, Nat.le_succ_of_le (hl.sound v e hold).2⟩
    · exact ⟨.step (hl.sound u e₀ hu).1 (by omega) hmem (hl.blocked v hnone), by rw [hs.extend]; omega⟩
  · rcases Nat.lt_or_eq_of_le hle with hlt | heq
    · obtain ⟨e', he', hdist'⟩ := hl.complete v e hwalk (by omega)
      exact ⟨e', hp.old v e' he', hdist'⟩
    · cases hwalk with
      | seed hseed =>
        have hle' := hs.le v e hseed
        omega
      | step hu hbase' hmem hallowed =>
        rw [hs.extend] at heq
        obtain ⟨e', he', hdist'⟩ := hl.served hs hu hbase' (by omega) hmem hallowed
        exact ⟨e', he', by rw [hs.extend]; exact hdist'⟩
  · refine hl.blocked v ?_
    cases hold : table v with
    | none => rfl
    | some e => rw [hp.old v e hold] at hv; exact absurd hv (by simp)

/-- The table has the fewest hops for each vertex that a walk leads to. -/
structure Shortest (dist : E → Nat) (extend : V → E → E) (edges : List (V × V)) (base : Nat) (seed : V → E → Prop)
    (allowed : V → Prop) (table : V → Option E) : Prop where
  sound : ∀ v e, table v = some e → Walk dist extend edges base seed allowed v e
  complete : ∀ v e, Walk dist extend edges base seed allowed v e → ∃ e', table v = some e' ∧ dist e' ≤ dist e

/-- A pass that adds nothing leaves nothing to add. -/
theorem Layered.shortest (hl : Layered dist extend edges base seed allowed h table) (hs : Sown dist extend base seed allowed)
    (hbase : base ≤ h) (hkept : (HopCount.pass dist extend edges h table).2 = false) :
    Shortest dist extend edges base seed allowed (HopCount.pass dist extend edges h table).1 := by
  have htable := (passing_pass hs.extend edges h table).kept hkept
  refine ⟨fun v e hv => ((hl.pass hs hbase).sound v e hv).1, fun v e hwalk => ?_⟩
  rw [htable]
  induction hwalk with
  | seed hseed => exact hl.complete _ _ (.seed hseed) ((hs.le _ _ hseed).trans hbase)
  | step hu hbase' hmem hallowed ih =>
    obtain ⟨e₀, he₀, hdist₀⟩ := ih
    have hsound := hl.sound _ e₀ he₀
    obtain ⟨e', he', hdist'⟩ := hl.served hs hsound.1 (hu.base_le hsound.1 hs hbase') hsound.2 hmem hallowed
    rw [htable] at he'
    exact ⟨e', he', by rw [hs.extend]; omega⟩

/-! ## Termination -/

/-- The ends of edges that have no entry. -/
def missing (edges : List (V × V)) (table : V → Option E) : Finset V :=
  (edges.map Prod.snd).toFinset.filter fun v => (table v).isNone = true

theorem missing_card_le (edges : List (V × V)) (table : V → Option E) : (missing edges table).card ≤ edges.length :=
  (Finset.card_filter_le _ _).trans ((List.toFinset_card_le _).trans (by rw [List.length_map]))

theorem missing_pass_lt (hext : ∀ v e, dist (extend v e) = dist e + 1)
    (hadded : (HopCount.pass dist extend edges h table).2 = true) :
    (missing edges (HopCount.pass dist extend edges h table).1).card < (missing edges table).card := by
  have hp := passing_pass hext edges h table
  obtain ⟨edge, hedge, hnone, hsome⟩ := hp.added hadded
  refine Finset.card_lt_card (Finset.ssubset_iff_of_subset (fun v hv => ?_) |>.2 ⟨edge.2, ?_, ?_⟩)
  · rw [missing, Finset.mem_filter] at hv ⊢
    refine ⟨hv.1, ?_⟩
    cases hold : table v with
    | none => rfl
    | some e =>
      rw [hp.old v e hold] at hv
      exact absurd hv.2 (by simp)
  · rw [missing, Finset.mem_filter, List.mem_toFinset, hnone]
    exact ⟨List.mem_map_of_mem hedge, rfl⟩
  · rw [missing, Finset.mem_filter, Option.isNone_iff_eq_none]
    exact fun hmem => hsome hmem.2

/-- With more fuel than there are edges the passes end, and the table has the fewest hops. -/
theorem Layered.grow (hl : Layered dist extend edges base seed allowed h table) (hs : Sown dist extend base seed allowed)
    (hbase : base ≤ h) : ∃ table', (∀ fuel, (missing edges table).card < fuel →
      HopCount.grow dist extend edges fuel h table = some table') ∧ Shortest dist extend edges base seed allowed table' := by
  induction hcard : (missing edges table).card using Nat.strongRecOn generalizing h table with
  | ind n ih =>
    cases hadded : (HopCount.pass dist extend edges h table).2 with
    | false =>
      refine ⟨_, fun fuel hfuel => ?_, hl.shortest hs hbase hadded⟩
      cases fuel with
      | zero => omega
      | succ fuel => simp only [HopCount.grow, hadded, Bool.false_eq_true, if_false]
    | true =>
      have hlt := missing_pass_lt hs.extend hadded
      obtain ⟨table', hgrow, hshort⟩ := ih _ (by omega) (hl.pass hs hbase) (by omega) rfl
      refine ⟨table', fun fuel hfuel => ?_, hshort⟩
      cases fuel with
      | zero => omega
      | succ fuel =>
        simp only [HopCount.grow, hadded, if_true]
        exact hgrow fuel (by omega)

/-! ## Hops and vertices -/

/-- An entry of more than one hop has another one of a hop less. -/
def Chained (dist : E → Nat) (table : V → Option E) : Prop :=
  ∀ v e, table v = some e → 1 < dist e → ∃ u e', table u = some e' ∧ dist e' + 1 = dist e

theorem Chained.pass (hc : Chained dist table) (hext : ∀ v e, dist (extend v e) = dist e + 1) :
    Chained dist (HopCount.pass dist extend edges h table).1 := by
  have hp := passing_pass hext edges h table
  intro v e hv hlt
  rcases hp.new v e hv with hold | ⟨-, u, e₀, -, hu, -, rfl⟩
  · obtain ⟨u, e', hu, hdist⟩ := hc v e hold hlt
    exact ⟨u, e', hp.old u e' hu, hdist⟩
  · exact ⟨u, e₀, hp.old u e₀ hu, (hext v e₀).symm⟩

theorem Chained.grow {fuel : Nat} {table' : V → Option E} (hc : Chained dist table)
    (hext : ∀ v e, dist (extend v e) = dist e + 1) (hgrow : HopCount.grow dist extend edges fuel h table = some table') :
    Chained dist table' := by
  induction fuel generalizing h table with
  | zero => exact absurd hgrow (by simp [HopCount.grow])
  | succ fuel ih =>
    rw [HopCount.grow] at hgrow
    split at hgrow
    · exact ih (hc.pass hext) hgrow
    · exact Option.some.inj hgrow ▸ hc.pass hext

omit [DecidableEq V] in
/-- All smaller numbers of hops occur. -/
theorem Chained.exists_of_le (hc : Chained dist table) (hv : table v = some e) {k : Nat} (hpos : 0 < k) (hle : k ≤ dist e) :
    ∃ u e', table u = some e' ∧ dist e' = k := by
  induction hn : dist e - k generalizing v e with
  | zero => exact ⟨v, e, hv, by omega⟩
  | succ n ih =>
    obtain ⟨u, e', hu, hdist⟩ := hc v e hv (by omega)
    exact ih hu (by omega) (by omega)

omit [DecidableEq V] in
/-- No entry counts more hops than there are vertices. -/
theorem Chained.le_card [FinEnum V] (hc : Chained dist table) (hv : table v = some e) : dist e ≤ FinEnum.card V := by
  have hall : ∀ k : Fin (dist e), ∃ u, ∃ e', table u = some e' ∧ dist e' = k + 1 := fun k =>
    hc.exists_of_le hv (Nat.succ_pos k) k.isLt
  choose vertex hvertex using hall
  have hinj : Function.Injective vertex := by
    intro k k' heq
    obtain ⟨e₁, he₁, hdist₁⟩ := hvertex k
    obtain ⟨e₂, he₂, hdist₂⟩ := hvertex k'
    rw [heq, he₂] at he₁
    obtain rfl := Option.some.inj he₁
    exact Fin.ext (by omega)
  have hcard := Fintype.card_le_of_injective _ (FinEnum.equiv.injective.comp hinj)
  rwa [Fintype.card_fin, Fintype.card_fin] at hcard

end Ns3Raft.Lib.HopCount
