import Mathlib.Algebra.Order.Ring.Int
import Mathlib.Data.List.Nodup
import Mathlib.Logic.Function.Basic

/-! # Deficit round robin

Flows wait in two lists, the fresh ones in front of the old ones. The flow at the front
is served while its deficit is positive, and otherwise gets a refill and goes to the end.
-/

namespace Ns3Raft.Lib

structure RoundRobin (F : Type) where
  fresh : List F
  old : List F
  deficit : F → Int

namespace RoundRobin

variable {F : Type}

/-! ## Two flows in a list -/

variable {a b f : F} {rest : List F}

theorem mem_of_sublist (h : List.Sublist [a, b] rest) : a ∈ rest ∧ b ∈ rest :=
  ⟨h.subset List.mem_cons_self, h.subset (List.mem_cons_of_mem a (List.mem_singleton.mpr rfl))⟩

theorem sublist_or_sublist (hne : a ≠ b) (ha : a ∈ rest) (hb : b ∈ rest) :
    List.Sublist [a, b] rest ∨ List.Sublist [b, a] rest := by
  induction rest with
  | nil => cases ha
  | cons f rest ih =>
      rcases List.mem_cons.mp ha with rfl | ha'
      · rcases List.mem_cons.mp hb with rfl | hb'
        · exact absurd rfl hne
        · exact Or.inl ((List.singleton_sublist.mpr hb').cons_cons a)
      rcases List.mem_cons.mp hb with rfl | hb'
      · exact Or.inr ((List.singleton_sublist.mpr ha').cons_cons b)
      · exact (ih ha' hb').imp (·.cons f) (·.cons f)

theorem sublist_rotate (hne : f ≠ a) (h : List.Sublist [a, b] (f :: rest)) : List.Sublist [a, b] (rest ++ [f]) :=
  (h.of_cons_of_ne hne.symm).trans (List.sublist_append_left rest [f])

theorem sublist_rotate_head (h : List.Sublist [a, b] (a :: rest)) (hne : a ≠ b) :
    List.Sublist [b, a] (rest ++ [a]) :=
  List.Sublist.append (List.singleton_sublist.mpr (List.mem_of_ne_of_mem hne.symm (mem_of_sublist h).2))
    (List.Sublist.refl [a])

theorem not_sublist_head (hnodup : (b :: rest).Nodup) (hne : a ≠ b) : ¬List.Sublist [a, b] (b :: rest) := fun h =>
  (List.nodup_cons.mp hnodup).1 (mem_of_sublist (h.of_cons_of_ne hne)).2

/-- The flow at the front of the fresh ones goes to the end of the old ones. -/
theorem perm_demote (f : F) (fresh old : List F) : (fresh ++ (old ++ [f])).Perm (f :: (fresh ++ old)) := by
  rw [← List.append_assoc]
  exact List.perm_append_singleton f (fresh ++ old)

/-! ## Lists and deficits -/

/-- Every flow is in one of the lists once. -/
def Listed (s : RoundRobin F) : Prop := (s.fresh ++ s.old).Nodup

/-- The deficits of the flows that wait. -/
def Ranged (q M : Int) (s : RoundRobin F) : Prop := ∀ f ∈ s.fresh ++ s.old, -M < s.deficit f ∧ s.deficit f ≤ q

/-- While both wait in the old list, refills of `a` and of `b` alternate: from the deficits `x` and `y` on, `a` has had
as many as `b`, and one more when it is behind `b`. It has not sent anything since that one. -/
def Lead (q M : Int) (a b : F) (A B : Int) (t : RoundRobin F) : Prop :=
  ∃ x y, (-M < x ∧ x ≤ q) ∧ (-M < y ∧ y ≤ q) ∧
    (List.Sublist [a, b] t.old ∧ A + t.deficit a - x = B + t.deficit b - y ∨
      List.Sublist [b, a] t.old ∧ A + t.deficit a - x = B + t.deficit b - y + q ∧ q - M < t.deficit a)

def Within (q M A B : Int) : Prop := A - B ≤ 2 * q + 2 * M ∧ B - A ≤ 2 * q + 2 * M

/-- A flow that has to be selected as a fresh one before it is an old one again. -/
def Gone (a : F) (t : RoundRobin F) : Prop := a ∉ t.old ∧ (a ∈ t.fresh → 0 < t.deficit a)

variable {s t : RoundRobin F} {q M A B : Int}

theorem Listed.apart (hs : Listed s) (hf : f ∈ s.fresh) (ha : a ∈ s.old) : a ≠ f := fun heq =>
  (List.nodup_append.mp hs).2.2 f hf a ha heq.symm

theorem Lead.mem (h : Lead q M a b A B s) : a ∈ s.old ∧ b ∈ s.old := by
  obtain ⟨x, y, -, -, ⟨hsub, -⟩ | ⟨hsub, -⟩⟩ := h
  · exact mem_of_sublist hsub
  · exact (mem_of_sublist hsub).symm

/-- A step about other flows. -/
theorem Lead.keep (h : Lead q M a b A B s) (hab : List.Sublist [a, b] s.old → List.Sublist [a, b] t.old)
    (hba : List.Sublist [b, a] s.old → List.Sublist [b, a] t.old) (ha : t.deficit a = s.deficit a)
    (hb : t.deficit b = s.deficit b) : Lead q M a b A B t := by
  obtain ⟨x, y, hx, hy, h⟩ := h
  refine ⟨x, y, hx, hy, ?_⟩
  rw [ha, hb]
  exact h.imp (And.imp_left hab) (And.imp_left hba)

theorem Lead.within (hq : 0 < q) (hs : Ranged q M s) (h : Lead q M a b A B s) : Within q M A B := by
  have ha := hs a (List.mem_append_right _ h.mem.1)
  have hb := hs b (List.mem_append_right _ h.mem.2)
  obtain ⟨x, y, hx, hy, ⟨-, heq⟩ | ⟨-, heq, hlast⟩⟩ := h
  · constructor <;> omega
  · constructor <;> omega

/-! ## Steps -/

variable [DecidableEq F]

/-- How deficits begin, and what a refill and a packet do to them. -/
structure Rules where
  initial : Int
  refill : Int → Int
  charge : Int → Nat → Int

/-- A step that selects no flow. -/
inductive Internal (r : Rules) : RoundRobin F → RoundRobin F → Prop where
  | join {fresh old d} (f : F) (hnot : f ∉ fresh ++ old) :
      Internal r ⟨fresh, old, d⟩ ⟨fresh ++ [f], old, Function.update d f r.initial⟩
  | demote {fresh old d} (f : F) (hd : d f ≤ 0) :
      Internal r ⟨f :: fresh, old, d⟩ ⟨fresh, old ++ [f], Function.update d f (r.refill (d f))⟩
  | rotate {old d} (f : F) (hd : d f ≤ 0) :
      Internal r ⟨[], f :: old, d⟩ ⟨[], old ++ [f], Function.update d f (r.refill (d f))⟩

/-- The selection of the flow at the front, with the bytes that it sends. -/
inductive Select (r : Rules) : RoundRobin F → Option (F × Nat) → RoundRobin F → Prop where
  | idleFresh {fresh old d} (f : F) (hd : 0 < d f) :
      Select r ⟨f :: fresh, old, d⟩ none ⟨fresh, old ++ [f], d⟩
  | idleOld {old d} (f : F) (hd : 0 < d f) : Select r ⟨[], f :: old, d⟩ none ⟨[], old, d⟩
  | serveFresh {fresh old d} (f : F) (n : Nat) (hd : 0 < d f) :
      Select r ⟨f :: fresh, old, d⟩ (some (f, n)) ⟨f :: fresh, old, Function.update d f (r.charge (d f) n)⟩
  | serveOld {old d} (f : F) (n : Nat) (hd : 0 < d f) :
      Select r ⟨[], f :: old, d⟩ (some (f, n)) ⟨[], f :: old, Function.update d f (r.charge (d f) n)⟩

/-- Steps with all that is sent in them, where every selection is from a state with `P`. -/
inductive Path (r : Rules) (P : RoundRobin F → Prop) : RoundRobin F → List (F × Nat) → RoundRobin F → Prop where
  | refl (s : RoundRobin F) : Path r P s [] s
  | internal {s t u l} (h : Path r P s l t) (hstep : Internal r t u) : Path r P s l u
  | select {s t u l o} (h : Path r P s l t) (ht : P t) (hstep : Select r t o u) : Path r P s (l ++ o.toList) u

variable {r : Rules} {P Q : RoundRobin F → Prop} {u : RoundRobin F} {l m : List (F × Nat)}

theorem Path.trans (h : Path r P s l t) (h' : Path r P t m u) : Path r P s (l ++ m) u := by
  induction h' with
  | refl =>
      rw [List.append_nil]
      exact h
  | internal _ hstep ih => exact ih.internal hstep
  | select _ ht hstep ih =>
      rw [← List.append_assoc]
      exact ih.select ht hstep

theorem Path.mono (hPQ : ∀ t, P t → Q t) (h : Path r P s l t) : Path r Q s l t := by
  induction h with
  | refl => exact .refl _
  | internal _ hstep ih => exact ih.internal hstep
  | select _ ht hstep ih => exact ih.select (hPQ _ ht) hstep

theorem Internal.perm (h : Internal r s t) :
    (∃ f ∉ s.fresh ++ s.old, (t.fresh ++ t.old).Perm (f :: (s.fresh ++ s.old))) ∨
      (t.fresh ++ t.old).Perm (s.fresh ++ s.old) := by
  cases h with
  | @join fresh old d f hnot =>
      refine Or.inl ⟨f, hnot, ?_⟩
      rw [List.append_assoc]
      exact List.perm_middle
  | @demote fresh old d f hd =>
      exact Or.inr (perm_demote f fresh old)
  | @rotate old d f hd => exact Or.inr (List.perm_append_singleton f old)

theorem Listed.internal (hs : Listed s) (h : Internal r s t) : Listed t := by
  rcases h.perm with ⟨f, hnot, hperm⟩ | hperm
  · exact hperm.nodup_iff.mpr (List.nodup_cons.mpr ⟨hnot, hs⟩)
  · exact hperm.nodup_iff.mpr hs

theorem Listed.select {o : Option (F × Nat)} (hs : Listed s) (h : Select r s o t) : Listed t := by
  cases h with
  | @idleFresh fresh old d f hd =>
      exact (perm_demote f fresh old).nodup_iff.mpr hs
  | idleOld f hd => exact (List.nodup_cons.mp hs).2
  | serveFresh f n hd => exact hs
  | serveOld f n hd => exact hs

theorem Path.listed (hs : Listed s) (h : Path r P s l t) : Listed t := by
  induction h with
  | refl => exact hs
  | internal _ hstep ih => exact ih.internal hstep
  | select _ _ hstep ih => exact ih.select hstep

/-! ## Deficits -/

/-- Rules of arithmetic without overflow, for a quantum `q` and packets of at most `M` bytes. -/
structure Exact (r : Rules) (q M : Int) : Prop where
  pos : 0 < q
  initial : r.initial = q
  refill : ∀ d, -M < d → d ≤ 0 → r.refill d = d + q
  charge : ∀ d (n : Nat), 0 < d → d ≤ q → n ≤ M → r.charge d n = d - n

/-- One deficit changes, and the others stay. -/
theorem Ranged.update (hs : Ranged q M s) {f : F} {d : Int} (hd : -M < d ∧ d ≤ q)
    (hlists : ∀ g ∈ t.fresh ++ t.old, g = f ∨ g ∈ s.fresh ++ s.old)
    (hdeficit : t.deficit = Function.update s.deficit f d) : Ranged q M t := fun g hg => by
  rw [hdeficit]
  by_cases hgf : g = f
  · rw [hgf, Function.update_self]
    exact hd
  · rw [Function.update_of_ne hgf]
    exact hs g ((hlists g hg).resolve_left hgf)

theorem Ranged.internal (hM : 0 ≤ M) (hr : Exact r q M) (hs : Ranged q M s) (h : Internal r s t) : Ranged q M t := by
  have hq := hr.pos
  cases h with
  | @join fresh old d f hnot =>
      refine hs.update (f := f) (d := r.initial) (by rw [hr.initial]; omega) (fun g hg => ?_) rfl
      simp only [List.mem_append, List.mem_singleton] at hg ⊢
      tauto
  | @demote fresh old d f hd =>
      have hf : -M < d f ∧ d f ≤ q := hs f List.mem_cons_self
      refine hs.update (f := f) (d := r.refill (d f)) (by rw [hr.refill _ hf.1 hd]; omega) (fun g hg => ?_) rfl
      simp only [List.mem_append, List.mem_cons, List.not_mem_nil, or_false] at hg ⊢
      tauto
  | @rotate old d f hd =>
      have hf : -M < d f ∧ d f ≤ q := hs f List.mem_cons_self
      refine hs.update (f := f) (d := r.refill (d f)) (by rw [hr.refill _ hf.1 hd]; omega) (fun g hg => ?_) rfl
      simp only [List.nil_append, List.mem_append, List.mem_cons, List.not_mem_nil, or_false] at hg ⊢
      tauto

theorem Ranged.select {o : Option (F × Nat)} (hr : Exact r q M) (hs : Ranged q M s) (h : Select r s o t)
    (ho : ∀ x ∈ o, (x.2 : Int) ≤ M) : Ranged q M t := by
  cases h with
  | @idleFresh fresh old d f hd =>
      refine fun g hg => hs g ?_
      simp only [List.mem_append, List.mem_cons, List.not_mem_nil, or_false] at hg ⊢
      tauto
  | @idleOld old d f hd => exact fun g hg => hs g (List.mem_cons_of_mem f hg)
  | @serveFresh fresh old d f n hd =>
      have hf : -M < d f ∧ d f ≤ q := hs f List.mem_cons_self
      have hn : n ≤ M := ho (f, n) rfl
      exact hs.update (by rw [hr.charge _ n hd hf.2 hn]; omega) (fun g hg => Or.inr hg) rfl
  | @serveOld old d f n hd =>
      have hf : -M < d f ∧ d f ≤ q := hs f List.mem_cons_self
      have hn : n ≤ M := ho (f, n) rfl
      exact hs.update (by rw [hr.charge _ n hd hf.2 hn]; omega) (fun g hg => Or.inr hg) rfl

/-! ## Two old flows -/

/-- The bytes that `f` sends. -/
def bytes (f : F) : List (F × Nat) → Int
  | [] => 0
  | x :: l => (if x.1 = f then (x.2 : Int) else 0) + bytes f l

theorem bytes_append (f : F) (l m : List (F × Nat)) : bytes f (l ++ m) = bytes f l + bytes f m := by
  induction l with
  | nil => exact (Int.zero_add _).symm
  | cons x l ih => rw [List.cons_append, bytes, ih, bytes, Int.add_assoc]

theorem bytes_self (f : F) (n : Nat) : bytes f [(f, n)] = n := by
  rw [bytes, if_pos rfl]
  exact Int.add_zero _

theorem bytes_other {f g : F} (hne : f ≠ g) (n : Nat) : bytes g [(f, n)] = 0 := by
  rw [bytes, if_neg hne]
  exact Int.add_zero _

theorem Lead.internal (hr : Exact r q M) (hne : a ≠ b) (hs : Listed s) (hranged : Ranged q M s)
    (h : Lead q M a b A B s) (hstep : Internal r s t) : Lead q M a b A B t := by
  obtain ⟨ha, hb⟩ := h.mem
  cases hstep with
  | @join fresh old d f hnot =>
      have haf : a ≠ f := fun heq => hnot (heq ▸ List.mem_append_right fresh ha)
      have hbf : b ≠ f := fun heq => hnot (heq ▸ List.mem_append_right fresh hb)
      exact h.keep id id (Function.update_of_ne haf ..) (Function.update_of_ne hbf ..)
  | @demote fresh old d f hd =>
      have haf := hs.apart List.mem_cons_self ha
      have hbf := hs.apart List.mem_cons_self hb
      exact h.keep (·.trans (List.sublist_append_left old [f])) (·.trans (List.sublist_append_left old [f]))
        (Function.update_of_ne haf ..) (Function.update_of_ne hbf ..)
  | @rotate old d f hd =>
      have hrange : -M < d f ∧ d f ≤ q := hranged f List.mem_cons_self
      by_cases hfa : f = a
      · subst hfa
        obtain ⟨x, y, hx, hy, ⟨hsub, heq⟩ | ⟨hsub, -⟩⟩ := h
        · refine ⟨x, y, hx, hy, Or.inr ⟨sublist_rotate_head hsub hne, ?_⟩⟩
          dsimp only at heq ⊢
          rw [Function.update_self, Function.update_of_ne hne.symm, hr.refill _ hrange.1 hd]
          omega
        · exact absurd hsub (not_sublist_head hs hne.symm)
      by_cases hfb : f = b
      · subst hfb
        obtain ⟨x, y, hx, hy, ⟨hsub, -⟩ | ⟨hsub, heq, hlast⟩⟩ := h
        · exact absurd hsub (not_sublist_head hs hne)
        · refine ⟨x, y, hx, hy, Or.inl ⟨sublist_rotate_head hsub hne.symm, ?_⟩⟩
          dsimp only at heq ⊢
          rw [Function.update_self, Function.update_of_ne hne, hr.refill _ hrange.1 hd]
          omega
      · exact h.keep (sublist_rotate hfa) (sublist_rotate hfb) (Function.update_of_ne (Ne.symm hfa) ..)
          (Function.update_of_ne (Ne.symm hfb) ..)

/-- What a selection sends is paid for by the deficit, or nothing is sent and one of the two flows leaves. -/
theorem Lead.select (hr : Exact r q M) (hne : a ≠ b) (hs : Listed s) (hranged : Ranged q M s)
    (h : Lead q M a b A B s) {o : Option (F × Nat)} (ho : ∀ x ∈ o, (x.2 : Int) ≤ M) (hstep : Select r s o t) :
    Lead q M a b (A + bytes a o.toList) (B + bytes b o.toList) t ∨ o = none ∧ (Gone a t ∨ Gone b t) := by
  obtain ⟨ha, hb⟩ := h.mem
  cases hstep with
  | @idleFresh fresh old d f hd =>
      refine Or.inl ?_
      rw [show bytes a (none : Option (F × Nat)).toList = 0 from rfl,
        show bytes b (none : Option (F × Nat)).toList = 0 from rfl, Int.add_zero, Int.add_zero]
      exact h.keep (·.trans (List.sublist_append_left old [f])) (·.trans (List.sublist_append_left old [f])) rfl rfl
  | @idleOld old d f hd =>
      have hnot : f ∉ old := (List.nodup_cons.mp hs).1
      by_cases hfa : f = a
      · exact Or.inr ⟨rfl, Or.inl ⟨hfa ▸ hnot, fun hmem => nomatch hmem⟩⟩
      by_cases hfb : f = b
      · exact Or.inr ⟨rfl, Or.inr ⟨hfb ▸ hnot, fun hmem => nomatch hmem⟩⟩
      refine Or.inl ?_
      rw [show bytes a (none : Option (F × Nat)).toList = 0 from rfl,
        show bytes b (none : Option (F × Nat)).toList = 0 from rfl, Int.add_zero, Int.add_zero]
      exact h.keep (·.of_cons_of_ne (Ne.symm hfa)) (·.of_cons_of_ne (Ne.symm hfb)) rfl rfl
  | @serveFresh fresh old d f n hd =>
      have haf := hs.apart List.mem_cons_self ha
      have hbf := hs.apart List.mem_cons_self hb
      refine Or.inl ?_
      rw [Option.toList_some, bytes_other haf.symm, bytes_other hbf.symm, Int.add_zero, Int.add_zero]
      exact h.keep id id (Function.update_of_ne haf ..) (Function.update_of_ne hbf ..)
  | @serveOld old d f n hd =>
      have hrange : -M < d f ∧ d f ≤ q := hranged f List.mem_cons_self
      have hn : n ≤ M := ho (f, n) rfl
      refine Or.inl ?_
      rw [Option.toList_some]
      by_cases hfa : f = a
      · subst hfa
        obtain ⟨x, y, hx, hy, ⟨hsub, heq⟩ | ⟨hsub, -⟩⟩ := h
        · refine ⟨x, y, hx, hy, Or.inl ⟨hsub, ?_⟩⟩
          dsimp only at heq ⊢
          rw [Function.update_self, Function.update_of_ne hne.symm, hr.charge _ n hd hrange.2 hn, bytes_self,
            bytes_other hne]
          omega
        · exact absurd hsub (not_sublist_head hs hne.symm)
      by_cases hfb : f = b
      · subst hfb
        obtain ⟨x, y, hx, hy, ⟨hsub, -⟩ | ⟨hsub, heq, hlast⟩⟩ := h
        · exact absurd hsub (not_sublist_head hs hne)
        · refine ⟨x, y, hx, hy, Or.inr ⟨hsub, ?_⟩⟩
          dsimp only at heq hlast ⊢
          rw [Function.update_self, Function.update_of_ne hne, hr.charge _ n hd hrange.2 hn, bytes_self,
            bytes_other hne.symm]
          exact ⟨by omega, hlast⟩
      · rw [bytes_other hfa, bytes_other hfb, Int.add_zero, Int.add_zero]
        exact h.keep id id (Function.update_of_ne (Ne.symm hfa) ..) (Function.update_of_ne (Ne.symm hfb) ..)

theorem Gone.internal (hr : Exact r q M) (h : Gone a s) (hstep : Internal r s t) : Gone a t := by
  obtain ⟨hold, hfresh⟩ := h
  cases hstep with
  | @join fresh old d f hnot =>
      refine ⟨hold, fun hmem => ?_⟩
      dsimp only
      by_cases haf : a = f
      · rw [haf, Function.update_self, hr.initial]
        exact hr.pos
      · rw [Function.update_of_ne haf]
        refine hfresh ((List.mem_append.mp hmem).resolve_right fun h => haf (List.mem_singleton.mp h))
  | @demote fresh old d f hd =>
      have haf : a ≠ f := by
        rintro rfl
        exact Int.not_lt.mpr hd (hfresh List.mem_cons_self)
      refine ⟨fun hmem => ?_, fun hmem => ?_⟩
      · exact (List.mem_append.mp hmem).elim hold fun h => haf (List.mem_singleton.mp h)
      · dsimp only
        rw [Function.update_of_ne haf]
        exact hfresh (List.mem_cons_of_mem f hmem)
  | @rotate old d f hd =>
      refine ⟨fun hmem => hold ?_, fun hmem => nomatch hmem⟩
      rcases List.mem_append.mp hmem with h | h
      · exact List.mem_cons_of_mem f h
      · exact List.mem_singleton.mp h ▸ List.mem_cons_self

/-- What holds on the way of two flows that are old at every selection. -/
def Balanced (q M : Int) (a b : F) (A B : Int) (t : RoundRobin F) : Prop :=
  (A = 0 ∧ B = 0) ∨ Lead q M a b A B t ∨ Lead q M b a B A t ∨ Within q M A B ∧ (Gone a t ∨ Gone b t)

theorem Balanced.internal (hr : Exact r q M) (hne : a ≠ b) (hs : Listed s) (hranged : Ranged q M s)
    (h : Balanced q M a b A B s) (hstep : Internal r s t) : Balanced q M a b A B t := by
  rcases h with hzero | hlead | hlead | ⟨hwithin, hgone⟩
  · exact Or.inl hzero
  · exact Or.inr (Or.inl (hlead.internal hr hne hs hranged hstep))
  · exact Or.inr (Or.inr (Or.inl (hlead.internal hr hne.symm hs hranged hstep)))
  · exact Or.inr (Or.inr (Or.inr ⟨hwithin, hgone.imp (·.internal hr hstep) (·.internal hr hstep)⟩))

theorem Balanced.select (hr : Exact r q M) (hne : a ≠ b) (hs : Listed s) (hranged : Ranged q M s)
    (h : Balanced q M a b A B s) (hold : a ∈ s.old ∧ b ∈ s.old) {o : Option (F × Nat)}
    (ho : ∀ x ∈ o, (x.2 : Int) ≤ M) (hstep : Select r s o t) :
    Balanced q M a b (A + bytes a o.toList) (B + bytes b o.toList) t := by
  have hlead : Lead q M a b A B s ∨ Lead q M b a B A s := by
    rcases h with ⟨rfl, rfl⟩ | hlead | hlead | ⟨-, hgone | hgone⟩
    · have ha := hranged a (List.mem_append_right _ hold.1)
      have hb := hranged b (List.mem_append_right _ hold.2)
      refine (sublist_or_sublist hne hold.1 hold.2).imp (fun hsub => ?_) (fun hsub => ?_)
      · exact ⟨_, _, ha, hb, Or.inl ⟨hsub, by omega⟩⟩
      · exact ⟨_, _, hb, ha, Or.inl ⟨hsub, by omega⟩⟩
    · exact Or.inl hlead
    · exact Or.inr hlead
    · exact absurd hold.1 hgone.1
    · exact absurd hold.2 hgone.1
  rcases hlead with hlead | hlead
  · rcases hlead.select hr hne hs hranged ho hstep with hlead' | ⟨rfl, hgone⟩
    · exact Or.inr (Or.inl hlead')
    · refine Or.inr (Or.inr (Or.inr ⟨?_, hgone⟩))
      rw [show bytes a (none : Option (F × Nat)).toList = 0 from rfl,
        show bytes b (none : Option (F × Nat)).toList = 0 from rfl, Int.add_zero, Int.add_zero]
      exact hlead.within hr.pos hranged
  · rcases hlead.select hr hne.symm hs hranged ho hstep with hlead' | ⟨rfl, hgone⟩
    · exact Or.inr (Or.inr (Or.inl hlead'))
    · refine Or.inr (Or.inr (Or.inr ⟨?_, hgone.symm⟩))
      rw [show bytes a (none : Option (F × Nat)).toList = 0 from rfl,
        show bytes b (none : Option (F × Nat)).toList = 0 from rfl, Int.add_zero, Int.add_zero]
      exact (hlead.within hr.pos hranged).symm

omit [DecidableEq F] in
theorem Balanced.within (hr : Exact r q M) (hM : 0 ≤ M) (hranged : Ranged q M s) (h : Balanced q M a b A B s) :
    Within q M A B := by
  have hq := hr.pos
  rcases h with ⟨rfl, rfl⟩ | hlead | hlead | ⟨hwithin, -⟩
  · constructor <;> omega
  · exact hlead.within hq hranged
  · exact (hlead.within hq hranged).symm
  · exact hwithin

theorem Path.ranged (hM : 0 ≤ M) (hr : Exact r q M) (hs : Ranged q M s) (h : Path r P s l t)
    (hl : ∀ x ∈ l, (x.2 : Int) ≤ M) : Ranged q M t := by
  induction h with
  | refl => exact hs
  | internal _ hstep ih => exact (ih hl).internal hM hr hstep
  | @select t u l o _ _ hstep ih =>
      refine (ih fun x hx => hl x (List.mem_append_left _ hx)).select hr hstep fun x hx => ?_
      exact hl x (List.mem_append_right _ (Option.mem_toList.mpr hx))

/-- Two flows that are old at every selection send the same number of bytes, up to two quanta and two packets. -/
theorem Path.within (hM : 0 ≤ M) (hr : Exact r q M) (hlisted : Listed s) (hranged : Ranged q M s)
    (h : Path r (fun t => a ∈ t.old ∧ b ∈ t.old) s l t) (hl : ∀ x ∈ l, (x.2 : Int) ≤ M) :
    Within q M (bytes a l) (bytes b l) := by
  by_cases hne : a = b
  · have hq := hr.pos
    rw [hne]
    constructor <;> omega
  refine Balanced.within hr hM (h.ranged hM hr hranged hl) (s := t) (a := a) (b := b) ?_
  induction h with
  | refl => exact Or.inl ⟨rfl, rfl⟩
  | internal h hstep ih => exact (ih hl).internal hr hne (h.listed hlisted) (h.ranged hM hr hranged hl) hstep
  | @select t u l o h ht hstep ih =>
      have hl' : ∀ x ∈ l, (x.2 : Int) ≤ M := fun x hx => hl x (List.mem_append_left _ hx)
      rw [bytes_append, bytes_append]
      refine (ih hl').select hr hne (h.listed hlisted) (h.ranged hM hr hranged hl') ht (fun x hx => ?_) hstep
      exact hl x (List.mem_append_right _ (Option.mem_toList.mpr hx))

/-! ## How long a flow is looked for -/

/-- The refills that a deficit needs until it is positive. -/
def turns (q d : Int) : Nat := if d ≤ 0 then (-d / q).toNat + 1 else 0

/-- What is left of the refills and of the moves of flows that have nothing to send. -/
def work (q : Int) (s : RoundRobin F) : Nat :=
  ((s.fresh ++ s.old).map fun f => turns q (s.deficit f)).sum + 2 * s.fresh.length + s.old.length

omit [DecidableEq F] in
theorem turns_refill {d : Int} (hq : 0 < q) (hd : d ≤ 0) : turns q (d + q) < turns q d := by
  rw [turns, turns, if_pos hd]
  split
  · have hdiv : -(d + q) / q = -d / q - 1 := by
      rw [Int.neg_add, Int.add_neg_eq_sub, Int.sub_ediv_of_dvd _ (Int.dvd_refl q), Int.ediv_self (Int.ne_of_gt hq)]
    have hpos : 0 ≤ -(d + q) / q := Int.ediv_nonneg (by omega) (Int.le_of_lt hq)
    omega
  · exact Nat.succ_pos _

/-- A deficit of a flow that does not wait does not matter. -/
theorem sum_turns_update {d : F → Int} {x : Int} {fs : List F} (hnot : f ∉ fs) :
    (fs.map fun g => turns q (Function.update d f x g)).sum = (fs.map fun g => turns q (d g)).sum := by
  congr 1
  apply List.map_congr_left
  intro g hg
  have hne : g ≠ f := fun heq => hnot (heq ▸ hg)
  rw [Function.update_of_ne hne]

theorem work_demote {fresh old : List F} {d : F → Int} {x : Int} (hlisted : Listed ⟨f :: fresh, old, d⟩)
    (hx : turns q x < turns q (d f)) :
    work q ⟨fresh, old ++ [f], Function.update d f x⟩ < work q ⟨f :: fresh, old, d⟩ := by
  have hnot : f ∉ fresh ++ old := (List.nodup_cons.mp hlisted).1
  have hsum := sum_turns_update (q := q) (d := d) (x := x) hnot
  rw [List.map_append, List.sum_append] at hsum
  simp only [work, List.cons_append, List.map_cons, List.sum_cons, List.map_append, List.sum_append, List.map_nil,
    List.sum_nil, List.length_append, List.length_cons, List.length_nil, Function.update_self] at hsum ⊢
  omega

theorem work_rotate {old : List F} {d : F → Int} {x : Int} (hlisted : Listed ⟨[], f :: old, d⟩)
    (hx : turns q x < turns q (d f)) :
    work q ⟨[], old ++ [f], Function.update d f x⟩ < work q ⟨[], f :: old, d⟩ := by
  have hnot : f ∉ old := (List.nodup_cons.mp hlisted).1
  have hsum := sum_turns_update (q := q) (d := d) (x := x) hnot
  simp only [work, List.nil_append, List.map_cons, List.sum_cons, List.map_append, List.sum_append, List.map_nil,
    List.sum_nil, List.length_append, List.length_cons, List.length_nil, Function.update_self] at hsum ⊢
  omega

omit [DecidableEq F] in
theorem work_idleFresh {fresh old : List F} {d : F → Int} :
    work q ⟨fresh, old ++ [f], d⟩ < work q ⟨f :: fresh, old, d⟩ := by
  simp only [work, List.cons_append, List.map_cons, List.sum_cons, List.map_append, List.sum_append, List.map_nil,
    List.sum_nil, List.length_append, List.length_cons, List.length_nil]
  omega

omit [DecidableEq F] in
theorem work_idleOld {old : List F} {d : F → Int} : work q ⟨[], old, d⟩ < work q ⟨[], f :: old, d⟩ := by
  simp only [work, List.nil_append, List.map_cons, List.sum_cons, List.length_cons]
  omega

end RoundRobin

end Ns3Raft.Lib
