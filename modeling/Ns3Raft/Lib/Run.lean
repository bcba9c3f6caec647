import Mathlib.Data.List.Basic

/-! # Guarded runs of a deterministic transition system

A run is the list of the states it left and the inputs it took. Every input
passed the guard at the state it was taken in.
-/

namespace Transition

variable {σ ι : Type*} (step : σ → ι → σ) (ok : σ → ι → Prop)

inductive Run (s₀ : σ) : List (σ × ι) → σ → Prop where
  | nil : Run s₀ [] s₀
  | snoc {tr : List (σ × ι)} {s : σ} {i : ι} :
      Run s₀ tr s → ok s i → Run s₀ (tr ++ [(s, i)]) (step s i)

def Reachable (s₀ s : σ) : Prop := ∃ tr, Run step ok s₀ tr s

variable {step ok} {s₀ s : σ} {tr : List (σ × ι)}

theorem Run.invariant {P : σ → Prop} (hinit : P s₀)
    (hstep : ∀ s i, P s → ok s i → P (step s i)) (h : Run step ok s₀ tr s) : P s := by
  induction h with
  | nil => exact hinit
  | snoc _ hok ih => exact hstep _ _ ih hok

/-- The invariant and the guard held at every step that was taken. -/
theorem Run.of_mem {P : σ → Prop} {i : ι} (hinit : P s₀)
    (hstep : ∀ s i, P s → ok s i → P (step s i)) (h : Run step ok s₀ tr s) {s' : σ}
    (hmem : (s', i) ∈ tr) : P s' ∧ ok s' i := by
  induction h with
  | nil => cases hmem
  | snoc hrun hok ih =>
      rcases List.mem_append.mp hmem with hmem | hmem
      · exact ih hmem
      · obtain ⟨rfl, rfl⟩ := Prod.mk.inj (List.mem_singleton.mp hmem)
        exact ⟨hrun.invariant hinit hstep, hok⟩

/-- What a condition on each step keeps, it keeps along a run. -/
theorem Run.kept {P : σ → Prop} {C : σ → ι → Prop} (hinit : P s₀) (hkeep : ∀ s i, P s → ok s i → C s i → P (step s i))
    (h : Run step ok s₀ tr s) (hall : ∀ p ∈ tr, C p.1 p.2) : (∀ p ∈ tr, P p.1) ∧ P s := by
  induction h with
  | nil => exact ⟨fun p hp => (by cases hp), hinit⟩
  | @snoc tr s i hrun hok ih =>
      obtain ⟨hpre, hs⟩ := ih fun p hp => hall p (List.mem_append_left _ hp)
      refine ⟨fun p hp => ?_, hkeep s i hs hok (hall (s, i) (by simp))⟩
      rcases List.mem_append.mp hp with hp | hp
      · exact hpre p hp
      · rw [List.mem_singleton.mp hp]
        exact hs

/-- When a condition on each step keeps the invariant, and is needed for `Q` after the step, it is
exactly what keeps `Q` along a run. -/
theorem Run.kept_iff {P Q : σ → Prop} {C : σ → ι → Prop} (hinit : P s₀) (himp : ∀ s, P s → Q s)
    (hkeep : ∀ s i, P s → ok s i → C s i → P (step s i))
    (hneed : ∀ s i, P s → ok s i → Q (step s i) → C s i) (h : Run step ok s₀ tr s) :
    ((∀ p ∈ tr, Q p.1) ∧ Q s) ↔ ∀ p ∈ tr, C p.1 p.2 := by
  have hboth : ((∀ p ∈ tr, C p.1 p.2) → (∀ p ∈ tr, P p.1) ∧ P s) ∧
      ((∀ p ∈ tr, Q p.1) ∧ Q s → ∀ p ∈ tr, C p.1 p.2) := by
    induction h with
    | nil => exact ⟨fun _ => ⟨fun p hp => (by cases hp), hinit⟩, fun _ p hp => (by cases hp)⟩
    | @snoc tr s i hrun hok ih =>
        obtain ⟨ihP, ihC⟩ := ih
        constructor
        · intro hall
          obtain ⟨hpre, hs⟩ := ihP fun p hp => hall p (List.mem_append_left _ hp)
          refine ⟨fun p hp => ?_, hkeep s i hs hok (hall (s, i) (by simp))⟩
          rcases List.mem_append.mp hp with hp | hp
          · exact hpre p hp
          · rw [List.mem_singleton.mp hp]
            exact hs
        · rintro ⟨hall, hlast⟩
          have hC : ∀ p ∈ tr, C p.1 p.2 :=
            ihC ⟨fun p hp => hall p (List.mem_append_left _ hp), hall (s, i) (by simp)⟩
          intro p hp
          rcases List.mem_append.mp hp with hp | hp
          · exact hC p hp
          · rw [List.mem_singleton.mp hp]
            exact hneed s i (ihP hC).2 hok hlast
  refine ⟨hboth.2, fun hall => ?_⟩
  exact ⟨fun p hp => himp _ ((hboth.1 hall).1 p hp), himp _ (hboth.1 hall).2⟩

theorem Reachable.refl : Reachable step ok s₀ s₀ := ⟨[], .nil⟩

theorem Reachable.snoc {i : ι} (h : Reachable step ok s₀ s) (hok : ok s i) :
    Reachable step ok s₀ (step s i) :=
  let ⟨_, hrun⟩ := h
  ⟨_, hrun.snoc hok⟩

theorem Reachable.invariant {P : σ → Prop} (h : Reachable step ok s₀ s) (hinit : P s₀)
    (hstep : ∀ s i, P s → ok s i → P (step s i)) : P s :=
  let ⟨_, hrun⟩ := h
  hrun.invariant hinit hstep

theorem Run.mono {ok' : σ → ι → Prop} (himp : ∀ s i, ok s i → ok' s i)
    (h : Run step ok s₀ tr s) : Run step ok' s₀ tr s := by
  induction h with
  | nil => exact .nil
  | snoc _ hok ih => exact ih.snoc (himp _ _ hok)

theorem Reachable.mono {ok' : σ → ι → Prop} (himp : ∀ s i, ok s i → ok' s i)
    (h : Reachable step ok s₀ s) : Reachable step ok' s₀ s :=
  let ⟨_, hrun⟩ := h
  ⟨_, hrun.mono himp⟩

/-- Every input of the list passes the guard when the list is played from `s`. -/
def Passes (step : σ → ι → σ) (ok : σ → ι → Prop) (s : σ) : List ι → Prop
  | [] => True
  | i :: is => ok s i ∧ Passes step ok (step s i) is

instance Passes.instDecidable [∀ s i, Decidable (ok s i)] :
    ∀ (s : σ) (is : List ι), Decidable (Passes step ok s is)
  | _, [] => .isTrue trivial
  | s, i :: is =>
      have := Passes.instDecidable (step s i) is
      inferInstanceAs (Decidable (_ ∧ _))

theorem passes_of_forall (h : ∀ s i, ok s i) {s : σ} {is : List ι} :
    Passes step ok s is := by
  induction is generalizing s with
  | nil => trivial
  | cons i is ih => exact ⟨h s i, ih⟩

theorem passes_of_mem {s : σ} {is : List ι} (h : ∀ i ∈ is, ∀ s, ok s i) : Passes step ok s is := by
  induction is generalizing s with
  | nil => trivial
  | cons i is ih => exact ⟨h i List.mem_cons_self s, ih fun j hj => h j (List.mem_cons_of_mem _ hj)⟩

/-- The run that a list of inputs makes. -/
def trace (step : σ → ι → σ) (s : σ) : List ι → List (σ × ι)
  | [] => []
  | i :: is => (s, i) :: trace step (step s i) is

theorem Run.play {is : List ι} (h : Run step ok s₀ tr s)
    (hp : Passes step ok s is) :
    Run step ok s₀ (tr ++ trace step s is) (is.foldl step s) := by
  induction is generalizing s tr with
  | nil => simpa [trace] using h
  | cons i is ih => simpa [trace] using ih (h.snoc hp.1) hp.2

theorem run_of_passes (step : σ → ι → σ) (ok : σ → ι → Prop) (s : σ) (is : List ι)
    (hp : Passes step ok s is) :
    Run step ok s (trace step s is) (is.foldl step s) :=
  Run.play .nil hp

/-! ## Runs whose inputs depend on the state -/

/-- Every input passes when the list, each made from the state it is taken in, is played. -/
def Follows (step : σ → ι → σ) (ok : σ → ι → Prop) (s : σ) : List (σ → ι) → Prop
  | [] => True
  | f :: fs => ok s (f s) ∧ Follows step ok (step s (f s)) fs

instance Follows.instDecidable [∀ s i, Decidable (ok s i)] :
    ∀ (s : σ) (fs : List (σ → ι)), Decidable (Follows step ok s fs)
  | _, [] => .isTrue trivial
  | s, f :: fs =>
      have := Follows.instDecidable (step s (f s)) fs
      inferInstanceAs (Decidable (_ ∧ _))

def follow (step : σ → ι → σ) (s : σ) (fs : List (σ → ι)) : σ :=
  fs.foldl (fun s f => step s (f s)) s

theorem Reachable.follow {fs : List (σ → ι)} (h : Reachable step ok s₀ s)
    (hf : Follows step ok s fs) : Reachable step ok s₀ (follow step s fs) := by
  induction fs generalizing s with
  | nil => exact h
  | cons f fs ih => exact ih (h.snoc hf.1) hf.2

theorem reachable_of_follows {fs : List (σ → ι)} (hf : Follows step ok s₀ fs) :
    Reachable step ok s₀ (follow step s₀ fs) :=
  Reachable.refl.follow hf

end Transition
