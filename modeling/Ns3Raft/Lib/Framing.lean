import Mathlib.Data.List.Basic

/-! # Delimited frames in a stream

Frames end with a delimiter that none of them holds. A reader cuts what it has into
the complete frames and the rest, and reads the same frames however the stream
reaches it.
-/

namespace Framing

variable {α : Type*} (delim : α)

/-- The stream of the frames. -/
def join (frames : List (List α)) : List α := frames.flatMap (· ++ [delim])

variable {delim}

@[simp] theorem join_nil : join delim [] = [] := rfl

@[simp] theorem join_cons (f : List α) (frames : List (List α)) :
    join delim (f :: frames) = f ++ delim :: join delim frames := by
  simp [join]

@[simp] theorem join_append (frames frames' : List (List α)) :
    join delim (frames ++ frames') = join delim frames ++ join delim frames' := by
  simp [join]

variable [DecidableEq α] (delim) in
/-- The complete frames of a stream and what follows them. -/
def cut : List α → List (List α) × List α
  | [] => ([], [])
  | a :: as =>
      if a = delim then ([] :: (cut as).1, (cut as).2)
      else
        match (cut as).1 with
        | [] => ([], a :: (cut as).2)
        | f :: frames => ((a :: f) :: frames, (cut as).2)

variable [DecidableEq α]

/-- The first frame is what stands before the first delimiter. -/
theorem cut_cons_frame {f as : List α} (hf : delim ∉ f) :
    cut delim (f ++ delim :: as) = (f :: (cut delim as).1, (cut delim as).2) := by
  induction f with
  | nil => simp [cut]
  | cons a f ih =>
      obtain ⟨hne, hf⟩ := not_or.mp (List.mem_cons.not.mp hf)
      simp [cut, Ne.symm hne, ih hf]

theorem cut_of_not_mem {as : List α} (h : delim ∉ as) : cut delim as = ([], as) := by
  induction as with
  | nil => rfl
  | cons a as ih =>
      obtain ⟨hne, has⟩ := not_or.mp (List.mem_cons.not.mp h)
      simp [cut, Ne.symm hne, ih has]

theorem cut_join_append {frames : List (List α)} {rest : List α}
    (hframes : ∀ f ∈ frames, delim ∉ f) (hrest : delim ∉ rest) :
    cut delim (join delim frames ++ rest) = (frames, rest) := by
  induction frames with
  | nil => simpa using cut_of_not_mem hrest
  | cons f frames ih =>
      have hf := hframes f (by simp)
      have hthen := ih fun f hmem => hframes f (by simp [hmem])
      rw [join_cons, List.append_assoc, List.cons_append, cut_cons_frame hf, hthen]

theorem cut_spec (as : List α) :
    join delim (cut delim as).1 ++ (cut delim as).2 = as ∧
      (∀ f ∈ (cut delim as).1, delim ∉ f) ∧ delim ∉ (cut delim as).2 := by
  induction as with
  | nil => simp [cut]
  | cons a as ih =>
      obtain ⟨hjoin, hframes, hrest⟩ := ih
      rw [cut]
      split
      · next h =>
          subst h
          exact ⟨by simp [hjoin], by simpa using hframes, hrest⟩
      · next h =>
          split
          · next heq =>
              rw [heq] at hjoin
              simpa [Ne.symm h, hrest] using hjoin
          · next f frames heq =>
              rw [heq] at hjoin hframes
              simp only [join_cons, List.append_assoc, List.cons_append] at hjoin
              simpa [Ne.symm h, hrest, hjoin] using hframes

/-- What is left over goes before what comes next. -/
theorem cut_append (as bs : List α) :
    cut delim (as ++ bs) =
      ((cut delim as).1 ++ (cut delim ((cut delim as).2 ++ bs)).1,
        (cut delim ((cut delim as).2 ++ bs)).2) := by
  have ⟨hjoin, hframes, _⟩ : join delim (cut delim as).1 ++ (cut delim as).2 = as ∧ _ := cut_spec as
  have ⟨hjoin', hframes', hrest'⟩ : join delim (cut delim ((cut delim as).2 ++ bs)).1 ++
      (cut delim ((cut delim as).2 ++ bs)).2 = (cut delim as).2 ++ bs ∧ _ := cut_spec _
  have hall : ∀ f ∈ (cut delim as).1 ++ (cut delim ((cut delim as).2 ++ bs)).1, delim ∉ f := by
    intro f hf
    rcases List.mem_append.mp hf with hf | hf
    · exact hframes f hf
    · exact hframes' f hf
  have hstream : as ++ bs = join delim ((cut delim as).1 ++ (cut delim ((cut delim as).2 ++ bs)).1) ++
      (cut delim ((cut delim as).2 ++ bs)).2 := by
    rw [join_append, List.append_assoc, hjoin', ← List.append_assoc, hjoin]
  conv_lhs => rw [hstream]
  exact cut_join_append hall hrest'

/-- The part of a stream of frames that is there holds its first frames. -/
theorem cut_of_append_eq_join {as bs : List α} {frames : List (List α)} (hframes : ∀ f ∈ frames, delim ∉ f)
    (h : as ++ bs = join delim frames) :
    ∃ frames', frames = (cut delim as).1 ++ frames' ∧ (cut delim as).2 ++ bs = join delim frames' := by
  have hall : cut delim (as ++ bs) = (frames, []) := by
    have hcut : cut delim (join delim frames ++ []) = (frames, []) := cut_join_append hframes (by simp)
    rwa [List.append_nil, ← h] at hcut
  rw [cut_append, Prod.mk.injEq] at hall
  refine ⟨_, hall.1.symm, ?_⟩
  have hspec : join delim (cut delim ((cut delim as).2 ++ bs)).1 ++ (cut delim ((cut delim as).2 ++ bs)).2 =
      (cut delim as).2 ++ bs := (cut_spec _).1
  rw [hall.2, List.append_nil] at hspec
  exact hspec.symm

theorem cut_eq_nil_iff {as : List α} : (cut delim as).1 = [] ↔ delim ∉ as := by
  constructor
  · intro h
    have ⟨hjoin, _, hrest⟩ : join delim (cut delim as).1 ++ (cut delim as).2 = as ∧ _ := cut_spec as
    rw [h, join_nil, List.nil_append] at hjoin
    rwa [hjoin] at hrest
  · intro h
    rw [cut_of_not_mem h]

end Framing
