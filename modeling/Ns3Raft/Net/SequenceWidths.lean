import Mathlib.Data.BitVec
import Mathlib.Order.Defs.Unbundled
import Mathlib.Order.RelIso.Basic
import Mathlib.Tactic.Ring
import Ns3Raft.Net.SequenceNumber

/-! # Sequence numbers of any width

The operators of the template, with the difference as a signed number of the same width. The
difference decides the order, unless the numbers are half the circle apart: it is negative both ways
then, and the number of the smaller value is the greater one.
-/

namespace Ns3Raft.Net

/-- `SequenceNumber`, of an unsigned type of `w` bits. -/
structure SequenceNumber (w : Nat) where
  value : BitVec w
  deriving DecidableEq, Repr

namespace SequenceNumber

variable {w : Nat}

def maxValue (w : Nat) : BitVec w := BitVec.allOnes w

def halfMaxValue (w : Nat) : BitVec w := maxValue w / 2

/-- `operator +`, of a signed delta. -/
def add (a : SequenceNumber w) (delta : BitVec w) : SequenceNumber w := ⟨a.value + delta⟩

/-- `operator -`, whose result is a signed number. -/
def sub (a other : SequenceNumber w) : BitVec w :=
  if other.value < a.value then
    let diff := a.value - other.value
    if diff < halfMaxValue w then diff else -(maxValue w - a.value + 1 + other.value)
  else
    let diff := other.value - a.value
    if diff < halfMaxValue w then -diff else maxValue w - other.value + 1 + a.value

def gt (a other : SequenceNumber w) : Bool :=
  (other.value < a.value && a.value - other.value ≤ halfMaxValue w) ||
    (a.value < other.value && halfMaxValue w < other.value - a.value)

def lt (a other : SequenceNumber w) : Bool := !gt a other && a.value ≠ other.value

def le (a other : SequenceNumber w) : Bool := !gt a other

def ge (a other : SequenceNumber w) : Bool := gt a other || a.value = other.value

variable {a b c base : SequenceNumber w}

/-- The number of steps from `b` to `a`. -/
def steps (a b : SequenceNumber w) : Nat := (a.value - b.value).toNat

theorem steps_lt (a b : SequenceNumber w) : steps a b < 2 ^ w := (a.value - b.value).isLt

theorem steps_cases (a b : SequenceNumber w) :
    (b.value.toNat ≤ a.value.toNat ∧ steps a b = a.value.toNat - b.value.toNat) ∨
      (a.value.toNat < b.value.toNat ∧ steps a b = 2 ^ w - (b.value.toNat - a.value.toNat)) := by
  have ha := a.value.isLt
  have hb := b.value.isLt
  rw [steps, BitVec.toNat_sub]
  rcases Nat.lt_or_ge a.value.toNat b.value.toNat with hlt | hle
  · refine .inr ⟨hlt, ?_⟩
    rw [Nat.mod_eq_of_lt (by omega)]
    omega
  · refine .inl ⟨hle, ?_⟩
    have hsum : 2 ^ w - b.value.toNat + a.value.toNat = a.value.toNat - b.value.toNat + 2 ^ w := by omega
    rw [hsum, Nat.add_mod_right, Nat.mod_eq_of_lt (by omega)]

/-- The cases of `operator -` are one difference. -/
theorem sub_eq (a b : SequenceNumber w) : sub a b = a.value - b.value := by
  have hall : maxValue w = -1 := BitVec.neg_one_eq_allOnes.symm
  unfold sub
  dsimp only
  rw [hall]
  split
  · split
    · rfl
    · ring
  · split
    · ring
    · ring

theorem add_sub_cancel (a b : SequenceNumber w) : add b (sub a b) = a := by
  rw [add, sub_eq, add_comm, BitVec.sub_add_cancel]

theorem eq_iff_steps : a = b ↔ steps a b = 0 := by
  rcases steps_cases a b with ⟨hle, hsteps⟩ | ⟨hlt, hsteps⟩
  · rw [hsteps]
    constructor
    · rintro rfl
      exact Nat.sub_self _
    · intro hzero
      have hvalue : a.value = b.value := BitVec.eq_of_toNat_eq (by omega)
      cases a
      cases b
      exact congrArg mk hvalue
  · have hb := b.value.isLt
    refine iff_of_false (fun heq => ?_) (by omega)
    rw [heq] at hlt
    exact Nat.lt_irrefl _ hlt

end SequenceNumber

namespace SequenceNumber

variable {w : Nat} {a b c base : SequenceNumber (w + 1)}

theorem halfMaxValue_toNat : (halfMaxValue (w + 1)).toNat = 2 ^ w - 1 := by
  have htwo : (2 : BitVec (w + 1)).toNat = 2 % 2 ^ (w + 1) := BitVec.toNat_ofNat 2 (w + 1)
  have hpos := Nat.two_pow_pos w
  rw [halfMaxValue, maxValue, BitVec.toNat_udiv, BitVec.toNat_allOnes, htwo]
  cases w with
  | zero => rfl
  | succ w =>
    have hpow : 2 ^ (w + 1 + 1) = 4 * 2 ^ w := by ring
    have hpow' : 2 ^ (w + 1) = 2 * 2 ^ w := by ring
    have hpos' := Nat.two_pow_pos w
    rw [Nat.mod_eq_of_lt (by omega)]
    omega

/-- A number is greater than those less than half the circle behind it, and than the one half the
circle behind it if its value is the smaller one. -/
theorem gt_iff : gt a b = true ↔
    (0 < steps a b ∧ steps a b < 2 ^ w) ∨ (steps a b = 2 ^ w ∧ a.value.toNat < b.value.toNat) := by
  have hhalf := halfMaxValue_toNat (w := w)
  have hpow : 2 ^ (w + 1) = 2 * 2 ^ w := by ring
  have hpos := Nat.two_pow_pos w
  have ha := a.value.isLt
  have hb := b.value.isLt
  have hforth := steps_cases a b
  have hback := steps_cases b a
  simp only [gt, Bool.or_eq_true, Bool.and_eq_true, decide_eq_true_eq, BitVec.lt_def, BitVec.le_def, hhalf]
  change (_ ∧ steps a b ≤ _) ∨ (_ ∧ _ < steps b a) ↔ _
  omega

theorem toInt_sub : (sub a b).toInt = if steps a b < 2 ^ w then (steps a b : Int) else steps a b - 2 ^ (w + 1) := by
  have hpow : 2 ^ (w + 1) = 2 * 2 ^ w := by ring
  rw [sub_eq, BitVec.toInt_eq_toNat_cond, ← steps]
  by_cases hlt : steps a b < 2 ^ w
  · rw [if_pos hlt, if_pos (by omega)]
  · rw [if_neg hlt, if_neg (by omega)]
    push_cast
    rfl

/-- The sign of the difference decides, but half the circle apart. -/
theorem gt_iff_sub : gt a b = true ↔ 0 < (sub a b).toInt ∨ (steps a b = 2 ^ w ∧ a.value.toNat < b.value.toNat) := by
  have hlt := steps_lt a b
  have hcast : ((2 ^ (w + 1) : Nat) : Int) = 2 ^ (w + 1) := by push_cast; rfl
  rw [gt_iff, toInt_sub]
  refine or_congr_left ?_
  split
  · omega
  · omega

theorem steps_comm (a b : SequenceNumber (w + 1)) :
    (a = b ∧ steps a b = 0 ∧ steps b a = 0) ∨ (a ≠ b ∧ 0 < steps a b ∧ steps a b + steps b a = 2 ^ (w + 1)) := by
  have ha := a.value.isLt
  have hb := b.value.isLt
  have hforth := steps_cases a b
  have hback := steps_cases b a
  by_cases heq : a = b
  · exact .inl ⟨heq, eq_iff_steps.1 heq, eq_iff_steps.1 heq.symm⟩
  · have hsteps : steps a b ≠ 0 := fun hzero => heq (eq_iff_steps.2 hzero)
    refine .inr ⟨heq, ?_, ?_⟩
    · omega
    · omega

theorem lt_iff : lt a b = true ↔ gt a b = false ∧ a ≠ b := by
  rw [lt, Bool.and_eq_true, Bool.not_eq_true', decide_eq_true_eq]
  exact and_congr_right' (not_congr (by cases a; cases b; simp))

theorem gt_irrefl (a : SequenceNumber (w + 1)) : gt a a = false := by
  have hself : steps a a = 0 := eq_iff_steps.1 rfl
  have hpos := Nat.two_pow_pos w
  rw [← Bool.not_eq_true, gt_iff]
  omega

/-- Half the circle apart the values decide, so that one of the two is the greater. -/
theorem gt_swap (hne : a ≠ b) : gt a b = !gt b a := by
  have hpow : 2 ^ (w + 1) = 2 * 2 ^ w := by ring
  have hvalue : a.value.toNat ≠ b.value.toNat := fun heq =>
    hne (by cases a; cases b; exact congrArg mk (BitVec.eq_of_toNat_eq heq))
  rcases steps_comm a b with ⟨heq, -, -⟩ | ⟨-, hpos, hsum⟩
  · exact absurd heq hne
  · have hforth := steps_cases a b
    rw [Bool.eq_iff_iff, Bool.not_eq_true', ← Bool.not_eq_true, gt_iff, gt_iff]
    omega

theorem lt_eq_gt : lt a b = gt b a := by
  rw [Bool.eq_iff_iff, lt_iff]
  by_cases heq : a = b
  · subst heq
    simp [gt_irrefl]
  · rw [gt_swap heq]
    simp [heq]

/-- One of the three holds, and no two of them. -/
theorem trichotomy (a b : SequenceNumber (w + 1)) :
    (lt a b = true ∧ a ≠ b ∧ gt a b = false) ∨ (lt a b = false ∧ a = b ∧ gt a b = false) ∨
      (lt a b = false ∧ a ≠ b ∧ gt a b = true) := by
  by_cases heq : a = b
  · subst heq
    exact .inr (.inl ⟨by rw [lt_eq_gt, gt_irrefl], rfl, gt_irrefl a⟩)
  · have hswap := gt_swap heq
    rw [lt_eq_gt]
    cases hgt : gt b a
    · exact .inr (.inr ⟨rfl, heq, by rw [hswap, hgt]; rfl⟩)
    · exact .inl ⟨rfl, heq, by rw [hswap, hgt]; rfl⟩

theorem steps_add (a : SequenceNumber (w + 1)) (k : Int) :
    steps (add a (BitVec.ofInt (w + 1) k)) a = (k % (2 ^ (w + 1) : Nat)).toNat := by
  have hback : a.value + BitVec.ofInt (w + 1) k - a.value = BitVec.ofInt (w + 1) k := by ring
  simp only [steps, add, hback, BitVec.toNat_ofInt]

theorem gt_add {k : Int} (hlow : -2 ^ w < k) (hhigh : k < 2 ^ w) :
    gt (add a (BitVec.ofInt (w + 1) k)) a = true ↔ 0 < k := by
  have hpow : ((2 ^ (w + 1) : Nat) : Int) = 2 * 2 ^ w := by push_cast; ring
  have hcast : ((2 ^ w : Nat) : Int) = 2 ^ w := by push_cast; rfl
  rw [gt_iff, steps_add, hpow]
  rcases lt_or_ge k 0 with hneg | hnonneg
  · have hmod : k % (2 * 2 ^ w) = k + 2 * 2 ^ w := by
      rw [← Int.add_emod_right, Int.emod_eq_of_lt (by omega) (by omega)]
    rw [hmod]
    omega
  · rw [Int.emod_eq_of_lt hnonneg (by omega)]
    omega

/-- Seen from a number less than half the circle behind all of them, the order is that of the steps. -/
theorem lt_iff_steps (ha : steps a base < 2 ^ w) (hb : steps b base < 2 ^ w) :
    lt a b = true ↔ steps a base < steps b base := by
  have hpow : 2 ^ (w + 1) = 2 * 2 ^ w := by ring
  have hba := steps_cases b a
  have hav := a.value.isLt
  have hbv := b.value.isLt
  have hbase := base.value.isLt
  have hbaselt := steps_cases b base
  have habase := steps_cases a base
  rw [lt_eq_gt, gt_iff]
  omega

theorem strictTotalOrder {s : Set (SequenceNumber (w + 1))} (hs : ∀ a ∈ s, steps a base < 2 ^ w) :
    IsStrictTotalOrder s fun a b => lt a.1 b.1 = true where
  irrefl a hlt := by
    rw [lt_iff_steps (hs _ a.2) (hs _ a.2)] at hlt
    exact Nat.lt_irrefl _ hlt
  trans a b c hab hbc := by
    rw [lt_iff_steps (hs _ a.2) (hs _ b.2)] at hab
    rw [lt_iff_steps (hs _ b.2) (hs _ c.2)] at hbc
    rw [lt_iff_steps (hs _ a.2) (hs _ c.2)]
    exact hab.trans hbc
  trichotomous a b hab hba := by
    rcases trichotomy a.1 b.1 with ⟨hlt, -, -⟩ | ⟨-, heq, -⟩ | ⟨-, -, hgt⟩
    · exact absurd hlt hab
    · exact Subtype.ext heq
    · rw [lt_eq_gt] at hba
      exact absurd hgt hba

theorem toInt_sub_half (hhalf : steps a b = 2 ^ w) : (sub a b).toInt = -2 ^ w := by
  have hpow : (2 : Int) ^ (w + 1) = 2 * 2 ^ w := by ring
  have hcast : ((2 ^ w : Nat) : Int) = 2 ^ w := by push_cast; rfl
  rw [toInt_sub, hhalf, if_neg (Nat.lt_irrefl _), hcast, hpow]
  omega

/-- The laws of the operators. The difference decides between any two numbers that are not half the
circle apart, and of two that are the values decide. -/
theorem serial_laws (w : Nat) :
    (∀ a b : SequenceNumber (w + 1), add b (sub a b) = a) ∧
    (∀ a b : SequenceNumber (w + 1),
      (lt a b = true ∧ a ≠ b ∧ gt a b = false) ∨ (lt a b = false ∧ a = b ∧ gt a b = false) ∨
        (lt a b = false ∧ a ≠ b ∧ gt a b = true)) ∧
    (∀ a b : SequenceNumber (w + 1), steps a b ≠ 2 ^ w → (gt a b = true ↔ 0 < (sub a b).toInt)) ∧
    (∀ a b : SequenceNumber (w + 1), steps a b = 2 ^ w →
      (sub a b).toInt = -2 ^ w ∧ (gt a b = true ↔ a.value.toNat < b.value.toNat)) ∧
    (∀ (a : SequenceNumber (w + 1)) (k : Int), -2 ^ w < k → k < 2 ^ w →
      (gt (add a (BitVec.ofInt (w + 1) k)) a = true ↔ 0 < k)) ∧
    (∀ (s : Set (SequenceNumber (w + 1))) (base : SequenceNumber (w + 1)), (∀ a ∈ s, steps a base < 2 ^ w) →
      IsStrictTotalOrder s fun a b => lt a.1 b.1 = true) := by
  refine ⟨add_sub_cancel, trichotomy, fun a b hne => ?_, fun a b hhalf => ⟨toInt_sub_half hhalf, ?_⟩,
    fun a k hlow hhigh => gt_add hlow hhigh, fun s base hs => strictTotalOrder hs⟩
  · rw [gt_iff_sub]
    exact or_iff_left fun happart => hne happart.1
  · rw [gt_iff, hhalf]
    exact ⟨fun hgt => by omega, fun hlt => .inr ⟨rfl, hlt⟩⟩

/-- Zero is greater than the number half the circle from it, and the difference is negative. -/
theorem not_gt_iff_sub_half :
    ¬ ∀ (w : Nat) (a b : SequenceNumber (w + 1)), gt a b = true ↔ 0 < (sub a b).toInt := by
  intro hclaim
  have hgt : gt (⟨0⟩ : SequenceNumber 8) ⟨128⟩ = true := by decide
  have hsub : (sub (⟨0⟩ : SequenceNumber 8) ⟨128⟩).toInt = -128 := by decide
  have hpos := (hclaim 7 ⟨0⟩ ⟨128⟩).1 hgt
  rw [hsub] at hpos
  omega

end SequenceNumber

namespace SequenceNumber32

variable {a b : SequenceNumber32}

/-- The numbers of 32 bits that the buffers use. -/
def toWidth (a : SequenceNumber32) : SequenceNumber 32 := ⟨a.value.toBitVec⟩

theorem gt_toWidth : Sequence.gt a b = SequenceNumber.gt a.toWidth b.toWidth := rfl

theorem sub_toWidth : Sequence.sub a b = (SequenceNumber.sub a.toWidth b.toWidth).toNat := by
  rw [SequenceNumber.sub_eq]
  rfl

theorem lt_toWidth : Sequence.lt a b = SequenceNumber.lt a.toWidth b.toWidth := by
  rw [Sequence.lt, SequenceNumber.lt, gt_toWidth]
  congr 1
  cases a
  cases b
  simp [toWidth, UInt32.toBitVec_inj]

theorem toWidth_injective : Function.Injective toWidth := by
  rintro ⟨a⟩ ⟨b⟩ heq
  simpa [toWidth, UInt32.toBitVec_inj] using heq

/-- The received segments are sorted and searched by a strict total order while the buffer spans less
than half the numbers. -/
theorem strictTotalOrder {s : Set SequenceNumber32} {base : SequenceNumber32}
    (hs : ∀ a ∈ s, Sequence.sub a base < 2 ^ 31) :
    IsStrictTotalOrder s fun a b => Sequence.lt a.1 b.1 = true := by
  have hsteps : ∀ a ∈ toWidth '' s, SequenceNumber.steps a base.toWidth < 2 ^ 31 := by
    rintro _ ⟨a, ha, rfl⟩
    exact hs a ha
  have hwide := SequenceNumber.strictTotalOrder hsteps
  have embedding : RelEmbedding (fun a b : s => Sequence.lt a.1 b.1 = true)
      (fun a b : toWidth '' s => SequenceNumber.lt a.1 b.1 = true) :=
    ⟨⟨fun a => ⟨a.1.toWidth, a.1, a.2, rfl⟩, fun a b heq => Subtype.ext (toWidth_injective (congrArg Subtype.val heq))⟩,
      fun {a b} => (congrArg (· = true) (lt_toWidth (a := a.1) (b := b.1))).symm.to_iff⟩
  exact embedding.isStrictTotalOrder

end SequenceNumber32

end Ns3Raft.Net
