import Ns3Raft.Core.Int64x64Arithmetic

/-! # Signed operands

Multiplication and division on the magnitudes, and the sign of the result.
-/

namespace Ns3Raft.Core.Int64x64

variable {a b : BitVec 128}

/-! ## Magnitudes -/

def magnitude (a : BitVec 128) : BitVec 128 := if a.slt 0#128 then -a else a

def differ (a b : BitVec 128) : Bool := (a.slt 0#128 && !b.slt 0#128) || (!a.slt 0#128 && b.slt 0#128)

theorem outputSign_eq (a b : BitVec 128) : outputSign a b = (magnitude a, magnitude b, differ a b) := rfl

/-- The number of magnitude `m`, below zero or not. -/
def withSign (negative : Bool) (m : Nat) : Int := if negative then -m else m

theorem magnitude_spec (a : BitVec 128) :
    a.toInt = withSign (a.slt 0#128) (magnitude a).toNat ∧ (magnitude a).toNat ≤ 2 ^ 127 ∧
      (a.slt 0#128 = false → (magnitude a).toNat < 2 ^ 127) := by
  have hlt := a.isLt
  by_cases hneg : a.slt 0#128 = true
  · have hint : a.toInt < 0 := by simpa [BitVec.slt] using hneg
    have hge : 2 ^ 127 ≤ a.toNat := by
      rw [BitVec.toInt_eq_toNat_cond] at hint
      split at hint <;> omega
    have hmag : (magnitude a).toNat = 2 ^ 128 - a.toNat := by
      rw [magnitude, if_pos hneg, BitVec.toNat_neg]
      omega
    refine ⟨?_, by omega, fun h => absurd (h.symm.trans hneg) (by decide)⟩
    rw [withSign, if_pos hneg, hmag, BitVec.toInt_eq_toNat_cond, if_neg (by omega)]
    omega
  · have hint : ¬ a.toInt < 0 := by simpa [BitVec.slt] using hneg
    have hsmall : a.toNat < 2 ^ 127 := by
      rw [BitVec.toInt_eq_toNat_cond] at hint
      split at hint <;> omega
    have hmag : (magnitude a).toNat = a.toNat := by rw [magnitude, if_neg hneg]
    refine ⟨?_, by omega, fun _ => by omega⟩
    rw [withSign, if_neg hneg, hmag, BitVec.toInt_eq_toNat_cond, if_pos (by omega)]

/-! ## Signs -/

theorem withSign_mul (n₁ n₂ : Bool) (x y : Nat) :
    withSign n₁ x * withSign n₂ y = withSign (n₁ && !n₂ || !n₁ && n₂) (x * y) := by
  cases n₁ <;> cases n₂ <;> simp [withSign]

theorem withSign_tdiv (n₁ n₂ : Bool) (x y : Nat) :
    (withSign n₁ x).tdiv (withSign n₂ y) = withSign (n₁ && !n₂ || !n₁ && n₂) (x / y) := by
  cases n₁ <;> cases n₂ <;> simp [withSign, Int.neg_tdiv, Int.tdiv_neg, Int.ofNat_tdiv]

/-- It is in the range of the signed type. -/
def Fits (x : Int) : Prop := -2 ^ 127 ≤ x ∧ x < 2 ^ 127

instance (x : Int) : Decidable (Fits x) := inferInstanceAs (Decidable (_ ∧ _))

/-- The sign is put back where the result fits. -/
theorem toInt_signed {negative : Bool} {r : BitVec 128} (h : Fits (withSign negative r.toNat)) :
    (if negative then -r else r).toInt = withSign negative r.toNat := by
  have hlt := r.isLt
  unfold Fits withSign at *
  cases negative with
  | false =>
    simp only [Bool.false_eq_true, if_false] at h ⊢
    rw [BitVec.toInt_eq_toNat_cond, if_pos (by omega)]
  | true =>
    simp only [if_true] at h ⊢
    rw [BitVec.toInt_eq_toNat_cond, BitVec.toNat_neg]
    split <;> omega

/-! ## The exact results -/

/-- The product in units of the last place, cut off towards zero. -/
def product (a o : Int64x64) : Int := (a.v.toInt * o.v.toInt).tdiv (2 ^ 64)

def quotient (a o : Int64x64) : Int := (a.v.toInt * 2 ^ 64).tdiv o.v.toInt

/-- Multiplication aborts or is exact, and aborts where the product does not fit. -/
def MulRight (a o : Int64x64) : Prop :=
  (∀ c, mul a o = some c → c.v.toInt = product a o) ∧ (¬ Fits (product a o) → mul a o = none)

/-- Division comes to an end and is exact where the quotient fits. -/
def DivRight (a o : Int64x64) : Prop :=
  o.v ≠ 0#128 → Fits (quotient a o) → ∃ c, div a o = some c ∧ c.v.toInt = quotient a o

theorem product_eq (a o : Int64x64) :
    product a o = withSign (differ a.v o.v) ((magnitude a.v).toNat * (magnitude o.v).toNat / 2 ^ 64) := by
  have hone : (2 ^ 64 : Int) = withSign false (2 ^ 64) := rfl
  rw [product, (magnitude_spec a.v).1, (magnitude_spec o.v).1, withSign_mul, hone, withSign_tdiv]
  simp only [Bool.not_false, Bool.and_true, Bool.and_false, Bool.or_false]
  rfl

theorem quotient_eq (a o : Int64x64) :
    quotient a o = withSign (differ a.v o.v) ((magnitude a.v).toNat * 2 ^ 64 / (magnitude o.v).toNat) := by
  have hone : (2 ^ 64 : Int) = withSign false (2 ^ 64) := rfl
  rw [quotient, (magnitude_spec a.v).1, (magnitude_spec o.v).1, hone, withSign_mul, withSign_tdiv]
  simp only [Bool.not_false, Bool.and_true, Bool.and_false, Bool.or_false]
  rfl

/-- Multiplication never aborts. -/
theorem mul_eq_some (a o : Int64x64) :
    ∃ c, mul a o = some c ∧ (Fits (product a o) → c.v.toInt = product a o) := by
  obtain ⟨r, hr, hval⟩ := umul_eq (magnitude_spec a.v).2.1 (magnitude_spec o.v).2.1
  refine ⟨⟨if differ a.v o.v then -r else r⟩, ?_, fun hfits => ?_⟩
  · simp only [mul, outputSign_eq, hr, Option.map_some]
    rfl
  · rw [product_eq] at hfits ⊢
    have hlt : (magnitude a.v).toNat * (magnitude o.v).toNat / 2 ^ 64 < 2 ^ 128 := by
      unfold Fits withSign at hfits
      split at hfits <;> omega
    rw [Nat.mod_eq_of_lt hlt] at hval
    rw [← hval] at hfits ⊢
    exact toInt_signed hfits

theorem mulRight_iff (a o : Int64x64) : MulRight a o ↔ Fits (product a o) := by
  obtain ⟨c, hc, hexact⟩ := mul_eq_some a o
  constructor
  · intro h
    refine Decidable.byContradiction fun hfits => ?_
    rw [h.2 hfits] at hc
    exact Option.some_ne_none c hc.symm
  · intro hfits
    refine ⟨fun c' hc' => ?_, fun hnot => absurd hfits hnot⟩
    rw [hc] at hc'
    rw [← Option.some.inj hc']
    exact hexact hfits

theorem divRight (a o : Int64x64) : DivRight a o := by
  intro hzero hfits
  have hpos : 0 < (magnitude o.v).toNat := by
    refine Nat.pos_of_ne_zero fun h => hzero ?_
    have hint := (magnitude_spec o.v).1
    rw [h] at hint
    refine BitVec.eq_of_toInt_eq (hint.trans ?_)
    cases o.v.slt 0#128 <;> rfl
  rw [quotient_eq] at hfits ⊢
  have hlt : (magnitude a.v).toNat * 2 ^ 64 / (magnitude o.v).toNat < 2 ^ 128 := by
    unfold Fits withSign at hfits
    split at hfits <;> omega
  obtain ⟨r, hr, hval⟩ := udiv_eq (magnitude_spec o.v).2.1 hpos hlt
  refine ⟨⟨if differ a.v o.v then -r else r⟩, ?_, ?_⟩
  · simp only [div, outputSign_eq, hr, Option.map_some]
    rfl
  · rw [← hval] at hfits ⊢
    exact toInt_signed hfits

/-- Both operations are right on the operands whose product fits: the test for an overflow is
made with an empty mask. -/
theorem operationsRight_iff (a o : Int64x64) : MulRight a o ∧ DivRight a o ↔ Fits (product a o) :=
  ⟨fun h => (mulRight_iff a o).1 h.1, fun h => ⟨(mulRight_iff a o).2 h, divRight a o⟩⟩

/-- The product of 2^32 and 2^31 is one more than the largest integer. -/
theorem not_operationsRight_twoPow :
    ¬ (MulRight ⟨1#128 <<< 96⟩ ⟨1#128 <<< 95⟩ ∧ DivRight ⟨1#128 <<< 96⟩ ⟨1#128 <<< 95⟩) := by
  have hmul : mul ⟨1#128 <<< 96⟩ ⟨1#128 <<< 95⟩ = some ⟨1#128 <<< 127⟩ := by decide
  have hproduct : product ⟨1#128 <<< 96⟩ ⟨1#128 <<< 95⟩ = 2 ^ 127 := by decide
  rintro ⟨⟨-, habort⟩, -⟩
  have hnone := habort (by rw [hproduct]; unfold Fits; omega)
  rw [hmul] at hnone
  exact Option.some_ne_none _ hnone

end Ns3Raft.Core.Int64x64
