import Ns3Raft.Core.Int64x64

/-! # What the operations compute

The product of the magnitudes and their quotient, to 64 digits behind the point.
-/

namespace Ns3Raft.Core.Int64x64

open Division

variable {a b : BitVec 128}

/-! ## Halves -/

theorem toNat_and_maskLo (a : BitVec 128) : (a &&& maskLo.setWidth 128).toNat = a.toNat % 2 ^ 64 := by
  have hmask : (maskLo.setWidth 128).toNat = 2 ^ 64 - 1 := by decide
  rw [BitVec.toNat_and, hmask, Nat.and_two_pow_sub_one_eq_mod]

theorem toNat_ushiftRight (a : BitVec 128) (n : Nat) : (a >>> n).toNat = a.toNat / 2 ^ n := by
  rw [BitVec.toNat_ushiftRight, Nat.shiftRight_eq_div_pow]

theorem toNat_shiftLeft (a : BitVec 128) (n : Nat) : (a <<< n).toNat = a.toNat * 2 ^ n % 2 ^ 128 := by
  rw [BitVec.toNat_shiftLeft, Nat.shiftLeft_eq]

/-- The upper mask has no bits. -/
theorem and_maskHi (a : BitVec 128) : a &&& maskHi.setWidth 128 = 0#128 := by
  have hmask : maskHi.setWidth 128 = 0#128 := by decide
  rw [hmask, BitVec.and_zero]

/-- What the halves add up to. -/
theorem halves_sum (lo mid hi : Nat) :
    ((lo / 2 ^ 64 + mid % 2 ^ 64) % 2 ^ 128 + (mid / 2 ^ 64 + hi % 2 ^ 64) % 2 ^ 128 * 2 ^ 64 % 2 ^ 128) % 2 ^ 128 =
      (hi * 2 ^ 128 + mid * 2 ^ 64 + lo) / 2 ^ 64 % 2 ^ 128 := by
  omega

/-- It never aborts, and is the product but for its upper digits. -/
theorem umul_eq (ha : a.toNat ≤ 2 ^ 127) (hb : b.toNat ≤ 2 ^ 127) :
    ∃ r, umul a b = some r ∧ r.toNat = a.toNat * b.toNat / 2 ^ 64 % 2 ^ 128 := by
  obtain ⟨x, hx⟩ : ∃ x, a.toNat = x := ⟨_, rfl⟩
  obtain ⟨y, hy⟩ : ∃ y, b.toNat = y := ⟨_, rfl⟩
  have hxL : x % 2 ^ 64 ≤ 2 ^ 64 - 1 := by omega
  have hyL : y % 2 ^ 64 ≤ 2 ^ 64 - 1 := by omega
  have hxH : x / 2 ^ 64 ≤ 2 ^ 63 := by omega
  have hyH : y / 2 ^ 64 ≤ 2 ^ 63 := by omega
  have hlo := Nat.mul_le_mul hxL hyL
  have hmid₁ := Nat.mul_le_mul hxL hyH
  have hmid₂ := Nat.mul_le_mul hxH hyL
  have hhi := Nat.mul_le_mul hxH hyH
  have hxH' : x / 2 ^ 64 % 2 ^ 64 = x / 2 ^ 64 := Nat.mod_eq_of_lt (by omega)
  have hyH' : y / 2 ^ 64 % 2 ^ 64 = y / 2 ^ 64 := Nat.mod_eq_of_lt (by omega)
  have hprod : x * y = x / 2 ^ 64 * (y / 2 ^ 64) * 2 ^ 128 +
      (x % 2 ^ 64 * (y / 2 ^ 64) + x / 2 ^ 64 * (y % 2 ^ 64)) * 2 ^ 64 + x % 2 ^ 64 * (y % 2 ^ 64) := by
    conv => lhs; rw [← Nat.div_add_mod x (2 ^ 64), ← Nat.div_add_mod y (2 ^ 64)]
    ring
  refine ⟨_, if_neg (by rw [and_maskHi]; exact fun h => h rfl), ?_⟩
  simp only [BitVec.toNat_add, toNat_shiftLeft, toNat_ushiftRight, toNat_and_maskLo, BitVec.toNat_mul, hx, hy, hxH', hyH']
  rw [hprod, ← halves_sum]
  generalize x % 2 ^ 64 * (y % 2 ^ 64) = lo at *
  generalize x % 2 ^ 64 * (y / 2 ^ 64) = m₁ at *
  generalize x / 2 ^ 64 * (y % 2 ^ 64) = m₂ at *
  generalize x / 2 ^ 64 * (y / 2 ^ 64) = hi at *
  have hlo' : lo % 2 ^ 128 = lo := Nat.mod_eq_of_lt (by omega)
  have hm₁ : m₁ % 2 ^ 128 = m₁ := Nat.mod_eq_of_lt (by omega)
  have hm₂ : m₂ % 2 ^ 128 = m₂ := Nat.mod_eq_of_lt (by omega)
  have hmid : (m₁ + m₂) % 2 ^ 128 = m₁ + m₂ := Nat.mod_eq_of_lt (by omega)
  have hhi' : hi % 2 ^ 128 = hi := Nat.mod_eq_of_lt (by omega)
  rw [hlo', hm₁, hm₂, hmid, hhi']

/-! ## The digit loop -/

theorem and_one_eq_zero_iff (a : BitVec 128) : a &&& 1#128 = 0#128 ↔ a.toNat % 2 = 0 := by
  have hone : (1#128).toNat = 2 ^ 1 - 1 := by decide
  rw [← BitVec.toNat_inj, BitVec.toNat_and, hone, Nat.and_two_pow_sub_one_eq_mod]
  rfl

theorem and_maskHiBit_eq_zero_iff (a : BitVec 128) : a &&& maskHiBit = 0#128 ↔ a.toNat < 2 ^ 127 := by
  have hmask : maskHiBit = BitVec.twoPow 128 127 := by decide
  rw [hmask, BitVec.and_twoPow, ← BitVec.msb_eq_getLsbD_last]
  cases hmsb : a.msb with
  | false => exact ⟨fun _ => BitVec.msb_eq_false_iff_two_mul_lt.1 hmsb |> fun h => by omega, fun _ => rfl⟩
  | true =>
    have hge := BitVec.msb_eq_true_iff_two_mul_ge.1 hmsb
    exact ⟨fun h => absurd h (by decide), fun h => by omega⟩

theorem skipTrailing_spec (need shift : Nat) (den : BitVec 128) :
    ∃ z den', skipTrailing need shift den = (shift + z, den') ∧ den.toNat = den'.toNat * 2 ^ z ∧
      z ≤ need ∧ (z = need ∨ den'.toNat % 2 = 1) := by
  induction need generalizing shift den with
  | zero => exact ⟨0, den, rfl, by simp, Nat.le_refl _, .inl rfl⟩
  | succ need ih =>
    by_cases heven : den &&& 1#128 = 0#128
    · obtain ⟨z, den', heq, hden, hz, hend⟩ := ih (shift + 1) (den >>> 1)
      have hmod := (and_one_eq_zero_iff den).1 heven
      rw [toNat_ushiftRight] at hden
      refine ⟨z + 1, den', ?_, ?_, by omega, by omega⟩
      · rw [skipTrailing, if_pos heven, heq, Nat.add_assoc, Nat.add_comm 1]
      · rw [pow_succ, ← Nat.mul_assoc, ← hden]
        omega
    · have hmod := mt (and_one_eq_zero_iff den).2 heven
      exact ⟨0, den, by rw [skipTrailing, if_neg heven, Nat.add_zero], by simp, by omega, .inr (by omega)⟩

theorem skipLeading_spec (need shift : Nat) (rem : BitVec 128) :
    ∃ k rem', skipLeading need shift rem = (shift + k, rem') ∧ rem'.toNat = rem.toNat * 2 ^ k ∧
      k ≤ need ∧ (k = need ∨ 2 ^ 127 ≤ rem'.toNat) ∧ (rem.toNat < 2 ^ 127 → 0 < need → 0 < k) := by
  induction need generalizing shift rem with
  | zero => exact ⟨0, rem, rfl, by simp, Nat.le_refl _, .inl rfl, fun _ h => h⟩
  | succ need ih =>
    by_cases hlow : rem &&& maskHiBit = 0#128
    · obtain ⟨k, rem', heq, hrem, hk, hend, -⟩ := ih (shift + 1) (rem <<< 1)
      have hlt := (and_maskHiBit_eq_zero_iff rem).1 hlow
      rw [toNat_shiftLeft, Nat.mod_eq_of_lt (by omega)] at hrem
      refine ⟨k + 1, rem', ?_, ?_, by omega, by omega, fun _ _ => Nat.succ_pos k⟩
      · rw [skipLeading, if_pos hlow, heq, Nat.add_assoc, Nat.add_comm 1]
      · rw [hrem, pow_succ']
        ring
    · have hge := mt (and_maskHiBit_eq_zero_iff rem).2 hlow
      exact ⟨0, rem, by rw [skipLeading, if_neg hlow, Nat.add_zero], by simp, by omega, .inr (by omega),
        fun h => absurd h hge⟩

/-- Nothing is cast off an odd divisor that the remainder has reached. -/
theorem castOff_eq {need shift : Nat} {rem den : BitVec 128} (h : need = 0 ∨ den.toNat % 2 = 1 ∧ den.toNat ≤ rem.toNat) :
    castOff need shift rem den = (shift, den) := by
  cases need with
  | zero => rfl
  | succ need =>
    obtain ⟨hodd, hle⟩ := h.resolve_left (Nat.succ_ne_zero need)
    refine if_neg fun hcast => ?_
    rcases hcast with heven | hlt
    · have hmod := (and_one_eq_zero_iff den).1 heven
      omega
    · exact absurd (BitVec.lt_def.1 hlt) (by omega)

/-- What holds between the rounds: `z` zeros at the end of `b` have been skipped. -/
structure Rounds (a b z : Nat) (st : DivState) : Prop where
  divided : Partial a b z (st.digis + st.shift) (st.result.toNat * 2 ^ st.shift) st.rem.toNat
  divisor : b = st.den.toNat * 2 ^ z
  den_le : st.den.toNat ≤ 2 ^ 127
  rem_lt : st.rem.toNat < 2 ^ 127
  digits_le : st.digis + st.shift ≤ digits
  odd : st.den.toNat % 2 = 1 ∨ st.digis + st.shift = digits
  rem_lt_den : st.digis = 0 ∨ st.rem.toNat < st.den.toNat

variable {st : DivState} {p q z : Nat}

theorem Rounds.den_pos (h : Rounds p q z st) (hq : 0 < q) : 0 < st.den.toNat := by
  have hdivisor := h.divisor
  rcases Nat.eq_zero_or_pos st.den.toNat with hzero | hpos
  · rw [hzero] at hdivisor
    omega
  · exact hpos

/-- A part of the quotient fits where the quotient does. -/
theorem partial_lt {digis res rem : Nat} (h : Partial p q z digis res rem) (hq : 0 < q) (hdigis : digis ≤ digits)
    (hfit : p * 2 ^ 64 / q < 2 ^ 128) : res < 2 ^ 128 := by
  have hpow : 2 ^ digis ≤ 2 ^ 64 := Nat.pow_le_pow_right (by decide) hdigis
  have hle : res * q ≤ p * 2 ^ 64 := Nat.le_trans (Nat.le.intro h.symm) (Nat.mul_le_mul_left p hpow)
  exact Nat.lt_of_le_of_lt ((Nat.le_div_iff_mul_le hq).2 hle) hfit

/-- A round develops a digit or more. -/
theorem Rounds.divRound (h : Rounds p q z st) (hq : 0 < q) (hfit : p * 2 ^ 64 / q < 2 ^ 128)
    (hdigis : st.digis < digits) : Rounds p q z (divRound st) ∧ st.digis < (divRound st).digis := by
  obtain ⟨k, rem, hskip, hrem, hk, hend, hsome⟩ := skipLeading_spec (digits - (st.digis + st.shift)) st.shift st.rem
  have hle := h.digits_le
  have hdenle := h.den_le
  have hdenpos := h.den_pos hq
  have hcast : castOff (digits - (st.digis + (st.shift + k))) (st.shift + k) rem st.den = (st.shift + k, st.den) := by
    apply castOff_eq
    rcases h.odd with hodd | hfull
    · rcases hend with hk' | hge
      · exact .inl (by omega)
      · exact .inr ⟨hodd, Nat.le_trans hdenle hge⟩
    · exact .inl (by omega)
  have hround : Int64x64.divRound st = ⟨st.digis + (st.shift + k), 0, rem % st.den, st.den, (st.result <<< (st.shift + k)) + rem / st.den⟩ := by
    simp only [Int64x64.divRound, hskip, hcast]
  have hpart := (h.divided.shift k).divide h.divisor
  rw [← hrem, Nat.add_assoc, Nat.mul_assoc, ← pow_add] at hpart
  have hlt := partial_lt hpart hq (by omega) hfit
  have hresult : ((st.result <<< (st.shift + k)) + rem / st.den).toNat =
      st.result.toNat * 2 ^ (st.shift + k) + rem.toNat / st.den.toNat := by
    rw [BitVec.toNat_add, toNat_shiftLeft, BitVec.toNat_udiv, Nat.mod_eq_of_lt (Nat.lt_of_le_of_lt (Nat.le_add_right _ _) hlt),
      Nat.mod_eq_of_lt hlt]
  have hremlt : rem.toNat % st.den.toNat < st.den.toNat := Nat.mod_lt _ hdenpos
  have hmore : 0 < st.shift + k := by
    rcases Nat.eq_zero_or_pos st.shift with hzero | hpos
    · have hkpos := hsome h.rem_lt (by omega)
      omega
    · omega
  rw [hround]
  refine ⟨⟨?_, h.divisor, hdenle, ?_, by dsimp only; omega, ?_, .inr ?_⟩, by dsimp only; omega⟩
  · rw [hresult, BitVec.toNat_umod, Nat.add_zero, pow_zero, Nat.mul_one]
    exact hpart
  · rw [BitVec.toNat_umod]
    omega
  · rcases h.odd with hodd | hfull
    · exact .inl hodd
    · exact .inr (by dsimp only; omega)
  · rw [BitVec.toNat_umod]
    exact hremlt

theorem divLoop_done (rounds : Nat) (h : ¬ (st.digis < digits ∧ st.rem ≠ 0#128)) : divLoop rounds st = some st := by
  unfold Int64x64.divLoop
  exact if_neg h

theorem divLoop_more (rounds : Nat) (h : st.digis < digits ∧ st.rem ≠ 0#128) :
    divLoop (rounds + 1) st = divLoop rounds (divRound st) := by
  conv => lhs; unfold Int64x64.divLoop
  exact if_pos h

/-- So many rounds are enough as there are digits left. -/
theorem Rounds.divLoop {rounds : Nat} (h : Rounds p q z st) (hq : 0 < q) (hfit : p * 2 ^ 64 / q < 2 ^ 128)
    (hrounds : digits ≤ st.digis + rounds) :
    ∃ st', divLoop rounds st = some st' ∧ Rounds p q z st' ∧ (st'.digis = digits ∨ st'.rem = 0#128) := by
  have hle := h.digits_le
  induction rounds generalizing st with
  | zero =>
    have hdone : ¬ (st.digis < digits ∧ st.rem ≠ 0#128) := by omega
    exact ⟨st, divLoop_done 0 hdone, h, .inl (by omega)⟩
  | succ rounds ih =>
    by_cases hmore : st.digis < digits ∧ st.rem ≠ 0#128
    · obtain ⟨hround, hlt⟩ := h.divRound hq hfit hmore.1
      obtain ⟨st', hloop, hrest⟩ := ih hround (by omega) hround.digits_le
      exact ⟨st', (divLoop_more rounds hmore).trans hloop, hrest⟩
    · refine ⟨st, divLoop_done _ hmore, h, ?_⟩
      rcases Nat.lt_or_ge st.digis digits with hlt | hge
      · exact .inr (Decidable.byContradiction fun hrem => hmore ⟨hlt, hrem⟩)
      · exact .inl (by omega)

/-- After the last round the digits that are missing are zeros. -/
theorem Rounds.allDigits (h : Rounds p q z st) (hq : 0 < q) (hfit : p * 2 ^ 64 / q < 2 ^ 128)
    (hend : st.digis = digits ∨ st.rem = 0#128) : st.allDigits.toNat = p * 2 ^ 64 / q := by
  have hle := h.digits_le
  rcases hend with hfull | hzero
  · -- all digits are there, and the remainder is below the divisor
    have hshift : st.shift = 0 := by omega
    have hquo := h.divided
    have hlt := h.rem_lt_den.resolve_left (by rw [hfull]; decide)
    rw [hshift, hfull, Nat.add_zero, pow_zero, Nat.mul_one] at hquo
    rw [DivState.allDigits, if_neg (by omega)]
    refine (hquo.quotient ?_).symm
    rw [h.divisor]
    exact Nat.mul_lt_mul_of_pos_right hlt (Nat.two_pow_pos z)
  · have hquo := h.divided
    rw [hzero] at hquo
    have hdigits := hquo.quotient_zero hq (digits - (st.digis + st.shift))
    rw [Nat.mul_assoc, ← pow_add] at hdigits
    rw [Nat.add_sub_cancel' hle] at hdigits
    rw [DivState.allDigits]
    split
    · have hmissing : st.shift + (digits - (st.digis + st.shift)) = digits - st.digis := by omega
      rw [hmissing] at hdigits
      rw [toNat_shiftLeft, ← hdigits]
      exact Nat.mod_eq_of_lt hfit
    · have hmissing : st.shift + (digits - (st.digis + st.shift)) = 0 := by omega
      rw [hmissing, pow_zero, Nat.mul_one] at hdigits
      exact hdigits.symm

/-- The digit loop ends, with the quotient to 64 digits behind the point. -/
theorem udiv_eq (hb : b.toNat ≤ 2 ^ 127) (hpos : 0 < b.toNat)
    (hfit : a.toNat * 2 ^ 64 / b.toNat < 2 ^ 128) :
    ∃ r, udiv a b = some r ∧ r.toNat = a.toNat * 2 ^ 64 / b.toNat := by
  obtain ⟨z, den, hskip, hden, hz, hend⟩ := skipTrailing_spec digits 0 b
  have hstart : Rounds a.toNat b.toNat z ⟨0, z, a % b, den, a / b⟩ := by
    have hmod := Nat.mod_lt a.toNat hpos
    have hdenle : den.toNat ≤ b.toNat := hden ▸ Nat.le_mul_of_pos_right _ (Nat.two_pow_pos z)
    refine ⟨?_, hden, by dsimp only; omega, ?_, by dsimp only; omega, ?_, .inl rfl⟩
    · have hsplit := Nat.div_add_mod a.toNat b.toNat
      rw [Partial, BitVec.toNat_umod, BitVec.toNat_udiv]
      conv => lhs; rw [← hsplit]
      ring
    · rw [BitVec.toNat_umod]
      omega
    · rcases hend with hfull | hodd
      · exact .inr (by dsimp only; omega)
      · exact .inl hodd
  obtain ⟨st, hloop, hrounds, hdone⟩ := hstart.divLoop hpos hfit (show digits ≤ 0 + digits by omega)
  refine ⟨st.allDigits, ?_, hrounds.allDigits hpos hfit hdone⟩
  rw [Nat.zero_add] at hskip
  simp only [udiv, hskip, hloop, Option.map_some]

end Ns3Raft.Core.Int64x64
