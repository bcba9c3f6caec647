import Ns3Raft.Core.Int64x64Signed

/-! # Conversions between time units

Division by a stored inverse is exact, and with it the conversions that divide.
-/

namespace Ns3Raft.Core

namespace Int64x64

open Division

variable {t v : BitVec 64}

/-- The constructors from an integer. -/
def ofInt (v : BitVec 64) : Int64x64 := ⟨v.signExtend 128 <<< 64⟩

/-! ## Parts of a number -/

theorem toNat_getHigh (a : Int64x64) : a.getHigh.toNat = a.v.toNat / 2 ^ 64 := by
  have hsame : a.getHigh = (a.v >>> 64).setWidth 64 := by
    refine BitVec.eq_of_getLsbD_eq fun i hi => ?_
    have hin : 64 + i < 128 := by omega
    simp [getHigh, BitVec.getLsbD_sshiftRight, BitVec.getLsbD_ushiftRight, hi, hin]
    exact fun _ => by omega
  have hlt := a.v.isLt
  rw [hsame, BitVec.toNat_setWidth, toNat_ushiftRight]
  exact Nat.mod_eq_of_lt (by omega)

theorem signExtend_of_lt (h : v.toNat < 2 ^ 63) : (v.signExtend 128).toNat = v.toNat := by
  have hmsb : v.msb = false := BitVec.msb_eq_false_iff_two_mul_lt.2 (by omega)
  rw [BitVec.signExtend_eq_setWidth_of_msb_false hmsb, BitVec.toNat_setWidth]
  exact Nat.mod_eq_of_lt (by omega)

theorem toNat_ofInt (h : v.toNat < 2 ^ 63) : (ofInt v).v.toNat = v.toNat * 2 ^ 64 := by
  rw [ofInt, toNat_shiftLeft, signExtend_of_lt h]
  exact Nat.mod_eq_of_lt (by omega)

theorem ofParts_zero (v : BitVec 64) : ofParts v 0#64 = ofInt v := by
  have hzero : BitVec.setWidth 128 0#64 = 0#128 := by decide
  rw [ofParts, ofInt, hzero, BitVec.or_zero]

theorem slt_zero_of_lt {a : BitVec 128} (h : a.toNat < 2 ^ 127) : a.slt 0#128 = false := by
  rw [BitVec.slt_zero_eq_msb]
  exact BitVec.msb_eq_false_iff_two_mul_lt.2 (by omega)

/-! ## The inverse -/

/-- The lowest partial product of an integer is zero, so nothing is lost. -/
theorem umulByInvert_ofInt {b : BitVec 128} (ht : t.toNat < 2 ^ 63) (hb : b.toNat ≤ 2 ^ 127) :
    (umulByInvert (ofInt t).v b).toNat = t.toNat * b.toNat / 2 ^ 64 := by
  obtain ⟨x, hx⟩ : ∃ x, t.toNat = x := ⟨_, rfl⟩
  obtain ⟨y, hy⟩ : ∃ y, b.toNat = y := ⟨_, rfl⟩
  have hval := toNat_ofInt ht
  rw [hx] at hval ht
  have hhigh : x * 2 ^ 64 / 2 ^ 64 = x := Nat.mul_div_cancel x (Nat.two_pow_pos 64)
  have hlow : x * 2 ^ 64 % 2 ^ 64 = 0 := Nat.mul_mod_left x (2 ^ 64)
  have hyL : y % 2 ^ 64 ≤ 2 ^ 64 - 1 := by omega
  have hyH : y / 2 ^ 64 ≤ 2 ^ 63 := by omega
  have hmid := Nat.mul_le_mul (show x ≤ 2 ^ 63 - 1 by omega) hyL
  have hhi := Nat.mul_le_mul (show x ≤ 2 ^ 63 - 1 by omega) hyH
  have hprod : x * y = x * (y / 2 ^ 64) * 2 ^ 64 + x * (y % 2 ^ 64) := by
    conv => lhs; rw [← Nat.div_add_mod y (2 ^ 64)]
    ring
  simp only [umulByInvert, BitVec.toNat_add, BitVec.toNat_mul, toNat_ushiftRight, toNat_and_maskLo, hval, hx, hy, hhigh,
    hlow, Nat.zero_mul, Nat.zero_mod, Nat.add_zero]
  rw [hprod]
  generalize x * (y % 2 ^ 64) = mid at *
  generalize x * (y / 2 ^ 64) = hi at *
  omega

theorem mulByInvert_ofInt {inv : Int64x64} (ht : t.toNat < 2 ^ 63) (hinv : inv.v.toNat ≤ 2 ^ 127) :
    ((ofInt t).mulByInvert inv).v.toNat = t.toNat * inv.v.toNat / 2 ^ 64 := by
  have hpos : (ofInt t).v.slt 0#128 = false := slt_zero_of_lt (by rw [toNat_ofInt ht]; omega)
  simp only [mulByInvert, hpos, Bool.false_eq_true, if_false]
  exact umulByInvert_ofInt ht hinv

/-- The integer part of a number after the multiplication. -/
theorem getHigh_mulByInvert {inv : Int64x64} (ht : t.toNat < 2 ^ 63) (hinv : inv.v.toNat ≤ 2 ^ 127) :
    ((ofInt t).mulByInvert inv).getHigh.toNat = t.toNat * inv.v.toNat / 2 ^ 128 := by
  rw [toNat_getHigh, mulByInvert_ofInt ht hinv, Nat.div_div_eq_div_mul, ← pow_add]

/-- The inverse is 2^128 divided by the number and rounded up. -/
theorem invert_spec (hlow : 2 ≤ v.toNat) (hhigh : v.toNat < 2 ^ 63) :
    ∃ inv, invert v = some inv ∧ inv.v.toNat ≤ 2 ^ 127 ∧ Reciprocal (2 ^ 128) v.toNat inv.v.toNat := by
  have hone : (1#128 <<< 64).toNat = 2 ^ 64 := by decide
  have hwide : (v.setWidth 128).toNat = v.toNat := by
    rw [BitVec.toNat_setWidth]
    exact Nat.mod_eq_of_lt (by omega)
  have hhalf : 2 ^ 128 / v.toNat ≤ 2 ^ 127 := by
    exact Nat.div_le_of_le_mul (by omega)
  obtain ⟨r, hr, hval⟩ := udiv_eq (a := 1#128 <<< 64) (b := v.setWidth 128) (by rw [hwide]; omega) (by rw [hwide]; omega)
    (by rw [hone, hwide]; exact Nat.lt_of_le_of_lt hhalf (by decide))
  rw [hone, hwide] at hval
  have hpow : 2 ^ 64 * 2 ^ 64 = 2 ^ 128 := by decide
  rw [hpow] at hval
  have hle : v.toNat * r.toNat ≤ 2 ^ 128 := by
    rw [hval]
    exact Nat.mul_div_le (2 ^ 128) v.toNat
  have hrle : r.toNat ≤ 2 ^ 127 := hval ▸ hhalf
  have htest : ((ofParts v 0#64).mulByInvert ⟨r⟩).getHigh = 1#64 ↔ v.toNat * r.toNat = 2 ^ 128 := by
    rw [ofParts_zero, ← BitVec.toNat_inj, getHigh_mulByInvert hhigh hrle]
    show v.toNat * r.toNat / 2 ^ 128 = 1 ↔ _
    omega
  have hinvert : invert v = some (if ((ofParts v 0#64).mulByInvert ⟨r⟩).getHigh ≠ 1#64 then ⟨r + 1#128⟩ else ⟨r⟩) := by
    simp only [invert, hr, Option.map_some]
  by_cases hdvd : v.toNat * r.toNat = 2 ^ 128
  · refine ⟨⟨r⟩, by rw [hinvert, if_neg (fun h => h (htest.2 hdvd))], hrle, ?_⟩
    have hrec := reciprocal_of_dvd (w := 2 ^ 128) (v := v.toNat) (by omega) (by rw [← hval]; exact hdvd)
    rw [← hval] at hrec
    exact hrec
  · have hrec := reciprocal_of_div (w := 2 ^ 128) (v := v.toNat) (by omega) (by rw [← hval]; exact hdvd)
    have hadd : (r + 1#128).toNat = r.toNat + 1 := by
      rw [BitVec.toNat_add]
      exact Nat.mod_eq_of_lt (by show r.toNat + 1 < 2 ^ 128; omega)
    refine ⟨⟨r + 1#128⟩, by rw [hinvert, if_pos (mt htest.1 hdvd)], ?_, ?_⟩
    · -- 2^127 is the inverse of 2, which is not rounded
      have hne : r.toNat ≠ 2 ^ 127 := fun hmax => by
        rw [hmax] at hle hdvd
        omega
      show (r + 1#128).toNat ≤ 2 ^ 127
      omega
    · show Reciprocal (2 ^ 128) v.toNat (r + 1#128).toNat
      rw [hadd, hval]
      exact hrec

/-- Division by the inverse is exact. -/
theorem getHigh_invert (hlow : 2 ≤ v.toNat) (hhigh : v.toNat < 2 ^ 63) :
    ∃ inv, invert v = some inv ∧ ∀ t : BitVec 64, t.toNat < 2 ^ 63 →
      ((ofInt t).mulByInvert inv).getHigh.toNat = t.toNat / v.toNat := by
  obtain ⟨inv, hinv, hle, hrec⟩ := invert_spec hlow hhigh
  refine ⟨inv, hinv, fun t ht => ?_⟩
  rw [getHigh_mulByInvert ht hle]
  have hprod := Nat.mul_le_mul (show t.toNat ≤ 2 ^ 63 by omega) (show v.toNat ≤ 2 ^ 63 by omega)
  exact hrec.mul_div (Nat.le_trans hprod (by decide))

theorem neg_ofInt (t : BitVec 64) (ht : t.toNat < 2 ^ 63) : (ofInt (-t)).v = -(ofInt t).v := by
  have hsmall := toNat_ofInt ht
  rcases Nat.eq_zero_or_pos t.toNat with hzero | hpos
  · rw [BitVec.eq_of_toNat_eq (y := 0#64) hzero]
    decide
  have hneg : (-t).toNat = 2 ^ 64 - t.toNat := by
    rw [BitVec.toNat_neg]
    exact Nat.mod_eq_of_lt (by omega)
  have hmsb : (-t).msb = true := BitVec.msb_eq_true_iff_two_mul_ge.2 (by omega)
  apply BitVec.eq_of_toNat_eq
  rw [ofInt, toNat_shiftLeft, BitVec.toNat_signExtend, hmsb, if_pos rfl, BitVec.toNat_setWidth, hneg, BitVec.toNat_neg,
    hsmall]
  generalize t.toNat = x at *
  omega

/-- A negative dividend gives the exact negation. -/
theorem mulByInvert_neg (t : BitVec 64) (inv : Int64x64) (ht : t.toNat < 2 ^ 63) :
    ((ofInt (-t)).mulByInvert inv).v = -((ofInt t).mulByInvert inv).v := by
  have hsmall := toNat_ofInt ht
  have hpos : (ofInt t).v.slt 0#128 = false := slt_zero_of_lt (by omega)
  rcases Nat.eq_zero_or_pos t.toNat with hzero | htpos
  · rw [BitVec.eq_of_toNat_eq (y := 0#64) hzero]
    have hofInt : (ofInt 0#64).v = 0#128 := by decide
    simp [mulByInvert, umulByInvert, hofInt]
  · have hneg : (ofInt (-t)).v.slt 0#128 = true := by
      rw [neg_ofInt t ht, BitVec.slt_zero_eq_msb]
      refine BitVec.msb_eq_true_iff_two_mul_ge.2 ?_
      rw [BitVec.toNat_neg, hsmall]
      omega
    simp only [mulByInvert, hpos, hneg, Bool.false_eq_true, if_false, if_true]
    rw [neg_ofInt t ht, BitVec.neg_neg]

end Int64x64

open Int64x64

/-! ## Units -/

/-- `Time::Unit`. -/
inductive TimeUnit where
  | y | d | h | min | s | ms | us | ns | ps | fs
  deriving DecidableEq, Repr

namespace TimeUnit

def power : TimeUnit → Nat
  | y => 17
  | d => 17
  | h => 17
  | min => 16
  | s => 15
  | ms => 12
  | us => 9
  | ns => 6
  | ps => 3
  | fs => 0

def coefficient : TimeUnit → Nat
  | y => 315360
  | d => 864
  | h => 36
  | min => 6
  | _ => 1

def shift (unit i : TimeUnit) : Int := (i.power : Int) - unit.power

def quotient (unit i : TimeUnit) : Nat :=
  if unit.coefficient < i.coefficient then i.coefficient / unit.coefficient
  else if i.coefficient < unit.coefficient then unit.coefficient / i.coefficient
  else 1

/-- `realFactor > 1`. -/
def larger (unit i : TimeUnit) : Bool := unit.coefficient * 10 ^ unit.power < i.coefficient * 10 ^ i.power

end TimeUnit

/-- The cast of a double that is a natural number. Out of range, where the language leaves it open, it is
the indefinite integer of the hardware. -/
def castInt64 (x : Nat) : BitVec 64 := if x < 2 ^ 63 then BitVec.ofNat 64 x else BitVec.intMin 64

/-- `Time::Information`. -/
structure Information where
  toMul : Bool
  fromMul : Bool
  factor : BitVec 64
  timeTo : Int64x64
  timeFrom : Int64x64
  deriving DecidableEq, Repr

def conversionFactor (unit i : TimeUnit) : BitVec 64 :=
  castInt64 (10 ^ (unit.shift i).natAbs * unit.quotient i)

/-- The entry for a unit that `Time::SetResolution` makes. -/
def setResolution (unit i : TimeUnit) : Option Information :=
  let factor := conversionFactor unit i
  if unit.shift i = 0 ∧ unit.quotient i = 1 then some ⟨true, true, factor, ofInt 1#64, ofInt 1#64⟩
  else if unit.larger i then (invert factor).map fun inv => ⟨false, true, factor, inv, ofInt factor⟩
  else (invert factor).map fun inv => ⟨true, false, factor, ofInt factor, inv⟩

namespace Information

/-- `Time::To`, from the stored value. -/
def toUnit (info : Information) (data : BitVec 64) : Option Int64x64 :=
  if info.toMul then (ofInt data).mul info.timeTo else some ((ofInt data).mulByInvert info.timeTo)

def toInteger (info : Information) (data : BitVec 64) : BitVec 64 :=
  if info.toMul then data * info.factor else data.sdiv info.factor

/-- `Time::From`; the stored value. -/
def fromUnit (info : Information) (value : Int64x64) : Option (BitVec 64) :=
  (if info.fromMul then value.mul info.timeFrom else some (value.mulByInvert info.timeFrom)).map getHigh

def fromInteger (info : Information) (value : BitVec 64) : BitVec 64 :=
  if info.fromMul then value * info.factor else value / info.factor

end Information

/-! ## Exactness -/

theorem TimeUnit.quotient_pos (unit i : TimeUnit) : 0 < unit.quotient i := by
  have hi : 0 < i.coefficient := by cases i <;> decide
  have hunit : 0 < unit.coefficient := by cases unit <;> decide
  unfold TimeUnit.quotient
  split
  · exact Nat.div_pos (Nat.le_of_lt ‹_›) hunit
  · split
    · exact Nat.div_pos (Nat.le_of_lt ‹_›) hi
    · exact Nat.one_pos

theorem conversionFactor_range {unit i : TimeUnit} (h : ¬ (unit.shift i = 0 ∧ unit.quotient i = 1)) :
    2 ≤ (conversionFactor unit i).toNat ∧ (conversionFactor unit i).toNat ≤ 2 ^ 63 := by
  have hquo := TimeUnit.quotient_pos unit i
  have hpow : 0 < 10 ^ (unit.shift i).natAbs := Nat.pow_pos (by decide)
  have htwo : 2 ≤ 10 ^ (unit.shift i).natAbs * unit.quotient i := by
    rcases Nat.eq_zero_or_pos (unit.shift i).natAbs with hzero | hpos
    · rw [hzero, pow_zero, Nat.one_mul]
      have hone : unit.quotient i ≠ 1 := fun hone => h ⟨Int.natAbs_eq_zero.1 hzero, hone⟩
      omega
    · calc 2 ≤ 10 ^ 1 * 1 := by decide
        _ ≤ 10 ^ (unit.shift i).natAbs * unit.quotient i :=
          Nat.mul_le_mul (Nat.pow_le_pow_right (by decide) hpos) hquo
  generalize hfactor : 10 ^ (unit.shift i).natAbs * unit.quotient i = x at htwo
  rw [conversionFactor, hfactor, castInt64]
  split
  · rw [BitVec.toNat_ofNat]
    omega
  · decide

/-- The largest factor divides everything to zero, and so does its inverse. -/
theorem getHigh_invert_intMin :
    ∃ inv, invert (BitVec.intMin 64) = some inv ∧ ∀ t : BitVec 64, t.toNat < 2 ^ 63 →
      ((ofInt t).mulByInvert inv).getHigh.toNat = t.toNat / 2 ^ 63 := by
  refine ⟨⟨(1#128 <<< 65) + 1#128⟩, by decide +kernel, fun t ht => ?_⟩
  have hinv : ((1#128 <<< 65) + 1#128).toNat = 2 ^ 65 + 1 := by decide
  rw [getHigh_mulByInvert ht (by show ((1#128 <<< 65) + 1#128).toNat ≤ _; rw [hinv]; omega)]
  show t.toNat * ((1#128 <<< 65) + 1#128).toNat / 2 ^ 128 = _
  rw [hinv]
  omega

theorem getHigh_invert_le {f : BitVec 64} (hlow : 2 ≤ f.toNat) (hhigh : f.toNat ≤ 2 ^ 63) :
    ∃ inv, invert f = some inv ∧ ∀ t : BitVec 64, t.toNat < 2 ^ 63 → ((ofInt t).mulByInvert inv).getHigh = t / f := by
  rcases Nat.lt_or_ge f.toNat (2 ^ 63) with hlt | hge
  · obtain ⟨inv, hinv, hdiv⟩ := getHigh_invert hlow hlt
    refine ⟨inv, hinv, fun t ht => BitVec.eq_of_toNat_eq ?_⟩
    rw [hdiv t ht, BitVec.toNat_udiv]
  · have hmax : f.toNat = 2 ^ 63 := by omega
    have hintMin : f = BitVec.intMin 64 := BitVec.eq_of_toNat_eq (hmax.trans (by decide))
    obtain ⟨inv, hinv, hdiv⟩ := getHigh_invert_intMin
    refine ⟨inv, hintMin ▸ hinv, fun t ht => BitVec.eq_of_toNat_eq ?_⟩
    rw [hdiv t ht, BitVec.toNat_udiv, hmax]

/-- The signed and the unsigned quotient of a number that is not negative. -/
theorem sdiv_eq_udiv {t f : BitVec 64} (ht : t.toNat < 2 ^ 63) (hf : f.toNat ≤ 2 ^ 63) : t.sdiv f = t / f := by
  have htmsb : t.msb = false := BitVec.msb_eq_false_iff_two_mul_lt.2 (by omega)
  rw [BitVec.sdiv_eq, htmsb]
  rcases Nat.lt_or_ge f.toNat (2 ^ 63) with hlt | hge
  · have hfmsb : f.msb = false := BitVec.msb_eq_false_iff_two_mul_lt.2 (by omega)
    rw [hfmsb]
    rfl
  · have hfmsb : f.msb = true := BitVec.msb_eq_true_iff_two_mul_ge.2 (by omega)
    have hmax : f.toNat = 2 ^ 63 := by omega
    rw [hfmsb]
    apply BitVec.eq_of_toNat_eq
    show (-(t.udiv (-f))).toNat = (t / f).toNat
    have hneg : -f = f := BitVec.eq_of_toNat_eq (by rw [BitVec.toNat_neg, hmax]; decide)
    have hquo : (t / f).toNat = 0 := by
      rw [BitVec.toNat_udiv, hmax]
      exact Nat.div_eq_of_lt ht
    have hzero : t.udiv f = 0#64 := BitVec.eq_of_toNat_eq hquo
    rw [hneg, hzero, hquo]
    rfl

/-- Division by a stored inverse is exact, and the conversions that divide agree with those on
integers. -/
theorem division_exact :
    (∀ v : BitVec 64, 2 ≤ v.toNat → v.toNat < 2 ^ 63 →
      ∃ inv, invert v = some inv ∧ ∀ t : BitVec 64, t.toNat < 2 ^ 63 →
        ((ofInt t).mulByInvert inv).getHigh.toNat = t.toNat / v.toNat ∧
          ((ofInt (-t)).mulByInvert inv).v = -((ofInt t).mulByInvert inv).v) ∧
      ∀ unit i : TimeUnit, ∃ info, setResolution unit i = some info ∧ ∀ t : BitVec 64, t.toNat < 2 ^ 63 →
        (info.toMul = false → (info.toUnit t).map getHigh = some (info.toInteger t)) ∧
          (info.fromMul = false → info.fromUnit (ofInt t) = some (info.fromInteger t)) := by
  constructor
  · intro v hlow hhigh
    obtain ⟨inv, hinv, hdiv⟩ := getHigh_invert hlow hhigh
    exact ⟨inv, hinv, fun t ht => ⟨hdiv t ht, mulByInvert_neg t inv ht⟩⟩
  · intro unit i
    by_cases hsame : unit.shift i = 0 ∧ unit.quotient i = 1
    · exact ⟨_, if_pos hsame, fun t _ => ⟨(nomatch ·), (nomatch ·)⟩⟩
    · obtain ⟨hlow, hhigh⟩ := conversionFactor_range hsame
      obtain ⟨inv, hinv, hdiv⟩ := getHigh_invert_le hlow hhigh
      by_cases hlarger : unit.larger i = true
      · refine ⟨⟨false, true, conversionFactor unit i, inv, ofInt (conversionFactor unit i)⟩, ?_,
          fun t ht => ⟨fun _ => ?_, (nomatch ·)⟩⟩
        · simp only [setResolution, if_neg hsame, if_pos hlarger, hinv, Option.map_some]
        · show some ((ofInt t).mulByInvert inv).getHigh = some (t.sdiv (conversionFactor unit i))
          rw [hdiv t ht, sdiv_eq_udiv ht hhigh]
      · refine ⟨⟨true, false, conversionFactor unit i, ofInt (conversionFactor unit i), inv⟩, ?_,
          fun t ht => ⟨(nomatch ·), fun _ => ?_⟩⟩
        · simp only [setResolution, if_neg hsame, if_neg hlarger, hinv, Option.map_some]
        · show some ((ofInt t).mulByInvert inv).getHigh = some (t / conversionFactor unit i)
          rw [hdiv t ht]

theorem division_exact_seven :
    (∃ inv, invert 7#64 = some inv ∧ ((ofInt 100#64).mulByInvert inv).getHigh.toNat = 14) ∧
      ∃ info, setResolution .ns .us = some info ∧ (info.toUnit 2500#64).map getHigh = some (info.toInteger 2500#64) := by
  constructor
  · obtain ⟨inv, hinv, hdiv⟩ := division_exact.1 7#64 (by decide) (by decide)
    exact ⟨inv, hinv, (hdiv 100#64 (by decide)).1⟩
  · obtain ⟨info, hinfo, hexact⟩ := division_exact.2 .ns .us
    have hto : (setResolution .ns .us).map Information.toMul = some false := by decide +kernel
    rw [hinfo] at hto
    exact ⟨info, hinfo, (hexact 2500#64 (by decide)).1 (Option.some.inj hto)⟩

end Ns3Raft.Core
