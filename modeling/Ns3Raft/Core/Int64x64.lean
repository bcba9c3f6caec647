import Ns3Raft.Lib.Division

/-! # Numbers with 64 bits behind the point

`int64x64_t` on a native integer of 128 bits: multiplication by halves, and division by
digits that are developed in rounds.
-/

namespace Ns3Raft.Core

/-- `int64x64_t`. The value is that of `v`, divided by 2^64. -/
structure Int64x64 where
  v : BitVec 128
  deriving DecidableEq, Repr

namespace Int64x64

/-- `HP_MASK_LO`, for the fraction part. -/
def maskLo : BitVec 64 := 0xffffffffffffffff#64

/-- `HP_MASK_HI`, meant for the sign and the integer part: it has 64 bits as well. -/
def maskHi : BitVec 64 := ~~~maskLo

/-- `HP128_MASK_HI_BIT`. -/
def maskHiBit : BitVec 128 := 1#128 <<< 127

/-- `DIGITS`, the fraction digits that are needed. -/
def digits : Nat := 64

/-- The magnitudes of the operands, and whether the result is negative. -/
def outputSign (sa sb : BitVec 128) : BitVec 128 × BitVec 128 × Bool :=
  let negA := sa.slt 0#128
  let negB := sb.slt 0#128
  (if negA then -sa else sa, if negB then -sb else sb, (negA && !negB) || (!negA && negB))

/-! ## Multiplication -/

/-- `none` is the abort. -/
def umul (a b : BitVec 128) : Option (BitVec 128) :=
  let aL := a &&& maskLo.setWidth 128
  let bL := b &&& maskLo.setWidth 128
  let aH := (a >>> 64) &&& maskLo.setWidth 128
  let bH := (b >>> 64) &&& maskLo.setWidth 128
  let loPart := aL * bL
  let midPart := aL * bH + aH * bL
  let hiPart := aH * bH
  if hiPart &&& maskHi.setWidth 128 ≠ 0#128 then none
  else
    let res1 := loPart >>> 64
    let res2 := midPart &&& maskLo.setWidth 128
    let result := res1 + res2
    let res1 := midPart >>> 64
    let res2 := hiPart &&& maskLo.setWidth 128
    let res1 := (res1 + res2) <<< 64
    some (result + res1)

def mul (a o : Int64x64) : Option Int64x64 :=
  let (ua, ub, negative) := outputSign a.v o.v
  (umul ua ub).map fun result => ⟨if negative then -result else result⟩

/-! ## Division -/

/-- Skip trailing zeros in the divisor, `need` of them at most. -/
def skipTrailing : Nat → Nat → BitVec 128 → Nat × BitVec 128
  | 0, shift, den => (shift, den)
  | need + 1, shift, den =>
      if den &&& 1#128 = 0#128 then skipTrailing need (shift + 1) (den >>> 1) else (shift, den)

/-- Skip leading zeros in the remainder. -/
def skipLeading : Nat → Nat → BitVec 128 → Nat × BitVec 128
  | 0, shift, rem => (shift, rem)
  | need + 1, shift, rem =>
      if rem &&& maskHiBit = 0#128 then skipLeading need (shift + 1) (rem <<< 1) else (shift, rem)

/-- Cast off denominator bits. -/
def castOff : Nat → Nat → BitVec 128 → BitVec 128 → Nat × BitVec 128
  | 0, shift, _, den => (shift, den)
  | need + 1, shift, rem, den =>
      if den &&& 1#128 = 0#128 ∨ rem < den then castOff need (shift + 1) rem (den >>> 1) else (shift, den)

/-- The variables of the digit loop. -/
structure DivState where
  digis : Nat
  shift : Nat
  rem : BitVec 128
  den : BitVec 128
  result : BitVec 128
  deriving DecidableEq, Repr

/-- A round of the digit loop. -/
def divRound (st : DivState) : DivState :=
  let (shift, rem) := skipLeading (digits - (st.digis + st.shift)) st.shift st.rem
  let (shift, den) := castOff (digits - (st.digis + shift)) shift rem st.den
  let quo := rem / den
  { digis := st.digis + shift, shift := 0, rem := rem % den, den := den, result := (st.result <<< shift) + quo }

/-- `none` when the rounds run out. -/
def divLoop : Nat → DivState → Option DivState
  | rounds, st =>
      if st.digis < digits ∧ st.rem ≠ 0#128 then
        match rounds with
        | 0 => none
        | rounds + 1 => divLoop rounds (divRound st)
      else some st

/-- The result with zeros for the digits that are missing when nothing remains. -/
def DivState.allDigits (st : DivState) : BitVec 128 :=
  if st.digis < digits then st.result <<< (digits - st.digis) else st.result

def udiv (a b : BitVec 128) : Option (BitVec 128) :=
  let quo := a / b
  let rem := a % b
  let (shift, den) := skipTrailing digits 0 b
  (divLoop digits ⟨0, shift, rem, den, quo⟩).map DivState.allDigits

/-- The divisor is not zero where this is called. -/
def div (a o : Int64x64) : Option Int64x64 :=
  let (ua, ub, negative) := outputSign a.v o.v
  (udiv ua ub).map fun result => ⟨if negative then -result else result⟩

/-! ## Division by a stored inverse -/

def ofParts (hi lo : BitVec 64) : Int64x64 := ⟨(hi.signExtend 128 <<< 64) ||| lo.setWidth 128⟩

/-- The integer part. -/
def getHigh (a : Int64x64) : BitVec 64 := (a.v.sshiftRight 64).setWidth 64

def umulByInvert (a b : BitVec 128) : BitVec 128 :=
  let ah := a >>> 64
  let bh := b >>> 64
  let al := a &&& maskLo.setWidth 128
  let bl := b &&& maskLo.setWidth 128
  let hi := ah * bh
  let mid := (ah * bl + al * bh) >>> 64
  hi + mid

def mulByInvert (a o : Int64x64) : Int64x64 :=
  let negResult := a.v.slt 0#128
  let result := umulByInvert (if negResult then -a.v else a.v) o.v
  ⟨if negResult then -result else result⟩

def invert (v : BitVec 64) : Option Int64x64 :=
  (udiv (1#128 <<< 64) (v.setWidth 128)).map fun quo =>
    let result : Int64x64 := ⟨quo⟩
    let tmp := (ofParts v 0#64).mulByInvert result
    if tmp.getHigh ≠ 1#64 then ⟨result.v + 1#128⟩ else result

end Int64x64

end Ns3Raft.Core
