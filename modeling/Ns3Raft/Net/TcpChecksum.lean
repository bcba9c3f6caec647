import Ns3Raft.Lib.OnesComplement
import Ns3Raft.Net.TcpOptionSpace

/-! # The TCP checksum

A segment that `Serialize` has written sums to a multiple of the largest word, and with a flipped bit
it does not. `Deserialize` sums it only where it comes to the end of the options.
-/

namespace Ns3Raft.Net

variable {p : List UInt8} {k : Nat}

/-- What a byte counts for in the sum. -/
def weight (k : Nat) : Nat := if k % 2 = 0 then 1 else 2 ^ 8

theorem weight_add_two (k : Nat) : weight (k + 2) = weight k := by
  rw [weight, weight, Nat.add_mod_right]

theorem weight_eq (k : Nat) : ∃ m, weight k = 2 ^ m := by
  rw [weight]
  split
  · exact ⟨0, rfl⟩
  · exact ⟨8, rfl⟩

/-- One byte is changed. -/
theorem sumWords_set (b : UInt8) (hk : k < p.length) :
    sumWords (p.set k b) + weight k * (p.getD k 0).toNat = sumWords p + weight k * b.toNat := by
  induction p using sumWords.induct generalizing k with
  | case1 => exact nomatch hk
  | case2 x =>
    obtain rfl : k = 0 := Nat.lt_one_iff.1 hk
    show b.toNat + 1 * x.toNat = x.toNat + 1 * b.toNat
    omega
  | case3 low high rest ih =>
    match k with
    | 0 =>
      show b.toNat + high.toNat * 2 ^ 8 + sumWords rest + 1 * low.toNat =
        low.toNat + high.toNat * 2 ^ 8 + sumWords rest + 1 * b.toNat
      omega
    | 1 =>
      show low.toNat + b.toNat * 2 ^ 8 + sumWords rest + 2 ^ 8 * high.toNat =
        low.toNat + high.toNat * 2 ^ 8 + sumWords rest + 2 ^ 8 * b.toNat
      omega
    | k + 2 =>
      have hrest := ih (show k < rest.length from Nat.lt_of_add_lt_add_right hk)
      rw [weight_add_two]
      show low.toNat + high.toNat * 2 ^ 8 + sumWords (rest.set k b) + weight k * (rest.getD k 0).toNat =
        low.toNat + high.toNat * 2 ^ 8 + sumWords rest + weight k * b.toNat
      omega

theorem sumWords_le (p : List UInt8) : sumWords p ≤ 0xffff * ((p.length + 1) / 2) := by
  induction p using sumWords.induct with
  | case1 => exact Nat.zero_le _
  | case2 x =>
    have hx := x.toNat_lt
    show x.toNat ≤ 0xffff * ((0 + 1 + 1) / 2)
    omega
  | case3 low high rest ih =>
    have hlow := low.toNat_lt
    have hhigh := high.toNat_lt
    have hlength : ((low :: high :: rest).length + 1) / 2 = (rest.length + 1) / 2 + 1 := by
      simp only [List.length_cons]
      omega
    rw [hlength, Nat.mul_succ]
    show low.toNat + high.toNat * 2 ^ 8 + sumWords rest ≤ _
    omega

/-! ## The sum of a segment -/

theorem addCarries_eq (sum : Nat) : addCarries sum = OnesComplement.fold 16 sum := by
  induction sum using addCarries.induct with
  | case1 sum h => rw [addCarries, if_pos h, OnesComplement.fold_of_lt h]
  | case2 sum h ih => rw [addCarries, if_neg h, ih, OnesComplement.fold_of_le (by decide) (Nat.le_of_not_lt h)]

theorem calculateIpChecksum_lt (p : List UInt8) (size c : Nat) : calculateIpChecksum p size c < 2 ^ 16 :=
  Nat.lt_of_le_of_lt (Nat.sub_le _ _) (by decide)

/-- For a segment of 16 bit length the sum does not overflow. -/
theorem calculateIpChecksum_eq {c : Nat} (hp : p.length < 2 ^ 16) (hc : c < 2 ^ 16) :
    calculateIpChecksum p p.length c = 0xffff - OnesComplement.fold 16 (c + sumWords p) := by
  have hsum := sumWords_le p
  have hhalf : (p.length + 1) / 2 ≤ 2 ^ 15 := by omega
  have hsmall : c + sumWords p < 2 ^ 32 := by omega
  rw [calculateIpChecksum, Nat.mod_eq_of_lt hp, List.take_length, Nat.mod_eq_of_lt hsmall, addCarries_eq]

theorem calculateIpChecksum_eq_zero_iff {c : Nat} (hp : p.length < 2 ^ 16) (hc : c < 2 ^ 16) :
    calculateIpChecksum p p.length c = 0 ↔ 0 < c + sumWords p ∧ 2 ^ 16 - 1 ∣ c + sumWords p := by
  have hlt := OnesComplement.fold_lt (show 16 ≠ 0 by decide) (c + sumWords p)
  rw [calculateIpChecksum_eq hp hc, ← OnesComplement.fold_eq_max_iff (by decide)]
  omega

/-! ## A flipped bit -/

/-- One bit of a byte string is wrong. -/
def flipBit (p : List UInt8) (bit : Nat) : List UInt8 :=
  p.set (bit / 8) (p.getD (bit / 8) 0 ^^^ UInt8.ofNat (2 ^ (bit % 8)))

theorem length_flipBit (p : List UInt8) (bit : Nat) : (flipBit p bit).length = p.length := List.length_set

theorem toNat_xor_bit (x : UInt8) {j : Nat} (hj : j < 8) :
    (x ^^^ UInt8.ofNat (2 ^ j)).toNat = x.toNat + 2 ^ j ∨ (x ^^^ UInt8.ofNat (2 ^ j)).toNat + 2 ^ j = x.toNat := by
  have hbit : (UInt8.ofNat (2 ^ j)).toNat = 2 ^ j := by
    rw [UInt8.toNat_ofNat', Nat.mod_eq_of_lt (Nat.pow_lt_pow_right (by decide) hj)]
  rw [UInt8.toNat_xor, hbit]
  exact OnesComplement.xor_two_pow x.toNat j

/-- A flipped bit is a power of two apart in the sum. -/
theorem sumWords_flipBit {bit : Nat} (hbit : bit < 8 * p.length) :
    ∃ m, sumWords (flipBit p bit) = sumWords p + 2 ^ m ∨ sumWords (flipBit p bit) + 2 ^ m = sumWords p := by
  have hset := sumWords_set (p.getD (bit / 8) 0 ^^^ UInt8.ofNat (2 ^ (bit % 8))) (show bit / 8 < p.length by omega)
  obtain ⟨m, hm⟩ := weight_eq (bit / 8)
  rw [hm] at hset
  refine ⟨m + bit % 8, ?_⟩
  rw [Nat.pow_add, flipBit]
  rcases toNat_xor_bit (p.getD (bit / 8) 0) (Nat.mod_lt bit (show 8 > 0 by decide)) with hplus | hminus
  · rw [hplus, Nat.mul_add] at hset
    exact .inl (by omega)
  · rw [← hminus, Nat.mul_add] at hset
    exact .inr (by omega)

namespace TcpHeader

variable {h : TcpHeader} {payload : List UInt8} {bit : Nat}

theorem calculateHeaderChecksum_lt (h : TcpHeader) (size : Nat) : h.calculateHeaderChecksum size < 2 ^ 16 :=
  Nat.lt_of_le_of_lt (Nat.sub_le _ _) (by decide)

theorem calculateHeaderChecksum_congr {h' : TcpHeader} (hpseudo : h'.pseudo = h.pseudo) (size : Nat) :
    h'.calculateHeaderChecksum size = h.calculateHeaderChecksum size := by
  rw [calculateHeaderChecksum, calculateHeaderChecksum, hpseudo]

theorem serializeFields_length (h : TcpHeader) : 20 ≤ h.serializeFields.length := by
  simp only [serializeFields, writeHtonU16, writeHtonU32, List.length_append, List.length_cons, List.length_nil]
  omega

theorem serialize_length (h : TcpHeader) (payload : List UInt8) :
    (h.serialize payload).length = (h.serializeFields ++ payload).length := by
  unfold serialize
  dsimp only
  split
  · rw [List.length_set, List.length_set]
  · rfl

/-- The checksum makes the sum a multiple of the largest word. -/
theorem dvd_sum_serialize (hcalc : h.calcChecksum = true) (hlength : (h.serialize payload).length < 2 ^ 16) :
    2 ^ 16 - 1 ∣ h.calculateHeaderChecksum (h.serialize payload).length + sumWords (h.serialize payload) := by
  have hheader := h.serializeFields_length
  have hserialized := h.serialize_length payload
  rw [hserialized] at hlength
  rw [hserialized]
  have hlong : 18 ≤ (h.serializeFields ++ payload).length := by
    rw [List.length_append]
    omega
  unfold serialize
  rw [if_pos hcalc]
  dsimp only
  have hlow : (h.serializeFields ++ payload).getD 16 0 = 0 := rfl
  have hhigh : (h.serializeFields ++ payload).getD 17 0 = 0 := rfl
  generalize h.serializeFields ++ payload = start at hlength hlong hlow hhigh ⊢
  have hc := h.calculateHeaderChecksum_lt start.length
  generalize h.calculateHeaderChecksum start.length = c at hc ⊢
  have hchecksum := calculateIpChecksum_eq hlength hc
  have hsmall := calculateIpChecksum_lt start start.length c
  generalize calculateIpChecksum start start.length c = checksum at hchecksum hsmall ⊢
  have hfirst := sumWords_set (UInt8.ofNat checksum) (show 16 < start.length by omega)
  have hsecond := sumWords_set (p := start.set 16 (UInt8.ofNat checksum)) (UInt8.ofNat (checksum >>> 8))
    (show 17 < (start.set 16 _).length by rw [List.length_set]; omega)
  have hother : (start.set 16 (UInt8.ofNat checksum)).getD 17 0 = 0 := by
    rw [List.getD_eq_getElem?_getD, List.getElem?_set_ne (by decide), ← List.getD_eq_getElem?_getD, hhigh]
  have hbytes : (UInt8.ofNat checksum).toNat + 2 ^ 8 * (UInt8.ofNat (checksum >>> 8)).toNat = checksum := by
    rw [UInt8.toNat_ofNat', UInt8.toNat_ofNat', Nat.shiftRight_eq_div_pow]
    omega
  rw [hlow, show weight 16 = 1 from rfl] at hfirst
  rw [hother, show weight 17 = 2 ^ 8 from rfl] at hsecond
  have hzero : (0 : UInt8).toNat = 0 := rfl
  have htotal : c + sumWords ((start.set 16 (UInt8.ofNat checksum)).set 17 (UInt8.ofNat (checksum >>> 8))) =
      c + sumWords start + checksum := by omega
  have hfold := OnesComplement.fold_lt (show 16 ≠ 0 by decide) (c + sumWords start)
  have hmod := OnesComplement.fold_modEq 16 (c + sumWords start)
  rw [htotal]
  have hmax : OnesComplement.fold 16 (c + sumWords start) + checksum = 2 ^ 16 - 1 := by omega
  refine ((hmod.symm.add_right checksum).dvd_iff (Nat.dvd_refl _)).2 ?_
  rw [hmax]

/-- The sum of a segment with a flipped bit is wrong. -/
theorem verify_flipBit {h' : TcpHeader} (hcalc : h.calcChecksum = true) (hlength : (h.serialize payload).length < 2 ^ 16)
    (hbit : bit < 8 * (h.serialize payload).length) (hcalc' : h'.calcChecksum = true) (hpseudo : h'.pseudo = h.pseudo) :
    (h'.verify (flipBit (h.serialize payload) bit)).goodChecksum = false := by
  have hdvd := dvd_sum_serialize hcalc hlength
  obtain ⟨m, hm⟩ := sumWords_flipBit hbit
  unfold verify
  rw [if_pos hcalc']
  refine decide_eq_false fun hzero => ?_
  rw [calculateIpChecksum_eq_zero_iff (by rwa [length_flipBit]) (h'.calculateHeaderChecksum_lt _),
    calculateHeaderChecksum_congr hpseudo, length_flipBit] at hzero
  refine OnesComplement.not_dvd_of_bit (k := m) (by decide) hdvd ?_ hzero.2
  rcases hm with hplus | hminus
  · exact .inl (by omega)
  · exact .inr (by omega)

/-! ## The verdict -/

/-- The header that a received segment is read into. -/
def fresh (pseudo : PseudoHeader) : TcpHeader := (new pseudo).enableChecksums

/-- `Deserialize` returns, and the verdict is that the segment is wrong. -/
def Detected (pseudo : PseudoHeader) (p : List UInt8) : Prop :=
  ∃ fuel h' size inside, (fresh pseudo).deserialize fuel p = some (h', size, inside) ∧ h'.isChecksumOk = false

/-- Wherever it returns, the verdict is right unless the data offset is short. -/
theorem isChecksumOk_flipBit {h' : TcpHeader} {fuel size : Nat} {inside : Bool} (hcalc : h.calcChecksum = true)
    (hlength : (h.serialize payload).length < 2 ^ 16) (hbit : bit < 8 * (h.serialize payload).length)
    (hresult : (fresh h.pseudo).deserialize fuel (flipBit (h.serialize payload) bit) = some (h', size, inside)) :
    h'.isChecksumOk = false ↔ 5 ≤ dataOffset (flipBit (h.serialize payload) bit) := by
  have hfixed : 20 ≤ (flipBit (h.serialize payload) bit).length := by
    have hheader := h.serializeFields_length
    rw [length_flipBit, serialize_length, List.length_append]
    omega
  rcases Nat.lt_or_ge (dataOffset (flipBit (h.serialize payload) bit)) 5 with hshort | hlong
  · obtain ⟨h₁, hreturn, hgood⟩ := (fresh h.pseudo).deserialize_short hfixed hshort fuel
    obtain rfl : h₁ = h' := congrArg (·.1) (Option.some.inj (hreturn.symm.trans hresult))
    refine iff_of_false (fun hbad => ?_) (Nat.not_le.2 hshort)
    rw [isChecksumOk, hgood] at hbad
    exact nomatch hbad
  · obtain ⟨h₁, hcalc', hpseudo, hrun⟩ := (fresh h.pseudo).deserialize_long hfixed hlong
    rw [hrun, Option.map_eq_some_iff] at hresult
    obtain ⟨s, -, heq⟩ := hresult
    have hverified : verify { h₁ with options := s.options, optionsLen := s.optionsLen } _ = h' := congrArg (·.1) heq
    refine iff_of_true ?_ hlong
    rw [← hverified]
    exact verify_flipBit hcalc hlength hbit hcalc' hpseudo

theorem detected_iff (hcalc : h.calcChecksum = true) (hlength : (h.serialize payload).length < 2 ^ 16)
    (hbit : bit < 8 * (h.serialize payload).length) :
    Detected h.pseudo (flipBit (h.serialize payload) bit) ↔
      5 ≤ dataOffset (flipBit (h.serialize payload) bit) ∧
        OptionLoop.finite ((flipBit (h.serialize payload) bit).drop 20)
          ((dataOffset (flipBit (h.serialize payload) bit) - 5) * 4) = true := by
  have hfixed : 20 ≤ (flipBit (h.serialize payload) bit).length := by
    have hheader := h.serializeFields_length
    rw [length_flipBit, serialize_length, List.length_append]
    omega
  have hreturns := OptionLoop.returns_iff (s := optionLoop (flipBit (h.serialize payload) bit))
  constructor
  · rintro ⟨fuel, h', size, inside, hresult, hbad⟩
    have hlong := (isChecksumOk_flipBit hcalc hlength hbit hresult).1 hbad
    refine ⟨hlong, hreturns.1 ?_⟩
    obtain ⟨h₁, -, -, hrun⟩ := (fresh h.pseudo).deserialize_long hfixed hlong
    rw [hrun, Option.map_eq_some_iff] at hresult
    obtain ⟨s, hloop, -⟩ := hresult
    exact ⟨fuel, s, hloop, trivial⟩
  · rintro ⟨hlong, hfinite⟩
    obtain ⟨fuel, s, hloop, -⟩ := hreturns.2 hfinite
    obtain ⟨h₁, -, -, hrun⟩ := (fresh h.pseudo).deserialize_long hfixed hlong
    have hresult : (fresh h.pseudo).deserialize fuel (flipBit (h.serialize payload) bit) =
        some (h₁.finish (flipBit (h.serialize payload) bit) s) := by rw [hrun, hloop, Option.map_some]
    exact ⟨fuel, _, _, _, hresult, (isChecksumOk_flipBit hcalc hlength hbit hresult).2 hlong⟩

theorem detected_payload : Detected hosts (flipBit ((fresh hosts).serialize [65]) 160) :=
  (detected_iff (h := fresh hosts) rfl (by decide) (by decide)).2 ⟨by decide, by
    rw [OptionLoop.finite]
    rfl⟩

/-- The data offset 5 becomes 4, and the sum is not looked at. -/
theorem not_detected_offset : ¬ Detected hosts (flipBit ((fresh hosts).serialize [65]) 100) := by
  rintro ⟨fuel, h', size, inside, hresult, hbad⟩
  obtain ⟨h₁, hreturn, hgood⟩ := (fresh hosts).deserialize_short (p := flipBit ((fresh hosts).serialize [65]) 100)
    (by decide) (by decide) fuel
  obtain rfl : h₁ = h' := congrArg (·.1) (Option.some.inj (hreturn.symm.trans hresult))
  rw [isChecksumOk, hgood] at hbad
  exact nomatch hbad

end TcpHeader

end Ns3Raft.Net
