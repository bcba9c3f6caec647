import Ns3Raft.Service.Block
import Ns3Raft.Store.Layout
import Mathlib.Data.Nat.Bitwise

/-! # The header of a block

The bit that tells a big block from a small one is the top bit of the cursor of a small
block, so that it tells the truth while the cursor is inside. Then the header decodes to
what it was packed from, and neither a write to the bytes nor a move of the cursor
disturbs the rest of it.
-/

namespace Ns3Raft.Service

open Memory Store

namespace Block

/-! ## The header -/

variable {p : Block}

theorem uintAt_zero (p : Block) : p.uintAt 0 = p.ushortAt 0 + 65536 * p.ushortAt 1 := by
  simp only [uintAt, ushortAt, read_succ, read_zero, getBytes, Nat.mul_zero, Nat.mul_one, Nat.zero_add,
    Nat.reduceAdd]
  omega

theorem uintAt_lt (p : Block) (i : Nat) : p.uintAt i < 2 ^ 32 := by
  have hlt := getBytes_lt (read p (4 * i) 4)
  rwa [read_length] at hlt

theorem ushortAt_lt (p : Block) (i : Nat) : p.ushortAt i < 2 ^ 16 := by
  have hlt := getBytes_lt (read p (2 * i) 2)
  rwa [read_length] at hlt

theorem isBigBlock_iff : p.isBigBlock = true ↔ 2 ^ 31 ≤ p.uintAt 0 := by
  have hlt := p.uintAt_lt 0
  have hand : 0x80000000 &&& p.uintAt 0 = 2 ^ 31 * ((p.uintAt 0).testBit 31).toNat :=
    Nat.two_pow_and _ 31
  rw [isBigBlock, decide_eq_true_iff, hand]
  constructor
  · intro hne
    by_contra hle
    rw [Nat.testBit_lt_two_pow (by omega)] at hne
    simp at hne
  · intro hle
    rw [Nat.testBit_of_two_pow_le_and_two_pow_add_one_gt hle (by omega)]
    decide

theorem isBigBlock_iff_pos : p.isBigBlock = true ↔ 0x8000 ≤ p.ushortAt 1 := by
  have h0 := p.ushortAt_lt 0
  have h1 := p.ushortAt_lt 1
  have hword := p.uintAt_zero
  rw [isBigBlock_iff]
  omega

theorem isBigBlock_eq_false_iff : p.isBigBlock = false ↔ p.ushortAt 1 < 0x8000 := by
  rw [← Bool.not_eq_true, isBigBlock_iff_pos, Nat.not_le]

/-- The tests and the masks on bit 31 take it off and put it on. -/
theorem or_bit {n : Nat} (h : n < 2 ^ 31) : n ||| 0x80000000 = 2 ^ 31 + n := by
  rw [Nat.or_comm]
  exact (Nat.two_pow_add_eq_or_of_lt h 1).symm

theorem xor_bit {n : Nat} (h : n < 2 ^ 31) : (2 ^ 31 + n) ^^^ 0x80000000 = n := by
  rw [← or_bit h]
  apply Nat.eq_of_testBit_eq
  intro j
  have hpow : (0x80000000 : Nat) = 2 ^ 31 := rfl
  rw [hpow, Nat.testBit_xor, Nat.testBit_or, Nat.testBit_two_pow]
  by_cases hj : 31 = j
  · subst hj
    simp [Nat.testBit_lt_two_pow h]
  · simp [hj]

variable {i j v : Nat}

theorem ushortAt_setUshort (h : v < 2 ^ 16) : (p.setUshort i v).ushortAt i = v := by
  have hread : read (p.setUshort i v) (2 * i) 2 = putBytes 2 v := by
    have hsame : read (write p (2 * i) (putBytes 2 v)) (2 * i) (putBytes 2 v).length = putBytes 2 v :=
      read_write_same p
    rwa [putBytes_length] at hsame
  rw [ushortAt, hread, getBytes_putBytes h]

theorem uintAt_setUint (h : v < 2 ^ 32) : (p.setUint i v).uintAt i = v := by
  have hread : read (p.setUint i v) (4 * i) 4 = putBytes 4 v := by
    have hsame : read (write p (4 * i) (putBytes 4 v)) (4 * i) (putBytes 4 v).length = putBytes 4 v :=
      read_write_same p
    rwa [putBytes_length] at hsame
  rw [uintAt, hread, getBytes_putBytes h]

theorem ushortAt_setUshort_of_ne (h : i ≠ j) : (p.setUshort i v).ushortAt j = p.ushortAt j := by
  unfold ushortAt setUshort
  rw [read_write_of_disjoint]
  rw [putBytes_length]
  omega

theorem uintAt_setUint_of_ne (h : i ≠ j) : (p.setUint i v).uintAt j = p.uintAt j := by
  unfold uintAt setUint
  rw [read_write_of_disjoint]
  rw [putBytes_length]
  omega

theorem mvFwBlock_eq (p : Block) (d : Nat) : p.mvFwBlock d = p.setBlockPos (p.pos + d) := by
  unfold mvFwBlock setBlockPos pos
  split <;> rfl

/-! ## A block that holds a buffer -/

/-- Where the bytes start. -/
def headerSize (size : Nat) : Nat := if size < 0x8000 then 4 else 8

/-- The header of a block of `size` bytes with the cursor at `pos`. -/
def Packed (p : Block) (size pos : Nat) : Prop :=
  if size < 0x8000 then p.ushortAt 0 = size ∧ p.ushortAt 1 = pos
  else p.uintAt 0 = 2 ^ 31 + size ∧ p.uintAt 1 = pos

namespace Packed

variable {size pos : Nat}

theorem isBigBlock (h : p.Packed size pos) (hle : pos ≤ size) :
    p.isBigBlock = decide (0x8000 ≤ size) := by
  unfold Packed at h
  by_cases hs : size < 0x8000
  · rw [if_pos hs] at h
    rw [decide_eq_false (by omega), isBigBlock_eq_false_iff]
    omega
  · rw [if_neg hs] at h
    rw [decide_eq_true (by omega), isBigBlock_iff]
    omega

theorem size_eq (h : p.Packed size pos) (hle : pos ≤ size) (hlt : size < 2 ^ 31) :
    p.size = size := by
  have hbig := h.isBigBlock hle
  unfold Packed at h
  by_cases hs : size < 0x8000
  · rw [if_pos hs] at h
    simp [Block.size, hbig, hs, h.1]
  · rw [if_neg hs] at h
    simp only [Block.size, hbig, Nat.not_lt.mp hs, decide_true, if_true, h.1]
    exact xor_bit hlt

theorem pos_eq (h : p.Packed size pos) (hle : pos ≤ size) : p.pos = pos := by
  have hbig := h.isBigBlock hle
  unfold Packed at h
  by_cases hs : size < 0x8000
  · rw [if_pos hs] at h
    simp [Block.pos, posOfSBlock, hbig, hs, h.2]
  · rw [if_neg hs] at h
    simp [Block.pos, posOfBBlock, hbig, Nat.not_lt.mp hs, h.2]

theorem data_eq (h : p.Packed size pos) (hle : pos ≤ size) : p.data = headerSize size + pos := by
  have hbig := h.isBigBlock hle
  unfold Packed at h
  by_cases hs : size < 0x8000
  · rw [if_pos hs] at h
    simp [data, headerSize, posOfSBlock, hbig, hs, h.2]
  · rw [if_neg hs] at h
    simp [data, headerSize, posOfBBlock, hbig, hs, Nat.not_lt.mp hs, h.2]

variable {b : Block} {d : Nat}

/-- The header lies in front of the bytes. -/
theorem of_write {bytes : List UInt8} {a : Nat} (h : p.Packed size pos) (ha : headerSize size ≤ a) :
    Packed (write p a bytes) size pos := by
  unfold Packed at h ⊢
  unfold headerSize at ha
  by_cases hs : size < 0x8000
  · rw [if_pos hs] at h ha ⊢
    unfold ushortAt at h ⊢
    rwa [read_write_of_disjoint _ (by omega), read_write_of_disjoint _ (by omega)]
  · rw [if_neg hs] at h ha ⊢
    unfold uintAt at h ⊢
    rwa [read_write_of_disjoint _ (by omega), read_write_of_disjoint _ (by omega)]

theorem setBlockPos (h : p.Packed size pos) (hold : pos ≤ size) (hle : d ≤ size)
    (hlt : size < 2 ^ 31) : (p.setBlockPos d).Packed size d := by
  have hbig := h.isBigBlock hold
  unfold Packed at h ⊢
  by_cases hs : size < 0x8000
  · rw [if_pos hs] at h ⊢
    simp only [Block.setBlockPos, hbig, Nat.not_le.mpr hs, decide_false, Bool.false_eq_true, if_false]
    rw [ushortAt_setUshort_of_ne (by decide), ushortAt_setUshort (by omega)]
    exact ⟨h.1, rfl⟩
  · rw [if_neg hs] at h ⊢
    simp only [Block.setBlockPos, hbig, Nat.not_lt.mp hs, decide_true, if_true]
    rw [uintAt_setUint_of_ne (by decide), uintAt_setUint (by omega)]
    exact ⟨h.1, rfl⟩

theorem mvFwBlock (h : p.Packed size pos) (hle : pos + d ≤ size) (hlt : size < 2 ^ 31) :
    (p.mvFwBlock d).Packed size (pos + d) := by
  rw [mvFwBlock_eq, h.pos_eq (by omega)]
  exact h.setBlockPos (by omega) hle hlt

end Packed

/-- Moving the cursor leaves the bytes. -/
theorem read_setBlockPos {size pos d a n : Nat} (h : p.Packed size pos) (hle : pos ≤ size)
    (ha : headerSize size ≤ a) : read (p.setBlockPos d) a n = read p a n := by
  have hbig := h.isBigBlock hle
  unfold setBlockPos headerSize at *
  by_cases hs : size < 0x8000
  · rw [if_pos hs] at ha
    simp only [hbig, Nat.not_le.mpr hs, decide_false, Bool.false_eq_true, if_false, setUshort]
    rw [read_write_of_disjoint]
    rw [putBytes_length]
    omega
  · rw [if_neg hs] at ha
    simp only [hbig, Nat.not_lt.mp hs, decide_true, if_true, setUint]
    rw [read_write_of_disjoint]
    rw [putBytes_length]
    omega

theorem read_mvFwBlock {size pos d a n : Nat} (h : p.Packed size pos) (hle : pos ≤ size)
    (ha : headerSize size ≤ a) : read (p.mvFwBlock d) a n = read p a n := by
  rw [mvFwBlock_eq]
  exact read_setBlockPos h hle ha

theorem packed_initSBlock {heap : Block} {size : Nat} (hs : size < 0x8000) :
    (initSBlock heap size).Packed size 0 := by
  unfold Packed initSBlock
  rw [if_pos hs, ushortAt_setUshort_of_ne (by decide), ushortAt_setUshort (by omega),
    ushortAt_setUshort (by omega)]
  exact ⟨rfl, rfl⟩

theorem packed_initBBlock {heap : Block} {size : Nat} (hs : 0x8000 ≤ size) (hlt : size < 2 ^ 31) :
    (initBBlock heap size).Packed size 0 := by
  have hfirst : ((heap.setUint 0 size).setUint 1 0).uintAt 0 = size := by
    rw [uintAt_setUint_of_ne (by decide), uintAt_setUint (by omega)]
  unfold Packed initBBlock
  simp only
  rw [if_neg (by omega), hfirst, or_bit hlt, uintAt_setUint (by omega),
    uintAt_setUint_of_ne (by decide), uintAt_setUint (by omega)]
  exact ⟨rfl, rfl⟩

end Block

end Ns3Raft.Service
