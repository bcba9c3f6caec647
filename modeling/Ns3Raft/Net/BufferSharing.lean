import Ns3Raft.Net.Buffer

/-! # Buffers that share their data

Which bytes a buffer reads, and what the buffers of one data owe each other: a
buffer that ends where the dirty area ends has the last real byte of all. What is
added in place is then nobody else's.
-/

namespace Ns3Raft.Net

open Slices BlockPool

theorem add32_eq {x y : Nat} (h : x + y < 2 ^ 32) : add32 x y = x + y := Nat.mod_eq_of_lt h

theorem sub32_eq {x y : Nat} (hle : y ≤ x) (hx : x < 2 ^ 32) : sub32 x y = x - y := by
  have hsum : 2 ^ 32 + x - y = x - y + 2 ^ 32 := by omega
  rw [sub32, hsum, Nat.add_mod_right, Nat.mod_eq_of_lt (by omega)]

namespace Buffer

variable {b o : Buffer} {d : BufferData} {n k : Nat}

/-- The bytes in front of the zero area. -/
def front (b : Buffer) : Nat := b.zeroAreaStart - b.start

def zeros (b : Buffer) : Nat := b.zeroAreaEnd - b.zeroAreaStart

def back (b : Buffer) : Nat := b.stop - b.zeroAreaEnd

def length (b : Buffer) : Nat := b.stop - b.start

/-- The end of the bytes for which there is memory. -/
def realEnd (b : Buffer) : Nat := b.zeroAreaStart + b.back

structure Ordered (b : Buffer) : Prop where
  start_le : b.start ≤ b.zeroAreaStart
  zero_le : b.zeroAreaStart ≤ b.zeroAreaEnd
  end_le : b.zeroAreaEnd ≤ b.stop
  small : b.stop < 2 ^ 32

/-- The buffer lies inside the storage and inside the dirty area. -/
structure Fits (b : Buffer) (d : BufferData) : Prop extends b.Ordered where
  inside : b.realEnd ≤ d.bytes.length
  dirtyStart_le : d.dirtyStart ≤ b.start
  le_dirtyEnd : b.stop ≤ d.dirtyEnd

def contents (d : BufferData) (b : Buffer) : List UInt8 :=
  slice d.bytes b.start b.front ++ List.replicate b.zeros 0 ++ slice d.bytes b.zeroAreaStart b.back

theorem Ordered.sizes (h : b.Ordered) :
    b.length = b.front + b.zeros + b.back ∧ b.realEnd = b.start + b.front + b.back ∧
      b.zeroAreaStart = b.start + b.front ∧ b.zeroAreaEnd = b.start + b.front + b.zeros ∧
      b.stop = b.start + b.length := by
  have h₁ := h.start_le
  have h₂ := h.zero_le
  have h₃ := h.end_le
  simp only [length, front, zeros, back, realEnd]
  omega

theorem Ordered.getSize_eq (h : b.Ordered) : b.getSize = b.length :=
  sub32_eq (Nat.le_trans h.start_le (Nat.le_trans h.zero_le h.end_le)) h.small

theorem Ordered.zeros_eq (h : b.Ordered) : sub32 b.zeroAreaEnd b.zeroAreaStart = b.zeros :=
  sub32_eq h.zero_le (Nat.lt_of_le_of_lt h.end_le h.small)

theorem Ordered.front_eq (h : b.Ordered) : sub32 b.zeroAreaStart b.start = b.front :=
  sub32_eq h.start_le (Nat.lt_of_le_of_lt (Nat.le_trans h.zero_le h.end_le) h.small)

theorem Ordered.back_eq (h : b.Ordered) : sub32 b.stop b.zeroAreaEnd = b.back :=
  sub32_eq h.end_le h.small

theorem Ordered.getInternalEnd_eq (h : b.Ordered) : b.getInternalEnd = b.realEnd := by
  obtain ⟨hlength, hreal, hzas, hzae, hstop⟩ := h.sizes
  rw [getInternalEnd, h.zeros_eq, sub32_eq (by omega) h.small]
  omega

theorem Ordered.getInternalSize_eq (h : b.Ordered) : b.getInternalSize = b.front + b.back := by
  have hsmall := h.small
  obtain ⟨hlength, hreal, hzas, hzae, hstop⟩ := h.sizes
  rw [getInternalSize, h.front_eq]
  simp only [add32, sub32]
  omega

theorem Ordered.raiseMax (h : b.Ordered) : b.raiseMax.Ordered := ⟨h.start_le, h.zero_le, h.end_le, h.small⟩

/-! ## Reading -/

theorem Fits.getElem?_contents (h : b.Fits d) :
    (contents d b)[k]? =
      if k < b.front then d.bytes[b.start + k]?
      else if k < b.front + b.zeros then some 0
      else if k < b.length then d.bytes[b.start + k - b.zeros]?
      else none := by
  obtain ⟨hlength, hreal, hzas, hzae, hstop⟩ := h.sizes
  have hinside := h.inside
  have hfront : (slice d.bytes b.start b.front).length = b.front := length_slice (by omega)
  have hleft : (slice d.bytes b.start b.front ++ List.replicate b.zeros (0 : UInt8)).length =
      b.front + b.zeros := by
    rw [List.length_append, hfront, List.length_replicate]
  rw [contents]
  by_cases hk : k < b.front
  · rw [if_pos hk, List.getElem?_append_left (by omega), List.getElem?_append_left (by omega),
      getElem?_slice, if_pos hk]
  · rw [if_neg hk]
    by_cases hz : k < b.front + b.zeros
    · rw [if_pos hz, List.getElem?_append_left (by omega), List.getElem?_append_right (by omega), hfront,
        List.getElem?_replicate, if_pos (by omega)]
    · rw [if_neg hz, List.getElem?_append_right (by omega), hleft, getElem?_slice]
      by_cases hl : k < b.length
      · rw [if_pos (by omega), if_pos hl]
        congr 1
        omega
      · rw [if_neg (by omega), if_neg hl]

theorem Fits.length_contents (h : b.Fits d) : (contents d b).length = b.length := by
  obtain ⟨hlength, hreal, hzas, hzae, hstop⟩ := h.sizes
  have hinside := h.inside
  rw [contents, List.length_append, List.length_append, List.length_replicate, length_slice (by omega),
    length_slice (by omega), hlength]

/-- An iterator reads the contents. -/
theorem Fits.readable_eq {h : BufferHeap} (hfits : b.Fits d) (hval : h.pool.val? b.data = some d) :
    readable h b = (contents d b).map some := by
  obtain ⟨hlength, hreal, hzas, hzae, hstop⟩ := hfits.sizes
  have hinside := hfits.inside
  have hsmall := hfits.small
  apply List.ext_getElem
  · rw [readable, List.length_map, List.length_range, List.length_map, hfits.length_contents,
      hfits.getSize_eq]
  · intro k hk hk'
    rw [readable, List.length_map, List.length_range, hfits.getSize_eq] at hk
    have hat := hfits.getElem?_contents (k := k)
    rw [List.length_map] at hk'
    rw [List.getElem?_eq_getElem hk'] at hat
    have hcurrent : add32 b.start k = b.start + k := add32_eq (by omega)
    simp only [readable, List.getElem_map, List.getElem_range, Iterator.peekU8, Iterator.next,
      Iterator.behind, first, hval, hcurrent, Option.bind_some, hfits.zeros_eq, hat]
    by_cases hfront : k < b.front
    · rw [if_pos hfront, if_pos (by omega)]
    · rw [if_neg hfront, if_neg (by omega)]
      by_cases hz : k < b.front + b.zeros
      · rw [if_pos hz, if_pos (by omega)]
      · rw [if_neg hz, if_neg (by omega), if_pos hk, sub32_eq (by omega) (by omega)]

/-! ## Removing -/

/-- A buffer with fewer bytes ends before, or all is as it was behind its start. -/
structure Narrower (b' b : Buffer) : Prop where
  data : b'.data = b.data
  ordered : b'.Ordered
  start_le : b.start ≤ b'.start
  stop_le : b'.stop ≤ b.stop
  realEnd_le : b'.realEnd ≤ b.realEnd
  same : b'.stop = b.stop → b'.realEnd = b.realEnd

theorem Narrower.fits {b' : Buffer} (h : Narrower b' b) (hfits : b.Fits d) : b'.Fits d :=
  ⟨h.ordered, Nat.le_trans h.realEnd_le hfits.inside, Nat.le_trans hfits.dirtyStart_le h.start_le,
    Nat.le_trans h.stop_le hfits.le_dirtyEnd⟩

theorem Narrower.raiseMax {b' : Buffer} (h : Narrower b' b) : Narrower b'.raiseMax b :=
  ⟨h.data, h.ordered.raiseMax, h.start_le, h.stop_le, h.realEnd_le, h.same⟩

/-- What is left has `front`, `zeros` and `back` bytes, and its zero area starts at `mid`. -/
structure Shape (b : Buffer) (front zeros back mid : Nat) : Prop where
  start : b.start + front = mid
  zeroAreaStart : b.zeroAreaStart = mid
  zeroAreaEnd : b.zeroAreaEnd = mid + zeros
  stop : b.stop = mid + zeros + back

variable {f z e mid : Nat}

theorem Shape.contents_eq (h : b.Shape f z e mid) :
    contents d b = slice d.bytes b.start f ++ List.replicate z 0 ++ slice d.bytes mid e := by
  obtain ⟨h₁, h₂, h₃, h₄⟩ := h
  have hfront : b.front = f := by
    rw [front]
    omega
  have hzeros : b.zeros = z := by
    rw [zeros]
    omega
  have hback : b.back = e := by
    rw [back]
    omega
  rw [contents, hfront, hzeros, hback, h₂]

theorem Ordered.shape (h : b.Ordered) : b.Shape b.front b.zeros b.back b.zeroAreaStart := by
  obtain ⟨hlength, hreal, hzas, hzae, hstop⟩ := h.sizes
  exact ⟨hzas.symm, rfl, by omega, by omega⟩

/-- The parts of a buffer as numbers that are added. -/
theorem Ordered.exists_parts (h : b.Ordered) : ∃ f z e, b.front = f ∧ b.zeros = z ∧ b.back = e ∧
    b.zeroAreaStart = b.start + f ∧ b.zeroAreaEnd = b.start + f + z ∧ b.stop = b.start + f + z + e := by
  obtain ⟨f, hf⟩ := Nat.exists_eq_add_of_le h.start_le
  obtain ⟨z, hz⟩ := Nat.exists_eq_add_of_le h.zero_le
  obtain ⟨e, he⟩ := Nat.exists_eq_add_of_le h.end_le
  rw [hf] at hz
  rw [hz] at he
  refine ⟨f, z, e, ?_, ?_, ?_, hf, hz, he⟩
  · rw [front, hf, Nat.add_sub_cancel_left]
  · rw [zeros, hz, hf, Nat.add_sub_cancel_left]
  · rw [back, he, hz, Nat.add_sub_cancel_left]

theorem sub32_of_add {x y v : Nat} (h : x = y + v) (hx : x < 2 ^ 32) : sub32 x y = v := by
  rw [sub32_eq (by omega) hx, h, Nat.add_sub_cancel_left]

theorem Ordered.removeAtStart_shape (h : b.Ordered) (hn : b.start + n < 2 ^ 32) :
    (b.removeAtStart n).data = b.data ∧
      (b.removeAtStart n).Shape (b.front - n) (b.zeros - (n - b.front)) (b.back - (n - b.front - b.zeros))
        (b.zeroAreaStart + (b.back - (b.back - (n - b.front - b.zeros)))) := by
  have hsmall := h.small
  obtain ⟨f, z, e, hf, hz, he, hzas, hzae, hstop⟩ := h.exists_parts
  rw [hstop] at hsmall
  simp only [removeAtStart, add32_eq hn, hf, hz, he, hzas, hzae, hstop]
  by_cases hfront : n ≤ f
  · rw [if_pos (by omega), Nat.sub_eq_zero_of_le hfront, Nat.zero_sub, Nat.sub_zero, Nat.sub_zero, Nat.sub_self, Nat.add_zero]
    refine ⟨rfl, ?_, rfl, rfl, rfl⟩
    show b.start + n + (f - n) = b.start + f
    omega
  obtain ⟨k, rfl⟩ := Nat.exists_eq_add_of_le (Nat.le_of_not_le hfront)
  have hnone : f - (f + k) = 0 := Nat.sub_eq_zero_of_le (Nat.le_add_right f k)
  rw [if_neg (by omega), Nat.add_sub_cancel_left, hnone]
  by_cases hzeros : k ≤ z
  · obtain ⟨z, rfl⟩ := Nat.exists_eq_add_of_le hzeros
    have hdelta : sub32 (b.start + (f + k)) (b.start + f) = k := sub32_of_add (by omega) hn
    have hend : sub32 (b.start + f + (k + z)) k = b.start + f + z := sub32_of_add (by omega) (by omega)
    have hlast : sub32 (b.start + f + (k + z) + e) k = b.start + f + z + e := sub32_of_add (by omega) hsmall
    rw [if_pos (by omega), hdelta, hend, hlast, Nat.sub_eq_zero_of_le hzeros, Nat.add_sub_cancel_left, Nat.sub_zero,
      Nat.sub_self, Nat.add_zero]
    exact ⟨rfl, rfl, rfl, rfl, rfl⟩
  obtain ⟨m, rfl⟩ := Nat.exists_eq_add_of_le (Nat.le_of_not_le hzeros)
  have hzero : z - (z + m) = 0 := Nat.sub_eq_zero_of_le (Nat.le_add_right z m)
  have hsize : sub32 (b.start + f + z) (b.start + f) = z := sub32_of_add rfl (by omega)
  have hlast : sub32 (b.start + f + z + e) z = b.start + f + e := sub32_of_add (by omega) hsmall
  rw [if_neg (by omega), hsize, hlast, Nat.add_sub_cancel_left, hzero]
  by_cases hback : m ≤ e
  · obtain ⟨e, rfl⟩ := Nat.exists_eq_add_of_le hback
    have hmid : sub32 (b.start + (f + (z + m))) z = b.start + f + m := sub32_of_add (by omega) hn
    have hgone : m + e - e = m := Nat.add_sub_cancel m e
    rw [if_pos (by omega), hmid, Nat.add_sub_cancel_left, hgone]
    exact ⟨rfl, rfl, rfl, rfl, Nat.add_assoc _ m e ▸ rfl⟩
  · rw [if_neg (by omega), Nat.sub_eq_zero_of_le (Nat.le_of_not_le hback), Nat.sub_zero]
    exact ⟨rfl, rfl, rfl, rfl, rfl⟩

theorem add_sub_min (s t n : Nat) : s + t - min n t = s + (t - n) := by
  rcases Nat.le_total n t with hle | hle
  · rw [Nat.min_eq_left hle, Nat.add_sub_assoc hle]
  · rw [Nat.min_eq_right hle, Nat.add_sub_cancel, Nat.sub_eq_zero_of_le hle, Nat.add_zero]

theorem Ordered.removeAtEnd_shape (h : b.Ordered) :
    (b.removeAtEnd n).data = b.data ∧ (b.removeAtEnd n).start = b.start ∧
      (b.removeAtEnd n).Shape (b.front - (n - b.back - b.zeros)) (b.zeros - (n - b.back)) (b.back - n)
        (b.start + (b.front - (n - b.back - b.zeros))) := by
  have hsmall := h.small
  obtain ⟨f, z, e, hf, hz, he, hzas, hzae, hstop⟩ := h.exists_parts
  rw [hstop] at hsmall
  have hsize : sub32 (b.start + f + z + e) b.start = f + z + e := sub32_of_add (by omega) hsmall
  have htotal : b.start + f + z + e = b.start + (f + z + e) := by omega
  have hend : sub32 (b.start + f + z + e) (min n (f + z + e)) = b.start + (f + z + e - n) := by
    rw [htotal, sub32_eq (Nat.le_trans (Nat.min_le_right _ _) (Nat.le_add_left _ _)) (htotal ▸ hsmall), add_sub_min]
  simp only [removeAtEnd, hf, hz, he, hzas, hzae, hstop, hsize, hend]
  by_cases hback : n < e
  · obtain ⟨e, rfl⟩ := Nat.exists_eq_add_of_le (Nat.le_of_lt hback)
    have hnew : b.start + (f + z + (n + e) - n) = b.start + f + z + e := by omega
    rw [hnew, if_pos (by omega), Nat.sub_eq_zero_of_le (Nat.le_of_lt hback), Nat.zero_sub, Nat.sub_zero, Nat.sub_zero,
      Nat.add_sub_cancel_left]
    exact ⟨rfl, rfl, rfl, rfl, rfl, rfl⟩
  obtain ⟨k, rfl⟩ := Nat.exists_eq_add_of_le (Nat.le_of_not_lt hback)
  have hnone : e - (e + k) = 0 := Nat.sub_eq_zero_of_le (Nat.le_add_right e k)
  rw [Nat.add_sub_cancel_left, hnone]
  by_cases hzeros : k < z
  · obtain ⟨z, rfl⟩ := Nat.exists_eq_add_of_le (Nat.le_of_lt hzeros)
    have hnew : b.start + (f + (k + z) + e - (e + k)) = b.start + f + z := by omega
    rw [hnew, if_neg (by omega), if_pos (by omega), Nat.sub_eq_zero_of_le (Nat.le_of_lt hzeros), Nat.sub_zero,
      Nat.add_sub_cancel_left]
    exact ⟨rfl, rfl, rfl, rfl, rfl, rfl⟩
  obtain ⟨m, rfl⟩ := Nat.exists_eq_add_of_le (Nat.le_of_not_lt hzeros)
  have hzero : z - (z + m) = 0 := Nat.sub_eq_zero_of_le (Nat.le_add_right z m)
  rw [Nat.add_sub_cancel_left, hzero]
  by_cases hfront : m < f
  · obtain ⟨f, rfl⟩ := Nat.exists_eq_add_of_le (Nat.le_of_lt hfront)
    have hnew : b.start + (m + f + z + e - (e + (z + m))) = b.start + f := by omega
    rw [hnew, if_neg (by omega), if_neg (by omega), if_pos (by omega), Nat.add_sub_cancel_left]
    exact ⟨rfl, rfl, rfl, rfl, rfl, rfl⟩
  · have hnew : b.start + (f + z + e - (e + (z + m))) = b.start := by omega
    rw [hnew, if_neg (by omega), if_neg (by omega), if_neg (by omega), Nat.sub_eq_zero_of_le (Nat.le_of_not_lt hfront)]
    exact ⟨rfl, rfl, rfl, rfl, rfl, rfl⟩

theorem Shape.realEnd_eq (h : b.Shape f z e mid) : b.realEnd = mid + e := by
  have hback : b.back = e := by rw [back, h.stop, h.zeroAreaEnd, Nat.add_sub_cancel_left]
  rw [realEnd, h.zeroAreaStart, hback]

theorem Shape.ordered (h : b.Shape f z e mid) (hsmall : b.stop < 2 ^ 32) : b.Ordered := by
  obtain ⟨h₁, h₂, h₃, h₄⟩ := h
  refine ⟨?_, ?_, ?_, hsmall⟩
  · rw [h₂, ← h₁]
    exact Nat.le_add_right _ f
  · rw [h₂, h₃]
    exact Nat.le_add_right mid z
  · rw [h₃, h₄]
    exact Nat.le_add_right _ e

/-- Bytes are gone at the start. -/
theorem Shape.narrower_start (h : o.Shape f z e (b.zeroAreaStart + (b.back - e))) (hb : b.Ordered) (hdata : o.data = b.data)
    (hf : f ≤ b.front) (hz : z ≤ b.zeros) (he : e ≤ b.back) : Narrower o b := by
  have hsmall := hb.small
  have hreal := h.realEnd_eq
  obtain ⟨h₁, h₂, h₃, h₄⟩ := id h
  obtain ⟨f', z', e', hf', hz', he', hzas, hzae, hstop⟩ := hb.exists_parts
  rw [hf'] at hf
  rw [hz'] at hz
  rw [he'] at he
  obtain ⟨k, rfl⟩ := Nat.exists_eq_add_of_le he
  rw [he', Nat.add_sub_cancel_left, hzas] at h₁ h₄ hreal
  have hsame : o.realEnd = b.realEnd := by
    rw [hreal, realEnd, hzas, he']
    omega
  have hle : o.stop ≤ b.stop := by omega
  exact ⟨hdata, h.ordered (Nat.lt_of_le_of_lt hle hsmall), by omega, hle, Nat.le_of_eq hsame, fun _ => hsame⟩

/-- Bytes are gone at the end. -/
theorem Shape.narrower_end (h : o.Shape f z e (b.start + f)) (hb : b.Ordered) (hdata : o.data = b.data)
    (hf : f ≤ b.front) (hz : z ≤ b.zeros) (he : e ≤ b.back) : Narrower o b := by
  have hsmall := hb.small
  have hreal := h.realEnd_eq
  obtain ⟨h₁, h₂, h₃, h₄⟩ := id h
  obtain ⟨f', z', e', hf', hz', he', hzas, hzae, hstop⟩ := hb.exists_parts
  have hrealb : b.realEnd = b.start + f' + e' := by rw [realEnd, hzas, he']
  rw [hf'] at hf
  rw [hz'] at hz
  rw [he'] at he
  have hle : o.stop ≤ b.stop := by omega
  refine ⟨hdata, h.ordered (Nat.lt_of_le_of_lt hle hsmall), by omega, hle, ?_, fun hsame => ?_⟩
  · rw [hreal, hrealb]
    omega
  · rw [hreal, hrealb]
    omega

theorem Ordered.removeAtStart (h : b.Ordered) (hn : b.start + n < 2 ^ 32) :
    Narrower (b.removeAtStart n) b := by
  obtain ⟨hdata, hshape⟩ := h.removeAtStart_shape hn
  exact hshape.narrower_start h hdata (Nat.sub_le _ _) (Nat.sub_le _ _) (Nat.sub_le _ _)

theorem Ordered.removeAtEnd (h : b.Ordered) : Narrower (b.removeAtEnd n) b := by
  obtain ⟨hdata, -, hshape⟩ := h.removeAtEnd_shape (n := n)
  exact hshape.narrower_end h hdata (Nat.sub_le _ _) (Nat.sub_le _ _) (Nat.sub_le _ _)

theorem Fits.contents_removeAtStart (h : b.Fits d) (hn : b.start + n < 2 ^ 32) :
    contents d (b.removeAtStart n) = (contents d b).drop n := by
  obtain ⟨hdata, hshape⟩ := h.removeAtStart_shape hn
  obtain ⟨hlength, hreal, hzas, hzae, hstop⟩ := h.sizes
  have hinside := h.inside
  have hfront : (slice d.bytes b.start b.front).length = b.front := length_slice (by omega)
  rw [hshape.contents_eq, contents, List.drop_append, List.drop_append, List.length_append, hfront,
    List.length_replicate, drop_slice, drop_slice, List.drop_replicate, Nat.sub_sub]
  congr 1
  · congr 1
    by_cases hall : b.front ≤ n
    · rw [Nat.sub_eq_zero_of_le hall, slice_zero, slice_zero]
    · have hstart := hshape.start
      congr 1
      omega
  · by_cases hall : b.back ≤ n - (b.front + b.zeros)
    · rw [Nat.sub_eq_zero_of_le hall, slice_zero, slice_zero]
    · congr 1
      omega

/-- What is left of three parts when bytes are gone behind them. -/
theorem left_of_front (f z e n : Nat) : f - (n - e - z) = min (f + z + e - n) f := by omega

theorem left_of_zeros (f z e n : Nat) : z - (n - e) = min (f + z + e - n - f) z := by omega

theorem left_of_back (f z e n : Nat) : e - n = min (f + z + e - n - (f + z)) e := by omega

theorem Fits.contents_removeAtEnd (h : b.Fits d) :
    contents d (b.removeAtEnd n) = (contents d b).take (b.length - n) := by
  obtain ⟨hdata, hstart, hshape⟩ := h.removeAtEnd_shape (n := n)
  obtain ⟨hlength, hreal, hzas, -⟩ := h.sizes
  have hinside := h.inside
  have hfront : (slice d.bytes b.start b.front).length = b.front := length_slice (by omega)
  rw [hshape.contents_eq, contents, List.take_append, List.take_append, List.length_append, hfront,
    List.length_replicate, take_slice, take_slice, List.take_replicate, hstart, hlength, ← left_of_front, ← left_of_zeros,
    ← left_of_back]
  by_cases hall : b.back ≤ n
  · rw [Nat.sub_eq_zero_of_le hall, slice_zero, slice_zero]
  · have hnone : n - b.back - b.zeros = 0 := by
      rw [Nat.sub_eq_zero_of_le (Nat.le_of_not_le hall), Nat.zero_sub]
    rw [hnone, Nat.sub_zero, ← hzas]

end Buffer

/-! ## Memory -/

namespace BufferHeap

variable {h : BufferHeap} {refs : List Nat} {a off len n : Nat} {d : BufferData} {bytes : List UInt8}

theorem size_eq (hd : h.pool.val? a = some d) : h.size a = d.bytes.length := by simp [size, hd]

theorem load_eq (hd : h.pool.val? a = some d) (hin : off + len ≤ d.bytes.length) :
    h.load a off len = some (slice d.bytes off len) := by
  rw [load]
  split
  · next hzero => rw [hzero, slice_zero]
  · rw [hd, Option.bind_some, if_pos hin]

theorem save_spec (hd : h.pool.val? a = some d) (hin : off + bytes.length ≤ d.bytes.length) :
    ∃ h', h.save a off bytes = some h' ∧ (∀ refs, h.pool.Sound refs → h'.pool.Sound refs) ∧
      ∀ c, h'.pool.val? c =
        if c = a then (h.pool.val? c).map fun d => { d with bytes := overwrite d.bytes off bytes }
        else h.pool.val? c := by
  rw [save]
  by_cases hnil : bytes = []
  · refine ⟨h, if_pos hnil, fun refs hs => hs, fun c => ?_⟩
    simp only [hnil, overwrite_nil, Option.map_id']
    split <;> rfl
  · refine ⟨_, by rw [if_neg hnil, if_pos (by rwa [size_eq hd])], fun refs hs => ?_, fun c => ?_⟩
    · exact hs.update a fun d => { d with bytes := overwrite d.bytes off bytes }
    · exact Pool.val?_update

theorem val?_setDirtyStart {c x : Nat} :
    (h.setDirtyStart a x).pool.val? c =
      if c = a then (h.pool.val? c).map fun d => { d with dirtyStart := x } else h.pool.val? c :=
  Pool.val?_update

theorem val?_setDirtyEnd {c x : Nat} :
    (h.setDirtyEnd a x).pool.val? c =
      if c = a then (h.pool.val? c).map fun d => { d with dirtyEnd := x } else h.pool.val? c :=
  Pool.val?_update

/-- No block is so large that the size of its allocation wraps. -/
def Bounded (h : BufferHeap) : Prop := ∀ a d, h.pool.val? a = some d → d.bytes.length + sizeofData ≤ 2 ^ 32

theorem unref_spec (refs : List Nat) (hs : h.pool.Sound (a :: refs)) :
    (h.unref a).pool.Sound refs ∧ (∀ c ∈ refs, (h.unref a).pool.val? c = h.pool.val? c) ∧
      ∀ c d, (h.unref a).pool.val? c = some d → h.pool.val? c = some d := by
  have hrelease := hs.release
  rw [unref]
  split
  · next hzero =>
      have ha : a ∉ refs := by
        rw [hrelease.counted, List.count_eq_zero] at hzero
        exact hzero
      have hfree : a ∉ (h.pool.release a).free := hs.not_free List.mem_cons_self
      have hsome : ((h.pool.release a).block a).isSome := by
        rw [Pool.release, Pool.isSome_block_modify]
        exact hs.isSome List.mem_cons_self
      rw [recycle]
      split
      · refine ⟨hrelease.discard ha hfree, fun c hc => ?_, fun c d hd => ?_⟩
        · rw [Pool.val?_discard, if_neg fun heq : c = a => ha (heq ▸ hc), Pool.val?_release]
        · rw [Pool.val?_discard] at hd
          split at hd
          · cases hd
          · rwa [Pool.val?_release] at hd
      · refine ⟨hrelease.shelve ha hfree hsome, fun c _ => ?_, fun c d hd => ?_⟩
        · exact Pool.val?_release
        · exact Pool.val?_release.symm.trans hd
  · exact ⟨hrelease, fun c _ => Pool.val?_release, fun c d hd => Pool.val?_release.symm.trans hd⟩

/-- A block that nothing else refers to, with room for what is asked for. -/
theorem create_spec (env : BufferEnv) (hs : h.pool.Sound refs) (hb : h.Bounded) (hn : n + sizeofData ≤ 2 ^ 32) :
    ∃ a h' d, h.create env n = some (a, h') ∧ a ∉ refs ∧ h'.pool.Sound (a :: refs) ∧ h'.Bounded ∧
      h'.pool.val? a = some d ∧ n ≤ d.bytes.length ∧ ∀ c ∈ refs, h'.pool.val? c = h.pool.val? c := by
  have hreused := hs.reuse fun d => decide (n ≤ d.bytes.length)
  rw [create]
  split
  · next a pool heq =>
      rw [heq] at hreused
      obtain ⟨ha, hsound, hsame, d, hd, hfit⟩ := hreused.found a rfl
      exact ⟨a, _, d, rfl, ha, hsound, fun c e he => hb c e (hreused.origin c e he), hsame.trans hd,
        of_decide_eq_true hfit, hreused.kept⟩
  · next pool heq =>
      rw [heq] at hreused
      have hsound : pool.Sound refs := hreused.missed rfl
      let size := if n = 0 then 1 else n
      have hsize : 0 < size ∧ n ≤ size ∧ size + sizeofData ≤ 2 ^ 32 := by
        simp only [size]
        split
        · next hzero => exact ⟨by decide, by omega, by decide⟩
        · exact ⟨by omega, by omega, hn⟩
      let v : BufferData := ⟨0, 0, (List.range size).map (env.memory pool.blocks.length)⟩
      have hv : v.bytes.length = size := by simp [v]
      obtain ⟨hfresh, halloc⟩ := hsound.alloc v
      refine ⟨pool.blocks.length, { h with pool := pool.alloc v }, v, ?_, hfresh, halloc, fun c e he => ?_, ?_,
        by omega, fun c hc => ?_⟩
      · rw [allocate, if_pos (by simp only [sizeofData] at hsize ⊢; omega)]
      · rw [Pool.val?_alloc] at he
        split at he
        · obtain rfl := Option.some.inj he
          rw [hv]
          exact hsize.2.2
        · exact hb c e (hreused.origin c e he)
      · rw [Pool.val?_alloc, if_pos rfl]
      · have hne : c ≠ pool.blocks.length := fun heq => hfresh (heq ▸ hc)
        rw [Pool.val?_alloc, if_neg hne, hreused.kept c hc]

end BufferHeap

/-! ## Sharing -/

namespace Buffer

open BufferHeap

/-- The buffers `bs` share the data in `h`. -/
structure Sharing (h : BufferHeap) (bs : List Buffer) : Prop where
  pool : h.pool.Sound (bs.map (·.data))
  bounded : h.Bounded
  fits : ∀ b ∈ bs, ∀ d, h.pool.val? b.data = some d → b.Fits d
  last : ∀ b ∈ bs, ∀ c ∈ bs, c.data = b.data → ∀ d, h.pool.val? b.data = some d →
    b.stop = d.dirtyEnd → c.realEnd ≤ b.realEnd

def contentsOf (h : BufferHeap) (b : Buffer) : List UInt8 :=
  match h.pool.val? b.data with
  | some d => contents d b
  | none => []

variable {h h' : BufferHeap} {b b' c o : Buffer} {bs : List Buffer} {d : BufferData} {n lo hi pos : Nat}

theorem contentsOf_eq (hd : h.pool.val? b.data = some d) : contentsOf h b = contents d b := by
  simp only [contentsOf, hd]

theorem contentsOf_congr (hd : h'.pool.val? b.data = h.pool.val? b.data) : contentsOf h' b = contentsOf h b := by
  simp only [contentsOf, hd]

theorem Sharing.exists_fits (hs : Sharing h bs) (hb : b ∈ bs) :
    ∃ d, h.pool.val? b.data = some d ∧ b.Fits d := by
  obtain ⟨d, hd⟩ := hs.pool.exists_val (List.mem_map_of_mem hb)
  exact ⟨d, hd, hs.fits b hb d hd⟩

theorem Sharing.readable_eq (hs : Sharing h bs) (hb : b ∈ bs) :
    readable h b = (contentsOf h b).map some := by
  obtain ⟨d, hd, hfits⟩ := hs.exists_fits hb
  rw [contentsOf_eq hd, hfits.readable_eq hd]

theorem Sharing.checkInternalState (hs : Sharing h bs) (hb : b ∈ bs) : b.CheckInternalState h := by
  obtain ⟨d, hd, hfits⟩ := hs.exists_fits hb
  obtain ⟨hlength, hreal, hzas, hzae, hstop⟩ := hfits.sizes
  have hinside := hfits.inside
  have hstart : h.dirtyStart b.data = d.dirtyStart := by simp [BufferHeap.dirtyStart, hd]
  have hend : h.dirtyEnd b.data = d.dirtyEnd := by simp [BufferHeap.dirtyEnd, hd]
  have hcount : 0 < h.pool.cnt b.data := by
    rw [hs.pool.counted]
    exact List.count_pos_iff.mpr (List.mem_map_of_mem hb)
  refine ⟨hcount, ⟨hfits.start_le, hfits.zero_le, hfits.end_le⟩, ?_, ?_⟩
  · rw [hstart, hend]
    exact ⟨hfits.dirtyStart_le, hfits.le_dirtyEnd⟩
  · rw [hfits.getInternalEnd_eq, size_eq hd]
    exact ⟨hinside, by omega, by omega⟩

theorem Sharing.perm {bs' : List Buffer} (hs : Sharing h bs) (hperm : bs.Perm bs') : Sharing h bs' where
  pool := hs.pool.perm (hperm.map _)
  bounded := hs.bounded
  fits b hb := hs.fits b (hperm.mem_iff.mpr hb)
  last b hb c hc := hs.last b (hperm.mem_iff.mpr hb) c (hperm.mem_iff.mpr hc)

theorem Sharing.of_kept (hs : Sharing h bs) (hpool : h'.pool.Sound (bs.map (·.data))) (hbounded : h'.Bounded)
    (hkept : ∀ c ∈ bs, h'.pool.val? c.data = h.pool.val? c.data) : Sharing h' bs where
  pool := hpool
  bounded := hbounded
  fits b hb d hd := hs.fits b hb d (hkept b hb ▸ hd)
  last b hb c hc hcb d hd := hs.last b hb c hc hcb d (hkept b hb ▸ hd)

/-- A buffer joins with data of its own. -/
theorem Sharing.cons_fresh (hs : Sharing h bs) (hpool : h'.pool.Sound (b.data :: bs.map (·.data)))
    (hbounded : h'.Bounded) (hkept : ∀ c ∈ bs, h'.pool.val? c.data = h.pool.val? c.data)
    (hnew : b.data ∉ bs.map (·.data)) (hd : h'.pool.val? b.data = some d) (hfits : b.Fits d) :
    Sharing h' (b :: bs) where
  pool := hpool
  bounded := hbounded
  fits c hc e he := by
    rcases List.mem_cons.mp hc with rfl | hc
    · obtain rfl : d = e := Option.some.inj (hd ▸ he)
      exact hfits
    · exact hs.fits c hc e (hkept c hc ▸ he)
  last c hc c' hc' heq e he hstop := by
    rcases List.mem_cons.mp hc with rfl | hmem
    · rcases List.mem_cons.mp hc' with rfl | hmem'
      · exact Nat.le_refl _
      · exact absurd (heq ▸ List.mem_map_of_mem hmem') hnew
    · rcases List.mem_cons.mp hc' with rfl | hmem'
      · exact absurd (heq ▸ List.mem_map_of_mem hmem) hnew
      · exact hs.last c hmem c' hmem' heq e (hkept c hmem ▸ he) hstop

theorem Sharing.tail (hs : Sharing h (b :: bs)) : Sharing (h.unref b.data) bs ∧
    ∀ c ∈ bs, contentsOf (h.unref b.data) c = contentsOf h c := by
  obtain ⟨hpool, hkept, horigin⟩ := unref_spec (bs.map (·.data)) hs.pool
  have hkept' : ∀ c ∈ bs, (h.unref b.data).pool.val? c.data = h.pool.val? c.data := fun c hc =>
    hkept c.data (List.mem_map_of_mem hc)
  refine ⟨⟨hpool, fun a d hd => hs.bounded a d (horigin a d hd), fun c hc d hd => ?_, ?_⟩, fun c hc => ?_⟩
  · exact hs.fits c (List.mem_cons_of_mem _ hc) d (hkept' c hc ▸ hd)
  · intro c hc c' hc' heq d hd
    exact hs.last c (List.mem_cons_of_mem _ hc) c' (List.mem_cons_of_mem _ hc') heq d (hkept' c hc ▸ hd)
  · exact contentsOf_congr (hkept' c hc)

end Buffer

end Ns3Raft.Net
