import Ns3Raft.Service.BlockHeader
import Ns3Raft.Service.Wire

/-! # A buffer as an array with a cursor

What the calls do, said for an array of bytes with a cursor. A block does the same,
whether its header is small or big, as long as no `get` asks for more than there is.
-/

namespace Ns3Raft.Service

open Memory Store

/-! ## The calls on an array with a cursor -/

namespace Buffer

open Block (szInt szByte)

def remaining (b : Buffer) : Nat := b.size - b.pos

def advance (b : Buffer) (n : Nat) (h : n ≤ b.remaining) : Buffer :=
  ⟨b.bytes, b.pos + n, b.size_lt, by
    have hle := b.pos_le
    simp only [remaining, size] at h
    omega⟩

/-- The next `n` bytes, or the exception. -/
def next (b : Buffer) (text : String) (n : Nat) : Except String Bytes × Buffer :=
  if h : n ≤ b.remaining then (.ok (b.data.take n), b.advance n h) else (.error text, b)

/-- All the bytes, or the exception. -/
def fill (b : Buffer) (text : String) (bytes : Bytes) : Except String Unit × Buffer :=
  match b.putAll bytes with
  | some b' => (.ok (), b')
  | none => (.error text, b)

def allocate (heap : Nat → UInt8) (size : Nat) : Except String Buffer :=
  match alloc (fun i => heap (Block.headerSize size + i)) size with
  | some b => .ok b
  | none => .error "size exceed the max size that cornrestone::buffer could support"

def getInt (b : Buffer) : Except String Int32 × Buffer :=
  let (r, b') := b.next "insufficient buffer available for an int32 value" szInt
  (r.map fun bs => Int32.ofNat (getBytes bs), b')

def getUlong (b : Buffer) : Except String UInt64 × Buffer :=
  let (r, b') := b.next "insufficient buffer available for an ulong value" szUlong
  (r.map fun bs => UInt64.ofNat (getBytes bs), b')

def getByte (b : Buffer) : Except String UInt8 × Buffer :=
  let (r, b') := b.next "insufficient buffer available for a byte" szByte
  (r.map fun bs => bs.headD 0, b')

/-- The string up to the next zero byte, if there is one and the string is not empty. -/
def getStr (b : Buffer) : Option Bytes × Buffer :=
  let str := b.data.takeWhile (· ≠ 0)
  if h : str.length + 1 ≤ b.remaining ∧ str ≠ [] then (some str, b.advance (str.length + 1) h.1)
  else (none, b)

def putByte (b : Buffer) (byte : UInt8) : Except String Unit × Buffer :=
  b.fill "insufficient buffer to store byte" [byte]

def putInt (b : Buffer) (val : Int32) : Except String Unit × Buffer :=
  b.fill "insufficient buffer to store int32" (putBytes szInt val.toUInt32.toNat)

def putUlong (b : Buffer) (val : UInt64) : Except String Unit × Buffer :=
  b.fill "insufficient buffer to store int32" (putBytes szUlong val.toNat)

def putStr (b : Buffer) (str : Bytes) : Except String Unit × Buffer :=
  b.fill "insufficient buffer to store a string" (str ++ [0])

def putBuffer (b src : Buffer) : Except String Unit × Buffer :=
  b.fill "insufficient buffer to hold the other buffer" src.data

variable (b : Buffer)

theorem data_length : b.data.length = b.remaining := by simp [data, remaining, size]

/-- All that follows the cursor, replaced. -/
def refill (bytes : Bytes) (h : bytes.length = b.remaining) : Buffer :=
  have hle : b.pos ≤ b.bytes.length := b.pos_le
  have hlen : (b.bytes.take b.pos ++ bytes).length = b.bytes.length := by
    simp only [List.length_append, List.length_take, h, remaining, size]
    omega
  ⟨b.bytes.take b.pos ++ bytes, b.pos, hlen ▸ b.size_lt, hlen ▸ hle⟩

/-- `memcpy` to `data ()`. -/
def memcpy (bytes : Bytes) : Buffer :=
  have hle : b.pos ≤ b.bytes.length := b.pos_le
  have hlen : (b.bytes.take b.pos ++ bytes.take b.remaining ++ b.bytes.drop (b.pos + bytes.length)).length =
      b.bytes.length := by
    simp only [List.length_append, List.length_take, List.length_drop, remaining, size]
    omega
  ⟨_, b.pos, hlen ▸ b.size_lt, hlen ▸ hle⟩

/-- The destination, whose cursor stays, and the buffer it was filled from. -/
def getInto (dst : Buffer) : Except String Unit × Buffer × Buffer :=
  if h : dst.remaining ≤ b.remaining then
    (.ok (), dst.refill (b.data.take dst.remaining) (by simpa [data_length] using h),
      b.advance dst.remaining h)
  else (.error "insufficient buffer available for the other buffer", dst, b)

theorem putAll_eq_none {bytes : Bytes} (h : b.remaining < bytes.length) : b.putAll bytes = none := by
  induction bytes generalizing b with
  | nil => simp at h
  | cons byte bytes ih =>
      simp only [remaining, List.length_cons] at h
      unfold putAll
      rw [List.foldlM_cons]
      cases hput : b.put byte with
      | none => rfl
      | some b' =>
          unfold put at hput
          split at hput
          · cases hput
          · next hroom =>
              obtain rfl := Option.some.inj hput
              apply ih
              simp only [remaining, size, List.length_set] at h hroom ⊢
              omega

theorem fill_of_lt {text : String} {bytes : Bytes} (h : b.remaining < bytes.length) :
    b.fill text bytes = (.error text, b) := by
  rw [fill, b.putAll_eq_none h]

theorem fill_of_le {t : String} {bytes : Bytes} (h : bytes.length ≤ b.remaining) :
    ∃ b', b.fill t bytes = (.ok (), b') ∧ b'.size = b.size ∧ b'.pos = b.pos + bytes.length ∧
      b'.bytes = b.bytes.take b.pos ++ bytes ++ b.bytes.drop (b.pos + bytes.length) := by
  have hle := b.pos_le
  simp only [remaining, size] at h
  obtain ⟨b', hput, hpos, hbytes⟩ := b.putAll_spec bytes (by simp only [size]; omega)
  refine ⟨b', by rw [fill, hput], ?_, hpos, hbytes⟩
  simp only [size, hbytes, List.length_append, List.length_take, List.length_drop]
  omega

end Buffer

/-! ## A block holds an array -/

/-- The header and the bytes of the block are those of the buffer. -/
structure Holds (p : Block) (b : Buffer) : Prop where
  packed : p.Packed b.size b.pos
  bytes : read p (Block.headerSize b.size) b.size = b.bytes

namespace Holds

variable {p p' : Block} {b b' : Buffer}

theorem size_eq (h : Holds p b) : p.size = b.size := h.packed.size_eq b.pos_le b.size_lt

theorem pos_eq (h : Holds p b) : p.pos = b.pos := h.packed.pos_eq b.pos_le

theorem data_eq (h : Holds p b) : p.data = Block.headerSize b.size + b.pos :=
  h.packed.data_eq b.pos_le

theorem avail_eq (h : Holds p b) : p.avail = b.remaining := by
  have hlt := b.size_lt
  have hle := b.pos_le
  simp only [Block.avail, h.size_eq, h.pos_eq, Buffer.remaining, Buffer.size] at *
  omega

/-- What follows the cursor. -/
theorem read_data {n : Nat} (h : Holds p b) (hn : n ≤ b.remaining) :
    read p p.data n = b.data.take n := by
  have hle : b.pos ≤ b.size := b.pos_le
  have hdrop : read p (Block.headerSize b.size + b.pos) b.remaining = b.data := by
    rw [Buffer.data, ← h.bytes, read_drop p hle, Buffer.remaining]
  rw [h.data_eq, ← hdrop, read_take p hn]

theorem mvFw {n : Nat} (h : Holds p b) (hn : n ≤ b.remaining) :
    Holds (p.mvFwBlock n) (b.advance n hn) := by
  have hle := (b.advance n hn).pos_le
  constructor
  · exact h.packed.mvFwBlock hle b.size_lt
  · exact (Block.read_mvFwBlock h.packed b.pos_le le_rfl).trans h.bytes

theorem setPos (h : Holds p b) (q : Nat) : Holds (p.setPos q) (b.setPos q) := by
  have hpos : (if q > b.size then b.size else q) = min q b.size := by
    split <;> omega
  constructor
  · simp only [Block.setPos, h.size_eq, hpos]
    exact h.packed.setBlockPos b.pos_le (Nat.min_le_right _ _) b.size_lt
  · simp only [Block.setPos]
    exact (Block.read_setBlockPos h.packed b.pos_le le_rfl).trans h.bytes

/-- Bytes written where the cursor is. -/
theorem write_data {bytes : Bytes} (h : Holds p b) (hn : bytes.length ≤ b.remaining)
    (hsize : b'.size = b.size) (hpos : b'.pos = b.pos)
    (hbytes : b'.bytes = b.bytes.take b.pos ++ bytes ++ b.bytes.drop (b.pos + bytes.length)) :
    Holds (write p p.data bytes) b' := by
  have hle := b.pos_le
  simp only [Buffer.remaining, Buffer.size] at hn
  constructor
  · rw [hsize, hpos, h.data_eq]
    exact h.packed.of_write (Nat.le_add_right _ _)
  · rw [hsize, hbytes, h.data_eq, read_write_inside p (Nat.le_add_right _ _)
      (by simp only [Buffer.size]; omega), Nat.add_sub_cancel_left, h.bytes]

end Holds

/-- Both give the same, and the block still holds the buffer. -/
def Agree {α : Type} (x : Block.Called α) (y : Except String α × Buffer) : Prop :=
  x.1 = y.1 ∧ Holds x.2 y.2

namespace Holds

variable {p : Block} {b : Buffer} {α : Type}

/-- The shape of the calls that read `n` bytes. -/
theorem agree_next {text : String} {n : Nat} {v : α} {f : Bytes → α} (h : Holds p b)
    (hv : n ≤ b.remaining → v = f (b.data.take n)) :
    Agree (if p.avail < n then (.error text, p) else (.ok v, p.mvFwBlock n))
      ((b.next text n).1.map f, (b.next text n).2) := by
  unfold Buffer.next
  by_cases hn : n ≤ b.remaining
  · rw [if_neg (by rw [h.avail_eq]; omega), dif_pos hn, hv hn]
    exact ⟨rfl, h.mvFw hn⟩
  · rw [if_pos (by rw [h.avail_eq]; omega), dif_neg hn]
    exact ⟨rfl, h⟩

theorem getInt (h : Holds p b) : Agree p.getInt b.getInt :=
  h.agree_next fun hn => by rw [h.read_data hn]

theorem getUlong (h : Holds p b) : Agree p.getUlong b.getUlong :=
  h.agree_next fun hn => by rw [h.read_data hn]

theorem getByte (h : Holds p b) : Agree p.getByte b.getByte := by
  refine h.agree_next fun hn => ?_
  rw [← h.read_data hn]
  rfl

theorem getStr (h : Holds p b) : Agree (α := Option Bytes) (.ok p.getStr.1, p.getStr.2)
    (.ok b.getStr.1, b.getStr.2) := by
  have hread : read p p.data (b.size - b.pos) = b.data := by
    have htake : b.data.take b.remaining = b.data := List.take_of_length_le b.data_length.le
    exact (h.read_data le_rfl).trans htake
  have hle : b.pos ≤ b.size := b.pos_le
  unfold Block.getStr Buffer.getStr
  simp only [h.pos_eq, h.size_eq, hread]
  by_cases hstr : (b.data.takeWhile (· ≠ 0)).length + 1 ≤ b.remaining ∧ b.data.takeWhile (· ≠ 0) ≠ []
  · have hpos := List.length_pos_iff.mpr hstr.2
    have hlt := hstr.1
    rw [Buffer.remaining] at hlt
    rw [dif_pos hstr, if_neg (by omega)]
    exact ⟨rfl, h.mvFw hstr.1⟩
  · have hnil : b.data.takeWhile (· ≠ 0) = [] ↔ (b.data.takeWhile (· ≠ 0)).length = 0 :=
      List.length_eq_zero_iff.symm
    rw [ne_eq, hnil, Buffer.remaining] at hstr
    rw [dif_neg (by rwa [ne_eq, hnil, Buffer.remaining]), if_pos (by omega)]
    exact ⟨rfl, h⟩

/-- The shape of the calls that write. -/
theorem store {text : String} {bytes : Bytes} (h : Holds p b) :
    Agree (p.store text bytes) (b.fill text bytes) := by
  unfold Block.store
  rw [h.avail_eq]
  by_cases hn : bytes.length ≤ b.remaining
  · obtain ⟨b', hfill, hsize, hpos, hbytes⟩ := b.fill_of_le (t := text) hn
    have hle : b.pos ≤ b'.bytes.length := by
      have hpos' := b'.pos_le
      omega
    -- the bytes are written before the cursor moves
    let written : Buffer := ⟨b'.bytes, b.pos, b'.size_lt, hle⟩
    have hwritten : Holds (write p p.data bytes) written := h.write_data hn hsize rfl hbytes
    have hrest : bytes.length ≤ written.remaining := by
      have hpos' := b'.pos_le
      simp only [written, Buffer.remaining, Buffer.size]
      omega
    have hmoved : written.advance bytes.length hrest = b' := Buffer.ext rfl hpos.symm
    rw [if_neg (by omega), hfill]
    exact ⟨rfl, hmoved ▸ hwritten.mvFw hrest⟩
  · rw [if_pos (by omega), b.fill_of_lt (by omega)]
    exact ⟨rfl, h⟩

theorem putBuffer {q : Block} {src : Buffer} (h : Holds p b) (hsrc : Holds q src) :
    Agree (p.putBuffer q) (b.putBuffer src) := by
  have hread : read q q.data q.avail = src.data := by
    rw [hsrc.avail_eq, hsrc.read_data le_rfl]
    exact List.take_of_length_le src.data_length.le
  unfold Block.putBuffer
  rw [hread]
  exact h.store

theorem getInto {q : Block} {dst : Buffer} (h : Holds p b) (hdst : Holds q dst)
    (hfit : dst.remaining ≤ b.remaining) :
    (b.getInto dst).1 = .ok () ∧ Holds (p.getInto q).1 (b.getInto dst).2.1 ∧
      Holds (p.getInto q).2 (b.getInto dst).2.2 := by
  have hlen : (b.data.take dst.remaining).length = dst.remaining := by
    simpa [Buffer.data_length] using hfit
  have hle := dst.pos_le
  unfold Block.getInto Buffer.getInto
  simp only [hdst.avail_eq, h.read_data hfit]
  rw [dif_pos hfit]
  refine ⟨rfl, ?_, h.mvFw hfit⟩
  refine hdst.write_data hlen.le ?_ rfl ?_
  · simp only [Buffer.refill, Buffer.size, List.length_append]
    rw [hlen, List.length_take, Buffer.remaining, Buffer.size]
    omega
  · have hnil : dst.bytes.drop (dst.pos + (b.data.take dst.remaining).length) = [] := by
      rw [List.drop_eq_nil_iff, hlen, Buffer.remaining, Buffer.size]
      omega
    rw [hnil, List.append_nil]
    rfl

end Holds

theorem alloc_of_le {m : Block} {size : Nat} (h : 0x80000000 ≤ size) :
    ∃ e, Block.alloc m size = .error e ∧ Buffer.allocate m size = .error e := by
  refine ⟨_, if_pos h, ?_⟩
  simp only [Buffer.allocate, Buffer.alloc, dif_neg (Nat.not_lt.mpr h)]

theorem allocate_of_lt {m : Block} {size : Nat} (h : size < 0x80000000) :
    ∃ b, Buffer.allocate m size = .ok b ∧ b.bytes = read m (Block.headerSize size) size ∧
      b.pos = 0 := by
  have hcells : read m (Block.headerSize size) size =
      (List.range size).map fun i => m (Block.headerSize size + i) := by
    rw [Memory.read, List.range'_eq_map_range, List.map_map]
    rfl
  simp only [Buffer.allocate, Buffer.alloc, dif_pos h, hcells]
  exact ⟨_, rfl, rfl, rfl⟩

theorem alloc_of_lt {m : Block} {size : Nat} (h : size < 0x80000000) :
    ∃ p b, Block.alloc m size = .ok p ∧ Buffer.allocate m size = .ok b ∧ Holds p b ∧
      b.size = size := by
  obtain ⟨b, hb, hbytes, hpos⟩ := allocate_of_lt (m := m) h
  have hsize : b.size = size := by rw [Buffer.size, hbytes, read_length]
  unfold Block.alloc
  rw [if_neg (by omega)]
  by_cases hs : size < 0x8000
  · refine ⟨_, b, if_neg (by omega), hb, ⟨?_, ?_⟩, hsize⟩
    · rw [hsize, hpos]
      exact Block.packed_initSBlock hs
    · rw [hsize, hbytes, Block.headerSize, if_pos hs, Block.initSBlock, Block.setUshort, Block.setUshort,
        read_write_of_disjoint _ (by simp), read_write_of_disjoint _ (by simp)]
  · refine ⟨_, b, if_pos (by omega), hb, ⟨?_, ?_⟩, hsize⟩
    · rw [hsize, hpos]
      exact Block.packed_initBBlock (by omega) h
    · rw [hsize, hbytes, Block.headerSize, if_neg hs, Block.initBBlock, Block.setUint, Block.setUint,
        Block.setUint, read_write_of_disjoint _ (by simp), read_write_of_disjoint _ (by simp),
        read_write_of_disjoint _ (by simp)]

end Ns3Raft.Service
