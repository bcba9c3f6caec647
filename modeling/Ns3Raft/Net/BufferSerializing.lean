import Ns3Raft.Net.BufferRuns

/-! # Serialized buffers

`Serialize` writes the length of the zero area and the bytes on both sides of it, each part from a word on.
`Deserialize` makes a buffer from them, which has its zero area where a new buffer starts.
-/

namespace Ns3Raft.Net

open Slices BlockPool

/-! ## Words -/

/-- A `uint32_t` in memory, the lowest byte first. -/
def wordBytes (n : Nat) : List UInt8 :=
  [UInt8.ofNat n, UInt8.ofNat (n / 2 ^ 8), UInt8.ofNat (n / 2 ^ 16), UInt8.ofNat (n / 2 ^ 24)]

def ofWordBytes (bytes : List UInt8) : Nat := bytes.foldr (fun byte n => byte.toNat + 2 ^ 8 * n) 0

theorem ofWordBytes_wordBytes {n : Nat} (h : n < 2 ^ 32) : ofWordBytes (wordBytes n) = n := by
  simp only [ofWordBytes, wordBytes, List.foldr_cons, List.foldr_nil, UInt8.toNat_ofNat']
  omega

theorem sub32_add32 {x y : Nat} (hx : x < 2 ^ 32) (hy : y < 2 ^ 32) : sub32 (add32 x y) y = x := by
  simp only [add32, sub32]
  omega

/-- `(n + 3) & (~3)`. -/
def align4 (n : Nat) : Nat := add32 n 3 / 4 * 4

theorem align4_bounds {n : Nat} (h : n + 3 < 2 ^ 32) : n ≤ align4 n ∧ align4 n ≤ n + 3 := by
  rw [align4, add32_eq h]
  omega

/-! ## Memory of the caller -/

/-- `memcpy` to memory of the caller; `none` behind its end. -/
def store (out : List UInt8) (pos : Nat) (bytes : List UInt8) : Option (List UInt8) :=
  if pos + bytes.length ≤ out.length then some (overwrite out pos bytes) else none

def fetch (buf : List UInt8) (pos len : Nat) : Option (List UInt8) :=
  if pos + len ≤ buf.length then some (slice buf pos len) else none

namespace Buffer

open BufferHeap

/-! ## The code -/

def getSerializedSize (b : Buffer) : Nat :=
  add32 (add32 (8 + align4 (sub32 b.zeroAreaStart b.start)) 4) (align4 (sub32 b.stop b.zeroAreaEnd))

/-- What is returned, and the memory of the caller. -/
def serialize (h : BufferHeap) (b : Buffer) (out : List UInt8) (maxSize : Nat) : Option (Nat × List UInt8) :=
  let dataStartLength := sub32 b.zeroAreaStart b.start
  let dataEndLength := sub32 b.stop b.zeroAreaEnd
  let size := add32 8 (align4 dataStartLength)
  if 4 ≤ maxSize then do
    let out ← store out 0 (wordBytes (sub32 b.zeroAreaEnd b.zeroAreaStart))
    if 8 ≤ maxSize then do
      let out ← store out 4 (wordBytes dataStartLength)
      if size ≤ maxSize then do
        let bytes ← h.load b.data b.start dataStartLength
        let out ← store out 8 bytes
        if add32 size 4 ≤ maxSize then do
          let out ← store out (8 + align4 dataStartLength) (wordBytes dataEndLength)
          if add32 (add32 size 4) (align4 dataEndLength) ≤ maxSize then do
            let bytes ← h.load b.data b.zeroAreaStart dataEndLength
            let out ← store out (8 + align4 dataStartLength + 4) bytes
            some (1, out)
          else some (0, out)
        else some (0, out)
      else some (0, out)
    else some (0, out)
  else some (0, out)

/-- `NS_ASSERT`, where it is compiled. -/
def assert (env : BufferEnv) (ok : Bool) : Option Unit := if env.asserts && !ok then none else some ()

/-- What is returned, and the buffer; the caller counts four bytes more than `Serialize` writes. -/
def deserialize (env : BufferEnv) (h : BufferHeap) (buf : List UInt8) (size : Nat) :
    Option (Nat × BufferHeap × Buffer) := do
  let sizeCheck := sub32 size 4
  assert env (4 ≤ sizeCheck)
  let zeroDataLength := ofWordBytes (← fetch buf 0 4)
  let sizeCheck := sub32 sizeCheck 4
  let (h, b) ← construct env h zeroDataLength
  assert env (4 ≤ sizeCheck)
  let dataStartLength := ofWordBytes (← fetch buf 4 4)
  let sizeCheck := sub32 sizeCheck 4
  let (h, b) ← addAtStart env h b dataStartLength
  assert env (dataStartLength ≤ sizeCheck)
  let (h, _) ← b.first.write h (← fetch buf 8 dataStartLength)
  let p := 8 + align4 dataStartLength
  let sizeCheck := sub32 sizeCheck (align4 dataStartLength)
  assert env (4 ≤ sizeCheck)
  let dataEndLength := ofWordBytes (← fetch buf p 4)
  let sizeCheck := sub32 sizeCheck 4
  let (h, b) ← addAtEnd env h b dataEndLength
  assert env (dataEndLength ≤ sizeCheck)
  let (h, _) ← (b.last.prev dataEndLength).write h (← fetch buf (p + 4) dataEndLength)
  let sizeCheck := sub32 sizeCheck (align4 dataEndLength)
  assert env (sizeCheck = 0)
  some (if sizeCheck ≠ 0 then 0 else 1, h, b)

/-- `g_zeroes.size`. -/
def zeroesSize : Nat := 1000

/-- The loop over `left`, with its bound as fuel. -/
def copyZeroes : Nat → Nat → List UInt8
  | 0, _ => []
  | fuel + 1, left =>
      if 0 < left then List.replicate (min left zeroesSize) 0 ++ copyZeroes fuel (left - min left zeroesSize) else []

/-- `CopyData (buffer, size)`: the bytes that are copied, as many as it returns. -/
def copyData (h : BufferHeap) (b : Buffer) (size : Nat) : Option (List UInt8) := do
  let inFront := min (sub32 b.zeroAreaStart b.start) size
  let bytes ← h.load b.data b.start inFront
  let size := size - inFront
  if 0 < size then do
    let inZero := min (sub32 b.zeroAreaEnd b.zeroAreaStart) size
    let bytes := bytes ++ copyZeroes inZero inZero
    let size := size - inZero
    if 0 < size then do
      let inBack := min (sub32 b.stop b.zeroAreaEnd) size
      some (bytes ++ (← h.load b.data b.zeroAreaStart inBack))
    else some bytes
  else some bytes

/-- `CopyData (os, size)`: the bytes that go to the stream. -/
def copyDataToStream (h : BufferHeap) (b : Buffer) (size : Nat) : Option (List UInt8) :=
  if 0 < size then do
    let inFront := min (sub32 b.zeroAreaStart b.start) size
    let bytes ← h.load b.data b.start inFront
    if inFront < size then do
      let size := size - sub32 b.zeroAreaStart b.start
      let inZero := min (sub32 b.zeroAreaEnd b.zeroAreaStart) size
      let bytes := bytes ++ copyZeroes inZero inZero
      if inZero < size then do
        let size := size - inZero
        let inBack := min (sub32 b.stop b.zeroAreaEnd) size
        some (bytes ++ (← h.load b.data b.zeroAreaStart inBack))
      else some bytes
    else some bytes
  else some []

variable {env : BufferEnv} {h g : BufferHeap} {b c : Buffer} {bs gs : List Buffer} {out out' buf : List UInt8}
  {maxSize n pos len : Nat} {bytes : List UInt8}

/-! ## Stores -/

/-- What is from `n` on stays. -/
structure Untouched (n : Nat) (out out' : List UInt8) : Prop where
  length : out'.length = out.length
  rest : ∀ k, n ≤ k → out'[k]? = out[k]?

theorem Untouched.store (hu : Untouched n out out') (pos : Nat) (bytes : List UInt8) (hle : pos + bytes.length ≤ n)
    (hn : n ≤ out.length) :
    Net.store out' pos bytes = some (overwrite out' pos bytes) ∧ Untouched n out (overwrite out' pos bytes) := by
  have hin : pos + bytes.length ≤ out'.length := by
    rw [hu.length]
    omega
  refine ⟨if_pos hin, (length_overwrite hin).trans hu.length, fun k hk => ?_⟩
  rw [getElem?_overwrite hin, if_neg (by omega), hu.rest k hk]

theorem Untouched.mono {m : Nat} (hu : Untouched n out out') (hle : n ≤ m) : Untouched m out out' :=
  ⟨hu.length, fun k hk => hu.rest k (hle.trans hk)⟩

/-- The serialized form of a buffer at the start of the memory. -/
structure Serialized (h : BufferHeap) (b : Buffer) (out : List UInt8) : Prop where
  room : b.getSerializedSize ≤ out.length
  zero : slice out 0 4 = wordBytes b.zeros
  startLength : slice out 4 4 = wordBytes b.front
  start : slice out 8 b.front = slice (contentsOf h b) 0 b.front
  endLength : slice out (8 + align4 b.front) 4 = wordBytes b.back
  stop : slice out (8 + align4 b.front + 4) b.back = slice (contentsOf h b) (b.front + b.zeros) b.back

/-- The parts that have memory are so short that no size wraps. -/
theorem Sharing.front_add_back_le (hs : Sharing h bs) (hb : b ∈ bs) : b.front + b.back + sizeofData ≤ 2 ^ 32 := by
  obtain ⟨d, hd, hfits⟩ := hs.exists_fits hb
  obtain ⟨hlength, hreal, hzas, hzae, hstop⟩ := hfits.sizes
  have hinside := hfits.inside
  have hbounded := hs.bounded b.data d hd
  omega

theorem Sharing.getSerializedSize_eq (hs : Sharing h bs) (hb : b ∈ bs) :
    b.getSerializedSize = 8 + align4 b.front + 4 + align4 b.back := by
  obtain ⟨d, -, hfits⟩ := hs.exists_fits hb
  have hsum := hs.front_add_back_le hb
  have hheader : sizeofData = 20 := rfl
  have hfront := align4_bounds (n := b.front) (by omega)
  have hback := align4_bounds (n := b.back) (by omega)
  rw [getSerializedSize, hfits.front_eq, hfits.back_eq, add32_eq (x := 8 + align4 b.front) (by omega), add32_eq (by omega)]

theorem length_wordBytes (n : Nat) : (wordBytes n).length = 4 := rfl

/-- Later parts are written behind the earlier ones. -/
theorem slice_store (hin : pos + bytes.length ≤ out.length) {off : Nat} (hle : off + len ≤ pos) :
    slice (overwrite out pos bytes) off len = slice out off len :=
  slice_overwrite_of_disjoint hin (.inl hle)

/-- The parts of a serialized form, where `a` and `c` are the sizes of those that are aligned. -/
theorem slices_parts {out p₀ p₁ p₂ p₃ p₄ : List UInt8} {a c : Nat} (h₀ : p₀.length = 4) (h₁ : p₁.length = 4)
    (h₂ : p₂.length ≤ a) (h₃ : p₃.length = 4) (h₄ : p₄.length ≤ c) (hout : 8 + a + 4 + c ≤ out.length)
    {out' : List UInt8} (hout' : out' = overwrite (overwrite (overwrite (overwrite (overwrite out 0 p₀) 4 p₁) 8 p₂) (8 + a) p₃)
      (8 + a + 4) p₄) :
    slice out' 0 4 = p₀ ∧ slice out' 4 4 = p₁ ∧ slice out' 8 p₂.length = p₂ ∧ slice out' (8 + a) 4 = p₃ ∧
      slice out' (8 + a + 4) p₄.length = p₄ := by
  have l₁ : (overwrite out 0 p₀).length = out.length := length_overwrite (by omega)
  have l₂ : (overwrite (overwrite out 0 p₀) 4 p₁).length = out.length := (length_overwrite (by omega)).trans l₁
  have l₃ : (overwrite (overwrite (overwrite out 0 p₀) 4 p₁) 8 p₂).length = out.length := (length_overwrite (by omega)).trans l₂
  have l₄ : (overwrite (overwrite (overwrite (overwrite out 0 p₀) 4 p₁) 8 p₂) (8 + a) p₃).length = out.length :=
    (length_overwrite (by omega)).trans l₃
  rw [hout']
  refine ⟨?_, ?_, ?_, ?_, slice_overwrite_self (by omega)⟩
  · rw [slice_store (by omega) (by omega), slice_store (by omega) (by omega), slice_store (by omega) (by omega),
      slice_store (by omega) (by omega), ← h₀]
    exact slice_overwrite_self (by omega)
  · rw [slice_store (by omega) (by omega), slice_store (by omega) (by omega), slice_store (by omega) (by omega)]
    exact (congrArg (slice _ 4) h₁.symm).trans (slice_overwrite_self (by omega))
  · rw [slice_store (by omega) (by omega), slice_store (by omega) (by omega)]
    exact slice_overwrite_self (by omega)
  · rw [slice_store (by omega) (by omega)]
    exact (congrArg (slice _ (8 + a)) h₃.symm).trans (slice_overwrite_self (by omega))

/-- A buffer is written if there is room, and nothing behind the room or behind its form. -/
theorem Sharing.serialize_spec (hs : Sharing h bs) (hb : b ∈ bs) (hout : maxSize ≤ out.length) :
    ∃ out', b.serialize h out maxSize = some (if b.getSerializedSize ≤ maxSize then 1 else 0, out') ∧
      Untouched (min maxSize b.getSerializedSize) out out' ∧ (b.getSerializedSize ≤ maxSize → Serialized h b out') := by
  obtain ⟨d, -, hfits⟩ := hs.exists_fits hb
  obtain ⟨hlength, hreal, hzas, hzae, hstop⟩ := hfits.sizes
  have hsum := hs.front_add_back_le hb
  have hheader : sizeofData = 20 := rfl
  have hcontents := hs.length_contentsOf hb
  have hload := hs.load_front hb 0 b.front (.inr (by omega))
  have hload' := hs.load_back hb (b.front + b.zeros) b.back (Nat.le_refl _) (by omega)
  rw [Nat.add_zero] at hload
  rw [show b.start + (b.front + b.zeros) - b.zeros = b.zeroAreaStart by omega] at hload'
  obtain ⟨hfront, hfront'⟩ := align4_bounds (n := b.front) (by omega)
  obtain ⟨hback, hback'⟩ := align4_bounds (n := b.back) (by omega)
  have hsize := hs.getSerializedSize_eq hb
  have hstart : add32 8 (align4 b.front) = 8 + align4 b.front := add32_eq (by omega)
  have hword : add32 (8 + align4 b.front) 4 = 8 + align4 b.front + 4 := add32_eq (by omega)
  have hend : add32 (8 + align4 b.front + 4) (align4 b.back) = 8 + align4 b.front + 4 + align4 b.back := add32_eq (by omega)
  have hlen₁ : (slice (contentsOf h b) 0 b.front).length = b.front := length_slice (by omega)
  have hlen₂ : (slice (contentsOf h b) (b.front + b.zeros) b.back).length = b.back := length_slice (by omega)
  have hword₀ := length_wordBytes b.zeros
  have hword₁ := length_wordBytes b.front
  have hword₂ := length_wordBytes b.back
  unfold serialize
  simp only [hfits.front_eq, hfits.zeros_eq, hfits.back_eq, hstart, hword, hend, hload, hload', Option.bind_eq_bind,
    Option.bind_some]
  -- only the sizes of the five parts matter from here on
  clear hload hload' hfits hlength hreal hzas hzae hstop hsum hheader hcontents hstart hword hend
  have hu₀ : Untouched 0 out out := ⟨rfl, fun _ _ => rfl⟩
  by_cases h₁ : 4 ≤ maxSize
  case neg => exact ⟨out, by rw [if_neg h₁, if_neg (by omega)], hu₀.mono (Nat.zero_le _), fun hle => by omega⟩
  obtain ⟨hstore₁, hu₁⟩ := (hu₀.mono (Nat.zero_le 4)).store 0 (wordBytes b.zeros) (by omega) (by omega)
  rw [if_pos h₁, hstore₁, Option.bind_some]
  by_cases h₂ : 8 ≤ maxSize
  case neg => exact ⟨_, by rw [if_neg h₂, if_neg (by omega)], hu₁.mono (by omega), fun hle => by omega⟩
  obtain ⟨hstore₂, hu₂⟩ := (hu₁.mono (show 4 ≤ 8 by decide)).store 4 (wordBytes b.front) (by omega) (by omega)
  rw [if_pos h₂, hstore₂, Option.bind_some]
  by_cases h₃ : 8 + align4 b.front ≤ maxSize
  case neg => exact ⟨_, by rw [if_neg h₃, if_neg (by omega)], hu₂.mono (by omega), fun hle => by omega⟩
  obtain ⟨hstore₃, hu₃⟩ := (hu₂.mono (show 8 ≤ 8 + align4 b.front by omega)).store 8
    (slice (contentsOf h b) 0 b.front) (by omega) (by omega)
  rw [if_pos h₃, hstore₃, Option.bind_some]
  by_cases h₄ : 8 + align4 b.front + 4 ≤ maxSize
  case neg => exact ⟨_, by rw [if_neg h₄, if_neg (by omega)], hu₃.mono (by omega), fun hle => by omega⟩
  obtain ⟨hstore₄, hu₄⟩ := (hu₃.mono (show 8 + align4 b.front ≤ 8 + align4 b.front + 4 by omega)).store
    (8 + align4 b.front) (wordBytes b.back) (by omega) (by omega)
  rw [if_pos h₄, hstore₄, Option.bind_some]
  by_cases h₅ : 8 + align4 b.front + 4 + align4 b.back ≤ maxSize
  case neg => exact ⟨_, by rw [if_neg h₅, if_neg (by omega)], hu₄.mono (by omega), fun hle => by omega⟩
  obtain ⟨hstore₅, hu₅⟩ :=
    (hu₄.mono (show 8 + align4 b.front + 4 ≤ 8 + align4 b.front + 4 + align4 b.back by omega)).store
      (8 + align4 b.front + 4) (slice (contentsOf h b) (b.front + b.zeros) b.back) (by omega) (by omega)
  rw [if_pos h₅, hstore₅, Option.bind_some]
  obtain ⟨hzero, hfrontLength, hfrontBytes, hbackLength, hbackBytes⟩ := slices_parts hword₀ hword₁ (hlen₁.le.trans hfront) hword₂
    (hlen₂.le.trans hback) (h₅.trans hout) rfl
  rw [hlen₁] at hfrontBytes
  rw [hlen₂] at hbackBytes
  have hroom : b.getSerializedSize ≤ maxSize := hsize.le.trans h₅
  exact ⟨_, by rw [if_pos hroom], hu₅.mono (by omega),
    fun _ => ⟨by rw [hu₅.length]; omega, hzero, hfrontLength, hfrontBytes, hbackLength, hbackBytes⟩⟩

/-! ## A new buffer -/

theorem size_setDirtyStart {a x : Nat} (a' : Nat) : (h.setDirtyStart a x).size a' = h.size a' := by
  rw [size, size, val?_setDirtyStart]
  split
  · cases h.pool.val? a' <;> rfl
  · rfl

theorem size_setDirtyEnd {a x : Nat} (a' : Nat) : (h.setDirtyEnd a x).size a' = h.size a' := by
  rw [size, size, val?_setDirtyEnd]
  split
  · cases h.pool.val? a' <;> rfl
  · rfl

theorem size_save {h' : BufferHeap} {a off : Nat} (hsave : h.save a off bytes = some h') : h'.size a = h.size a := by
  rw [save] at hsave
  split at hsave
  · rw [Option.some.inj hsave]
  · split at hsave
    · next hin =>
      rw [← Option.some.inj hsave, size, Pool.val?_update, if_pos rfl, size]
      cases hval : h.pool.val? a with
      | none => rfl
      | some d =>
        rw [size_eq hval] at hin
        exact length_overwrite hin
    · cases hsave

theorem size_write {h' : BufferHeap} {it it' : Iterator} (hwrite : it.write h bytes = some (h', it')) :
    h'.size it.data = h.size it.data := by
  obtain ⟨h₁, hsave, heq⟩ := Option.bind_eq_some_iff.1 hwrite
  obtain ⟨rfl, rfl⟩ := Prod.mk.inj (Option.some.inj heq)
  exact size_save hsave

/-- The size of the storage of a new buffer. -/
def firstSize (env : BufferEnv) (g : BufferHeap) : Nat :=
  match g.create env 0 with
  | some (a, g') => g'.size a
  | none => 0

theorem size_construct {h' : BufferHeap} (hc : construct env h n = some (h', b)) : h'.size b.data = firstSize env h := by
  obtain ⟨⟨a, h₁⟩, hcreate, heq⟩ := Option.map_eq_some_iff.1 hc
  obtain ⟨rfl, rfl⟩ := Prod.mk.inj heq
  rw [firstSize, hcreate, size_setDirtyEnd, size_setDirtyStart]

/-- Nothing wraps when the bytes are put around the zero area of a new buffer. -/
def DeserializeFits (env : BufferEnv) (g : BufferHeap) (b : Buffer) : Prop :=
  firstStart env g + b.zeros < 2 ^ 32 ∧
    (b.front ≤ firstStart env g → add32 (firstStart env g) b.back ≤ firstSize env g →
      firstStart env g + b.zeros + b.back < 2 ^ 32)

instance (env : BufferEnv) (g : BufferHeap) (b : Buffer) : Decidable (DeserializeFits env g b) :=
  inferInstanceAs (Decidable (_ ∧ _))

theorem fetch_eq (hin : pos + len ≤ buf.length) : fetch buf pos len = some (slice buf pos len) := if_pos hin

theorem assert_eq (env : BufferEnv) {p : Prop} [Decidable p] (hp : p) : assert env (decide p) = some () := by
  rw [assert, decide_eq_true hp, Bool.not_true, Bool.and_false, if_neg Bool.false_ne_true]

/-- A buffer that is alone on its data finds room in front exactly when the new bytes fit there. -/
theorem Joined.roomAtStart (hj : Joined g h c gs) (hfresh : c.data ∉ gs.map (·.data)) :
    RoomAtStart h c n ↔ n ≤ c.start := by
  have hone : h.pool.cnt c.data = 1 := by
    rw [hj.sharing.pool.counted, List.map_cons, List.count_cons_self, List.count_eq_zero_of_not_mem hfresh]
  rw [RoomAtStart, hone]
  exact and_iff_left fun hshared => absurd hshared.1 (Nat.lt_irrefl 1)

/-- Where the bytes in front find room, the storage is that of the new buffer. -/
theorem room_after_front {g₀ g₁ g₂ : BufferHeap} {c₀ c₁ : Buffer} {it : Iterator} (hconstruct : construct env g n = some (g₀, c₀))
    (hin : RoomAtStart g₀ c₀ len) (hadd : Buffer.addAtStart env g₀ c₀ len = some (g₁, c₁))
    (hwrite : c₁.first.write g₁ bytes = some (g₂, it)) :
    g₂.size c₁.data = firstSize env g ∧ c₁.stop = c₀.stop ∧ c₁.realEnd = c₀.realEnd := by
  rw [Buffer.addAtStart, if_pos hin] at hadd
  obtain ⟨rfl, rfl⟩ := Prod.mk.inj (Option.some.inj hadd)
  have hsize := size_write hwrite
  refine ⟨?_, rfl, rfl⟩
  rw [← size_construct hconstruct, ← size_setDirtyStart (h := g₀) c₀.data]
  exact hsize

/-- The code with the results of its calls. -/
theorem deserialize_eq {z f e size : Nat} {g₀ g₁ g₂ g₃ g₄ : BufferHeap} {c₀ c₁ c₃ : Buffer} {it it' : Iterator}
    {inFront inBack : List UInt8} (hconstruct : construct env g z = some (g₀, c₀))
    (hadd : Buffer.addAtStart env g₀ c₀ f = some (g₁, c₁)) (hwrite : c₁.first.write g₁ inFront = some (g₂, it))
    (hadd' : Buffer.addAtEnd env g₂ c₁ e = some (g₃, c₃)) (hwrite' : (c₃.last.prev e).write g₃ inBack = some (g₄, it'))
    (hz : (fetch buf 0 4).map ofWordBytes = some z) (hf : (fetch buf 4 4).map ofWordBytes = some f)
    (hinFront : fetch buf 8 f = some inFront) (he : (fetch buf (8 + align4 f) 4).map ofWordBytes = some e)
    (hinBack : fetch buf (8 + align4 f + 4) e = some inBack) (hfit : f ≤ align4 f) (hfit' : e ≤ align4 e)
    (hsize : sub32 size 4 = 8 + align4 f + 4 + align4 e) (hsmall : 8 + align4 f + 4 + align4 e < 2 ^ 32) :
    deserialize env g buf size = some (1, g₄, c₃) := by
  obtain ⟨zeroWord, hzeroWord, rfl⟩ := Option.map_eq_some_iff.1 hz
  obtain ⟨startWord, hstartWord, rfl⟩ := Option.map_eq_some_iff.1 hf
  obtain ⟨endWord, hendWord, rfl⟩ := Option.map_eq_some_iff.1 he
  have hcheck₁ : sub32 (sub32 size 4) 4 = 4 + align4 (ofWordBytes startWord) + 4 + align4 (ofWordBytes endWord) := by
    rw [hsize, sub32_eq (by omega) (by omega)]
    omega
  have hcheck₂ : sub32 (sub32 (sub32 size 4) 4) 4 = align4 (ofWordBytes startWord) + 4 + align4 (ofWordBytes endWord) := by
    rw [hcheck₁, sub32_eq (by omega) (by omega)]
    omega
  have hcheck₃ : sub32 (sub32 (sub32 (sub32 size 4) 4) 4) (align4 (ofWordBytes startWord)) = 4 + align4 (ofWordBytes endWord) := by
    rw [hcheck₂, sub32_eq (by omega) (by omega)]
    omega
  have hcheck₄ : sub32 (sub32 (sub32 (sub32 (sub32 size 4) 4) 4) (align4 (ofWordBytes startWord))) 4 =
      align4 (ofWordBytes endWord) := by
    rw [hcheck₃, sub32_eq (by omega) (by omega)]
    omega
  have hcheck₅ : sub32 (sub32 (sub32 (sub32 (sub32 (sub32 size 4) 4) 4) (align4 (ofWordBytes startWord))) 4)
      (align4 (ofWordBytes endWord)) = 0 := by
    rw [hcheck₄, sub32_eq (Nat.le_refl _) (by omega), Nat.sub_self]
  rw [deserialize]
  simp only [Option.bind_eq_bind, hzeroWord, hstartWord, hendWord, hconstruct, hadd, hadd', hwrite, hwrite', hinFront, hinBack,
    Option.bind_some]
  rw [assert_eq env (show 4 ≤ sub32 size 4 by omega), assert_eq env (show 4 ≤ sub32 (sub32 size 4) 4 by omega),
    assert_eq env (show ofWordBytes startWord ≤ sub32 (sub32 (sub32 size 4) 4) 4 by omega),
    assert_eq env (show 4 ≤ sub32 (sub32 (sub32 (sub32 size 4) 4) 4) (align4 (ofWordBytes startWord)) by omega),
    assert_eq env (show ofWordBytes endWord ≤
      sub32 (sub32 (sub32 (sub32 (sub32 size 4) 4) 4) (align4 (ofWordBytes startWord))) 4 by omega),
    assert_eq env hcheck₅, hcheck₅]
  rfl

/-- What is fetched from a serialized form. -/
theorem Sharing.fetches (hs : Sharing h bs) (hb : b ∈ bs) (hbuf : Serialized h b buf) :
    (fetch buf 0 4).map ofWordBytes = some b.zeros ∧ (fetch buf 4 4).map ofWordBytes = some b.front ∧
      fetch buf 8 b.front = some (slice (contentsOf h b) 0 b.front) ∧
      (fetch buf (8 + align4 b.front) 4).map ofWordBytes = some b.back ∧
      fetch buf (8 + align4 b.front + 4) b.back = some (slice (contentsOf h b) (b.front + b.zeros) b.back) := by
  have hsum := hs.front_add_back_le hb
  have hheader : sizeofData = 20 := rfl
  have hzeros : b.zeros < 2 ^ 32 := by
    obtain ⟨d, -, hfits⟩ := hs.exists_fits hb
    have hsizes := hfits.sizes
    have hsmall := hfits.small
    omega
  have hroom := hbuf.room
  rw [hs.getSerializedSize_eq hb] at hroom
  obtain ⟨hfront, -⟩ := align4_bounds (n := b.front) (by omega)
  obtain ⟨hback, -⟩ := align4_bounds (n := b.back) (by omega)
  refine ⟨?_, ?_, ?_, ?_, ?_⟩
  · rw [fetch_eq (by omega), hbuf.zero, Option.map_some, ofWordBytes_wordBytes hzeros]
  · rw [fetch_eq (by omega), hbuf.startLength, Option.map_some, ofWordBytes_wordBytes (by omega)]
  · rw [fetch_eq (by omega), hbuf.start]
  · rw [fetch_eq (by omega), hbuf.endLength, Option.map_some, ofWordBytes_wordBytes (by omega)]
  · rw [fetch_eq (by omega), hbuf.stop]

/-- Nothing wraps behind the bytes in front: they have found room there, or their storage is new. -/
theorem DeserializeFits.endFits {g₀ g₁ g₂ : BufferHeap} {c₀ c₁ : Buffer} {it : Iterator} (hfit : DeserializeFits env g b)
    (hconstruct : construct env g b.zeros = some (g₀, c₀)) (hjoined : Joined g g₀ c₀ gs) (hfresh : c₀.data ∉ gs.map (·.data))
    (hshape : c₀.Shape 0 b.zeros 0 (firstStart env g)) (hadd : Buffer.addAtStart env g₀ c₀ b.front = some (g₁, c₁))
    (hwrite : c₁.first.write g₁ bytes = some (g₂, it)) (hsharing : Sharing g₂ (c₁ :: gs)) (hzeros : c₁.zeros = b.zeros)
    (hstop : c₁.stop = c₀.stop ∨ c₁.stop = c₀.length + b.front) (hlen : c₁.length = b.front + b.zeros)
    (hsmall : b.front + b.zeros + b.back < 2 ^ 32) (hsum : b.front + b.back + sizeofData ≤ 2 ^ 32) : EndFits g₂ c₁ b.back := by
  obtain ⟨d, -, hfits⟩ := hsharing.exists_fits List.mem_cons_self
  obtain ⟨hlength, -⟩ := hfits.sizes
  obtain ⟨hs₁, hs₂, hs₃, hs₄⟩ := id hshape
  have hlength₀ : c₀.length = b.zeros := by
    rw [length, hs₄, ← hs₁]
    omega
  have hstop₀ : c₀.stop = firstStart env g + b.zeros := hs₄.trans (Nat.add_zero _)
  have hreal₀ : c₀.realEnd = firstStart env g := hshape.realEnd_eq
  have hstart₀ : c₀.start = firstStart env g := hs₁
  clear hs₁ hs₂ hs₃ hs₄
  rw [EndFits]
  split
  · next hend =>
    by_cases hle : b.front ≤ firstStart env g
    · have hroom : b.front ≤ c₀.start := by omega
      obtain ⟨hsize₂, hstop₂, hreal₂⟩ := room_after_front hconstruct ((hjoined.roomAtStart hfresh).2 hroom) hadd hwrite
      have hend₂ := hend.1
      rw [hfits.getInternalEnd_eq, hreal₂, hreal₀, hsize₂] at hend₂
      have hlast := hfit.2 hle hend₂
      omega
    · rcases hstop with hold | hnew <;> omega
  · exact ⟨by omega, by omega⟩

theorem Sharing.deserialize_spec (env : BufferEnv) (hg : Sharing g gs) (hs : Sharing h bs) (hb : b ∈ bs)
    (hbuf : Serialized h b buf) (hfit : DeserializeFits env g b) :
    ∃ g' c, deserialize env g buf (add32 b.getSerializedSize 4) = some (1, g', c) ∧ Joined g g' c gs ∧
      contentsOf g' c = contentsOf h b ∧ c.zeros = b.zeros := by
  have hsum := hs.front_add_back_le hb
  have hheader : sizeofData = 20 := rfl
  have hcontents := hs.length_contentsOf hb
  have hsmall : b.front + b.zeros + b.back < 2 ^ 32 := by
    obtain ⟨d, -, hfits⟩ := hs.exists_fits hb
    have hsizes := hfits.sizes
    have hstop := hfits.small
    omega
  have hlength : b.length = b.front + b.zeros + b.back := by
    obtain ⟨d, -, hfits⟩ := hs.exists_fits hb
    exact hfits.sizes.1
  rw [hlength] at hcontents
  have hlen₁ : (slice (contentsOf h b) 0 b.front).length = b.front := length_slice (by omega)
  have hlen₂ : (slice (contentsOf h b) (b.front + b.zeros) b.back).length = b.back := length_slice (by omega)
  -- an empty buffer with the zero area
  obtain ⟨g₀, c₀, hconstruct, hjoined₀, hcontents₀, hfresh₀, hshape⟩ := hg.construct env hfit.1
  obtain ⟨hlength₀, hfront₀, hback₀, hzeros₀⟩ : c₀.length = b.zeros ∧ c₀.front = 0 ∧ c₀.back = 0 ∧ c₀.zeros = b.zeros := by
    have hs₁ : c₀.start = firstStart env g := hshape.start
    have hs₂ := hshape.zeroAreaStart
    have hs₃ := hshape.zeroAreaEnd
    have hs₄ := hshape.stop
    clear hlen₁ hlen₂ hcontents hlength
    simp only [length, front, back, zeros] at *
    omega
  -- the bytes in front of it
  have hstartfits : StartFits g₀ c₀ b.front := .inr ⟨by omega, by omega⟩
  obtain ⟨g₁, c₁, hadd₁, hjoined₁, hadded₁, hwrites₁⟩ := hjoined₀.sharing.prepend env hstartfits
  obtain ⟨g₂, it₂, hwrite₂, hjoined₂, hread₂⟩ := hwrites₁ _ hlen₁
  have hlen := hjoined₂.sharing.length_contentsOf List.mem_cons_self
  rw [hread₂, hcontents₀, List.length_append, hlen₁, List.length_replicate] at hlen
  -- the bytes behind it
  have hendfits : EndFits g₂ c₁ b.back := hfit.endFits hconstruct hjoined₀ hfresh₀ hshape hadd₁ hwrite₂ hjoined₂.sharing
    (hadded₁.zeros.trans hzeros₀) hadded₁.stop hlen.symm hsmall hsum
  obtain ⟨g₃, c₃, hadd₃, hjoined₃, hadded₃, hlast₃, -, hwrites₃⟩ := hjoined₂.sharing.postpend env hendfits
  obtain ⟨g₄, it₄, hwrite₄, hjoined₄, hread₄⟩ := hwrites₃ _ hlen₂
  rw [← hlast₃] at hwrite₄
  refine ⟨g₄, c₃, ?_, ⟨hjoined₄.sharing, fun c hc => ?_⟩, ?_, ?_⟩
  · obtain ⟨hzero, hstart, hstartBytes, hstop, hstopBytes⟩ := hs.fetches hb hbuf
    have hsize := hs.getSerializedSize_eq hb
    obtain ⟨hfront, hfront'⟩ := align4_bounds (n := b.front) (by omega)
    obtain ⟨hback, hback'⟩ := align4_bounds (n := b.back) (by omega)
    have htotal : 8 + align4 b.front + 4 + align4 b.back < 2 ^ 32 := by omega
    exact deserialize_eq hconstruct hadd₁ hwrite₂ hadd₃ hwrite₄ hzero hstart hstartBytes hstop hstopBytes hfront hback
      ((sub32_add32 (hsize.trans_lt htotal) (by decide)).trans hsize) htotal
  · rw [hjoined₄.others c hc, hjoined₂.others c hc, hjoined₀.others c hc]
  · rw [hread₄, hread₂, hcontents₀, List.append_assoc]
    exact hs.contents_parts hb
  · rw [hadded₃.zeros, hadded₁.zeros, hzeros₀]

/-! ## Copies of the bytes -/

theorem copyZeroes_eq {fuel left : Nat} (hle : left ≤ fuel) : copyZeroes fuel left = List.replicate left 0 := by
  induction fuel generalizing left with
  | zero =>
    obtain rfl := Nat.le_zero.1 hle
    rfl
  | succ fuel ih =>
    have hzeroes : zeroesSize = 1000 := rfl
    rw [copyZeroes]
    split
    · rw [ih (by omega), List.replicate_append_replicate]
      congr 1
      omega
    · next hnone =>
      obtain rfl : left = 0 := by omega
      rfl

theorem Sharing.load_copied (hs : Sharing h bs) (hb : b ∈ bs) :
    (∀ k, k ≤ b.front → h.load b.data b.start k = some (slice (contentsOf h b) 0 k)) ∧
      ∀ k, k ≤ b.back → h.load b.data b.zeroAreaStart k = some (slice (contentsOf h b) (b.front + b.zeros) k) := by
  obtain ⟨d, -, hfits⟩ := hs.exists_fits hb
  obtain ⟨hlength, hreal, hzas, hzae, hstop⟩ := hfits.sizes
  refine ⟨fun k hk => ?_, fun k hk => ?_⟩
  · have hload := hs.load_front hb 0 k (.inr (by omega))
    rwa [Nat.add_zero] at hload
  · have hload := hs.load_back hb (b.front + b.zeros) k (Nat.le_refl _) (by omega)
    rwa [show b.start + (b.front + b.zeros) - b.zeros = b.zeroAreaStart by omega] at hload

/-- The first bytes in three parts. -/
theorem Sharing.take_contentsOf (hs : Sharing h bs) (hb : b ∈ bs) (n : Nat) :
    slice (contentsOf h b) 0 (min b.front n) ++ List.replicate (min b.zeros (n - b.front)) 0 ++
      slice (contentsOf h b) (b.front + b.zeros) (min b.back (n - b.front - b.zeros)) = (contentsOf h b).take n := by
  obtain ⟨d, -, hfits⟩ := hs.exists_fits hb
  obtain ⟨hlength, -⟩ := hfits.sizes
  have hlen := hs.length_contentsOf hb
  have htake : ∀ k, slice (contentsOf h b) 0 k = (contentsOf h b).take k := fun k => by rw [slice, List.drop_zero]
  rw [hs.zeros_eq hb b.front _ (by omega)]
  rcases Nat.le_total n b.front with hfront | hfront
  · rw [Nat.min_eq_right hfront, Nat.sub_eq_zero_of_le hfront, Nat.zero_sub, Nat.min_zero, Nat.min_zero, slice_zero, slice_zero,
      List.append_nil, List.append_nil, htake]
  · have hfirst : slice (contentsOf h b) 0 (b.front + min b.zeros (n - b.front)) = _ := slice_append _ _
    rw [Nat.zero_add] at hfirst
    rw [Nat.min_eq_left hfront, ← hfirst]
    rcases Nat.le_total (n - b.front) b.zeros with hzeros | hzeros
    · rw [Nat.min_eq_right hzeros, Nat.sub_eq_zero_of_le hzeros, Nat.min_zero, slice_zero, List.append_nil, htake]
      congr 1
      omega
    · have hsecond : slice (contentsOf h b) 0 (b.front + b.zeros + min b.back (n - b.front - b.zeros)) = _ :=
        slice_append _ _
      rw [Nat.zero_add] at hsecond
      rw [Nat.min_eq_left hzeros, ← hsecond, htake]
      rcases Nat.le_total (n - b.front - b.zeros) b.back with hback | hback
      · rw [Nat.min_eq_right hback]
        congr 1
        omega
      · rw [Nat.min_eq_left hback, List.take_of_length_le (by omega), List.take_of_length_le (by omega)]

theorem Sharing.copyData_eq (hs : Sharing h bs) (hb : b ∈ bs) (n : Nat) : b.copyData h n = some ((contentsOf h b).take n) := by
  obtain ⟨d, -, hfits⟩ := hs.exists_fits hb
  obtain ⟨hload, hload'⟩ := hs.load_copied hb
  have htake := hs.take_contentsOf hb n
  rw [copyData, hfits.front_eq, hfits.zeros_eq, hfits.back_eq, hload _ (Nat.min_le_left _ _)]
  simp only [Option.bind_eq_bind, Option.bind_some]
  have hrest : n - min b.front n = n - b.front := by omega
  rw [hrest]
  split
  · next hmore =>
    have hrest' : n - b.front - min b.zeros (n - b.front) = n - b.front - b.zeros := by omega
    rw [copyZeroes_eq (Nat.le_refl _), hrest']
    split
    · rw [hload' _ (Nat.min_le_left _ _), Option.bind_some, htake]
    · next hnone =>
      rw [show n - b.front - b.zeros = 0 by omega, Nat.min_zero, slice_zero, List.append_nil] at htake
      rw [htake]
  · next hnone =>
    rw [show n - b.front = 0 by omega, Nat.zero_sub, Nat.min_zero, Nat.min_zero, slice_zero, List.replicate_zero, List.append_nil,
      List.append_nil] at htake
    rw [htake]

theorem Sharing.copyDataToStream_eq (hs : Sharing h bs) (hb : b ∈ bs) (n : Nat) :
    b.copyDataToStream h n = some ((contentsOf h b).take n) := by
  obtain ⟨d, -, hfits⟩ := hs.exists_fits hb
  obtain ⟨hload, hload'⟩ := hs.load_copied hb
  have htake := hs.take_contentsOf hb n
  rw [copyDataToStream, hfits.front_eq, hfits.zeros_eq, hfits.back_eq]
  split
  · dsimp only
    rw [hload _ (Nat.min_le_left _ _)]
    simp only [Option.bind_eq_bind, Option.bind_some]
    split
    · rw [copyZeroes_eq (Nat.le_refl _)]
      split
      · rw [show n - b.front - min b.zeros (n - b.front) = n - b.front - b.zeros by omega, hload' _ (Nat.min_le_left _ _),
          Option.bind_some, htake]
      · next hnone =>
        rw [show n - b.front - b.zeros = 0 by omega, Nat.min_zero, slice_zero, List.append_nil] at htake
        rw [htake]
    · next hnone =>
      rw [show n - b.front = 0 by omega, Nat.zero_sub, Nat.min_zero, Nat.min_zero, slice_zero, List.replicate_zero, List.append_nil,
        List.append_nil] at htake
      rw [htake]
  · next hnone =>
    obtain rfl : n = 0 := by omega
    rw [List.take_zero]

/-! ## Round trips -/

theorem slice_take {off : Nat} (hle : off + len ≤ n) : slice (out.take n) off len = slice out off len := by
  have htake : out.take n = slice out 0 n := by rw [slice, List.drop_zero]
  rw [htake, slice_slice hle, Nat.zero_add]

/-- The form is read from its own bytes. -/
theorem Serialized.take (hs : Sharing h bs) (hb : b ∈ bs) (hout : Serialized h b out) :
    Serialized h b (out.take b.getSerializedSize) := by
  have hsum := hs.front_add_back_le hb
  have hheader : sizeofData = 20 := rfl
  obtain ⟨hfront, -⟩ := align4_bounds (n := b.front) (by omega)
  obtain ⟨hback, -⟩ := align4_bounds (n := b.back) (by omega)
  have hsize := hs.getSerializedSize_eq hb
  refine ⟨?_, ?_, ?_, ?_, ?_, ?_⟩
  · rw [List.length_take, Nat.min_eq_left hout.room]
  · rw [slice_take (by omega), hout.zero]
  · rw [slice_take (by omega), hout.startLength]
  · rw [slice_take (by omega), hout.start]
  · rw [slice_take (by omega), hout.endLength]
  · rw [slice_take (by omega), hout.stop]

/-- `Serialize` of a buffer to the memory of a caller, `Deserialize` of the bytes on another heap, and `CopyData`. -/
structure SerializesRight (env : BufferEnv) (h : BufferHeap) (b : Buffer) (g : BufferHeap) (out : List UInt8)
    (maxSize : Nat) : Prop where
  written : ∃ r out', b.serialize h out maxSize = some (r, out') ∧ (r = 0 ↔ maxSize < b.getSerializedSize) ∧
    (∀ k, min maxSize b.getSerializedSize ≤ k → out'[k]? = out[k]?) ∧
    (r ≠ 0 → ∃ g' c, deserialize env g (out'.take b.getSerializedSize) (add32 b.getSerializedSize 4) = some (1, g', c) ∧
      readable g' c = readable h b ∧ sub32 c.zeroAreaEnd c.zeroAreaStart = sub32 b.zeroAreaEnd b.zeroAreaStart)
  copied : ∀ n, ∃ bytes, b.copyData h n = some bytes ∧ b.copyDataToStream h n = some bytes ∧
    bytes.map some = (readable h b).take n

theorem Sharing.serializesRight (env : BufferEnv) (hg : Sharing g gs) (hs : Sharing h bs) (hb : b ∈ bs)
    (hout : maxSize ≤ out.length) (hfit : DeserializeFits env g b) : SerializesRight env h b g out maxSize := by
  obtain ⟨d, -, hfits⟩ := hs.exists_fits hb
  obtain ⟨out', hserialize, huntouched, hserialized⟩ := hs.serialize_spec hb hout
  refine ⟨⟨_, out', hserialize, ?_, huntouched.rest, fun hr => ?_⟩, fun n => ⟨_, hs.copyData_eq hb n, hs.copyDataToStream_eq hb n, ?_⟩⟩
  · split
    · next hle => exact ⟨fun h => absurd h Nat.one_ne_zero, fun hlt => absurd hlt (Nat.not_lt.2 hle)⟩
    · next hlt => exact ⟨fun _ => Nat.lt_of_not_le hlt, fun _ => rfl⟩
  · have hle : b.getSerializedSize ≤ maxSize := by
      by_contra hlt
      exact hr (if_neg hlt)
    obtain ⟨g', c, hdeserialize, hjoined, hcontents, hzeros⟩ :=
      hg.deserialize_spec env hs hb ((hserialized hle).take hs hb) hfit
    obtain ⟨d', -, hfits'⟩ := hjoined.sharing.exists_fits List.mem_cons_self
    refine ⟨g', c, hdeserialize, ?_, ?_⟩
    · rw [hjoined.sharing.readable_eq List.mem_cons_self, hcontents, hs.readable_eq hb]
    · rw [hfits'.zeros_eq, hfits.zeros_eq, hzeros]
  · rw [hs.readable_eq hb, List.map_take]

theorem getElem?_readable (h : BufferHeap) (b : Buffer) (k : Nat) :
    (readable h b)[k]? = if k < b.getSize then some ((b.first.next k).peekU8 h) else none := by
  rw [readable, List.getElem?_map]
  split
  · next hlt => rw [List.getElem?_range hlt, Option.map_some]
  · next hge => rw [List.getElem?_eq_none (by rw [List.length_range]; omega), Option.map_none]

end Buffer

namespace BufferRun

open Buffer

/-- Buffers of a program are serialized, and deserialized in the same or another one. -/
theorem serializes_right_when (env : BufferEnv) {tr tr' : List (BufferRun × BufferOp)} {s t : BufferRun} {i : Nat} {b : Buffer}
    (hrun : Transition.Run (step env) Asked init tr s) (hfits : ∀ p ∈ tr, p.1.Fits env p.2)
    (hrun' : Transition.Run (step env) Asked init tr' t) (hfits' : ∀ p ∈ tr', p.1.Fits env p.2)
    (hb : s.bufs[i]? = some b) (out : List UInt8) (maxSize : Nat) (hout : maxSize ≤ out.length)
    (hfit : DeserializeFits env t.heap b) : SerializesRight env s.heap b t.heap out maxSize := by
  have hs := (hrun.kept init_right (fun s op hr hask hfit => Right.step hr hask hfit) hfits).2.sharing
  have ht := (hrun'.kept init_right (fun s op hr hask hfit => Right.step hr hask hfit) hfits').2.sharing
  exact ht.serializesRight env hs (List.mem_of_getElem? hb) hout hfit

theorem serializes_right_when_shared :
    SerializesRight zeroedEnv (sharedOps.foldl (step zeroedEnv) init).heap ⟨2, 2, 2, 5, 0, 6⟩
      (sharedOps.foldl (step zeroedEnv) init).heap (List.replicate 20 0) 20 :=
  have hrun := Transition.run_of_passes (step zeroedEnv) Asked init sharedOps (by decide +kernel)
  serializes_right_when zeroedEnv hrun (by decide +kernel) hrun (by decide +kernel) (i := 2) (by decide +kernel) _ _
    (by decide) (by decide +kernel)

/-- A zero area of almost 4 GiB, and a later buffer that moves the start of the ones to come. -/
def hugeOps : List BufferOp := [.construct (2 ^ 32 - 8), .construct 0, .addAtStart 0 10 [], .destroy 0]

/-- The end of the zero area wraps, and the first zero is read behind the storage. -/
theorem not_serializes_right :
    ¬∀ (env : BufferEnv) (tr : List (BufferRun × BufferOp)) (s : BufferRun) (i : Nat) (b : Buffer) (out : List UInt8)
      (maxSize : Nat), Transition.Run (step env) Asked init tr s → (∀ p ∈ tr, p.1.Fits env p.2) → s.bufs[i]? = some b →
      maxSize ≤ out.length → SerializesRight env s.heap b s.heap out maxSize := fun hall => by
  obtain ⟨r, out', hserialize, hr, -, hround⟩ := (hall zeroedEnv _ _ 0 ⟨0, 0, 0, 2 ^ 32 - 8, 0, 2 ^ 32 - 8⟩
    (List.replicate 12 0) 12 (Transition.run_of_passes (step zeroedEnv) Asked init hugeOps (by decide +kernel))
    (by decide +kernel) (by decide +kernel) (by decide)).written
  obtain ⟨g', c, hdeserialize, hread, -⟩ := hround fun hzero => absurd (hr.1 hzero) (by decide)
  have hfirst := congrArg (·[0]?) hread
  simp only [getElem?_readable] at hfirst
  have hfails : ∀ r ∈ Buffer.serialize (hugeOps.foldl (step zeroedEnv) init).heap ⟨0, 0, 0, 2 ^ 32 - 8, 0, 2 ^ 32 - 8⟩
      (List.replicate 12 0) 12, ∀ r' ∈ deserialize zeroedEnv (hugeOps.foldl (step zeroedEnv) init).heap (r.2.take 12) 16,
      (if 0 < r'.2.2.getSize then some ((r'.2.2.first.next 0).peekU8 r'.2.1) else none) ≠ some (some 0) := by
    decide +kernel
  refine hfails _ hserialize _ hdeserialize (hfirst.trans ?_)
  decide +kernel

end BufferRun

end Ns3Raft.Net
