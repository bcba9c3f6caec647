import Ns3Raft.Net.TcpRxStored

/-! # What the operations do to what is stored

An added packet stores what the window leaves of it and what is not there yet, and
extracting takes the first bytes. Both are read off at the positions of the stream.
-/

namespace Ns3Raft.Net.TcpRxBuffer

open Sequence Slices

variable {fits : Nat → List UInt8 → Prop} {p : List UInt8} {b : TcpRxBuffer Nat} {k n off len o : Nat}

/-- The buffer holds packets from `k` on. -/
structure Stores (fits : Nat → List UInt8 → Prop) (k : Nat) (b : TcpRxBuffer Nat) : Prop where
  spread : Spread fits k b.data
  next : b.nextRxSeq = contiguous k b.data
  avail : b.availBytes = b.nextRxSeq - k
  size : b.size = total b.data
  noFin : b.gotFin = false

theorem Stores.le_next (hs : Stores fits k b) : k ≤ b.nextRxSeq := by
  rw [hs.next]
  exact le_contiguous _ _

/-- Where the window ends for a buffer that has a first packet. -/
def windowEnd (b : TcpRxBuffer Nat) : Option Nat := b.data.head?.map fun e => e.1 + b.maxBuffer

theorem trimToWindow_nat : b.trimToWindow off len =
    match b.windowEnd with
    | none => (max off b.nextRxSeq, off + len)
    | some w => (if min w (off + len) < max off b.nextRxSeq then min w (off + len) else max off b.nextRxSeq,
        min w (off + len)) := by
  have hmax : (if off < b.nextRxSeq then b.nextRxSeq else off) = max off b.nextRxSeq := by
    split <;> omega
  cases hdata : b.data with
  | nil => simp only [trimToWindow, windowEnd, hdata, List.head?_nil, Option.map_none, lt_nat, add_nat, decide_eq_true_eq, hmax]
  | cons e rest =>
      have hmin : (if e.1 + b.maxBuffer < off + len then e.1 + b.maxBuffer else off + len) =
          min (e.1 + b.maxBuffer) (off + len) := by
        split <;> omega
      simp only [trimToWindow, windowEnd, hdata, List.head?_cons, Option.map_some, lt_nat, add_nat, decide_eq_true_eq,
        hmax, hmin]

/-- What is left of the packet, when something is, starts behind what is in order. -/
theorem trimToWindow_spec (off len : Nat) (hlt : (b.trimToWindow off len).1 < (b.trimToWindow off len).2) :
    (b.trimToWindow off len).1 = max off b.nextRxSeq ∧ (b.trimToWindow off len).2 ≤ off + len ∧
      ∀ w ∈ b.windowEnd, (b.trimToWindow off len).2 ≤ w := by
  rw [trimToWindow_nat] at *
  cases hw : b.windowEnd with
  | none => simp
  | some w =>
      simp only [hw] at hlt ⊢
      split at hlt
      · omega
      · next hge =>
          rw [if_neg hge]
          refine ⟨rfl, Nat.min_le_right _ _, fun w' hw' => ?_⟩
          obtain rfl := Option.some.inj hw'
          exact Nat.min_le_left _ _

/-- The packets after `Add`, when it stores what the loop has left. -/
def storedData (p : List UInt8) (off : Nat) (r : Trimmed Nat) : List (Nat × List UInt8) :=
  insertData r.headSeq (slice p (r.headSeq - off) (r.tailSeq - r.headSeq)) r.data

/-- The blocks after `Add`, when it stores what the loop has left and the next byte is `next`. -/
def storedBlocks (b : TcpRxBuffer Nat) (r : Trimmed Nat) (next : Nat) : List (Nat × Nat) :=
  let blocks := if b.nextRxSeq < r.headSeq then pushBlock b.sackList (r.headSeq, r.tailSeq) else b.sackList
  if b.nextRxSeq < next then blocks.filter fun block => next < block.2 else blocks

theorem Stores.overlapped (hs : Stores fits k b) (off len : Nat) :
    Overlapped b.data (b.trimToWindow off len).1 (b.trimToWindow off len).2 (b.trimmed off len) :=
  removeOverlap_spec hs.spread

/-- What is stored starts at or behind the next byte, and lies in the packet. -/
theorem Stores.trimmed_bounds (hs : Stores fits k b) (hlt : (b.trimmed off len).headSeq < (b.trimmed off len).tailSeq) :
    max off b.nextRxSeq ≤ (b.trimmed off len).headSeq ∧ (b.trimmed off len).tailSeq ≤ off + len := by
  have hr := hs.overlapped off len
  have hhead := hr.head_le
  have htail := hr.le_tail
  obtain ⟨hw₁, hw₂, -⟩ := trimToWindow_spec off len (show (b.trimToWindow off len).1 < _ by omega)
  omega

/-- Nothing is stored: all of it is there already. -/
theorem Stores.addPacket_nothing (hs : Stores fits k b)
    (hle : (b.trimmed off p.length).tailSeq ≤ (b.trimmed off p.length).headSeq) :
    b.addPacket p off = some (false, b) := by
  obtain ⟨hsame, -⟩ := (hs.overlapped off p.length).nothing hle
  have hsize : (b.trimmed off p.length).size + total b.data = b.size + total (b.trimmed off p.length).data :=
    removeOverlap_size (Nat.le_of_eq hs.size.symm)
  have hsize' : (b.trimmed off p.length).size = b.size := by
    rw [hsame] at hsize
    omega
  simp only [addPacket, ge_nat, decide_eq_true_eq, if_pos hle, hsame, hsize']

theorem Stores.length_fragment (hs : Stores fits k b)
    (hlt : (b.trimmed off p.length).headSeq < (b.trimmed off p.length).tailSeq) :
    (slice p ((b.trimmed off p.length).headSeq - off)
      ((b.trimmed off p.length).tailSeq - (b.trimmed off p.length).headSeq)).length =
      (b.trimmed off p.length).tailSeq - (b.trimmed off p.length).headSeq := by
  obtain ⟨hhead, htail⟩ := hs.trimmed_bounds hlt
  exact length_slice (by omega)

theorem Stores.inserted (hs : Stores fits k b) (hc : Content fits) (hp : fits off p)
    (hlt : (b.trimmed off p.length).headSeq < (b.trimmed off p.length).tailSeq) :
    Inserted fits k (b.trimmed off p.length).headSeq
      (slice p ((b.trimmed off p.length).headSeq - off)
        ((b.trimmed off p.length).tailSeq - (b.trimmed off p.length).headSeq))
      (b.trimmed off p.length).data (storedData p off (b.trimmed off p.length)) := by
  have hr := hs.overlapped off p.length
  obtain ⟨hhead, htail⟩ := hs.trimmed_bounds hlt
  have hnext := hs.le_next
  have hlen := hs.length_fragment hlt
  have hfits := hc.slice ((b.trimmed off p.length).headSeq - off)
    ((b.trimmed off p.length).tailSeq - (b.trimmed off p.length).headSeq) hp (by omega)
  rw [show off + ((b.trimmed off p.length).headSeq - off) = (b.trimmed off p.length).headSeq by omega] at hfits
  refine (hs.spread.sublist hr.sublist).insert (by omega) (List.ne_nil_of_length_pos (by omega)) hfits fun e he => ?_
  have hapart := hr.apart hlt e he
  omega

theorem Stores.reaches (hs : Stores fits k b)
    (hlt : (b.trimmed off p.length).headSeq < (b.trimmed off p.length).tailSeq) :
    Reaches k b.nextRxSeq (storedData p off (b.trimmed off p.length)) := by
  have hr := hs.overlapped off p.length
  have hhead := hr.head_le
  have htail := hr.le_tail
  obtain ⟨hw₁, -, -⟩ := trimToWindow_spec off p.length (show (b.trimToWindow off p.length).1 < _ by omega)
  have hnext := hs.next
  rw [hs.next]
  exact Reaches.insert (Reaches.removeOverlap reaches_contiguous (by omega)) (hs.spread.sublist hr.sublist) (by omega)

/-- The new buffer, when something is stored. -/
theorem Stores.addPacket_stored (hs : Stores fits k b) (hc : Content fits) (hp : fits off p)
    (hlt : (b.trimmed off p.length).headSeq < (b.trimmed off p.length).tailSeq) :
    b.addPacket p off =
      let r := b.trimmed off p.length
      let next := contiguous k (storedData p off r)
      some (true,
        { b with
          data := storedData p off r
          size := r.size + (r.tailSeq - r.headSeq)
          nextRxSeq := next
          availBytes := b.availBytes + (next - b.nextRxSeq)
          sackList := b.storedBlocks r next }) := by
  obtain ⟨hhead, htail⟩ := hs.trimmed_bounds hlt
  have hspread := (hs.inserted hc hp hlt).spread
  have hreaches := hs.reaches hlt
  have hlen := hs.length_fragment hlt
  generalize hr : b.trimmed off p.length = r at *
  have hfragment : createFragment p (r.headSeq - off) (r.tailSeq - r.headSeq) =
      some (slice p (r.headSeq - off) (r.tailSeq - r.headSeq)) := createFragment_eq (by omega)
  simp only [addPacket, hr, ge_nat, sub_nat, decide_eq_true_eq, if_neg (Nat.not_le.mpr hlt), hfragment, Option.map_some,
    store_eq hs.noFin, hlen, gt_nat]
  rw [storedData] at hspread hreaches
  refine congrArg (fun b => some (true, b)) ((advance_spec hspread hreaches ?_).trans ?_)
  · rfl
  · rfl

/-- What `Add` does at the positions. -/
structure Added (fits : Nat → List UInt8 → Prop) (k off len : Nat) (b b' : TcpRxBuffer Nat) : Prop where
  stores : Stores fits k b'
  holds : ∀ o, Holds b'.data o ↔ Holds b.data o ∨ ((b.trimToWindow off len).1 ≤ o ∧ o < (b.trimToWindow off len).2)
  maxBuffer : b'.maxBuffer = b.maxBuffer
  next_le : b.nextRxSeq ≤ b'.nextRxSeq
  blocks : b' = b ∨
    (b.trimmed off len).headSeq < (b.trimmed off len).tailSeq ∧
      b'.sackList = b.storedBlocks (b.trimmed off len) b'.nextRxSeq

theorem Stores.addPacket (hs : Stores fits k b) (hc : Content fits) (hp : fits off p) :
    ∃ stored b', b.addPacket p off = some (stored, b') ∧ Added fits k off p.length b b' := by
  have hr := hs.overlapped off p.length
  by_cases hle : (b.trimmed off p.length).tailSeq ≤ (b.trimmed off p.length).headSeq
  · refine ⟨false, b, hs.addPacket_nothing hle, hs, fun o => ⟨Or.inl, ?_⟩, rfl, Nat.le_refl _, Or.inl rfl⟩
    rintro (ho | ⟨ho, ho'⟩)
    · exact ho
    · exact (hr.nothing hle).2 o ho ho'
  · have hlt := Nat.not_le.mp hle
    have hins := hs.inserted hc hp hlt
    have hbounds := hs.trimmed_bounds hlt
    have hsize : (b.trimmed off p.length).size + total b.data = b.size + total (b.trimmed off p.length).data :=
      removeOverlap_size (Nat.le_of_eq hs.size.symm)
    have hlen := hs.length_fragment hlt
    have htotal := hins.total
    have hle' := (hs.reaches hlt).le_contiguous
    refine ⟨true, _, hs.addPacket_stored hc hp hlt, ⟨hins.spread, rfl, ?_, ?_, hs.noFin⟩, fun o => ?_, rfl,
      hle', Or.inr ⟨hlt, rfl⟩⟩
    · have hk := hs.le_next
      have := hs.avail
      dsimp only
      omega
    · have := hs.size
      dsimp only
      omega
    · dsimp only
      rw [hins.holds, ← hr.covers hlt, hlen]
      have hsum : (b.trimmed off p.length).headSeq + ((b.trimmed off p.length).tailSeq -
          (b.trimmed off p.length).headSeq) = (b.trimmed off p.length).tailSeq := by omega
      rw [hsum]

/-- What `Extract` does at the positions. -/
structure Extracted (fits : Nat → List UInt8 → Prop) (k n : Nat) (b b' : TcpRxBuffer Nat) : Prop where
  stores : Stores fits (k + n) b'
  holds : ∀ o, Holds b'.data o ↔ Holds b.data o ∧ k + n ≤ o
  next : b'.nextRxSeq = b.nextRxSeq
  maxBuffer : b'.maxBuffer = b.maxBuffer
  sackList : b'.sackList = b.sackList

theorem Stores.extract (hs : Stores fits k b) (hc : Content fits) (maxSize : Nat) :
    ∃ bytes b', b.extract maxSize = some (bytes, b') ∧ bytes.length = min maxSize b.availBytes ∧ fits k bytes ∧
      Extracted fits k (min maxSize b.availBytes) b b' := by
  have havail := hs.avail
  have hnext := hs.next
  have hle := hs.le_next
  obtain ⟨bytes, data', hloop, hlen, hfits, hspread, hcont, hholds, htotal⟩ :=
    extractLoop_spec (n := min maxSize b.availBytes) hc hs.spread (by omega) []
  have hsize := hs.size
  let b' : TcpRxBuffer Nat :=
    { b with
      data := data'
      size := b.size - min maxSize b.availBytes
      availBytes := b.availBytes - min maxSize b.availBytes }
  refine ⟨bytes, b', by rw [TcpRxBuffer.extract, hloop]; rfl, hlen, hfits,
    ⟨hspread, hnext.trans hcont.symm, ?_, ?_, hs.noFin⟩, hholds, rfl, rfl, rfl⟩
  · dsimp only [b']
    omega
  · dsimp only [b']
    omega

end Ns3Raft.Net.TcpRxBuffer
