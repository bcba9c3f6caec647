import Mathlib.Data.UInt
import Ns3Raft.Lib.BlockPool
import Ns3Raft.Lib.Run
import Ns3Raft.Lib.Slices

/-! # Buffers

`Buffer` keeps its bytes in a `BufferData` that other buffers may share, with a
virtual area of zeros for which there is no memory. Bytes are added in place where
the dirty area of the data leaves room, and else in a copy.
-/

namespace Ns3Raft.Net

open Slices BlockPool

/-- Sums and differences of `uint32_t`. -/
def add32 (x y : Nat) : Nat := (x + y) % 2 ^ 32

def sub32 (x y : Nat) : Nat := (2 ^ 32 + x - y) % 2 ^ 32

/-- `m_size` is the length of the bytes, and `m_count` that of the block. -/
structure BufferData where
  dirtyStart : Nat
  dirtyEnd : Nat
  bytes : List UInt8
  deriving DecidableEq, Repr

/-- `m_end` is `stop`. -/
structure Buffer where
  data : Nat
  maxZeroAreaStart : Nat
  zeroAreaStart : Nat
  zeroAreaEnd : Nat
  start : Nat
  stop : Nat
  deriving DecidableEq, Repr

/-- All data, the free list, `g_maxSize` and `g_recommendedStart`. -/
structure BufferHeap where
  pool : Pool BufferData
  maxSize : Nat
  recommendedStart : Nat
  deriving DecidableEq, Repr

/-- What new memory holds, and whether `NS_ASSERT` is compiled. -/
structure BufferEnv where
  memory : Nat → Nat → UInt8
  asserts : Bool

namespace BufferHeap

def size (h : BufferHeap) (a : Nat) : Nat := ((h.pool.val? a).map (·.bytes.length)).getD 0

def dirtyStart (h : BufferHeap) (a : Nat) : Nat := ((h.pool.val? a).map (·.dirtyStart)).getD 0

def dirtyEnd (h : BufferHeap) (a : Nat) : Nat := ((h.pool.val? a).map (·.dirtyEnd)).getD 0

def setDirtyStart (h : BufferHeap) (a start : Nat) : BufferHeap :=
  { h with pool := h.pool.update a fun d => { d with dirtyStart := start } }

def setDirtyEnd (h : BufferHeap) (a stop : Nat) : BufferHeap :=
  { h with pool := h.pool.update a fun d => { d with dirtyEnd := stop } }

/-- `memcpy` from the bytes of a block; `none` behind their end. -/
def load (h : BufferHeap) (a off len : Nat) : Option (List UInt8) :=
  if len = 0 then some []
  else (h.pool.val? a).bind fun d =>
    if off + len ≤ d.bytes.length then some (slice d.bytes off len) else none

/-- `memcpy` to the bytes of a block. -/
def save (h : BufferHeap) (a off : Nat) (bytes : List UInt8) : Option BufferHeap :=
  if bytes = [] then some h
  else if off + bytes.length ≤ h.size a then
    some { h with pool := h.pool.update a fun d => { d with bytes := overwrite d.bytes off bytes } }
  else none

def recycle (h : BufferHeap) (a : Nat) : BufferHeap :=
  let maxSize := max h.maxSize (h.size a)
  if h.size a < maxSize ∨ 1000 < h.pool.free.length then
    { h with pool := h.pool.discard a, maxSize := maxSize }
  else { h with pool := h.pool.shelve a, maxSize := maxSize }

/-- One buffer less refers to the data. -/
def unref (h : BufferHeap) (a : Nat) : BufferHeap :=
  let h := { h with pool := h.pool.release a }
  if h.pool.cnt a = 0 then h.recycle a else h

/-- `sizeof (struct Buffer::Data)`. -/
def sizeofData : Nat := 20

/-- Where the size of the block wraps, the block is smaller than what is asked for. -/
def allocate (env : BufferEnv) (h : BufferHeap) (reqSize : Nat) : Option (Nat × BufferHeap) :=
  let reqSize := if reqSize = 0 then 1 else reqSize
  if reqSize - 1 + sizeofData < 2 ^ 32 then
    let a := h.pool.blocks.length
    some (a, { h with pool := h.pool.alloc ⟨0, 0, (List.range reqSize).map (env.memory a)⟩ })
  else none

def create (env : BufferEnv) (h : BufferHeap) (dataSize : Nat) : Option (Nat × BufferHeap) :=
  match h.pool.reuse fun d => dataSize ≤ d.bytes.length with
  | (some a, pool) => some (a, { h with pool := pool })
  | (none, pool) => allocate env { h with pool := pool } dataSize

end BufferHeap

namespace Buffer

open BufferHeap

def getSize (b : Buffer) : Nat := sub32 b.stop b.start

def getInternalSize (b : Buffer) : Nat :=
  sub32 (add32 (sub32 b.zeroAreaStart b.start) b.stop) b.zeroAreaEnd

def getInternalEnd (b : Buffer) : Nat := sub32 b.stop (sub32 b.zeroAreaEnd b.zeroAreaStart)

def CheckInternalState (h : BufferHeap) (b : Buffer) : Prop :=
  0 < h.pool.cnt b.data ∧ (b.start ≤ b.zeroAreaStart ∧ b.zeroAreaStart ≤ b.zeroAreaEnd ∧ b.zeroAreaEnd ≤ b.stop) ∧
    (h.dirtyStart b.data ≤ b.start ∧ b.stop ≤ h.dirtyEnd b.data) ∧
    b.getInternalEnd ≤ h.size b.data ∧ b.start ≤ h.size b.data ∧ b.zeroAreaStart ≤ h.size b.data

instance (h : BufferHeap) (b : Buffer) : Decidable (b.CheckInternalState h) := inferInstanceAs (Decidable (_ ∧ _))

/-- `Initialize`, for every constructor. -/
def construct (env : BufferEnv) (h : BufferHeap) (zeroSize : Nat) : Option (BufferHeap × Buffer) :=
  (h.create env 0).map fun r =>
    let start := min (r.2.size r.1) r.2.recommendedStart
    let stop := add32 start zeroSize
    ((r.2.setDirtyStart r.1 start).setDirtyEnd r.1 stop, ⟨r.1, start, start, stop, start, stop⟩)

def copy (h : BufferHeap) (o : Buffer) : BufferHeap × Buffer :=
  ({ h with pool := h.pool.retain o.data }, { o with maxZeroAreaStart := o.zeroAreaStart })

def assign (h : BufferHeap) (b o : Buffer) : BufferHeap × Buffer :=
  let h :=
    if b.data = o.data then h
    else
      let h := h.unref b.data
      { h with pool := h.pool.retain o.data }
  ({ h with recommendedStart := max h.recommendedStart b.maxZeroAreaStart }, o)

def destroy (h : BufferHeap) (b : Buffer) : BufferHeap :=
  unref { h with recommendedStart := max h.recommendedStart b.maxZeroAreaStart } b.data

def raiseMax (b : Buffer) : Buffer :=
  { b with maxZeroAreaStart := max b.maxZeroAreaStart b.zeroAreaStart }

/-- Enough space in front, and not dirty. -/
def RoomAtStart (h : BufferHeap) (b : Buffer) (n : Nat) : Prop :=
  n ≤ b.start ∧ ¬(1 < h.pool.cnt b.data ∧ h.dirtyStart b.data < b.start)

instance (h : BufferHeap) (b : Buffer) (n : Nat) : Decidable (RoomAtStart h b n) :=
  inferInstanceAs (Decidable (_ ∧ _))

def addAtStart (env : BufferEnv) (h : BufferHeap) (b : Buffer) (n : Nat) : Option (BufferHeap × Buffer) :=
  if RoomAtStart h b n then
    let start := sub32 b.start n
    some (h.setDirtyStart b.data start, raiseMax { b with start := start })
  else do
    let (a, h) ← h.create env (add32 b.getInternalSize n)
    let bytes ← h.load b.data b.start b.getInternalSize
    let h ← h.save a n bytes
    let h := h.unref b.data
    let delta := sub32 n b.start
    let start := sub32 (add32 b.start delta) n
    let stop := add32 b.stop delta
    some ((h.setDirtyStart a start).setDirtyEnd a stop, raiseMax
      { b with
        data := a
        zeroAreaStart := add32 b.zeroAreaStart delta
        zeroAreaEnd := add32 b.zeroAreaEnd delta
        start := start
        stop := stop })

/-- Enough space behind, and not dirty. -/
def RoomAtEnd (h : BufferHeap) (b : Buffer) (n : Nat) : Prop :=
  add32 b.getInternalEnd n ≤ h.size b.data ∧ ¬(1 < h.pool.cnt b.data ∧ b.stop < h.dirtyEnd b.data)

instance (h : BufferHeap) (b : Buffer) (n : Nat) : Decidable (RoomAtEnd h b n) :=
  inferInstanceAs (Decidable (_ ∧ _))

def addAtEnd (env : BufferEnv) (h : BufferHeap) (b : Buffer) (n : Nat) : Option (BufferHeap × Buffer) :=
  if RoomAtEnd h b n then
    let stop := add32 b.stop n
    some (h.setDirtyEnd b.data stop, raiseMax { b with stop := stop })
  else do
    let (a, h) ← h.create env (add32 b.getInternalSize n)
    let bytes ← h.load b.data b.start b.getInternalSize
    let h ← h.save a 0 bytes
    let h := h.unref b.data
    let delta := sub32 0 b.start
    let start := add32 b.start delta
    let stop := add32 (add32 b.stop delta) n
    some ((h.setDirtyStart a start).setDirtyEnd a stop, raiseMax
      { b with
        data := a
        zeroAreaStart := add32 b.zeroAreaStart delta
        zeroAreaEnd := add32 b.zeroAreaEnd delta
        start := start
        stop := stop })

def removeAtStart (b : Buffer) (n : Nat) : Buffer :=
  let newStart := add32 b.start n
  raiseMax <|
    if newStart ≤ b.zeroAreaStart then { b with start := newStart }
    else if newStart ≤ b.zeroAreaEnd then
      let delta := sub32 newStart b.zeroAreaStart
      { b with
        start := b.zeroAreaStart
        zeroAreaEnd := sub32 b.zeroAreaEnd delta
        stop := sub32 b.stop delta }
    else if newStart ≤ b.stop then
      let zeroSize := sub32 b.zeroAreaEnd b.zeroAreaStart
      let start := sub32 newStart zeroSize
      { b with start := start, stop := sub32 b.stop zeroSize, zeroAreaStart := start, zeroAreaEnd := start }
    else
      let stop := sub32 b.stop (sub32 b.zeroAreaEnd b.zeroAreaStart)
      { b with stop := stop, start := stop, zeroAreaEnd := stop, zeroAreaStart := stop }

def removeAtEnd (b : Buffer) (n : Nat) : Buffer :=
  let newEnd := sub32 b.stop (min n (sub32 b.stop b.start))
  raiseMax <|
    if b.zeroAreaEnd < newEnd then { b with stop := newEnd }
    else if b.zeroAreaStart < newEnd then { b with stop := newEnd, zeroAreaEnd := newEnd }
    else if b.start < newEnd then
      { b with stop := newEnd, zeroAreaEnd := newEnd, zeroAreaStart := newEnd }
    else { b with stop := b.start, zeroAreaEnd := b.start, zeroAreaStart := b.start }

def createFragment (h : BufferHeap) (b : Buffer) (start length : Nat) : BufferHeap × Buffer :=
  let r := copy h b
  (r.1, (r.2.removeAtStart start).removeAtEnd (sub32 b.getSize (add32 start length)))

/-! ## Iterators -/

structure Iterator where
  zeroStart : Nat
  zeroEnd : Nat
  dataStart : Nat
  dataEnd : Nat
  current : Nat
  data : Nat
  deriving DecidableEq, Repr

/-- `Begin ()`. -/
def first (b : Buffer) : Iterator := ⟨b.zeroAreaStart, b.zeroAreaEnd, b.start, b.stop, b.start, b.data⟩

/-- `End ()`. -/
def last (b : Buffer) : Iterator := ⟨b.zeroAreaStart, b.zeroAreaEnd, b.start, b.stop, b.stop, b.data⟩

namespace Iterator

def next (it : Iterator) (n : Nat) : Iterator := { it with current := add32 it.current n }

def prev (it : Iterator) (n : Nat) : Iterator := { it with current := sub32 it.current n }

/-- The address behind the zero area. -/
def behind (it : Iterator) : Nat := sub32 it.current (sub32 it.zeroEnd it.zeroStart)

def writeU8 (h : BufferHeap) (it : Iterator) (x : UInt8) : Option (BufferHeap × Iterator) := do
  let h ← h.save it.data (if it.current < it.zeroStart then it.current else it.behind) [x]
  some (h, it.next 1)

/-- `WriteU8 (data, len)`. -/
def writeU8s (h : BufferHeap) (it : Iterator) (x : UInt8) (len : Nat) : Option (BufferHeap × Iterator) := do
  let h ← h.save it.data (if it.current ≤ it.zeroStart then it.current else it.behind) (List.replicate len x)
  some (h, it.next len)

/-- `Write (buffer, size)`. -/
def write (h : BufferHeap) (it : Iterator) (bytes : List UInt8) : Option (BufferHeap × Iterator) := do
  let h ← h.save it.data (if it.current ≤ it.zeroStart then it.current else it.behind) bytes
  some (h, it.next bytes.length)

/-- What `WriteHtonU16` and `WriteHtonU32` do with their bytes. -/
def writeHton (h : BufferHeap) (it : Iterator) (bytes : List UInt8) : Option (BufferHeap × Iterator) := do
  let off := if add32 it.current bytes.length ≤ it.zeroStart then it.current else it.behind
  let h ← h.save it.data off bytes
  some (h, it.next bytes.length)

def writeHtonU16 (h : BufferHeap) (it : Iterator) (x : UInt16) : Option (BufferHeap × Iterator) :=
  writeHton h it [(x >>> 8).toUInt8, x.toUInt8]

def writeHtonU32 (h : BufferHeap) (it : Iterator) (x : UInt32) : Option (BufferHeap × Iterator) :=
  writeHton h it [(x >>> 24).toUInt8, (x >>> 16).toUInt8, (x >>> 8).toUInt8, x.toUInt8]

/-- `Write (start, end)` in its three parts: in front of the zero area of the source, in it and behind it. -/
def writeRange (env : BufferEnv) (h : BufferHeap) (it start stop : Iterator) :
    Option (BufferHeap × Iterator) :=
  if env.asserts ∧ it.data = start.data then none
  else do
    let size := sub32 stop.current start.current
    let inFront := if start.current ≤ start.zeroStart then min size (sub32 start.zeroStart start.current) else 0
    let bytes ← h.load start.data start.current inFront
    let h ← h.save it.data it.current bytes
    let (it, start, size) := (it.next inFront, start.next inFront, size - inFront)
    let inZero := if start.current ≤ start.zeroEnd then min size (sub32 start.zeroEnd start.current) else 0
    let h ← h.save it.data it.current (List.replicate inZero 0)
    let (it, start, size) := (it.next inZero, start.next inZero, size - inZero)
    let toCopy := min size (sub32 start.dataEnd start.current)
    let bytes ← h.load start.data start.behind toCopy
    let h ← h.save it.data it.current bytes
    some (h, it.next toCopy)

def peekU8 (h : BufferHeap) (it : Iterator) : Option UInt8 :=
  (h.pool.val? it.data).bind fun d =>
    if it.current < it.zeroStart then d.bytes[it.current]?
    else if it.current < it.zeroEnd then some 0
    else d.bytes[it.behind]?

end Iterator

/-- All that an iterator reads from `Begin ()` to `End ()`. -/
def readable (h : BufferHeap) (b : Buffer) : List (Option UInt8) :=
  (List.range b.getSize).map fun k => (b.first.next k).peekU8 h

/-! ## Buffers behind buffers -/

def createFullCopy (env : BufferEnv) (h : BufferHeap) (b : Buffer) : Option (BufferHeap × Buffer) :=
  let zeroSize := sub32 b.zeroAreaEnd b.zeroAreaStart
  if zeroSize = 0 then some (copy h b)
  else do
    let (h, tmp) ← construct env h 0
    let (h, tmp) ← addAtStart env h tmp zeroSize
    let (h, _) ← tmp.first.writeU8s h 0 zeroSize
    let dataStart := sub32 b.zeroAreaStart b.start
    let (h, tmp) ← addAtStart env h tmp dataStart
    let bytes ← h.load b.data b.start dataStart
    let (h, _) ← tmp.first.write h bytes
    let dataEnd := sub32 b.stop b.zeroAreaEnd
    let (h, tmp) ← addAtEnd env h tmp dataEnd
    let bytes ← h.load b.data b.zeroAreaStart dataEnd
    let (h, _) ← (tmp.last.prev dataEnd).write h bytes
    some (h, tmp)

/-- The zero area at the end of one buffer and that at the start of the other are adjacent. -/
def ZerosMeet (h : BufferHeap) (b o : Buffer) : Prop :=
  h.pool.cnt b.data = 1 ∧ b.stop = b.zeroAreaEnd ∧ b.stop = h.dirtyEnd b.data ∧
    o.start = o.zeroAreaStart ∧ 0 < sub32 o.zeroAreaEnd o.zeroAreaStart

instance (h : BufferHeap) (b o : Buffer) : Decidable (ZerosMeet h b o) :=
  inferInstanceAs (Decidable (_ ∧ _))

/-- The optimization for adjacent zero areas. -/
def mergeAtEnd (env : BufferEnv) (h : BufferHeap) (b o : Buffer) : Option (BufferHeap × Buffer) := do
  let zeroAreaEnd := add32 b.zeroAreaEnd (sub32 o.zeroAreaEnd o.zeroAreaStart)
  let h := h.setDirtyEnd b.data zeroAreaEnd
  let endData := sub32 o.stop o.zeroAreaEnd
  let (h, b) ← addAtEnd env h { b with zeroAreaEnd := zeroAreaEnd, stop := zeroAreaEnd } endData
  let (h, _) ← (b.last.prev endData).writeRange env h (o.last.prev endData) o.last
  some (h, b)

/-- The bytes of `o` are copied behind a full copy. -/
def copyAtEnd (env : BufferEnv) (h : BufferHeap) (b o : Buffer) : Option (BufferHeap × Buffer) := do
  let (h, tmp) ← createFullCopy env h b
  let (h, b) := assign h b tmp
  let h := destroy h tmp
  let (h, b) ← addAtEnd env h b o.getSize
  let (h, _) ← (b.last.prev o.getSize).writeRange env h o.first o.last
  some (h, b)

/-- `AddAtEnd (const Buffer &o)`. -/
def append (env : BufferEnv) (h : BufferHeap) (b o : Buffer) : Option (BufferHeap × Buffer) :=
  if ZerosMeet h b o then mergeAtEnd env h b o else copyAtEnd env h b o

end Buffer

end Ns3Raft.Net
