import Ns3Raft.Lib.Memory
import Ns3Raft.Store.FsLogStore

/-! # A buffer as it lies in memory

`cornerstone::buffer` is a pointer to a block: a header with the size and the cursor, then
the bytes. A block below `0x8000` bytes has a header of two `ushort`s, a larger one of two
`uint`s with bit 31 of the first set. The memory is addressed from the start of the block
and goes on behind its end, as the accesses of the code do. A call gives what it returns
or throws, and the memory it leaves.
-/

namespace Ns3Raft.Service

open Memory Store

/-- Memory from the address of a block on. -/
abbrev Block := Nat → UInt8

namespace Block

/-! ## The block macros -/

def ushortAt (p : Block) (i : Nat) : Nat := getBytes (read p (2 * i) 2)

def uintAt (p : Block) (i : Nat) : Nat := getBytes (read p (4 * i) 4)

/-- The assignment keeps the low 16 bits. -/
def setUshort (p : Block) (i v : Nat) : Block := write p (2 * i) (putBytes 2 v)

/-- The assignment keeps the low 32 bits. -/
def setUint (p : Block) (i v : Nat) : Block := write p (4 * i) (putBytes 4 v)

def isBigBlock (p : Block) : Bool := decide (0x80000000 &&& p.uintAt 0 ≠ 0)

def initSBlock (p : Block) (s : Nat) : Block := (p.setUshort 0 s).setUshort 1 0

def initBBlock (p : Block) (s : Nat) : Block :=
  let p := (p.setUint 0 s).setUint 1 0
  p.setUint 0 (p.uintAt 0 ||| 0x80000000)

def posOfSBlock (p : Block) : Nat := p.ushortAt 1

def posOfBBlock (p : Block) : Nat := p.uintAt 1

/-- `size ()`. -/
def size (p : Block) : Nat := if p.isBigBlock then p.uintAt 0 ^^^ 0x80000000 else p.ushortAt 0

/-- `pos ()`. -/
def pos (p : Block) : Nat := if p.isBigBlock then p.posOfBBlock else p.posOfSBlock

def mvFwBlock (p : Block) (d : Nat) : Block :=
  if p.isBigBlock then p.setUint 1 (p.uintAt 1 + d) else p.setUshort 1 (p.ushortAt 1 + d)

def setBlockPos (p : Block) (pos : Nat) : Block :=
  if p.isBigBlock then p.setUint 1 pos else p.setUshort 1 pos

/-- The address that `data ()` gives. -/
def data (p : Block) : Nat := if p.isBigBlock then 8 + p.posOfBBlock else 4 + p.posOfSBlock

/-! ## The members of the class -/

/-- What a call returns or throws, and the block it leaves. -/
abbrev Called (α : Type) := Except String α × Block

/-- `heap` is what `new char[]` holds. -/
def alloc (heap : Block) (size : Nat) : Except String Block :=
  if 0x80000000 ≤ size then
    .error "size exceed the max size that cornrestone::buffer could support"
  else if 0x8000 ≤ size then .ok (initBBlock heap size)
  else .ok (initSBlock heap size)

/-- `size () - pos ()`, a `size_t`. -/
def avail (p : Block) : Nat := (p.size + (2 ^ 64 - p.pos)) % 2 ^ 64

def szInt : Nat := 4

def szByte : Nat := 1

def getInt (p : Block) : Called Int32 :=
  if p.avail < szInt then (.error "insufficient buffer available for an int32 value", p)
  else (.ok (Int32.ofNat (getBytes (read p p.data szInt))), p.mvFwBlock szInt)

def getUlong (p : Block) : Called UInt64 :=
  if p.avail < szUlong then (.error "insufficient buffer available for an ulong value", p)
  else (.ok (UInt64.ofNat (getBytes (read p p.data szUlong))), p.mvFwBlock szUlong)

def getByte (p : Block) : Called UInt8 :=
  if p.avail < szByte then (.error "insufficient buffer available for a byte", p)
  else (.ok (p p.data), p.mvFwBlock szByte)

def setPos (p : Block) (q : Nat) : Block :=
  let position := if q > p.size then p.size else q
  p.setBlockPos position

/-- `none` is the null pointer. The loop over `i` ends at the first zero byte or at the end. -/
def getStr (p : Block) : Option (List UInt8) × Block :=
  let q := p.pos
  let s := p.size
  let d := p.data
  let str := (read p d (s - q)).takeWhile (· ≠ 0)
  let i := str.length
  if q + i ≥ s ∨ i = 0 then (none, p) else (some str, p.mvFwBlock (i + 1))

/-- The part that every `put` shares. -/
def store (p : Block) (text : String) (bytes : List UInt8) : Called Unit :=
  if p.avail < bytes.length then (.error text, p)
  else (.ok (), mvFwBlock (write p p.data bytes) bytes.length)

def putByte (p : Block) (b : UInt8) : Called Unit :=
  p.store "insufficient buffer to store byte" [b]

def putInt (p : Block) (val : Int32) : Called Unit :=
  p.store "insufficient buffer to store int32" (putBytes szInt val.toUInt32.toNat)

def putUlong (p : Block) (val : UInt64) : Called Unit :=
  p.store "insufficient buffer to store int32" (putBytes szUlong val.toNat)

def putStr (p : Block) (str : List UInt8) : Called Unit :=
  p.store "insufficient buffer to store a string" (str ++ [0])

def putBuffer (p buf : Block) : Called Unit :=
  p.store "insufficient buffer to hold the other buffer" (read buf buf.data buf.avail)

/-- `get (bufptr&)`: the destination it fills and the block it leaves. It alone does not
ask whether there is enough to read. -/
def getInto (p dst : Block) : Block × Block :=
  let sz := dst.avail
  (write dst dst.data (read p p.data sz), p.mvFwBlock sz)

end Block

end Ns3Raft.Service
