import Ns3Raft.Lib.Windows

/-! # Nix-vectors

`NixVector` is a stack of fields of up to 32 bits, kept in words of 32 bits. Fields are added at
the end and extracted from there.
-/

namespace Ns3Raft.Net

/-- What stops the program, or leaves it without a meaning. -/
inductive NixFault where
  | addTooLong
  | extractTooLong
  | extractTooMany (numberOfBits remaining : BitVec 32)
  | extractNone
  | assertion
  /-- `at` outside of the vector, or a read past the buffer. -/
  | outOfRange
  /-- A shift by the width of the word or more. -/
  | undefinedShift
  deriving DecidableEq, Repr

structure NixVector where
  nixVector : List (BitVec 32)
  used : BitVec 32
  currentVectorBitSize : BitVec 32
  totalBitSize : BitVec 32
  deriving DecidableEq, Repr

namespace NixVector

def shl (x n : BitVec 32) : Except NixFault (BitVec 32) :=
  if n < 32#32 then .ok (x <<< n.toNat) else .error .undefinedShift

def shr (x n : BitVec 32) : Except NixFault (BitVec 32) :=
  if n < 32#32 then .ok (x >>> n.toNat) else .error .undefinedShift

def create : NixVector := ⟨[0#32], 0#32, 0#32, 0#32⟩

def getRemainingBits (nv : NixVector) : BitVec 32 := nv.totalBitSize - nv.used

/-- `m_nixVector.at`. -/
def word (nv : NixVector) (i : BitVec 32) : Except NixFault (BitVec 32) :=
  match nv.nixVector[i.toNat]? with
  | some w => .ok w
  | none => .error .outOfRange

/-- `m_nixVector.back`. The vector is never empty. -/
def back (nv : NixVector) : BitVec 32 := nv.nixVector.getLastD 0#32

/-- `m_nixVector.back () = w`. -/
def setBack (nv : NixVector) (w : BitVec 32) : List (BitVec 32) := nv.nixVector.dropLast ++ [w]

def addNeighborIndex (nv : NixVector) (newBits numberOfBits : BitVec 32) : Except NixFault NixVector := do
  if numberOfBits > 32#32 then throw .addTooLong
  let totalBitSize := nv.totalBitSize + numberOfBits
  -- the new bits may force a new entry
  if nv.currentVectorBitSize + numberOfBits > 32#32 then
    if nv.currentVectorBitSize = 32#32 then
      return { nv with nixVector := nv.nixVector ++ [newBits], currentVectorBitSize := numberOfBits, totalBitSize }
    else
      -- what fits goes to the entry there is, and the rest to the new one
      let tempBits ← shl newBits nv.currentVectorBitSize
      let newBits ← shr newBits (32#32 - nv.currentVectorBitSize)
      return { nv with
        nixVector := nv.setBack (tempBits ||| nv.back) ++ [newBits]
        currentVectorBitSize := numberOfBits - (32#32 - nv.currentVectorBitSize)
        totalBitSize }
  else
    let newBits ← shl newBits nv.currentVectorBitSize
    return { nv with
      nixVector := nv.setBack (newBits ||| nv.back)
      currentVectorBitSize := nv.currentVectorBitSize + numberOfBits
      totalBitSize }

/-- The field spans two entries. -/
def extractSpanning (nv : NixVector) (vectorIndex totalRemainingBits numberOfBits : BitVec 32) :
    Except NixFault (BitVec 32) := do
  let high ← shl (← nv.word vectorIndex) (32#32 - totalRemainingBits % 32#32)
  let high ← shr high ((32#32 - totalRemainingBits % 32#32) - (numberOfBits - totalRemainingBits % 32#32))
  let low ← shr (← nv.word (vectorIndex - 1#32)) (32#32 - (numberOfBits - totalRemainingBits % 32#32))
  return high ||| low

def extractWithin (nv : NixVector) (vectorIndex totalRemainingBits numberOfBits : BitVec 32) :
    Except NixFault (BitVec 32) := do
  let extractedBits ← shl (← nv.word vectorIndex) (32#32 - totalRemainingBits % 32#32)
  shr extractedBits (32#32 - numberOfBits)

def extractNeighborIndex (nv : NixVector) (numberOfBits : BitVec 32) : Except NixFault (BitVec 32 × NixVector) := do
  let totalRemainingBits := nv.getRemainingBits
  if numberOfBits > 32#32 then throw .extractTooLong
  if numberOfBits > totalRemainingBits then throw (.extractTooMany numberOfBits totalRemainingBits)
  if numberOfBits ≤ 0#32 then throw .extractNone
  let vectorIndex := (totalRemainingBits - 1#32) / 32#32
  let extractedBits ←
    if vectorIndex > 0#32 ∧ numberOfBits - 1#32 > (totalRemainingBits - 1#32) % 32#32 then
      nv.extractSpanning vectorIndex totalRemainingBits numberOfBits
    else nv.extractWithin vectorIndex totalRemainingBits numberOfBits
  return (extractedBits, { nv with used := nv.used + numberOfBits })

/-! ## Serialization -/

def getSerializedSize (nv : NixVector) : BitVec 32 := BitVec.ofNat 32 (4 + 4 + 4 + 4 * nv.nixVector.length)

/-- The words are written one after another, each if it fits. -/
def putWords (size maxSize : BitVec 32) : List (BitVec 32) → Option (List (BitVec 32))
  | [] => some []
  | w :: ws => if size + 4#32 ≤ maxSize then (putWords (size + 4#32) maxSize ws).map (w :: ·) else none

/-- The buffer; `none` when zero is returned. -/
def serialize (nv : NixVector) (maxSize : BitVec 32) : Option (List (BitVec 32)) :=
  putWords 0#32 maxSize (nv.used :: nv.currentVectorBitSize :: nv.totalBitSize :: nv.nixVector)

/-- The words that are left in the buffer. -/
def getWords : List (BitVec 32) → BitVec 32 → Except NixFault (List (BitVec 32))
  | p, sizeCheck =>
      if sizeCheck > 0#32 then
        if sizeCheck ≥ 4#32 then
          match p with
          | [] => .error .outOfRange
          | nix :: p => (getWords p (sizeCheck - 4#32)).map (nix :: ·)
        else .error .assertion
      else .ok []

/-- `size` counts the word in front of the buffer that holds it. -/
def deserialize (buffer : List (BitVec 32)) (size : BitVec 32) : Except NixFault NixVector :=
  match buffer with
  | used :: currentVectorBitSize :: totalBitSize :: p =>
      let sizeCheck := size - 4#32
      if sizeCheck ≥ 4#32 ∧ sizeCheck - 4#32 ≥ 4#32 ∧ sizeCheck - 4#32 - 4#32 ≥ 4#32 then
        (getWords p (sizeCheck - 4#32 - 4#32 - 4#32)).map fun nixVector =>
          ⟨nixVector, used, currentVectorBitSize, totalBitSize⟩
      else .error .assertion
  | _ => .error .outOfRange

end NixVector

end Ns3Raft.Net
