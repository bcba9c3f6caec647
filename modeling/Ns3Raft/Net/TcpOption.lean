import Mathlib.Data.List.Basic
import Mathlib.Data.UInt

/-! # TCP options

Every parser reads from an iterator, which is what is left of the byte string, and answers the size
of the option. A read behind the end of the string, a step behind it, and an abort, end the program.
-/

namespace Ns3Raft.Net

def readU8 : List UInt8 → Option (Nat × List UInt8)
  | [] => none
  | b :: i => some (b.toNat, i)

def readNtohU16 (i : List UInt8) : Option (Nat × List UInt8) := do
  let (high, i) ← readU8 i
  let (low, i) ← readU8 i
  some (high * 2 ^ 8 + low, i)

def readNtohU32 (i : List UInt8) : Option (Nat × List UInt8) := do
  let (high, i) ← readNtohU16 i
  let (low, i) ← readNtohU16 i
  some (high * 2 ^ 16 + low, i)

/-- `Read`, into a buffer of its own. -/
def readBytes (n : Nat) (i : List UInt8) : Option (List UInt8 × List UInt8) :=
  if n ≤ i.length then some (i.take n, i.drop n) else none

def writeHtonU16 (n : Nat) : List UInt8 := [UInt8.ofNat (n >>> 8), UInt8.ofNat n]

def writeHtonU32 (n : Nat) : List UInt8 := writeHtonU16 (n >>> 16) ++ writeHtonU16 n

inductive TcpOption where
  | endOfOptions
  | nop
  | mss (mss : Nat)
  | winScale (scale : Nat)
  | sackPermitted
  | sack (sackList : List (Nat × Nat))
  | ts (timestamp echo : Nat)
  | unknown (kind size : Nat) (content : List UInt8)
  deriving DecidableEq, Repr

namespace TcpOption

def getKind : TcpOption → Nat
  | endOfOptions => 0
  | nop => 1
  | mss _ => 2
  | winScale _ => 3
  | sackPermitted => 4
  | sack _ => 5
  | ts _ _ => 8
  | unknown kind _ _ => kind

def getSerializedSize : TcpOption → Nat
  | endOfOptions => 1
  | nop => 1
  | mss _ => 4
  | winScale _ => 3
  | sackPermitted => 2
  | sack sackList => 2 + sackList.length * 8
  | ts _ _ => 10
  | unknown _ size _ => size

def serialize : TcpOption → List UInt8
  | endOfOptions => [0]
  | nop => [1]
  | mss value => [2, 4] ++ writeHtonU16 value
  | winScale scale => [3, 3, UInt8.ofNat scale]
  | sackPermitted => [4, 2]
  | sack sackList =>
      [5, UInt8.ofNat (sackList.length * 8 + 2)] ++ sackList.flatMap fun s => writeHtonU32 s.1 ++ writeHtonU32 s.2
  | ts timestamp echo => [8, 10] ++ (writeHtonU32 timestamp ++ writeHtonU32 echo)
  | unknown kind size content => if size = 0 then [] else [UInt8.ofNat kind, UInt8.ofNat size] ++ content

def isKindKnown (kind : Nat) : Bool := kind ∈ [0, 1, 2, 3, 4, 5, 8]

/-- `CreateOption`, with the values that the constructors set. -/
def createOption (kind : Nat) : TcpOption :=
  match kind with
  | 0 => endOfOptions
  | 1 => nop
  | 2 => mss 1460
  | 3 => winScale 0
  | 4 => sackPermitted
  | 5 => sack []
  | 8 => ts 0 0
  | _ => unknown 0xff 0 []

/-- What a parser leaves: the size it answers, the option, and the iterator behind its last read. -/
structure Parsed where
  size : Nat
  option : TcpOption
  rest : List UInt8

/-- The blocks of a SACK option. -/
def readBlocks : Nat → List UInt8 → Option (List (Nat × Nat) × List UInt8)
  | 0, i => some ([], i)
  | sackCount + 1, i => do
      let (leftEdge, i) ← readNtohU32 i
      let (rightEdge, i) ← readNtohU32 i
      let (sackList, i) ← readBlocks sackCount i
      some ((leftEdge, rightEdge) :: sackList, i)

/-- `Deserialize` of an option that `CreateOption` has made. -/
def deserialize (op : TcpOption) (start : List UInt8) : Option Parsed :=
  match op with
  | endOfOptions | nop => do
      let (readKind, i) ← readU8 start
      some (if readKind ≠ op.getKind then ⟨0, op, i⟩ else ⟨op.getSerializedSize, op, i⟩)
  | mss _ => do
      let (readKind, i) ← readU8 start
      if readKind ≠ op.getKind then some ⟨0, op, i⟩
      else
        let (size, i) ← readU8 i
        if size ≠ 4 then none
        else
          let (value, i) ← readNtohU16 i
          some ⟨4, mss value, i⟩
  | winScale _ => do
      let (readKind, i) ← readU8 start
      if readKind ≠ op.getKind then some ⟨0, op, i⟩
      else
        let (size, i) ← readU8 i
        if size ≠ 3 then some ⟨0, op, i⟩
        else
          let (scale, i) ← readU8 i
          some ⟨3, winScale scale, i⟩
  | sackPermitted => do
      let (readKind, i) ← readU8 start
      if readKind ≠ op.getKind then some ⟨0, op, i⟩
      else
        let (size, i) ← readU8 i
        some (if size ≠ 2 then ⟨0, op, i⟩ else ⟨2, op, i⟩)
  | sack _ => do
      let (readKind, i) ← readU8 start
      if readKind ≠ op.getKind then some ⟨0, op, i⟩
      else
        let (size, i) ← readU8 i
        let (sackList, i) ← readBlocks ((size - 2) / 8) i
        some ⟨(sack sackList).getSerializedSize, sack sackList, i⟩
  | ts _ _ => do
      let (readKind, i) ← readU8 start
      if readKind ≠ op.getKind then some ⟨0, op, i⟩
      else
        let (size, i) ← readU8 i
        if size ≠ 10 then some ⟨0, op, i⟩
        else
          let (timestamp, i) ← readNtohU32 i
          let (echo, i) ← readNtohU32 i
          some ⟨10, ts timestamp echo, i⟩
  | unknown _ _ _ => do
      let (kind, i) ← readU8 start
      let (size, i) ← readU8 i
      if size < 2 ∨ size > 40 then some ⟨0, unknown kind size [], i⟩
      else
        let (content, i) ← readBytes (size - 2) i
        some ⟨size, unknown kind size content, i⟩

end TcpOption

/-! ## The bytes that a reader takes -/

variable {i rest : List UInt8}

theorem readNtohU16_length {n : Nat} (h : readNtohU16 i = some (n, rest)) : i.length = rest.length + 2 ∧ rest = i.drop 2 := by
  match i with
  | [] => exact nomatch h
  | [_] => exact nomatch h
  | high :: low :: i =>
    obtain ⟨-, rfl⟩ := Prod.mk.inj (Option.some.inj h)
    exact ⟨rfl, rfl⟩

theorem readNtohU16_some (h : 2 ≤ i.length) : ∃ n, readNtohU16 i = some (n, i.drop 2) := by
  match i with
  | [] => exact absurd h (by decide)
  | [_] => exact absurd h (by simp)
  | high :: low :: i => exact ⟨_, rfl⟩

theorem readNtohU32_length {n : Nat} (h : readNtohU32 i = some (n, rest)) : i.length = rest.length + 4 ∧ rest = i.drop 4 := by
  obtain ⟨⟨high, i₁⟩, hhigh, hrest⟩ := Option.bind_eq_some_iff.1 h
  obtain ⟨⟨low, i₂⟩, hlow, heq⟩ := Option.bind_eq_some_iff.1 hrest
  obtain ⟨-, rfl⟩ := Prod.mk.inj (Option.some.inj heq)
  obtain ⟨hlength, rfl⟩ := readNtohU16_length hhigh
  obtain ⟨hlength', rfl⟩ := readNtohU16_length hlow
  exact ⟨by omega, by rw [List.drop_drop]⟩

theorem readNtohU32_some (h : 4 ≤ i.length) : ∃ n, readNtohU32 i = some (n, i.drop 4) := by
  obtain ⟨high, hhigh⟩ := readNtohU16_some (show 2 ≤ i.length by omega)
  obtain ⟨low, hlow⟩ := readNtohU16_some (show 2 ≤ (i.drop 2).length by rw [List.length_drop]; omega)
  refine ⟨high * 2 ^ 16 + low, ?_⟩
  simp only [readNtohU32, hhigh, Option.bind_eq_bind, Option.bind_some, hlow, List.drop_drop]

namespace TcpOption

theorem readBlocks_length {n : Nat} {sackList : List (Nat × Nat)} (h : readBlocks n i = some (sackList, rest)) :
    sackList.length = n ∧ i.length = rest.length + 8 * n ∧ rest = i.drop (8 * n) := by
  induction n generalizing i sackList with
  | zero =>
    obtain ⟨rfl, rfl⟩ := Prod.mk.inj (Option.some.inj h)
    exact ⟨rfl, rfl, rfl⟩
  | succ n ih =>
    obtain ⟨⟨left, i₁⟩, hleft, h₁⟩ := Option.bind_eq_some_iff.1 h
    obtain ⟨⟨right, i₂⟩, hright, h₂⟩ := Option.bind_eq_some_iff.1 h₁
    obtain ⟨⟨blocks, i₃⟩, hblocks, heq⟩ := Option.bind_eq_some_iff.1 h₂
    obtain ⟨rfl, rfl⟩ := Prod.mk.inj (Option.some.inj heq)
    obtain ⟨hlength, rfl⟩ := readNtohU32_length hleft
    obtain ⟨hlength', rfl⟩ := readNtohU32_length hright
    obtain ⟨hcount, hlength'', rfl⟩ := ih hblocks
    refine ⟨by rw [List.length_cons, hcount], by omega, ?_⟩
    rw [List.drop_drop, List.drop_drop]
    exact congrArg (i.drop ·) (by omega)

theorem readBlocks_some {n : Nat} (h : 8 * n ≤ i.length) : ∃ sackList, readBlocks n i = some (sackList, i.drop (8 * n)) := by
  induction n generalizing i with
  | zero => exact ⟨[], rfl⟩
  | succ n ih =>
    obtain ⟨left, hleft⟩ := readNtohU32_some (show 4 ≤ i.length by omega)
    obtain ⟨right, hright⟩ := readNtohU32_some (show 4 ≤ (i.drop 4).length by rw [List.length_drop]; omega)
    obtain ⟨blocks, hblocks⟩ := ih (show 8 * n ≤ (i.drop 8).length by rw [List.length_drop]; omega)
    refine ⟨(left, right) :: blocks, ?_⟩
    have hdrop : 8 + 8 * n = 8 * (n + 1) := by omega
    rw [List.drop_drop] at hright
    rw [List.drop_drop, hdrop] at hblocks
    simp only [readBlocks, hleft, Option.bind_eq_bind, Option.bind_some, hright, hblocks]

end TcpOption

end Ns3Raft.Net
