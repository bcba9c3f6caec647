import Ns3Raft.Net.TcpOption

/-! # The TCP header

`Serialize` and `Deserialize`, with the checksum over the pseudo header and the whole segment.
-/

namespace Ns3Raft.Net

/-- The sum of the loop of `CalculateIpChecksum`: words in the order of `ReadU16`, and the odd byte. -/
def sumWords : List UInt8 → Nat
  | [] => 0
  | [b] => b.toNat
  | low :: high :: rest => low.toNat + high.toNat * 2 ^ 8 + sumWords rest

/-- The loop that adds the carries. -/
def addCarries (sum : Nat) : Nat :=
  if sum < 2 ^ 16 then sum else addCarries (sum % 2 ^ 16 + sum / 2 ^ 16)
termination_by sum
decreasing_by omega

/-- `CalculateIpChecksum`, whose size is a `uint16_t` and whose sum is a `uint32_t`. -/
def calculateIpChecksum (i : List UInt8) (size initialChecksum : Nat) : Nat :=
  0xffff - addCarries ((initialChecksum + sumWords (i.take (size % 2 ^ 16))) % 2 ^ 32)

/-- What `InitializeChecksum` sets. -/
structure PseudoHeader where
  isIpv4 : Bool
  source : List UInt8
  destination : List UInt8
  protocol : UInt8
  source_length : source.length = if isIpv4 then 4 else 16
  destination_length : destination.length = if isIpv4 then 4 else 16

structure TcpHeader where
  sourcePort : Nat
  destinationPort : Nat
  sequenceNumber : Nat
  ackNumber : Nat
  /-- The data offset, in words. -/
  length : Nat
  flags : Nat
  windowSize : Nat
  urgentPointer : Nat
  options : List TcpOption
  optionsLen : Nat
  calcChecksum : Bool
  goodChecksum : Bool
  pseudo : PseudoHeader

/-- The variables of the option loop. Whether every parser has kept to the options is noted. -/
structure OptionLoop where
  i : List UInt8
  optionLen : Nat
  options : List TcpOption
  optionsLen : Nat
  inside : Bool

/-- How one round of the option loop goes on. -/
inductive Round where
  | next (s : OptionLoop)
  | stop (s : OptionLoop)

namespace OptionLoop

/-- One round, where options are left. -/
def round (s : OptionLoop) : Option Round := do
  let (kind, _) ← readU8 s.i
  let op := if TcpOption.isKindKnown kind then TcpOption.createOption kind else TcpOption.createOption 255
  let parsed ← op.deserialize s.i
  let s := { s with inside := s.inside && decide (s.i.length - parsed.rest.length ≤ s.optionLen) }
  if parsed.size ≠ parsed.option.getSerializedSize then some (.stop s)
  else if s.optionLen < parsed.size then some (.stop s)
  else
    let s := { s with
      i := s.i.drop parsed.size
      optionLen := s.optionLen - parsed.size
      options := s.options ++ [parsed.option]
      optionsLen := (s.optionsLen + parsed.size) % 2 ^ 8 }
    if parsed.option.getKind = 0 then
      if s.optionLen ≤ s.i.length then
        some (.next { s with i := s.i.drop s.optionLen, optionLen := 0, optionsLen := (s.optionsLen + s.optionLen) % 2 ^ 8 })
      else none
    else some (.next s)

/-- `none` when the program ends, or when the fuel is spent before the loop ends. -/
def loop : Nat → OptionLoop → Option OptionLoop
  | 0, _ => none
  | fuel + 1, s =>
      if s.optionLen = 0 then some s
      else
        match s.round with
        | none => none
        | some (.stop s') => some s'
        | some (.next s') => loop fuel s'

end OptionLoop

namespace TcpHeader

def new (pseudo : PseudoHeader) : TcpHeader := ⟨0, 0, 0, 0, 5, 0, 0xffff, 0, [], 0, false, true, pseudo⟩

def enableChecksums (h : TcpHeader) : TcpHeader := { h with calcChecksum := true }

def isChecksumOk (h : TcpHeader) : Bool := h.goodChecksum

def maxOptionsLen : Nat := 40

/-- The options' sizes, before padding. -/
def optionsSize (options : List TcpOption) : Nat := (options.map TcpOption.getSerializedSize).sum

def calculateHeaderLength (h : TcpHeader) : Nat :=
  let len := 20 + optionsSize h.options
  let len := if len % 4 ≠ 0 then len + (4 - len % 4) else len
  (len >>> 2) % 2 ^ 8

def getSerializedSize (h : TcpHeader) : Nat := h.calculateHeaderLength * 4

/-- The sum over the pseudo header. -/
def calculateHeaderChecksum (h : TcpHeader) (size : Nat) : Nat :=
  let high := UInt8.ofNat (size >>> 8)
  let low := UInt8.ofNat size
  let buf := h.pseudo.source ++ (h.pseudo.destination ++
    if h.pseudo.isIpv4 then [0, h.pseudo.protocol, high, low] else [0, 0, high, low, 0, 0, 0, h.pseudo.protocol])
  0xffff - calculateIpChecksum buf (if h.pseudo.isIpv4 then 12 else 40) 0

/-- The header before its checksum is set. -/
def serializeFields (h : TcpHeader) : List UInt8 :=
  writeHtonU16 h.sourcePort ++ (writeHtonU16 h.destinationPort ++ (writeHtonU32 h.sequenceNumber ++
    (writeHtonU32 h.ackNumber ++ (writeHtonU16 (h.length <<< 12 ||| h.flags) ++ (writeHtonU16 h.windowSize ++
      (writeHtonU16 0 ++ (writeHtonU16 h.urgentPointer ++ (h.options.flatMap TcpOption.serialize ++
        List.replicate ((4 - optionsSize h.options % 4) % 4) 0))))))))

/-- `Serialize`, before a payload. -/
def serialize (h : TcpHeader) (payload : List UInt8) : List UInt8 :=
  let start := h.serializeFields ++ payload
  if h.calcChecksum then
    let checksum := calculateIpChecksum start start.length (h.calculateHeaderChecksum start.length)
    (start.set 16 (UInt8.ofNat checksum)).set 17 (UInt8.ofNat (checksum >>> 8))
  else start

/-- The checksum of a received segment. -/
def verify (h : TcpHeader) (start : List UInt8) : TcpHeader :=
  if h.calcChecksum then
    { h with goodChecksum := decide (calculateIpChecksum start start.length (h.calculateHeaderChecksum start.length) = 0) }
  else h

/-- The fixed fields, and the iterator behind them. -/
def readFields (h : TcpHeader) (start : List UInt8) : Option (TcpHeader × List UInt8) := do
  let (sourcePort, i) ← readNtohU16 start
  let (destinationPort, i) ← readNtohU16 i
  let (sequenceNumber, i) ← readNtohU32 i
  let (ackNumber, i) ← readNtohU32 i
  let (field, i) ← readNtohU16 i
  let (windowSize, i) ← readNtohU16 i
  let (urgentPointer, i) ← readNtohU16 (i.drop 2)
  some ({ h with
    sourcePort, destinationPort, sequenceNumber, ackNumber, windowSize, urgentPointer
    flags := field % 2 ^ 8
    length := field / 2 ^ 12
    options := []
    optionsLen := 0 }, i)

/-- `Deserialize`: the header, the value that is returned, and whether the option parsers kept to the options. -/
def deserialize (h : TcpHeader) (fuel : Nat) (start : List UInt8) : Option (TcpHeader × Nat × Bool) := do
  let (h, i) ← h.readFields start
  if h.length < 5 ∨ maxOptionsLen < (h.length - 5) * 4 then some (h, 20, true)
  else
    let s ← OptionLoop.loop fuel ⟨i, (h.length - 5) * 4, [], 0, true⟩
    let h := verify { h with options := s.options, optionsLen := s.optionsLen } start
    some (h, h.getSerializedSize, s.inside)

/-- The data offset of a segment, in words. -/
def dataOffset (start : List UInt8) : Nat := (start.getD 12 0).toNat / 2 ^ 4

end TcpHeader

end Ns3Raft.Net
