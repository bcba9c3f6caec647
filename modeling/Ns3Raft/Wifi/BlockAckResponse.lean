import Ns3Raft.Wifi.BlockAckCache
import Ns3Raft.Store.Layout

/-! # Block ack responses

`CtrlBAckResponseHeader`, what the recipient's cache writes into it, and what the originator
reads out of its bytes.
-/

namespace Ns3Raft.Wifi

open Store

inductive BlockAckType where
  | basicBlockAck
  | compressedBlockAck
  | extendedCompressedBlockAck
  | multiTidBlockAck
  deriving DecidableEq, Repr

/-- The members of the union are kept apart; the type says which one is used. -/
structure CtrlBAckResponseHeader where
  baAckPolicy : Bool := false
  baType : BlockAckType := .basicBlockAck
  tidInfo : Nat := 0
  startingSeq : Nat := 0
  bitmap : List (BitVec 16) := List.replicate 64 0
  compressedBitmap : BitVec 64 := 0
  extendedCompressedBitmap : List (BitVec 64) := List.replicate 4 0
  deriving DecidableEq

namespace CtrlBAckResponseHeader

/-- `none` is the assertion. -/
def indexInBitmap (h : CtrlBAckResponseHeader) (seq : Nat) : Option Nat :=
  let index := if h.startingSeq ≤ seq then seq - h.startingSeq else 4096 - h.startingSeq + seq
  let last := if h.baType = .extendedCompressedBlockAck then 255 else 63
  if index ≤ last then some index else none

def isInBitmap (h : CtrlBAckResponseHeader) (seq : Nat) : Bool :=
  decide ((seq + 4096 - h.startingSeq) % 4096 < if h.baType = .extendedCompressedBlockAck then 256 else 64)

/-- `none` is an assertion, a fatal error, or a shift of a word by its width or more. -/
def setReceivedPacket (h : CtrlBAckResponseHeader) (seq : Nat) : Option CtrlBAckResponseHeader :=
  if h.isInBitmap seq then
    (h.indexInBitmap seq).bind fun index =>
      match h.baType with
      | .basicBlockAck => some { h with bitmap := h.bitmap.modify index (· ||| 1) }
      | .compressedBlockAck => some { h with compressedBitmap := h.compressedBitmap ||| 1#64 <<< index }
      | .extendedCompressedBlockAck =>
          if index < 64 then
            some { h with
              extendedCompressedBitmap := h.extendedCompressedBitmap.modify (index / 64) (· ||| 1#64 <<< index) }
          else none
      | .multiTidBlockAck => none
  else some h

def isPacketReceived (h : CtrlBAckResponseHeader) (seq : Nat) : Option Bool :=
  if h.isInBitmap seq then
    (h.indexInBitmap seq).bind fun index =>
      match h.baType with
      | .basicBlockAck => some false
      | .compressedBlockAck => some (decide ((h.compressedBitmap >>> index) &&& 1 = 1))
      | .extendedCompressedBlockAck =>
          if index < 64 then
            (h.extendedCompressedBitmap[index / 64]?).map fun (word : BitVec 64) => decide ((word >>> index) &&& 1 = 1)
          else none
      | .multiTidBlockAck => none
  else some false

/-! ## Bytes -/

def getBaControl (h : CtrlBAckResponseHeader) : Nat :=
  (if h.baAckPolicy then 0x1 else 0) |||
    (match h.baType with
      | .basicBlockAck => 0
      | .compressedBlockAck => 0x02 <<< 1
      | .extendedCompressedBlockAck => 0x01 <<< 1
      | .multiTidBlockAck => 0x03 <<< 1) |||
    ((h.tidInfo <<< 12) &&& (0xf <<< 12))

def setBaControl (h : CtrlBAckResponseHeader) (ba : Nat) : CtrlBAckResponseHeader :=
  { h with
    baAckPolicy := decide (ba &&& 0x01 = 1)
    baType :=
      if (ba >>> 1) &&& 0x0f = 0x03 then .multiTidBlockAck
      else if (ba >>> 1) &&& 0x0f = 0x01 then .extendedCompressedBlockAck
      else if (ba >>> 1) &&& 0x0f = 0x02 then .compressedBlockAck
      else .basicBlockAck
    tidInfo := (ba >>> 12) &&& 0x0f }

def getStartingSequenceControl (h : CtrlBAckResponseHeader) : Nat := (h.startingSeq <<< 4) &&& 0xfff0

def setStartingSequenceControl (h : CtrlBAckResponseHeader) (seqControl : Nat) : CtrlBAckResponseHeader :=
  { h with startingSeq := (seqControl >>> 4) &&& 0x0fff }

/-- `WriteHtolsbU16` or `WriteHtolsbU64` for each word. -/
def writeWords {w : Nat} (words : List (BitVec w)) : List UInt8 := words.flatMap fun x => putBytes (w / 8) x.toNat

/-- `n` words and what follows them; `none` when the buffer ends before. -/
def readWords (w : Nat) : Nat → List UInt8 → Option (List (BitVec w) × List UInt8)
  | 0, bytes => some ([], bytes)
  | n + 1, bytes =>
      if w / 8 ≤ bytes.length then
        (readWords w n (bytes.drop (w / 8))).map fun (words, rest) =>
          (BitVec.ofNat w (getBytes (bytes.take (w / 8))) :: words, rest)
      else none

def serializeBitmap (h : CtrlBAckResponseHeader) : Option (List UInt8) :=
  match h.baType with
  | .basicBlockAck => some (writeWords h.bitmap)
  | .compressedBlockAck => some (writeWords [h.compressedBitmap])
  | .extendedCompressedBlockAck => some (writeWords h.extendedCompressedBitmap)
  | .multiTidBlockAck => none

def deserializeBitmap (h : CtrlBAckResponseHeader) (bytes : List UInt8) :
    Option (CtrlBAckResponseHeader × List UInt8) :=
  match h.baType with
  | .basicBlockAck => (readWords 16 64 bytes).map fun (words, rest) => ({ h with bitmap := words }, rest)
  | .compressedBlockAck =>
      (readWords 64 1 bytes).map fun (words, rest) => ({ h with compressedBitmap := words.headD 0 }, rest)
  | .extendedCompressedBlockAck =>
      (readWords 64 4 bytes).map fun (words, rest) => ({ h with extendedCompressedBitmap := words }, rest)
  | .multiTidBlockAck => none

def serialize (h : CtrlBAckResponseHeader) : Option (List UInt8) :=
  h.serializeBitmap.map fun bitmap =>
    putBytes 2 h.getBaControl ++ putBytes 2 h.getStartingSequenceControl ++ bitmap

/-- The header is read over what `h` was, and what follows it in the buffer stays. -/
def deserialize (h : CtrlBAckResponseHeader) (bytes : List UInt8) : Option (CtrlBAckResponseHeader × List UInt8) :=
  if 4 ≤ bytes.length then
    ((h.setBaControl (getBytes (bytes.take 2))).setStartingSequenceControl
      (getBytes ((bytes.drop 2).take 2))).deserializeBitmap (bytes.drop 4)
  else none

def getSerializedSize (h : CtrlBAckResponseHeader) : Nat :=
  2 + match h.baType with
    | .basicBlockAck => 2 + 128
    | .compressedBlockAck => 2 + 8
    | .extendedCompressedBlockAck => 2 + 32
    | .multiTidBlockAck => (2 + 2 + 8) * (h.tidInfo + 1)

/-! ## Round trip -/

/-- What is read over `h₀`: the member of the union that the type does not use stays. -/
def readOnto (h h₀ : CtrlBAckResponseHeader) : CtrlBAckResponseHeader :=
  match h.baType with
  | .basicBlockAck =>
      { h with compressedBitmap := h₀.compressedBitmap, extendedCompressedBitmap := h₀.extendedCompressedBitmap }
  | .compressedBlockAck =>
      { h with bitmap := h₀.bitmap, extendedCompressedBitmap := h₀.extendedCompressedBitmap }
  | .extendedCompressedBlockAck => { h with bitmap := h₀.bitmap, compressedBitmap := h₀.compressedBitmap }
  | .multiTidBlockAck => h₀

theorem isPacketReceived_over (h h₀ : CtrlBAckResponseHeader) (seq : Nat) (htype : h.baType ≠ .multiTidBlockAck) :
    (h.readOnto h₀).isPacketReceived seq = h.isPacketReceived seq := by
  unfold readOnto
  split <;> rename_i heq
  · simp [isPacketReceived, isInBitmap, indexInBitmap, heq]
  · simp [isPacketReceived, isInBitmap, indexInBitmap, heq]
  · simp [isPacketReceived, isInBitmap, indexInBitmap, heq]
  · exact absurd heq htype

theorem serialize_over (h h₀ : CtrlBAckResponseHeader) (htype : h.baType ≠ .multiTidBlockAck) :
    (h.readOnto h₀).serialize = h.serialize := by
  unfold readOnto
  split <;> rename_i heq
  · simp [serialize, serializeBitmap, getBaControl, getStartingSequenceControl, heq]
  · simp [serialize, serializeBitmap, getBaControl, getStartingSequenceControl, heq]
  · simp [serialize, serializeBitmap, getBaControl, getStartingSequenceControl, heq]
  · exact absurd heq htype

theorem length_writeWords {w : Nat} (words : List (BitVec w)) : (writeWords words).length = words.length * (w / 8) := by
  simp [writeWords, List.length_flatMap]

theorem readWords_writeWords {w k : Nat} (hw : w = 8 * k) (words : List (BitVec w)) (rest : List UInt8) :
    readWords w words.length (writeWords words ++ rest) = some (words, rest) := by
  induction words with
  | nil => rfl
  | cons x words ih =>
      have hlen : (putBytes (w / 8) x.toNat).length = w / 8 := putBytes_length _ _
      have hlt : x.toNat < 256 ^ (w / 8) := by
        have hpow : (256 : Nat) ^ (w / 8) = 2 ^ w := by
          rw [hw, Nat.mul_div_cancel_left k (by decide), Nat.pow_mul]
        rw [hpow]
        exact x.isLt
      have hsplit : writeWords (x :: words) ++ rest = putBytes (w / 8) x.toNat ++ (writeWords words ++ rest) := by
        simp [writeWords]
      rw [List.length_cons, readWords, hsplit, if_pos (by rw [List.length_append, hlen]; omega),
        List.drop_left' hlen, List.take_left' hlen, ih, getBytes_putBytes hlt]
      simp

theorem setBaControl_getBaControl (h h₀ : CtrlBAckResponseHeader) (htid : h.tidInfo < 16) :
    h₀.setBaControl h.getBaControl =
      { h₀ with baAckPolicy := h.baAckPolicy, baType := h.baType, tidInfo := h.tidInfo } := by
  obtain ⟨policy, type, tid, seq, b₁, b₂, b₃⟩ := h
  have hread : ∀ (p : Bool) (t : Fin 16), ∀ ty ∈ [BlockAckType.basicBlockAck, .compressedBlockAck,
      .extendedCompressedBlockAck, .multiTidBlockAck],
      ({} : CtrlBAckResponseHeader).setBaControl
        ({ baAckPolicy := p, baType := ty, tidInfo := t } : CtrlBAckResponseHeader).getBaControl =
          { baAckPolicy := p, baType := ty, tidInfo := t } := by
    decide +kernel
  have hmem : type ∈ [BlockAckType.basicBlockAck, .compressedBlockAck, .extendedCompressedBlockAck,
      .multiTidBlockAck] := by
    cases type <;> decide
  have heq := hread policy ⟨tid, htid⟩ type hmem
  have hover : h₀.setBaControl (getBaControl ⟨policy, type, tid, seq, b₁, b₂, b₃⟩) =
      { h₀ with
        baAckPolicy := (({} : CtrlBAckResponseHeader).setBaControl
          ({ baAckPolicy := policy, baType := type, tidInfo := tid } : CtrlBAckResponseHeader).getBaControl).baAckPolicy
        baType := (({} : CtrlBAckResponseHeader).setBaControl
          ({ baAckPolicy := policy, baType := type, tidInfo := tid } : CtrlBAckResponseHeader).getBaControl).baType
        tidInfo := (({} : CtrlBAckResponseHeader).setBaControl
          ({ baAckPolicy := policy, baType := type, tidInfo := tid } : CtrlBAckResponseHeader).getBaControl).tidInfo } :=
    rfl
  rw [hover, heq]

theorem setStartingSequenceControl_get (h h₀ : CtrlBAckResponseHeader) (hseq : h.startingSeq < 4096) :
    h₀.setStartingSequenceControl h.getStartingSequenceControl = { h₀ with startingSeq := h.startingSeq } := by
  have hback : ((h.startingSeq <<< 4 &&& 0x0fff <<< 4) >>> 4) &&& 0x0fff = h.startingSeq := by
    rw [← Nat.shiftLeft_and_distrib, Nat.shiftLeft_shiftRight, Nat.and_assoc, Nat.and_self]
    exact (Nat.and_two_pow_sub_one_eq_mod h.startingSeq 12).trans (Nat.mod_eq_of_lt hseq)
  rw [setStartingSequenceControl, getStartingSequenceControl]
  exact congrArg (fun seq => { h₀ with startingSeq := seq }) hback

/-- What the setters and the constructor give. -/
structure WellFormed (h : CtrlBAckResponseHeader) : Prop where
  tid : h.tidInfo < 16
  seq : h.startingSeq < 4096
  bitmap : h.bitmap.length = 64
  extended : h.extendedCompressedBitmap.length = 4

theorem getBaControl_lt (h : CtrlBAckResponseHeader) : h.getBaControl < 256 ^ 2 := by
  have hpolicy : (if h.baAckPolicy then 0x1 else 0) < 2 ^ 16 := by split <;> decide
  have htid : (h.tidInfo <<< 12) &&& (0xf <<< 12) < 2 ^ 16 :=
    Nat.lt_of_le_of_lt Nat.and_le_right (by decide)
  unfold getBaControl
  refine Nat.or_lt_two_pow (n := 16) (Nat.or_lt_two_pow hpolicy ?_) htid
  split <;> decide

theorem getStartingSequenceControl_lt (h : CtrlBAckResponseHeader) : h.getStartingSequenceControl < 256 ^ 2 :=
  Nat.lt_of_le_of_lt Nat.and_le_right (by decide)

theorem deserializeBitmap_serializeBitmap {h : CtrlBAckResponseHeader} (hwf : h.WellFormed)
    (htype : h.baType ≠ .multiTidBlockAck) (h₀ : CtrlBAckResponseHeader) (rest : List UInt8) :
    ∃ bytes, h.serializeBitmap = some bytes ∧ bytes.length + 4 = h.getSerializedSize ∧
      ({ h₀ with
        baAckPolicy := h.baAckPolicy, baType := h.baType, tidInfo := h.tidInfo,
        startingSeq := h.startingSeq } : CtrlBAckResponseHeader).deserializeBitmap (bytes ++ rest) =
          some (h.readOnto h₀, rest) := by
  unfold serializeBitmap deserializeBitmap getSerializedSize readOnto
  dsimp only
  split
  · refine ⟨_, rfl, by rw [length_writeWords, hwf.bitmap], ?_⟩
    have hread := readWords_writeWords (k := 2) rfl h.bitmap rest
    rw [hwf.bitmap] at hread
    rw [hread]
    rfl
  · refine ⟨_, rfl, by rw [length_writeWords]; rfl, ?_⟩
    have hread := readWords_writeWords (k := 8) rfl [h.compressedBitmap] rest
    rw [List.length_singleton] at hread
    rw [hread]
    rfl
  · refine ⟨_, rfl, by rw [length_writeWords, hwf.extended], ?_⟩
    have hread := readWords_writeWords (k := 8) rfl h.extendedCompressedBitmap rest
    rw [hwf.extended] at hread
    rw [hread]
    rfl
  · rename_i heq
    exact absurd heq htype

/-- The originator reads back what the recipient has written, and nothing behind it. -/
theorem deserialize_serialize {h : CtrlBAckResponseHeader} (hwf : h.WellFormed)
    (htype : h.baType ≠ .multiTidBlockAck) (h₀ : CtrlBAckResponseHeader) (rest : List UInt8) :
    ∃ bytes, h.serialize = some bytes ∧ bytes.length = h.getSerializedSize ∧
      h₀.deserialize (bytes ++ rest) = some (h.readOnto h₀, rest) := by
  obtain ⟨bitmap, hbitmap, hsize, hread⟩ := deserializeBitmap_serializeBitmap hwf htype h₀ rest
  have hba : (putBytes 2 h.getBaControl).length = 2 := putBytes_length _ _
  have hseq : (putBytes 2 h.getStartingSequenceControl).length = 2 := putBytes_length _ _
  refine ⟨_, by rw [serialize, hbitmap, Option.map_some], ?_, ?_⟩
  · rw [List.length_append, List.length_append, hba, hseq]
    omega
  · rw [deserialize, if_pos (by simp only [List.length_append, hba, hseq]; omega)]
    have hfirst : ((putBytes 2 h.getBaControl ++ putBytes 2 h.getStartingSequenceControl ++ bitmap) ++ rest).take 2 =
        putBytes 2 h.getBaControl := by
      rw [List.append_assoc, List.append_assoc, List.take_left' hba]
    have hsecond : (((putBytes 2 h.getBaControl ++ putBytes 2 h.getStartingSequenceControl ++ bitmap) ++ rest).drop 2).take 2 =
        putBytes 2 h.getStartingSequenceControl := by
      rw [List.append_assoc, List.append_assoc, List.drop_left' hba, List.take_left' hseq]
    have hthird : ((putBytes 2 h.getBaControl ++ putBytes 2 h.getStartingSequenceControl ++ bitmap) ++ rest).drop 4 =
        bitmap ++ rest := by
      rw [List.append_assoc, List.drop_left' (by rw [List.length_append, hba, hseq])]
    rw [hfirst, hsecond, hthird, getBytes_putBytes h.getBaControl_lt,
      getBytes_putBytes h.getStartingSequenceControl_lt, setBaControl_getBaControl h h₀ hwf.tid,
      setStartingSequenceControl_get h _ hwf.seq]
    exact hread

/-- The header that has been read answers for every number as the one that was written, and is written in the same
bytes again. -/
theorem response_round_trip {h : CtrlBAckResponseHeader} (hwf : h.WellFormed) (htype : h.baType ≠ .multiTidBlockAck)
    (h₀ : CtrlBAckResponseHeader) (rest : List UInt8) :
    ∃ bytes, h.serialize = some bytes ∧ bytes.length = h.getSerializedSize ∧
      ∃ h', h₀.deserialize (bytes ++ rest) = some (h', rest) ∧ h' = h.readOnto h₀ ∧ h'.serialize = some bytes ∧
        ∀ seq, h'.isPacketReceived seq = h.isPacketReceived seq := by
  obtain ⟨bytes, hser, hsize, hread⟩ := deserialize_serialize hwf htype h₀ rest
  refine ⟨bytes, hser, hsize, h.readOnto h₀, hread, rfl, ?_, ?_⟩
  · rw [serialize_over h h₀ htype, hser]
  · intro seq
    exact isPacketReceived_over h h₀ seq htype

theorem response_round_trip_extended :
    ∃ bytes, ({ baType := .extendedCompressedBlockAck, tidInfo := 5, startingSeq := 4090 } :
        CtrlBAckResponseHeader).serialize = some bytes ∧
      bytes.length = ({ baType := .extendedCompressedBlockAck, tidInfo := 5, startingSeq := 4090 } :
        CtrlBAckResponseHeader).getSerializedSize ∧
      ∃ h', ({} : CtrlBAckResponseHeader).deserialize (bytes ++ [1, 2]) = some (h', [1, 2]) ∧
        h' = readOnto { baType := .extendedCompressedBlockAck, tidInfo := 5, startingSeq := 4090 } {} ∧
        h'.serialize = some bytes ∧
        ∀ seq, h'.isPacketReceived seq = ({ baType := .extendedCompressedBlockAck, tidInfo := 5, startingSeq := 4090 } :
          CtrlBAckResponseHeader).isPacketReceived seq :=
  response_round_trip ⟨by decide, by decide, by decide, by decide⟩ (by decide) {} [1, 2]

/-! ## Marking -/

theorem indexInBitmap_eq {h : CtrlBAckResponseHeader} (hstart : h.startingSeq < 4096) {k : Nat} (hk : k < 4096)
    (hlast : k ≤ if h.baType = .extendedCompressedBlockAck then 255 else 63) :
    h.indexInBitmap ((h.startingSeq + k) % 4096) = some k := by
  have hindex : (if h.startingSeq ≤ (h.startingSeq + k) % 4096 then (h.startingSeq + k) % 4096 - h.startingSeq
      else 4096 - h.startingSeq + (h.startingSeq + k) % 4096) = k := by
    split <;> omega
  rw [indexInBitmap, hindex, if_pos hlast]

theorem isInBitmap_iff {h : CtrlBAckResponseHeader} (hstart : h.startingSeq < 4096) {k : Nat} (hk : k < 4096) :
    h.isInBitmap ((h.startingSeq + k) % 4096) = true ↔
      k < if h.baType = .extendedCompressedBlockAck then 256 else 64 := by
  have hoffset : ((h.startingSeq + k) % 4096 + 4096 - h.startingSeq) % 4096 = k := by omega
  rw [isInBitmap, decide_eq_true_iff, hoffset]

theorem setReceivedPacket_compressed {h : CtrlBAckResponseHeader} (htype : h.baType = .compressedBlockAck)
    (hstart : h.startingSeq < 4096) {k : Nat} (hk : k < 4096) :
    ∃ v, h.setReceivedPacket ((h.startingSeq + k) % 4096) = some { h with compressedBitmap := v } ∧
      ∀ l < 64, v.getLsbD l = (h.compressedBitmap.getLsbD l || decide (l = k)) := by
  by_cases hin : k < 64
  · refine ⟨h.compressedBitmap ||| 1#64 <<< k, ?_, fun l hl => ?_⟩
    · rw [setReceivedPacket, if_pos ((isInBitmap_iff hstart hk).mpr (by simp [htype, hin])),
        indexInBitmap_eq hstart hk (by simp [htype]; omega), Option.bind_some, htype]
    · rw [BitVec.getLsbD_or, BitVec.getLsbD_shiftLeft, BitVec.getLsbD_one]
      congr 1
      simp only [decide_eq_true hl, Bool.true_and]
      rw [Bool.eq_iff_iff]
      simp only [Bool.and_eq_true, Bool.not_eq_true', decide_eq_true_eq, decide_eq_false_iff_not]
      omega
  · refine ⟨h.compressedBitmap, ?_, fun l hl => ?_⟩
    · rw [setReceivedPacket, if_neg (by simp [isInBitmap_iff hstart hk, htype, hin])]
    · rw [decide_eq_false (by omega : ¬ l = k), Bool.or_false]

theorem bit_eq (x : BitVec 64) (k : Nat) : decide ((x >>> k) &&& 1 = 1) = x.getLsbD k := by
  have hbit : (x >>> k) &&& 1#64 = BitVec.setWidth 64 (BitVec.ofBool ((x >>> k).getLsbD 0)) :=
    BitVec.and_one_eq_setWidth_ofBool_getLsbD
  rw [show (1 : BitVec 64) = 1#64 from rfl, hbit, BitVec.getLsbD_ushiftRight, Nat.add_zero]
  cases x.getLsbD k <;> rfl

theorem isPacketReceived_compressed {h : CtrlBAckResponseHeader} (htype : h.baType = .compressedBlockAck)
    (hstart : h.startingSeq < 4096) {k : Nat} (hk : k < 4096) :
    h.isPacketReceived ((h.startingSeq + k) % 4096) = some (decide (k < 64) && h.compressedBitmap.getLsbD k) := by
  by_cases hin : k < 64
  · rw [isPacketReceived, if_pos ((isInBitmap_iff hstart hk).mpr (by simp [htype, hin])),
      indexInBitmap_eq hstart hk (by simp [htype]; omega), Option.bind_some, htype]
    simp only [bit_eq, decide_eq_true hin, Bool.true_and]
  · rw [isPacketReceived, if_neg (by simp [isInBitmap_iff hstart hk, htype, hin]), decide_eq_false hin, Bool.false_and]

theorem setReceivedPacket_extended {h : CtrlBAckResponseHeader} (htype : h.baType = .extendedCompressedBlockAck)
    (hstart : h.startingSeq < 4096) {k : Nat} (hk : k < 256) :
    (k < 64 → ∃ words, h.setReceivedPacket ((h.startingSeq + k) % 4096) =
      some { h with extendedCompressedBitmap := words }) ∧
      (64 ≤ k → h.setReceivedPacket ((h.startingSeq + k) % 4096) = none) := by
  rw [setReceivedPacket, if_pos ((isInBitmap_iff hstart (by omega)).mpr (by simp [htype, hk])),
    indexInBitmap_eq hstart (by omega) (by simp [htype]; omega), Option.bind_some, htype]
  exact ⟨fun hlt => ⟨_, if_pos hlt⟩, fun hge => if_neg (by omega)⟩

end CtrlBAckResponseHeader

/-! ## What the cache tells -/

namespace BlockAckCache

open CtrlBAckResponseHeader

/-- The loop of `FillBlockAckBitmap`, with the round behind it. -/
def fillLoop (c : BlockAckCache) (stop : Nat) : Nat → Nat → CtrlBAckResponseHeader → Option CtrlBAckResponseHeader
  | 0, _, _ => none
  | fuel + 1, i, h =>
      (if c.bitmap i = 1 then h.setReceivedPacket i else some h).bind fun h =>
        if i = stop then some h else c.fillLoop stop fuel ((i + 1) % 4096) h

def fillBlockAckBitmap (c : BlockAckCache) (h : CtrlBAckResponseHeader) : Option CtrlBAckResponseHeader :=
  match h.baType with
  | .compressedBlockAck | .extendedCompressedBlockAck =>
      c.fillLoop ((h.startingSeq + c.winSize - 1) % 4096) 4096 h.startingSeq h
  | .basicBlockAck | .multiTidBlockAck => none

variable {c : BlockAckCache} {size : ℕ}

theorem fillBlockAckBitmap_eq {h : CtrlBAckResponseHeader}
    (htype : h.baType = .compressedBlockAck ∨ h.baType = .extendedCompressedBlockAck) :
    c.fillBlockAckBitmap h = c.fillLoop ((h.startingSeq + c.winSize - 1) % 4096) 4096 h.startingSeq h := by
  unfold fillBlockAckBitmap
  rcases htype with htype | htype <;> rw [htype]

theorem next_index (s o : ℕ) : ((s + o) % 4096 + 1) % 4096 = (s + (o + 1)) % 4096 := by
  rw [Nat.mod_add_mod, Nat.add_assoc]

/-- From the offset `o` on, the loop marks what the bitmap has. -/
theorem fillLoop_compressed {h : CtrlBAckResponseHeader} (htype : h.baType = .compressedBlockAck)
    (hstart : h.startingSeq < 4096) (hsize : size ≤ 4096) (c : BlockAckCache) (fuel : ℕ) :
    ∀ (o : ℕ) (v : BitVec 64), o < size → size - o ≤ fuel →
      ∃ v', c.fillLoop ((h.startingSeq + size - 1) % 4096) fuel ((h.startingSeq + o) % 4096)
          { h with compressedBitmap := v } = some { h with compressedBitmap := v' } ∧
        ∀ k < 64, v'.getLsbD k =
          (v.getLsbD k || decide (o ≤ k ∧ k < size ∧ c.bitmap ((h.startingSeq + k) % 4096) = 1)) := by
  induction fuel with
  | zero => exact fun _ _ ho hfuel => absurd hfuel (by omega)
  | succ fuel ih =>
      intro o v ho hfuel
      obtain ⟨v₁, hset, hv₁⟩ : ∃ v₁, (if c.bitmap ((h.startingSeq + o) % 4096) = 1 then
          ({ h with compressedBitmap := v } : CtrlBAckResponseHeader).setReceivedPacket ((h.startingSeq + o) % 4096)
          else some { h with compressedBitmap := v }) = some { h with compressedBitmap := v₁ } ∧
          ∀ k < 64, v₁.getLsbD k =
            (v.getLsbD k || decide (k = o ∧ c.bitmap ((h.startingSeq + o) % 4096) = 1)) := by
        split
        · rename_i hbit
          obtain ⟨v₁, hset, hv₁⟩ := setReceivedPacket_compressed
            (h := { h with compressedBitmap := v }) htype hstart (k := o) (by omega)
          refine ⟨v₁, hset, fun k hk => ?_⟩
          rw [hv₁ k hk]
          simp [hbit]
        · rename_i hbit
          exact ⟨v, rfl, fun k _ => by rw [decide_eq_false fun h => hbit h.2, Bool.or_false]⟩
      rw [fillLoop, hset, Option.bind_some]
      by_cases hend : o + 1 = size
      · have hstop : (h.startingSeq + o) % 4096 = (h.startingSeq + size - 1) % 4096 := by
          congr 1
          omega
        refine ⟨v₁, if_pos hstop, fun k hk => ?_⟩
        rw [hv₁ k hk]
        congr 1
        rw [decide_eq_decide]
        constructor
        · rintro ⟨rfl, hbit⟩
          exact ⟨Nat.le_refl k, ho, hbit⟩
        · rintro ⟨hok, hks, hbit⟩
          obtain rfl : k = o := by omega
          exact ⟨rfl, hbit⟩
      · have hne : (h.startingSeq + o) % 4096 ≠ (h.startingSeq + size - 1) % 4096 := by omega
        obtain ⟨v', heq, hv'⟩ := ih (o + 1) v₁ (by omega) (by omega)
        rw [if_neg hne, next_index]
        refine ⟨v', heq, fun k hk => ?_⟩
        rw [hv' k hk, hv₁ k hk, Bool.or_assoc]
        congr 1
        rw [← Bool.decide_or, decide_eq_decide]
        constructor
        · rintro (⟨rfl, hbit⟩ | ⟨hok, hks, hbit⟩)
          · exact ⟨Nat.le_refl k, ho, hbit⟩
          · exact ⟨by omega, hks, hbit⟩
        · rintro ⟨hok, hks, hbit⟩
          rcases Nat.eq_or_lt_of_le hok with rfl | hlt
          · exact .inl ⟨rfl, hbit⟩
          · exact .inr ⟨hlt, hks, hbit⟩

/-- A word is shifted too far for every entry of the bitmap that is set beyond the first 64. -/
theorem fillLoop_extended {s : ℕ} (hstart : s < 4096) (hsize : size ≤ 256) (c : BlockAckCache) (fuel : ℕ) :
    ∀ (o : ℕ) (h : CtrlBAckResponseHeader), h.baType = .extendedCompressedBlockAck → h.startingSeq = s → o < size →
      size - o ≤ fuel → (c.fillLoop ((s + size - 1) % 4096) fuel ((s + o) % 4096) h = none ↔
        ∃ k, o ≤ k ∧ k < size ∧ 64 ≤ k ∧ c.bitmap ((s + k) % 4096) = 1) := by
  induction fuel with
  | zero => exact fun _ _ _ _ ho hfuel => absurd hfuel (by omega)
  | succ fuel ih =>
      intro o h htype hs ho hfuel
      subst hs
      rw [fillLoop]
      by_cases hbad : 64 ≤ o ∧ c.bitmap ((h.startingSeq + o) % 4096) = 1
      · rw [if_pos hbad.2, (setReceivedPacket_extended htype hstart (by omega)).2 hbad.1, Option.bind_none]
        exact ⟨fun _ => ⟨o, Nat.le_refl o, ho, hbad⟩, fun _ => rfl⟩
      obtain ⟨h₁, hset, htype₁, hs₁⟩ : ∃ h₁, (if c.bitmap ((h.startingSeq + o) % 4096) = 1 then
          h.setReceivedPacket ((h.startingSeq + o) % 4096) else some h) = some h₁ ∧
          h₁.baType = .extendedCompressedBlockAck ∧ h₁.startingSeq = h.startingSeq := by
        split
        · rename_i hbit
          obtain ⟨words, hwords⟩ := (setReceivedPacket_extended htype hstart (k := o) (by omega)).1
            (Nat.lt_of_not_le fun hge => hbad ⟨hge, hbit⟩)
          exact ⟨_, hwords, htype, rfl⟩
        · exact ⟨h, rfl, htype, rfl⟩
      rw [hset, Option.bind_some]
      by_cases hend : o + 1 = size
      · have hstop : (h.startingSeq + o) % 4096 = (h.startingSeq + size - 1) % 4096 := by
          congr 1
          omega
        rw [if_pos hstop]
        refine ⟨fun hnone => absurd hnone (by simp), ?_⟩
        rintro ⟨k, hok, hks, h64, hbit⟩
        obtain rfl : k = o := by omega
        exact absurd ⟨h64, hbit⟩ hbad
      · have hne : (h.startingSeq + o) % 4096 ≠ (h.startingSeq + size - 1) % 4096 := by omega
        rw [if_neg hne, next_index, ih (o + 1) h₁ htype₁ hs₁ (by omega) (by omega)]
        constructor
        · rintro ⟨k, hok, hks, h64, hbit⟩
          exact ⟨k, by omega, hks, h64, hbit⟩
        · rintro ⟨k, hok, hks, h64, hbit⟩
          rcases Nat.eq_or_lt_of_le hok with rfl | hlt
          · exact absurd ⟨h64, hbit⟩ hbad
          · exact ⟨k, hlt, hks, h64, hbit⟩

end BlockAckCache

variable {c : BlockAckCache} {b : Scoreboard} {size : ℕ} {h : CtrlBAckResponseHeader}

/-- A compressed response to a window of at most 64 tells, after it has gone over the air, which numbers
from the start of the window on have arrived. -/
theorem Shows.response_exact (hshow : Shows size c b) (hwin : 0 < size) (hsize : size ≤ 64) (hwf : h.WellFormed)
    (htype : h.baType = .compressedBlockAck) (hstart : h.startingSeq = c.winStart) (hzero : h.compressedBitmap = 0)
    (h₀ : CtrlBAckResponseHeader) (rest : List UInt8) :
    ∃ h' bytes h'', c.fillBlockAckBitmap h = some h' ∧ h'.serialize = some bytes ∧
      h₀.deserialize (bytes ++ rest) = some (h'', rest) ∧
        ∀ n, b.start ≤ n → n < b.start + 4096 → h''.isPacketReceived (n % 4096) = some (decide (n ∈ b.received)) := by
  obtain ⟨v, hfill, hbits⟩ := BlockAckCache.fillLoop_compressed htype hwf.seq (by omega : size ≤ 4096) c 4096 0
    h.compressedBitmap hwin (by omega)
  have hwf' : ({ h with compressedBitmap := v } : CtrlBAckResponseHeader).WellFormed := ⟨hwf.tid, hwf.seq, hwf.bitmap, hwf.extended⟩
  have hmulti : ({ h with compressedBitmap := v } : CtrlBAckResponseHeader).baType ≠ .multiTidBlockAck := by
    rw [show _ = BlockAckType.compressedBlockAck from htype]
    decide
  obtain ⟨bytes, hser, -, hread⟩ := CtrlBAckResponseHeader.deserialize_serialize hwf' hmulti h₀ rest
  refine ⟨{ h with compressedBitmap := v }, bytes, _, ?_, hser, hread, fun n hn hn' => ?_⟩
  · rw [BlockAckCache.fillBlockAckBitmap_eq (.inl htype), hshow.winSize]
    rw [Nat.add_zero, Nat.mod_eq_of_lt hwf.seq] at hfill
    exact hfill
  · obtain ⟨k, rfl⟩ := Nat.exists_eq_add_of_le hn
    have hindex : (b.start + k) % 4096 = (h.startingSeq + k) % 4096 := by
      rw [hstart, hshow.start, Nat.mod_add_mod]
    have hreceived := CtrlBAckResponseHeader.isPacketReceived_compressed
      (h := { h with compressedBitmap := v }) htype hwf.seq (k := k) (by omega)
    rw [CtrlBAckResponseHeader.isPacketReceived_over _ _ _ hmulti, hindex]
    refine hreceived.trans (congrArg some ?_)
    have hclear : (0 : BitVec 64).getLsbD k = false := BitVec.getLsbD_zero
    by_cases hin : k < size
    · have hk : k < 64 := by omega
      have hwindow := hshow.window (b.start + k) hn (by omega)
      rw [decide_eq_true hk, Bool.true_and, hbits k hk, hzero, hclear, Bool.false_or, decide_eq_decide,
        ← hindex, ← hwindow]
      exact ⟨fun hbit => hbit.2.2, fun hbit => ⟨Nat.zero_le k, hin, hbit⟩⟩
    · have hnot : ¬ b.start + k ∈ b.received := fun hmem => by
        have := hshow.below _ hmem
        omega
      rw [decide_eq_false hnot]
      by_cases hk : k < 64
      · rw [decide_eq_true hk, Bool.true_and, hbits k hk, hzero, hclear, Bool.false_or]
        exact decide_eq_false fun hbit => hin hbit.2.1
      · rw [decide_eq_false hk, Bool.false_and]

theorem response_exact_over_the_end :
    ∃ c, [BlockAckInput.mpdu 4095, .mpdu 2].foldlM BlockAckCache.update (.init 4090 64) = some c ∧
      ∃ h' bytes h'', c.fillBlockAckBitmap { baType := .compressedBlockAck, startingSeq := 4090 } = some h' ∧
        h'.serialize = some bytes ∧ ({} : CtrlBAckResponseHeader).deserialize (bytes ++ []) = some (h'', []) ∧
          ∀ n, 4090 ≤ n → n < 4090 + 4096 →
            h''.isPacketReceived (n % 4096) = some (decide (n ∈ ({4098, 4095} : Finset ℕ))) := by
  obtain ⟨c, hrun, hshow⟩ := (Shows.init (by decide : 4090 < 4096) 64).run (by decide) (by decide)
    [.mpdu 4095, .mpdu 2] (by decide)
  have hboard : [BlockAckInput.mpdu 4095, .mpdu 2].foldl (Scoreboard.update 64) ⟨4090, ∅⟩ = ⟨4090, {4098, 4095}⟩ := by
    simp [Scoreboard.update, Scoreboard.distance, BlockAckInput.seq]
  rw [hboard] at hshow
  exact ⟨c, hrun, hshow.response_exact (h := { baType := .compressedBlockAck, startingSeq := 4090 }) (by decide)
    (by decide) ⟨by decide, by decide, by decide, by decide⟩ rfl hshow.start.symm rfl {} []⟩

/-- An extended response, for windows of more than 64, cannot be filled once a number has arrived that is
64 or more past the start. -/
theorem Shows.extended_response_fails_iff (hshow : Shows size c b) (hwin : 0 < size) (hsize : size ≤ 256)
    (htype : h.baType = .extendedCompressedBlockAck) (hstart : h.startingSeq = c.winStart) :
    c.fillBlockAckBitmap h = none ↔ ∃ n ∈ b.received, b.start + 64 ≤ n := by
  have hlt : h.startingSeq < 4096 := by
    rw [hstart, hshow.start]
    exact Nat.mod_lt _ (by decide)
  have hloop := BlockAckCache.fillLoop_extended hlt hsize c 4096 0 h htype rfl hwin
    (by omega)
  rw [Nat.add_zero, Nat.mod_eq_of_lt hlt] at hloop
  rw [BlockAckCache.fillBlockAckBitmap_eq (.inr htype), hshow.winSize]
  refine hloop.trans ⟨?_, ?_⟩
  · rintro ⟨k, -, hks, h64, hbit⟩
    rw [hstart, hshow.start, Nat.mod_add_mod] at hbit
    exact ⟨b.start + k, (hshow.window _ (Nat.le_add_right _ _) (by omega)).mp hbit, by omega⟩
  · rintro ⟨n, hmem, hn⟩
    obtain ⟨k, rfl⟩ := Nat.exists_eq_add_of_le (show b.start ≤ n by omega)
    have hks := hshow.below _ hmem
    refine ⟨k, Nat.zero_le k, by omega, by omega, ?_⟩
    rw [hstart, hshow.start, Nat.mod_add_mod]
    exact (hshow.window _ (Nat.le_add_right _ _) hks).mpr hmem

theorem extended_response_fails_at_70 :
    ∃ c, [BlockAckInput.mpdu 70].foldlM BlockAckCache.update (.init 0 256) = some c ∧
      (c.fillBlockAckBitmap { baType := .extendedCompressedBlockAck, startingSeq := 0 } = none ↔
        ∃ n ∈ ({70} : Finset ℕ), 0 + 64 ≤ n) := by
  obtain ⟨c, hrun, hshow⟩ := (Shows.init (by decide : 0 < 4096) 256).run (by decide) (by decide)
    [.mpdu 70] (by decide)
  have hboard : [BlockAckInput.mpdu 70].foldl (Scoreboard.update 256) ⟨0, ∅⟩ = ⟨0, {70}⟩ := by
    simp [Scoreboard.update, Scoreboard.distance, BlockAckInput.seq]
  rw [hboard] at hshow
  exact ⟨c, hrun, hshow.extended_response_fails_iff (h := { baType := .extendedCompressedBlockAck, startingSeq := 0 })
    (by decide) (by decide) rfl hshow.start.symm⟩

end Ns3Raft.Wifi
