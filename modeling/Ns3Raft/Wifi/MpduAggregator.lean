import Mathlib.Data.List.Basic
import Mathlib.Data.UInt
import Ns3Raft.Net.PacketBytes

/-! # A-MPDUs

Every MPDU has a subframe header before it and, where another one follows, padding behind it. The
reader that takes the aggregate apart removes from the front, and the one that peeks walks by offsets.
-/

namespace Ns3Raft.Wifi

open Net Slices

structure AmpduSubframeHeader where
  length : Nat
  eof : Bool
  signature : UInt8
  deriving DecidableEq

namespace AmpduSubframeHeader

def new : AmpduSubframeHeader := ⟨0, false, 0x4E⟩

/-- `SetLength`, for a `uint16_t`. -/
def setLength (h : AmpduSubframeHeader) (length : Nat) : AmpduSubframeHeader := { h with length := length % 2 ^ 16 }

def serialize (h : AmpduSubframeHeader) : List UInt8 :=
  let field := (h.eof.toNat <<< 15 ||| h.length) % 2 ^ 16
  [UInt8.ofNat field, UInt8.ofNat (field >>> 8), 1, h.signature]

/-- `RemoveHeader`; a packet that is shorter than the header ends the program. -/
def remove : List UInt8 → Option (AmpduSubframeHeader × List UInt8)
  | low :: high :: _ :: signature :: rest =>
      let field := high.toNat <<< 8 ||| low.toNat
      some (⟨field &&& 0x3fff, decide ((field &&& 0x8000) >>> 15 ≠ 0), signature⟩, rest)
  | _ => none

theorem length_serialize (h : AmpduSubframeHeader) : h.serialize.length = 4 := rfl

theorem field_eq (h : AmpduSubframeHeader) (hlt : h.length < 2 ^ 14) :
    (h.eof.toNat <<< 15 ||| h.length) % 2 ^ 16 = h.eof.toNat * 2 ^ 15 + h.length := by
  have hbool := h.eof.toNat_lt
  rw [← Nat.shiftLeft_add_eq_or_of_lt (by omega), Nat.shiftLeft_eq]
  omega

theorem remove_serialize (h : AmpduSubframeHeader) (hlt : h.length < 2 ^ 14) (p : List UInt8) :
    remove (h.serialize ++ p) = some (h, p) := by
  obtain ⟨length, eof, signature⟩ := h
  have hfield := field_eq ⟨length, eof, signature⟩ hlt
  have hbool := eof.toNat_lt
  dsimp only at hlt hfield
  have hhigh : (UInt8.ofNat ((eof.toNat * 2 ^ 15 + length) >>> 8)).toNat = (eof.toNat * 2 ^ 15 + length) / 2 ^ 8 := by
    rw [UInt8.toNat_ofNat', Nat.shiftRight_eq_div_pow]
    omega
  have hlow : (UInt8.ofNat (eof.toNat * 2 ^ 15 + length)).toNat = (eof.toNat * 2 ^ 15 + length) % 2 ^ 8 := UInt8.toNat_ofNat'
  have hwhole : ((eof.toNat * 2 ^ 15 + length) / 2 ^ 8) <<< 8 ||| (eof.toNat * 2 ^ 15 + length) % 2 ^ 8 =
      eof.toNat * 2 ^ 15 + length := by
    rw [← Nat.shiftLeft_add_eq_or_of_lt (Nat.mod_lt _ (by decide)), Nat.shiftLeft_eq]
    omega
  have hlength : (eof.toNat * 2 ^ 15 + length) &&& 0x3fff = length := by
    rw [Nat.and_two_pow_sub_one_eq_mod _ 14]
    omega
  have heof : ((eof.toNat * 2 ^ 15 + length) &&& 0x8000) >>> 15 = eof.toNat := by
    rw [Nat.shiftRight_and_distrib, Nat.shiftRight_eq_div_pow, show 0x8000 >>> 15 = 2 ^ 1 - 1 from rfl,
      Nat.and_two_pow_sub_one_eq_mod]
    omega
  have hbit : decide (eof.toNat ≠ 0) = eof := by cases eof <;> rfl
  simp only [serialize, hfield, List.cons_append, List.nil_append, remove, hhigh, hlow, hwhole, hlength, heof, hbit]

end AmpduSubframeHeader

namespace MpduAggregator

/-- An MPDU with its MAC header and FCS. -/
abbrev Mpdu := List UInt8

/-- `AddAtEnd`; the size of a packet is a `uint32_t`. -/
def addAtEnd (p q : List UInt8) : Option (List UInt8) :=
  if p.length + q.length < 2 ^ 32 then some (p ++ q) else none

def calculatePadding (ampduSize : Nat) : Nat := (4 - ampduSize % 4) % 4

def getSizeIfAggregated (mpduSize ampduSize : Nat) : Nat :=
  (ampduSize + calculatePadding ampduSize + 4 + mpduSize) % 2 ^ 32

/-- The header that `Aggregate` puts before an MPDU. -/
def subframeHeader (mpdu : Mpdu) (isSingle : Bool) : AmpduSubframeHeader :=
  let hdr := AmpduSubframeHeader.new.setLength mpdu.length
  if isSingle then { hdr with eof := true } else hdr

section

variable {H : Type} (headerBytes : H → List UInt8)

/-- A `WifiMacQueueItem`. The format of its MAC header is a parameter. -/
structure Item (H : Type) where
  packet : List UInt8
  header : H

/-- `AddHeader` and `AddWifiMacTrailer`, which writes four zeros. -/
def Item.mpdu (item : Item H) : Mpdu := headerBytes item.header ++ item.packet ++ List.replicate 4 0

/-- The padding behind the subframes that are there. -/
def padPrevious (ampdu : List UInt8) : Option (List UInt8) :=
  if 0 < ampdu.length ∧ calculatePadding ampdu.length ≠ 0 then
    addAtEnd ampdu (List.replicate (calculatePadding ampdu.length) 0)
  else some ampdu

/-- `none` is the assertion that a single MPDU comes first, or a packet that is too long. -/
def aggregate (item : Item H) (ampdu : List UInt8) (isSingle : Bool) : Option (List UInt8) :=
  if isSingle && decide (ampdu.length ≠ 0) then none
  else do
    let ampdu ← padPrevious ampdu
    let tmp := item.mpdu headerBytes
    addAtEnd ampdu ((subframeHeader tmp isSingle).serialize ++ tmp)

/-- One after another, behind what is there. -/
def aggregateAll (ampdu : List UInt8) : List (Item H × Bool) → Option (List UInt8)
  | [] => some ampdu
  | m :: ms => (aggregate headerBytes m.1 ampdu m.2).bind fun ampdu => aggregateAll ampdu ms

end

/-- The loop of `Deaggregate`; without `fuel` it has not come to its end. -/
def deaggregateLoop (maxSize : Nat) : Nat → Nat → List UInt8 → Option (List (Mpdu × AmpduSubframeHeader))
  | 0, _, _ => none
  | fuel + 1, deserialized, p =>
      if deserialized < maxSize then do
        let (hdr, p) ← AmpduSubframeHeader.remove p
        let deserialized := (deserialized + 4) % 2 ^ 32
        let extractedMpdu ← createFragment p 0 hdr.length
        let p := p.drop hdr.length
        let deserialized := (deserialized + hdr.length) % 2 ^ 32
        let padding := (4 - hdr.length % 4) % 4
        let again := decide (0 < padding ∧ deserialized < maxSize)
        let set ← deaggregateLoop maxSize fuel (if again then (deserialized + padding) % 2 ^ 32 else deserialized)
          (if again then p.drop padding else p)
        some ((extractedMpdu, hdr) :: set)
      else some []

def deaggregate (p : List UInt8) : Option (List (Mpdu × AmpduSubframeHeader)) :=
  deaggregateLoop p.length (p.length + 1) 0 p

/-- The loop of `PeekAmpduSubframes`; `bytesToExtract` is a `uint16_t`. -/
def peekLoop (p : List UInt8) : Nat → Nat → Option (List (List UInt8))
  | 0, _ => none
  | fuel + 1, deserialized =>
      if deserialized < p.length then do
        let tempPacket ← createFragment p deserialized 4
        let (hdr, _) ← AmpduSubframeHeader.remove tempPacket
        let bytesToExtract := (4 + hdr.length) % 2 ^ 16
        let padding := (4 - hdr.length % 4) % 4
        let bytesToExtract :=
          if 0 < padding ∧ (deserialized + bytesToExtract) % 2 ^ 32 < p.length then (bytesToExtract + padding) % 2 ^ 16
          else bytesToExtract
        let subframe ← createFragment p deserialized bytesToExtract
        let ampduSubframes ← peekLoop p fuel ((deserialized + bytesToExtract) % 2 ^ 32)
        some (subframe :: ampduSubframes)
      else some []

def peekAmpduSubframes (p : List UInt8) : Option (List (List UInt8)) := peekLoop p (p.length + 1) 0

def peekMpduInAmpduSubframe (ampduSubframe : List UInt8) : Option Mpdu := do
  let (hdr, _) ← AmpduSubframeHeader.remove ampduSubframe
  createFragment ampduSubframe 4 hdr.length

def peekMpdus (p : List UInt8) : Option (List Mpdu) := do
  let ampduSubframes ← peekAmpduSubframes p
  ampduSubframes.mapM peekMpduInAmpduSubframe

/-! ## The layout -/

abbrev Subframe := Mpdu × AmpduSubframeHeader

/-- The padding behind a subframe. -/
def pad (m : Subframe) : List UInt8 := List.replicate ((4 - m.1.length % 4) % 4) 0

/-- The subframes, each with the padding behind it where another one follows. -/
def subframes : List Subframe → List (List UInt8)
  | [] => []
  | [m] => [m.2.serialize ++ m.1]
  | m :: b :: ms => (m.2.serialize ++ (m.1 ++ pad m)) :: subframes (b :: ms)

/-- Headers that tell the length of what follows them, in 14 bits. -/
def Measured (ms : List Subframe) : Prop := ∀ m ∈ ms, m.2.length = m.1.length ∧ m.1.length < 2 ^ 14

variable {m b : Subframe} {ms : List Subframe} {n fuel : Nat}

theorem length_pad (m : Subframe) : (pad m).length = (4 - m.1.length % 4) % 4 := List.length_replicate

theorem flatten_singleton : (subframes [m]).flatten = m.2.serialize ++ m.1 := List.append_nil _

theorem flatten_cons_cons :
    (subframes (m :: b :: ms)).flatten = m.2.serialize ++ (m.1 ++ (pad m ++ (subframes (b :: ms)).flatten)) := by
  show (m.2.serialize ++ (m.1 ++ pad m)) ++ (subframes (b :: ms)).flatten = _
  rw [List.append_assoc, List.append_assoc]

theorem length_flatten_singleton : (subframes [m]).flatten.length = 4 + m.1.length := by
  rw [flatten_singleton, List.length_append, AmpduSubframeHeader.length_serialize]

theorem length_flatten_cons_cons : (subframes (m :: b :: ms)).flatten.length =
    4 + (m.1.length + ((4 - m.1.length % 4) % 4 + (subframes (b :: ms)).flatten.length)) := by
  rw [flatten_cons_cons, List.length_append, List.length_append, List.length_append, AmpduSubframeHeader.length_serialize,
    length_pad]

theorem length_flatten_ge (ms : List Subframe) : 4 * ms.length ≤ (subframes ms).flatten.length := by
  induction ms with
  | nil => exact Nat.le_refl _
  | cons m ms ih =>
    cases ms with
    | nil =>
      rw [length_flatten_singleton]
      exact Nat.le_add_right 4 _
    | cons b ms =>
      rw [length_flatten_cons_cons, List.length_cons]
      omega

/-- One more subframe, behind the padding of the total. -/
theorem flatten_concat (hne : ms ≠ []) : (subframes (ms ++ [m])).flatten =
    (subframes ms).flatten ++ (List.replicate (calculatePadding (subframes ms).flatten.length) 0 ++ (m.2.serialize ++ m.1)) := by
  induction ms with
  | nil => exact absurd rfl hne
  | cons a ms ih =>
    cases ms with
    | nil =>
      have hpad : List.replicate (calculatePadding (subframes [a]).flatten.length) 0 = pad a := by
        rw [calculatePadding, length_flatten_singleton, pad]
        exact congrArg (List.replicate · (0 : UInt8)) (by omega)
      rw [hpad, List.singleton_append, flatten_cons_cons, flatten_singleton, flatten_singleton, List.append_assoc]
    | cons b ms =>
      have hpad : calculatePadding (subframes (a :: b :: ms)).flatten.length =
          calculatePadding (subframes (b :: ms)).flatten.length := by
        rw [calculatePadding, calculatePadding, length_flatten_cons_cons]
        omega
      have hmore : (subframes (a :: b :: ms ++ [m])).flatten =
          a.2.serialize ++ (a.1 ++ (pad a ++ (subframes (b :: ms ++ [m])).flatten)) := flatten_cons_cons
      rw [hmore, hpad, ih (List.cons_ne_nil b ms), flatten_cons_cons]
      simp only [List.append_assoc]

/-! ## Aggregation -/

section

variable {H : Type} {headerBytes : H → List UInt8}

theorem addAtEnd_some {p q r : List UInt8} (h : addAtEnd p q = some r) : r = p ++ q ∧ r.length < 2 ^ 32 := by
  rw [addAtEnd] at h
  split at h
  · next hlt =>
    obtain rfl := Option.some.inj h
    exact ⟨rfl, by rw [List.length_append]; exact hlt⟩
  · exact nomatch h

/-- The subframe that `Aggregate` makes of an item. -/
def subframe (headerBytes : H → List UInt8) (m : Item H × Bool) : Subframe :=
  (m.1.mpdu headerBytes, subframeHeader (m.1.mpdu headerBytes) m.2)

theorem subframe_length {m : Item H × Bool} (h : (m.1.mpdu headerBytes).length < 2 ^ 14) :
    (subframe headerBytes m).2.length = (subframe headerBytes m).1.length ∧ (subframe headerBytes m).1.length < 2 ^ 14 := by
  have hlength : (subframe headerBytes m).2.length = (m.1.mpdu headerBytes).length % 2 ^ 16 := by
    show (subframeHeader _ _).length = _
    rw [subframeHeader]
    split <;> rfl
  refine ⟨hlength.trans (Nat.mod_eq_of_lt ?_), h⟩
  omega

/-- Behind subframes that are there. -/
theorem aggregate_subframes {m : Item H × Bool} {ampdu : List UInt8}
    (h : aggregate headerBytes m.1 (subframes ms).flatten m.2 = some ampdu) :
    ampdu = (subframes (ms ++ [subframe headerBytes m])).flatten ∧
      ampdu.length = getSizeIfAggregated (m.1.mpdu headerBytes).length (subframes ms).flatten.length := by
  rw [aggregate] at h
  split at h
  · exact nomatch h
  · obtain ⟨padded, hpadded, hadd⟩ := Option.bind_eq_some_iff.1 h
    obtain ⟨rfl, hlt⟩ := addAtEnd_some hadd
    have hwhole : padded = (subframes ms).flatten ++ List.replicate (calculatePadding (subframes ms).flatten.length) 0 := by
      rw [padPrevious] at hpadded
      split at hpadded
      · exact (addAtEnd_some hpadded).1
      · next hnone =>
        obtain rfl := Option.some.inj hpadded
        have hzero : calculatePadding (subframes ms).flatten.length = 0 := by
          by_cases hpos : 0 < (subframes ms).flatten.length
          · exact Decidable.not_not.1 fun hne => hnone ⟨hpos, hne⟩
          · rw [Nat.eq_zero_of_not_pos hpos]
            rfl
        rw [hzero, List.replicate_zero, List.append_nil]
    constructor
    · rw [hwhole]
      by_cases hnil : ms = []
      · subst hnil
        exact (List.append_nil _).symm
      · rw [flatten_concat hnil, List.append_assoc]
        rfl
    · have hlength : (padded ++ ((subframeHeader (m.1.mpdu headerBytes) m.2).serialize ++ m.1.mpdu headerBytes)).length =
          (subframes ms).flatten.length + calculatePadding (subframes ms).flatten.length + 4 + (m.1.mpdu headerBytes).length := by
        rw [hwhole, List.length_append, List.length_append, List.length_append, AmpduSubframeHeader.length_serialize,
          List.length_replicate]
        exact (Nat.add_assoc _ 4 _).symm
      rw [hlength] at hlt
      rw [hlength, getSizeIfAggregated, Nat.mod_eq_of_lt hlt]

theorem aggregateAll_subframes {items : List (Item H × Bool)} {ampdu : List UInt8}
    (h : aggregateAll headerBytes (subframes ms).flatten items = some ampdu) :
    ampdu = (subframes (ms ++ items.map (subframe headerBytes))).flatten ∧
      ampdu.length = (items.map fun m => (m.1.mpdu headerBytes).length).foldl (fun size mpduSize => getSizeIfAggregated mpduSize size)
        (subframes ms).flatten.length := by
  induction items generalizing ms with
  | nil =>
    obtain rfl := Option.some.inj h
    rw [List.map_nil, List.append_nil]
    exact ⟨rfl, rfl⟩
  | cons m items ih =>
    obtain ⟨next, hnext, hrest⟩ := Option.bind_eq_some_iff.1 h
    obtain ⟨rfl, hlength⟩ := aggregate_subframes hnext
    obtain ⟨hbytes, hsize⟩ := ih hrest
    rw [List.append_assoc] at hbytes
    refine ⟨hbytes, ?_⟩
    rw [hsize, hlength]
    rfl

/-- The size of a packet fits. -/
theorem aggregateAll_length {items : List (Item H × Bool)} {p ampdu : List UInt8} (hp : p.length < 2 ^ 32)
    (h : aggregateAll headerBytes p items = some ampdu) : ampdu.length < 2 ^ 32 := by
  induction items generalizing p with
  | nil => exact Option.some.inj h ▸ hp
  | cons m items ih =>
    obtain ⟨next, hnext, hrest⟩ := Option.bind_eq_some_iff.1 h
    refine ih ?_ hrest
    rw [aggregate] at hnext
    split at hnext
    · exact nomatch hnext
    · obtain ⟨padded, -, hadd⟩ := Option.bind_eq_some_iff.1 hnext
      exact (addAtEnd_some hadd).2

end

/-! ## Taking apart -/

theorem measured_remove (hm : m.2.length = m.1.length ∧ m.1.length < 2 ^ 14) (p : List UInt8) :
    AmpduSubframeHeader.remove (m.2.serialize ++ p) = some (m.2, p) :=
  AmpduSubframeHeader.remove_serialize m.2 (by rw [hm.1]; exact hm.2) p

/-- One round of the loop takes one subframe from the front, and the padding where bytes are left. -/
theorem deaggregateLoop_cons (hm : m.2.length = m.1.length ∧ m.1.length < 2 ^ 14) {maxSize : Nat} (tail : List UInt8)
    (hmax : n + (4 + m.1.length) ≤ maxSize) (hfits : maxSize < 2 ^ 32) :
    deaggregateLoop maxSize (fuel + 1) n (m.2.serialize ++ (m.1 ++ tail)) =
      if 0 < (4 - m.1.length % 4) % 4 ∧ n + 4 + m.1.length < maxSize then
        (deaggregateLoop maxSize fuel ((n + 4 + m.1.length + (4 - m.1.length % 4) % 4) % 2 ^ 32)
          (tail.drop ((4 - m.1.length % 4) % 4))).map (m :: ·)
      else (deaggregateLoop maxSize fuel (n + 4 + m.1.length) tail).map (m :: ·) := by
  have hfragment : createFragment (m.1 ++ tail) 0 m.1.length = some m.1 := by
    rw [createFragment_eq (by rw [List.length_append]; omega), slice, List.drop_zero, List.take_left]
  have hheader : (n + 4) % 2 ^ 32 = n + 4 := Nat.mod_eq_of_lt (by omega)
  have hbody : (n + 4 + m.1.length) % 2 ^ 32 = n + 4 + m.1.length := Nat.mod_eq_of_lt (by omega)
  rw [deaggregateLoop, if_pos (by omega), measured_remove hm]
  simp only [Option.bind_eq_bind, Option.bind_some, hm.1, hfragment, List.drop_left, decide_eq_true_eq, hheader, hbody]
  split
  · exact Option.map_eq_bind.symm
  · exact Option.map_eq_bind.symm

theorem deaggregateLoop_subframes (hms : Measured ms) (hfuel : ms.length < fuel) {maxSize : Nat} (hfits : maxSize < 2 ^ 32)
    (hsize : n + (subframes ms).flatten.length = maxSize) :
    deaggregateLoop maxSize fuel n (subframes ms).flatten = some ms := by
  induction ms generalizing n fuel with
  | nil =>
    obtain ⟨fuel, rfl⟩ : ∃ k, fuel = k + 1 := ⟨fuel - 1, by omega⟩
    have hend : ¬ n < maxSize := Nat.not_lt.2 (Nat.le_of_eq hsize.symm)
    rw [deaggregateLoop, if_neg hend]
  | cons m ms ih =>
    obtain ⟨fuel, rfl⟩ : ∃ k, fuel = k + 1 := ⟨fuel - 1, by omega⟩
    obtain ⟨hm, hrest⟩ := List.forall_mem_cons.1 hms
    have hfuel' : ms.length < fuel := Nat.lt_of_succ_lt_succ hfuel
    cases ms with
    | nil =>
      rw [length_flatten_singleton] at hsize
      have hloop := @ih (n + 4 + m.1.length) fuel hrest hfuel' (by rw [subframes, List.flatten_nil, List.length_nil]; omega)
      rw [flatten_singleton, ← List.append_nil m.1, deaggregateLoop_cons hm [] (by omega) hfits, if_neg (by omega)]
      exact congrArg (Option.map (m :: ·)) hloop
    | cons b ms =>
      have hmore := length_flatten_ge (b :: ms)
      rw [List.length_cons] at hmore
      rw [length_flatten_cons_cons] at hsize
      rw [flatten_cons_cons, deaggregateLoop_cons hm _ (by omega) hfits]
      split
      · next hpad =>
        have hnext : (n + 4 + m.1.length + (4 - m.1.length % 4) % 4) % 2 ^ 32 = n + 4 + m.1.length + (4 - m.1.length % 4) % 4 :=
          Nat.mod_eq_of_lt (by omega)
        rw [List.drop_left' (length_pad m), hnext, ih hrest hfuel' (by omega), Option.map_some]
      · next hpad =>
        have hzero : (4 - m.1.length % 4) % 4 = 0 := by omega
        rw [pad, hzero, List.replicate_zero, List.nil_append, ih hrest hfuel' (by omega), Option.map_some]

theorem deaggregate_subframes (hms : Measured ms) (hfits : (subframes ms).flatten.length < 2 ^ 32) :
    deaggregate (subframes ms).flatten = some ms := by
  have hlen := length_flatten_ge ms
  exact deaggregateLoop_subframes hms (by omega) hfits (Nat.zero_add _)

/-! ## Peeking -/

theorem createFragment_middle (before xs after : List UInt8) :
    createFragment (before ++ (xs ++ after)) before.length xs.length = some xs := by
  rw [createFragment_eq (by simp only [List.length_append]; omega), slice, List.drop_left, List.take_left]

/-- One round of the walk, at a subframe with or without padding. -/
theorem peekLoop_cons (hm : m.2.length = m.1.length ∧ m.1.length < 2 ^ 14) (before padding tail : List UInt8)
    (hfits : (before ++ ((m.2.serialize ++ (m.1 ++ padding)) ++ tail)).length < 2 ^ 32)
    (hpadding : padding = if tail = [] then [] else pad m) :
    peekLoop (before ++ ((m.2.serialize ++ (m.1 ++ padding)) ++ tail)) (fuel + 1) before.length =
      (peekLoop (before ++ ((m.2.serialize ++ (m.1 ++ padding)) ++ tail)) fuel
        (before ++ (m.2.serialize ++ (m.1 ++ padding))).length).map ((m.2.serialize ++ (m.1 ++ padding)) :: ·) := by
  obtain ⟨hlength, hshort⟩ := hm
  have hheader : createFragment (before ++ ((m.2.serialize ++ (m.1 ++ padding)) ++ tail)) before.length 4 = some m.2.serialize := by
    rw [List.append_assoc]
    exact createFragment_middle before m.2.serialize _
  have hremove : AmpduSubframeHeader.remove m.2.serialize = some (m.2, []) := by
    have hrest := measured_remove ⟨hlength, hshort⟩ []
    rwa [List.append_nil] at hrest
  have htotal : (before ++ ((m.2.serialize ++ (m.1 ++ padding)) ++ tail)).length =
      before.length + (4 + (m.1.length + padding.length)) + tail.length := by
    simp only [List.length_append, AmpduSubframeHeader.length_serialize]
    omega
  have hsubframe := createFragment_middle before (m.2.serialize ++ (m.1 ++ padding)) tail
  have hlen : (m.2.serialize ++ (m.1 ++ padding)).length = 4 + (m.1.length + padding.length) := by
    rw [List.length_append, List.length_append, AmpduSubframeHeader.length_serialize]
  rw [hlen] at hsubframe
  have hbody : (4 + m.1.length) % 2 ^ 16 = 4 + m.1.length := Nat.mod_eq_of_lt (by omega)
  have hextract : (if 0 < (4 - m.1.length % 4) % 4 ∧
        (before.length + (4 + m.1.length)) % 2 ^ 32 < (before ++ ((m.2.serialize ++ (m.1 ++ padding)) ++ tail)).length then
      (4 + m.1.length + (4 - m.1.length % 4) % 4) % 2 ^ 16 else 4 + m.1.length) = 4 + (m.1.length + padding.length) := by
    rw [htotal] at hfits ⊢
    rw [Nat.mod_eq_of_lt (a := before.length + (4 + m.1.length)) (by omega)]
    by_cases htail : tail = []
    · rw [hpadding, if_pos htail, htail]
      rw [if_neg (by simp)]
      rfl
    · have hpos := List.length_pos_iff.2 htail
      rw [hpadding, if_neg htail, length_pad]
      split
      · rw [Nat.mod_eq_of_lt (by omega)]
        omega
      · omega
  have hnext : (before.length + (4 + (m.1.length + padding.length))) % 2 ^ 32 =
      (before ++ (m.2.serialize ++ (m.1 ++ padding))).length := by
    rw [htotal] at hfits
    rw [List.length_append, hlen, Nat.mod_eq_of_lt (by omega)]
  rw [peekLoop, if_pos (by rw [htotal]; omega), hheader]
  simp only [Option.bind_eq_bind, Option.bind_some, hremove, hlength, hbody, hextract, hsubframe, hnext]
  exact Option.map_eq_bind.symm

theorem peekLoop_subframes (hms : Measured ms) (hfuel : ms.length < fuel) (before : List UInt8)
    (hfits : (before ++ (subframes ms).flatten).length < 2 ^ 32) :
    peekLoop (before ++ (subframes ms).flatten) fuel before.length = some (subframes ms) := by
  induction ms generalizing before fuel with
  | nil =>
    obtain ⟨fuel, rfl⟩ : ∃ k, fuel = k + 1 := ⟨fuel - 1, by omega⟩
    have hend : ¬ before.length < (before ++ (subframes []).flatten).length := by
      rw [subframes, List.flatten_nil, List.append_nil]
      exact Nat.lt_irrefl _
    rw [peekLoop, if_neg hend]
    rfl
  | cons m ms ih =>
    obtain ⟨fuel, rfl⟩ : ∃ k, fuel = k + 1 := ⟨fuel - 1, by omega⟩
    obtain ⟨hm, hrest⟩ := List.forall_mem_cons.1 hms
    have hfuel' : ms.length < fuel := Nat.lt_of_succ_lt_succ hfuel
    cases ms with
    | nil =>
      have hwhole : (subframes [m]).flatten = (m.2.serialize ++ (m.1 ++ [])) ++ (subframes []).flatten := by
        rw [flatten_singleton, List.append_nil]
        exact (List.append_nil _).symm
      have hloop := ih hrest hfuel' (before ++ (m.2.serialize ++ (m.1 ++ []))) (by rw [List.append_assoc, ← hwhole]; exact hfits)
      rw [List.append_assoc] at hloop
      rw [hwhole] at hfits ⊢
      rw [peekLoop_cons hm before [] _ hfits rfl, hloop, List.append_nil]
      rfl
    | cons b ms =>
      have hwhole : (subframes (m :: b :: ms)).flatten = (m.2.serialize ++ (m.1 ++ pad m)) ++ (subframes (b :: ms)).flatten := rfl
      have hne : (subframes (b :: ms)).flatten ≠ [] := by
        have hge := length_flatten_ge (b :: ms)
        rw [List.length_cons] at hge
        exact List.ne_nil_of_length_pos (by omega)
      have hloop := ih hrest hfuel' (before ++ (m.2.serialize ++ (m.1 ++ pad m))) (by rw [List.append_assoc, ← hwhole]; exact hfits)
      rw [List.append_assoc] at hloop
      rw [hwhole] at hfits ⊢
      rw [peekLoop_cons hm before (pad m) _ hfits (if_neg hne).symm, hloop]
      rfl

theorem peekAmpduSubframes_subframes (hms : Measured ms) (hfits : (subframes ms).flatten.length < 2 ^ 32) :
    peekAmpduSubframes (subframes ms).flatten = some (subframes ms) := by
  have hlen := length_flatten_ge ms
  exact peekLoop_subframes hms (by omega) [] hfits

theorem peekMpduInAmpduSubframe_eq (hm : m.2.length = m.1.length ∧ m.1.length < 2 ^ 14) (padding : List UInt8) :
    peekMpduInAmpduSubframe (m.2.serialize ++ (m.1 ++ padding)) = some m.1 := by
  rw [peekMpduInAmpduSubframe, measured_remove hm]
  simp only [Option.bind_eq_bind, Option.bind_some, hm.1]
  exact createFragment_middle m.2.serialize m.1 padding

theorem peekMpdus_subframes (hms : Measured ms) (hfits : (subframes ms).flatten.length < 2 ^ 32) :
    peekMpdus (subframes ms).flatten = some (ms.map Prod.fst) := by
  have hmap : (subframes ms).mapM peekMpduInAmpduSubframe = some (ms.map Prod.fst) := by
    clear hfits
    induction ms with
    | nil => rfl
    | cons m ms ih =>
      obtain ⟨hm, hrest⟩ := List.forall_mem_cons.1 hms
      cases ms with
      | nil =>
        have hone := peekMpduInAmpduSubframe_eq hm []
        rw [List.append_nil] at hone
        simp [subframes, List.mapM_cons, hone]
      | cons b ms =>
        rw [subframes, List.mapM_cons, peekMpduInAmpduSubframe_eq hm (pad m)]
        simp only [Option.bind_eq_bind, Option.bind_some, ih hrest]
        rfl
  rw [peekMpdus, peekAmpduSubframes_subframes hms hfits]
  exact hmap

/-! ## The round trip -/

theorem ampdu_round_trip {H : Type} {headerBytes : H → List UInt8} {items : List (Item H × Bool)} {ampdu : List UInt8}
    (hshort : ∀ m ∈ items, (m.1.mpdu headerBytes).length < 2 ^ 14) (h : aggregateAll headerBytes [] items = some ampdu) :
    deaggregate ampdu =
        some (items.map fun m => (m.1.mpdu headerBytes, subframeHeader (m.1.mpdu headerBytes) m.2)) ∧
      peekMpdus ampdu = some (items.map fun m => m.1.mpdu headerBytes) ∧
      (∃ ampduSubframes, peekAmpduSubframes ampdu = some ampduSubframes ∧ ampduSubframes.flatten = ampdu) ∧
      ampdu.length = (items.map fun m => (m.1.mpdu headerBytes).length).foldl
        (fun size mpduSize => getSizeIfAggregated mpduSize size) 0 := by
  have hfits := aggregateAll_length (by decide) h
  have hempty : aggregateAll headerBytes (subframes []).flatten items = some ampdu := h
  obtain ⟨hbytes, hsize⟩ := aggregateAll_subframes hempty
  rw [List.nil_append] at hbytes
  have hms : Measured (items.map (subframe headerBytes)) := by
    intro m hm
    obtain ⟨item, hitem, rfl⟩ := List.mem_map.1 hm
    exact subframe_length (hshort item hitem)
  rw [hbytes] at hfits
  refine ⟨?_, ?_, ?_, hsize⟩
  · rw [hbytes, deaggregate_subframes hms hfits]
    rfl
  · rw [hbytes, peekMpdus_subframes hms hfits, List.map_map]
    rfl
  · exact ⟨subframes (items.map (subframe headerBytes)), by rw [hbytes, peekAmpduSubframes_subframes hms hfits], hbytes.symm⟩

/-- Two MPDUs, of five and of four bytes, with an empty MAC header. -/
theorem ampdu_round_trip_two : deaggregate [5, 0, 1, 78, 7, 0, 0, 0, 0, 0, 0, 0, 4, 0, 1, 78, 0, 0, 0, 0] =
      some [([7, 0, 0, 0, 0], ⟨5, false, 0x4E⟩), ([0, 0, 0, 0], ⟨4, false, 0x4E⟩)] ∧
    peekMpdus [5, 0, 1, 78, 7, 0, 0, 0, 0, 0, 0, 0, 4, 0, 1, 78, 0, 0, 0, 0] = some [[7, 0, 0, 0, 0], [0, 0, 0, 0]] := by
  have htrip := @ampdu_round_trip Unit (fun _ => []) [(⟨[7], ()⟩, false), (⟨[], ()⟩, false)]
    [5, 0, 1, 78, 7, 0, 0, 0, 0, 0, 0, 0, 4, 0, 1, 78, 0, 0, 0, 0] (by decide) (by decide)
  exact ⟨htrip.1, htrip.2.1⟩

end MpduAggregator

end Ns3Raft.Wifi
