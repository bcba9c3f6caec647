import Mathlib.Data.UInt
import Ns3Raft.Net.PacketBytes

/-! # Fragments of a datagram

A router splits what does not fit its link, be it a datagram or a fragment of one. All
that travels are pieces of the datagram that say where they belong.
-/

namespace Ns3Raft.Net

open Slices

/-- What `Ipv4Header` has for fragmentation; there are no options, so that it takes 20 bytes. -/
structure Ipv4Header where
  source : UInt32
  destination : UInt32
  identification : UInt16
  protocol : UInt8
  payloadSize : Nat
  fragmentOffset : Nat
  moreFragments : Bool
  deriving DecidableEq, Repr

namespace Ipv4Header

def serializedSize : Nat := 20

/-- It aborts unless the offset is a multiple of 8 bytes. -/
def setFragmentOffset (h : Ipv4Header) (offsetBytes : Nat) : Option Ipv4Header :=
  if offsetBytes % 2 ^ 16 % 8 = 0 then some { h with fragmentOffset := offsetBytes % 2 ^ 16 } else none

def setPayloadSize (h : Ipv4Header) (size : Nat) : Ipv4Header := { h with payloadSize := size % 2 ^ 16 }

def isLastFragment (h : Ipv4Header) : Bool := !h.moreFragments

end Ipv4Header

abbrev Ipv4PayloadHeaderPair : Type := List UInt8 × Ipv4Header

/-- What is left of the MTU for the payload, in units of 8 bytes. -/
def fragmentSize (outIfaceMtu : Nat) : Nat := (outIfaceMtu + 2 ^ 32 - Ipv4Header.serializedSize) % 2 ^ 32 / 8 * 8

/-- The loop of `DoFragmentation` from an offset on. -/
def fragmentLoop (fragmentSize : Nat) (p : List UInt8) (ipv4Header : Ipv4Header) :
    Nat → Nat → Option (List Ipv4PayloadHeaderPair)
  | 0, _ => none
  | fuel + 1, offset =>
      let moreFragment := decide ((offset + fragmentSize) % 2 ^ 32 < p.length)
      let size := if moreFragment then fragmentSize else p.length - offset
      let header := { ipv4Header with moreFragments := moreFragment || !ipv4Header.isLastFragment }
      (createFragment p offset size).bind fun fragment =>
        (header.setFragmentOffset (offset + ipv4Header.fragmentOffset)).bind fun header =>
          (if moreFragment then fragmentLoop fragmentSize p ipv4Header fuel ((offset + size) % 2 ^ 16) else some []).map
            fun listFragments => (fragment, header.setPayloadSize size) :: listFragments

/-- `DoFragmentation`; each fragment but the last takes bytes. -/
def doFragmentation (packet : List UInt8) (ipv4Header : Ipv4Header) (outIfaceMtu : Nat) :
    Option (List Ipv4PayloadHeaderPair) :=
  fragmentLoop (fragmentSize outIfaceMtu) packet ipv4Header (packet.length + 1) 0

/-- What `SendRealOut` gives to the interface. -/
def sendRealOut (packet : List UInt8) (ipHeader : Ipv4Header) (mtu : Nat) : Option (List Ipv4PayloadHeaderPair) :=
  if mtu < packet.length + Ipv4Header.serializedSize then doFragmentation packet ipHeader mtu
  else some [(packet, ipHeader)]

structure Datagram where
  source : UInt32
  destination : UInt32
  identification : UInt16
  protocol : UInt8
  payload : List UInt8
  deriving DecidableEq, Repr

namespace Datagram

def header (d : Datagram) : Ipv4Header :=
  ⟨d.source, d.destination, d.identification, d.protocol, d.payload.length, 0, false⟩

/-- Bytes of the datagram with a header that says which. -/
structure Piece (d : Datagram) (f : Ipv4PayloadHeaderPair) : Prop where
  header : f.2 = { d.header with
    payloadSize := f.1.length
    fragmentOffset := f.2.fragmentOffset
    moreFragments := decide (f.2.fragmentOffset + f.1.length < d.payload.length) }
  bytes : f.1 = slice d.payload f.2.fragmentOffset f.1.length
  inside : f.2.fragmentOffset + f.1.length ≤ d.payload.length
  nonempty : d.payload ≠ [] → f.1 ≠ []
  aligned : f.2.fragmentOffset % 8 = 0
  -- only the last piece ends within a unit
  full : f.2.fragmentOffset + f.1.length < d.payload.length → f.1.length % 8 = 0

variable {d : Datagram} {f g : Ipv4PayloadHeaderPair} {fs : List Ipv4PayloadHeaderPair} {mtu n fuel offset : Nat}

theorem piece_self (d : Datagram) : d.Piece (d.payload, d.header) where
  header := by simp [header]
  bytes := by rw [slice, header, List.drop_zero, List.take_length]
  inside := Nat.le_of_eq (Nat.zero_add _)
  nonempty h := h
  aligned := rfl
  full h := absurd h (by simp [header])

theorem Piece.more (hf : d.Piece f) : f.2.moreFragments = decide (f.2.fragmentOffset + f.1.length < d.payload.length) := by
  rw [hf.header]

theorem Piece.payloadSize_eq (hf : d.Piece f) : f.2.payloadSize = f.1.length := by rw [hf.header]

/-- A part of a piece, in whole units unless it goes to the end. -/
theorem Piece.part (offset n : Nat) (hf : d.Piece f) (hin : offset + n ≤ f.1.length) (hn : 0 < n) (halign : offset % 8 = 0)
    (hunit : n % 8 = 0 ∨ offset + n = f.1.length) :
    d.Piece (slice f.1 offset n,
      { f.2 with
        payloadSize := n
        fragmentOffset := offset + f.2.fragmentOffset
        moreFragments := decide (offset + f.2.fragmentOffset + n < d.payload.length) }) := by
  have hlen := length_slice hin
  have hinside := hf.inside
  have haligned := hf.aligned
  refine ⟨?_, ?_, ?_, fun _ => List.ne_nil_of_length_pos (by dsimp only; omega), ?_, fun hlt => ?_⟩
  · rw [hlen]
    conv_lhs => rw [hf.header]
  · rw [hlen]
    conv_lhs => rw [hf.bytes, slice_slice hin, Nat.add_comm]
  · dsimp only
    omega
  · dsimp only
    omega
  · rw [hlen] at hlt ⊢
    rcases hunit with hunit | hend
    · exact hunit
    · have := hf.full (by dsimp only at hlt; omega)
      omega

/-- The loop goes on to the end in pieces of the size that fits. -/
theorem Piece.fragmentLoop (n fuel offset : Nat) (hf : d.Piece f) (hd : d.payload.length ≤ 65515) (hn : 0 < n) (hunit : n % 8 = 0)
    (hmax : n < 2 ^ 16) (hoff : offset < f.1.length) (halign : offset % 8 = 0) (hfuel : f.1.length < offset + fuel) :
    ∃ fs, fragmentLoop n f.1 f.2 fuel offset = some fs ∧ (fs.map (·.1)).flatten = f.1.drop offset ∧
      ∀ g ∈ fs, d.Piece g ∧ g.1.length ≤ n := by
  have hinside := hf.inside
  have haligned := hf.aligned
  have hmore := hf.more
  induction fuel generalizing offset with
  | zero => omega
  | succ fuel ih =>
      have hset : ∀ h : Ipv4Header, h.setFragmentOffset (offset + f.2.fragmentOffset) =
          some { h with fragmentOffset := offset + f.2.fragmentOffset } := fun h => by
        rw [Ipv4Header.setFragmentOffset, Nat.mod_eq_of_lt (a := offset + f.2.fragmentOffset) (by omega), if_pos (by omega)]
      rw [Ns3Raft.Net.fragmentLoop, Nat.mod_eq_of_lt (a := offset + n) (by omega)]
      by_cases hlt : offset + n < f.1.length
      · obtain ⟨fs, hloop, hflat, hall⟩ := @ih (offset + n) hlt (by omega) (by omega)
        have hpart := hf.part offset n (Nat.le_of_lt hlt) hn halign (Or.inl hunit)
        have hlen : (slice f.1 offset n).length = n := length_slice (by omega)
        rw [decide_eq_true (by omega)] at hpart
        simp only [hlt, decide_true, if_true, createFragment_eq (Nat.le_of_lt hlt), Option.bind_some, hset,
          Nat.mod_eq_of_lt (show offset + n < 2 ^ 16 by omega), hloop, Option.map_some, Bool.true_or,
          Ipv4Header.setPayloadSize, Nat.mod_eq_of_lt hmax]
        refine ⟨_, rfl, ?_, List.forall_mem_cons.mpr ⟨⟨hpart, Nat.le_of_eq hlen⟩, hall⟩⟩
        rw [List.map_cons, List.flatten_cons, hflat, slice, ← List.drop_drop, List.take_append_drop]
      · have hpart := hf.part offset (f.1.length - offset) (by omega) (by omega) halign (by omega)
        have hlen : (slice f.1 offset (f.1.length - offset)).length = f.1.length - offset := length_slice (by omega)
        have hend : offset + f.2.fragmentOffset + (f.1.length - offset) = f.2.fragmentOffset + f.1.length := by omega
        rw [hend, ← hmore] at hpart
        simp only [hlt, decide_false, Bool.false_eq_true, if_false,
          createFragment_eq (show offset + (f.1.length - offset) ≤ f.1.length by omega), Option.bind_some, hset,
          Option.map_some, Bool.false_or, Ipv4Header.isLastFragment, Bool.not_not, Ipv4Header.setPayloadSize,
          Nat.mod_eq_of_lt (show f.1.length - offset < 2 ^ 16 by omega)]
        refine ⟨_, rfl, ?_, List.forall_mem_singleton.mpr ⟨hpart, by dsimp only; omega⟩⟩
        rw [List.map_singleton, List.flatten_singleton, slice,
          List.take_of_length_le (Nat.le_of_eq List.length_drop)]

/-- A router of the path sends pieces that fit, and all of what it has. -/
theorem Piece.sendRealOut (hf : d.Piece f) (hd : d.payload.length ≤ 65515) (hmtu : 68 ≤ mtu) :
    ∃ fs, sendRealOut f.1 f.2 mtu = some fs ∧ (fs.map (·.1)).flatten = f.1 ∧
      ∀ g ∈ fs, d.Piece g ∧ g.1.length + Ipv4Header.serializedSize ≤ mtu := by
  have hinside := hf.inside
  have hsize : Ipv4Header.serializedSize = 20 := rfl
  rw [Ns3Raft.Net.sendRealOut]
  split
  · next hlt =>
      have hfit : fragmentSize mtu = (mtu - 20) / 8 * 8 := by
        rw [fragmentSize]
        omega
      obtain ⟨fs, hloop, hflat, hall⟩ := hf.fragmentLoop (fragmentSize mtu) (f.1.length + 1) 0 hd
        (by omega) (by omega) (by omega) (by omega) rfl (by omega)
      exact ⟨fs, hloop, hflat, fun g hg => ⟨(hall g hg).1, by have := (hall g hg).2; omega⟩⟩
  · next hle => exact ⟨[f], rfl, by simp, List.forall_mem_singleton.mpr ⟨hf, by omega⟩⟩

/-- What may be on a link: the datagram is sent, and every router may split what it has. -/
inductive Travels (d : Datagram) : Ipv4PayloadHeaderPair → Prop where
  | sent : Travels d (d.payload, d.header)
  | forwarded {f g : Ipv4PayloadHeaderPair} {fs : List Ipv4PayloadHeaderPair} {mtu : Nat} :
      Travels d f → 68 ≤ mtu → sendRealOut f.1 f.2 mtu = some fs → g ∈ fs → Travels d g

theorem Travels.piece (hf : d.Travels f) (hd : d.payload.length ≤ 65515) : d.Piece f := by
  induction hf with
  | sent => exact d.piece_self
  | forwarded _ hmtu hsend hmem ih =>
      obtain ⟨fs, heq, -, hall⟩ := ih.sendRealOut hd hmtu
      rw [hsend] at heq
      obtain rfl := Option.some.inj heq
      exact (hall _ hmem).1

/-- What a router sends for a fragment. -/
def forward (mtu : Nat) (f : Ipv4PayloadHeaderPair) : List Ipv4PayloadHeaderPair := (sendRealOut f.1 f.2 mtu).getD []

theorem Travels.forward (hf : d.Travels f) (hmtu : 68 ≤ mtu) (hg : g ∈ forward mtu f) : d.Travels g := by
  rw [Datagram.forward] at hg
  cases hsend : Ns3Raft.Net.sendRealOut f.1 f.2 mtu with
  | none =>
      rw [hsend] at hg
      cases hg
  | some fs =>
      rw [hsend] at hg
      exact hf.forwarded hmtu hsend hg

end Datagram

end Ns3Raft.Net
