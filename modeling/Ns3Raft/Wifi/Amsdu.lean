import Mathlib.Data.List.Basic
import Mathlib.Data.UInt
import Ns3Raft.Net.PacketBytes
import Ns3Raft.Wifi.MacQueue

/-! # A-MSDUs

Subframes are put behind each other, each one behind a multiple of four bytes, and
are taken apart by the lengths in their headers.
-/

namespace Ns3Raft.Wifi

open Net Slices

structure AmsduSubframeHeader where
  da : Mac48Address
  sa : Mac48Address
  length : Nat
  deriving DecidableEq

/-- `WriteHtonU16`. -/
def htonU16 (n : Nat) : List UInt8 := [UInt8.ofNat (n / 256), UInt8.ofNat n]

namespace AmsduSubframeHeader

def serialize (h : AmsduSubframeHeader) : List UInt8 := h.da.octets ++ (h.sa.octets ++ htonU16 h.length)

/-- `RemoveHeader`; a packet that is shorter than the header ends the program. -/
def remove (p : List UInt8) : Option (AmsduSubframeHeader × List UInt8) := do
  let da ← Mac48Address.copyFrom p
  let sa ← Mac48Address.copyFrom (p.drop 6)
  match p.drop 12 with
  | high :: low :: rest => some (⟨da, sa, high.toNat * 256 + low.toNat⟩, rest)
  | _ => none

theorem length_serialize (h : AmsduSubframeHeader) : h.serialize.length = 14 := by
  rw [serialize, List.length_append, List.length_append, h.da.length, h.sa.length]
  rfl

theorem remove_serialize (h : AmsduSubframeHeader) (hlt : h.length < 2 ^ 16) (p : List UInt8) :
    remove (h.serialize ++ p) = some (h, p) := by
  have hsplit : h.serialize ++ p = h.da.octets ++ (h.sa.octets ++ (htonU16 h.length ++ p)) := by
    rw [serialize, List.append_assoc, List.append_assoc]
  have hdrop : (h.serialize ++ p).drop 12 = htonU16 h.length ++ p := by
    rw [hsplit, show 12 = 6 + 6 from rfl, ← List.drop_drop, Mac48Address.drop_append, Mac48Address.drop_append]
  have hhigh : (UInt8.ofNat (h.length / 256)).toNat = h.length / 256 := by
    rw [UInt8.toNat_ofNat']
    omega
  have hlow : (UInt8.ofNat h.length).toNat = h.length % 256 := UInt8.toNat_ofNat'
  rw [remove, hdrop, hsplit, Mac48Address.copyFrom_append, Mac48Address.drop_append, Mac48Address.copyFrom_append]
  simp only [htonU16, List.cons_append, List.nil_append, Option.bind_eq_bind, Option.bind_some, hhigh, hlow]
  rw [show h.length / 256 * 256 + h.length % 256 = h.length by omega]

end AmsduSubframeHeader

/-- The size comes as a `uint16_t`. -/
def calculatePadding (amsduSize : Nat) : Nat := (4 - amsduSize % 2 ^ 16 % 4) % 4

/-- Both sizes and the result are a `uint16_t`. -/
def getSizeIfAggregated (msduSize amsduSize : Nat) : Nat :=
  (amsduSize % 2 ^ 16 + calculatePadding amsduSize + 14 + msduSize % 2 ^ 16) % 2 ^ 16

def aggregate (msdu amsdu : List UInt8) (src dest : Mac48Address) : List UInt8 :=
  let padded := if 0 < amsdu.length then amsdu ++ List.replicate (calculatePadding amsdu.length) 0 else amsdu
  padded ++ (AmsduSubframeHeader.serialize ⟨dest, src, msdu.length % 2 ^ 16⟩ ++ msdu)

/-- The loop of `Deaggregate`; without `fuel` it has not come to its end. -/
def deaggregateLoop (maxSize : Nat) :
    Nat → Nat → List UInt8 → Option (List (List UInt8 × AmsduSubframeHeader))
  | 0, _, _ => none
  | fuel + 1, deserialized, p =>
      if deserialized < maxSize then do
        let (hdr, p) ← AmsduSubframeHeader.remove p
        let deserialized := deserialized + 14
        let extractedMsdu ← createFragment p 0 hdr.length
        let p := p.drop hdr.length
        let deserialized := deserialized + hdr.length
        let padding := (4 - (hdr.length + 14) % 4) % 4
        let again := decide (0 < padding ∧ deserialized < maxSize)
        let set ← deaggregateLoop maxSize fuel (if again then deserialized + padding else deserialized)
          (if again then p.drop padding else p)
        some ((extractedMsdu, hdr) :: set)
      else some []

def deaggregate (p : List UInt8) : Option (List (List UInt8 × AmsduSubframeHeader)) :=
  deaggregateLoop p.length (p.length + 1) 0 p

/-! ## The round trip -/

/-- Subframes with the padding between them. -/
def subframes : List (List UInt8 × AmsduSubframeHeader) → List UInt8
  | [] => []
  | [m] => m.2.serialize ++ m.1
  | m :: ms => m.2.serialize ++ (m.1 ++ (List.replicate ((4 - (m.1.length + 14) % 4) % 4) 0 ++ subframes ms))

/-- Headers that tell the length of what follows them. -/
def Measured (ms : List (List UInt8 × AmsduSubframeHeader)) : Prop :=
  ∀ m ∈ ms, m.2.length = m.1.length ∧ m.1.length < 2 ^ 16

variable {m b : List UInt8 × AmsduSubframeHeader} {ms : List (List UInt8 × AmsduSubframeHeader)} {n fuel : Nat}

theorem subframes_singleton : subframes [m] = m.2.serialize ++ m.1 := rfl

theorem subframes_cons_cons : subframes (m :: b :: ms) =
    m.2.serialize ++ (m.1 ++ (List.replicate ((4 - (m.1.length + 14) % 4) % 4) 0 ++ subframes (b :: ms))) := rfl

theorem length_subframes_cons_cons : (subframes (m :: b :: ms)).length =
    14 + (m.1.length + ((4 - (m.1.length + 14) % 4) % 4 + (subframes (b :: ms)).length)) := by
  rw [subframes_cons_cons, List.length_append, List.length_append, List.length_append,
    AmsduSubframeHeader.length_serialize, List.length_replicate]

theorem calculatePadding_eq : calculatePadding n = (4 - n % 4) % 4 := by
  rw [calculatePadding, Nat.mod_mod_of_dvd n (by decide)]

theorem length_subframes_le : 14 * ms.length ≤ (subframes ms).length := by
  induction ms with
  | nil => exact Nat.le_refl _
  | cons m ms ih =>
      cases ms with
      | nil =>
          rw [subframes_singleton, List.length_append, AmsduSubframeHeader.length_serialize]
          exact Nat.le_add_right 14 _
      | cons b ms =>
          rw [length_subframes_cons_cons, List.length_cons]
          omega

/-- One more subframe, behind the padding of those before it. -/
theorem subframes_concat (hne : ms ≠ []) : subframes (ms ++ [m]) =
    subframes ms ++ (List.replicate (calculatePadding (subframes ms).length) 0 ++ (m.2.serialize ++ m.1)) := by
  induction ms with
  | nil => exact absurd rfl hne
  | cons a ms ih =>
      cases ms with
      | nil =>
          have hpad : calculatePadding (subframes [a]).length = (4 - (a.1.length + 14) % 4) % 4 := by
            rw [calculatePadding_eq, subframes_singleton, List.length_append, AmsduSubframeHeader.length_serialize,
              Nat.add_comm 14]
          rw [hpad, List.singleton_append, subframes_cons_cons, subframes_singleton, subframes_singleton,
            List.append_assoc]
      | cons b ms =>
          have hpad : calculatePadding (subframes (a :: b :: ms)).length =
              calculatePadding (subframes (b :: ms)).length := by
            rw [calculatePadding_eq, calculatePadding_eq, length_subframes_cons_cons]
            omega
          have hmore : subframes (a :: b :: ms ++ [m]) = a.2.serialize ++ (a.1 ++
              (List.replicate ((4 - (a.1.length + 14) % 4) % 4) 0 ++ subframes (b :: ms ++ [m]))) := rfl
          rw [hmore, hpad, ih (List.cons_ne_nil b ms), subframes_cons_cons]
          simp only [List.append_assoc]

theorem aggregate_subframes (src dest : Mac48Address) (msdu : List UInt8) (hlt : msdu.length < 2 ^ 16) :
    aggregate msdu (subframes ms) src dest = subframes (ms ++ [(msdu, ⟨dest, src, msdu.length⟩)]) := by
  rw [aggregate, Nat.mod_eq_of_lt hlt]
  by_cases hnil : ms = []
  · subst hnil
    rfl
  · have hlen := @length_subframes_le ms
    have hpos := List.length_pos_iff.mpr hnil
    rw [if_pos (by omega), subframes_concat hnil, List.append_assoc]

/-- One round of the loop takes one subframe from the front, and the padding where bytes are left. -/
theorem deaggregateLoop_cons (hlength : m.2.length = m.1.length) (hlt : m.1.length < 2 ^ 16) (maxSize : Nat)
    (hmore : n < maxSize) (tail : List UInt8) :
    deaggregateLoop maxSize (fuel + 1) n (m.2.serialize ++ (m.1 ++ tail)) =
      if 0 < (4 - (m.1.length + 14) % 4) % 4 ∧ n + 14 + m.1.length < maxSize then
        (deaggregateLoop maxSize fuel (n + 14 + m.1.length + (4 - (m.1.length + 14) % 4) % 4)
          (tail.drop ((4 - (m.1.length + 14) % 4) % 4))).map (m :: ·)
      else (deaggregateLoop maxSize fuel (n + 14 + m.1.length) tail).map (m :: ·) := by
  have hfragment : createFragment (m.1 ++ tail) 0 m.1.length = some m.1 := by
    rw [createFragment_eq (by rw [List.length_append]; omega), slice, List.drop_zero, List.take_left]
  rw [deaggregateLoop, if_pos hmore, AmsduSubframeHeader.remove_serialize m.2 (hlength ▸ hlt)]
  simp only [Option.bind_eq_bind, Option.bind_some, hlength, hfragment, List.drop_left, decide_eq_true_eq]
  split
  · exact Option.map_eq_bind.symm
  · exact Option.map_eq_bind.symm

theorem deaggregateLoop_subframes (hms : Measured ms) (hfuel : ms.length < fuel) (maxSize : Nat)
    (hsize : n + (subframes ms).length = maxSize) : deaggregateLoop maxSize fuel n (subframes ms) = some ms := by
  induction ms generalizing n fuel with
  | nil =>
      obtain ⟨fuel, rfl⟩ : ∃ k, fuel = k + 1 := ⟨fuel - 1, by omega⟩
      have hend : ¬n < maxSize := Nat.not_lt.mpr (Nat.le_of_eq hsize.symm)
      rw [deaggregateLoop, if_neg hend]
  | cons m ms ih =>
      obtain ⟨fuel, rfl⟩ : ∃ k, fuel = k + 1 := ⟨fuel - 1, by omega⟩
      obtain ⟨⟨hlength, hlt⟩, hrest⟩ := List.forall_mem_cons.mp hms
      have hfuel' : ms.length < fuel := Nat.lt_of_succ_lt_succ hfuel
      cases ms with
      | nil =>
          rw [subframes_singleton, List.length_append, AmsduSubframeHeader.length_serialize] at hsize
          have hloop := @ih (n + 14 + m.1.length) fuel hrest hfuel' (by rw [subframes, List.length_nil]; omega)
          rw [subframes_singleton, ← List.append_nil m.1, deaggregateLoop_cons hlength hlt maxSize (by omega),
            if_neg (by omega)]
          exact congrArg (Option.map (m :: ·)) hloop
      | cons b ms =>
          have hhead := @length_subframes_le (b :: ms)
          rw [List.length_cons] at hhead
          rw [length_subframes_cons_cons] at hsize
          rw [subframes_cons_cons, deaggregateLoop_cons hlength hlt maxSize (by omega)]
          split
          · next hpad =>
              rw [List.drop_left' List.length_replicate, ih hrest hfuel' (by omega), Option.map_some]
          · next hpad =>
              have hzero : (4 - (m.1.length + 14) % 4) % 4 = 0 := by omega
              rw [hzero, List.replicate_zero, List.nil_append, ih hrest hfuel' (by omega), Option.map_some]

theorem deaggregate_subframes (hms : Measured ms) : deaggregate (subframes ms) = some ms := by
  have hlen := @length_subframes_le ms
  exact deaggregateLoop_subframes hms (by omega) _ (Nat.zero_add _)

end Ns3Raft.Wifi
