import Ns3Raft.Net.PacketBytes
import Ns3Raft.Net.SequenceNumber

/-! # The receive buffer of TCP

Segments are stored by their sequence numbers, trimmed to what is not there yet, until
the application takes what is in order.
-/

namespace Ns3Raft.Net

open Sequence Slices

/-- `m_data` has its keys in order; a packet is its bytes, and a block of the SACK list its two edges. -/
structure TcpRxBuffer (κ : Type) where
  nextRxSeq : κ
  finSeq : κ
  gotFin : Bool
  size : Nat
  maxBuffer : Nat
  availBytes : Nat
  data : List (κ × List UInt8)
  sackList : List (κ × κ)
  deriving DecidableEq, Repr

namespace TcpRxBuffer

variable {κ : Type} [DecidableEq κ] [Sequence κ]

def maxRxSequence (b : TcpRxBuffer κ) : κ :=
  if b.gotFin then b.finSeq
  else
    match b.data with
    | (k, _) :: _ => if gt b.nextRxSeq k then add k b.maxBuffer else add b.nextRxSeq b.maxBuffer
    | [] => add b.nextRxSeq b.maxBuffer

/-! ## SACK -/

/-- The first of the other blocks that is adjacent to the new one is merged into it. -/
def mergeBlock (new : κ × κ) : List (κ × κ) → Option ((κ × κ) × List (κ × κ))
  | [] => none
  | current :: rest =>
      if new.1 = current.2 then some ((current.1, new.2), rest)
      else if new.2 = current.1 then some ((new.1, current.2), rest)
      else (mergeBlock new rest).map fun r => (r.1, current :: r.2)

/-- The loop of `UpdateSackList`, which starts again behind a merged block. -/
def mergeBlocks : Nat → κ × κ → List (κ × κ) → List (κ × κ)
  | 0, new, others => new :: others
  | fuel + 1, new, others =>
      match mergeBlock new others with
      | some (merged, rest) => mergeBlocks fuel merged rest
      | none => new :: others

/-- The list with a new block in front; four blocks fit into a header. -/
def pushBlock (sackList : List (κ × κ)) (new : κ × κ) : List (κ × κ) :=
  let merged := mergeBlocks sackList.length new sackList
  if 4 < merged.length then merged.dropLast else merged

def updateSackList (b : TcpRxBuffer κ) (head tail : κ) : TcpRxBuffer κ :=
  { b with sackList := pushBlock b.sackList (head, tail) }

def clearSackList (b : TcpRxBuffer κ) (seq : κ) : TcpRxBuffer κ :=
  { b with sackList := b.sackList.filter fun block => !le block.2 seq }

/-! ## Adding -/

/-- What the loop of `Add` has found. -/
structure Trimmed (κ : Type) where
  data : List (κ × List UInt8)
  headSeq : κ
  tailSeq : κ
  size : Nat

/-- The loop that removes the overlapped bytes from the packet. -/
def removeOverlap : List (κ × List UInt8) → κ → κ → Nat → Trimmed κ
  | [], headSeq, tailSeq, size => ⟨[], headSeq, tailSeq, size⟩
  | (k, p) :: data, headSeq, tailSeq, size =>
      if le k tailSeq then
        let lastByteSeq := add k p.length
        if gt lastByteSeq headSeq then
          -- the stored packet is embedded in the new one
          if gt k headSeq && lt lastByteSeq tailSeq then removeOverlap data headSeq tailSeq (size - p.length)
          else
            let headSeq' := if le k headSeq then lastByteSeq else headSeq
            let tailSeq' := if ge lastByteSeq tailSeq then k else tailSeq
            let r := removeOverlap data headSeq' tailSeq' size
            { r with data := (k, p) :: r.data }
        else
          let r := removeOverlap data headSeq tailSeq size
          { r with data := (k, p) :: r.data }
      else ⟨(k, p) :: data, headSeq, tailSeq, size⟩

/-- `m_data[headSeq] = p`. -/
def insertData (headSeq : κ) (p : List UInt8) : List (κ × List UInt8) → List (κ × List UInt8)
  | [] => [(headSeq, p)]
  | (k, q) :: data =>
      if lt k headSeq then (k, q) :: insertData headSeq p data
      else if lt headSeq k then (headSeq, p) :: (k, q) :: data
      else (k, p) :: data

/-- The loop over what has become contiguous. -/
def advance : List (κ × List UInt8) → TcpRxBuffer κ → TcpRxBuffer κ
  | [], b => b
  | (k, p) :: data, b =>
      if lt k b.nextRxSeq then advance data b
      else if gt k b.nextRxSeq then b
      else
        let next := add k p.length
        advance data (clearSackList { b with nextRxSeq := next, availBytes := b.availBytes + p.length } next)

/-- The packet is trimmed to what is not received yet and, when something is stored, to the window. -/
def trimToWindow (b : TcpRxBuffer κ) (seq : κ) (pktSize : Nat) : κ × κ :=
  let headSeq := if lt seq b.nextRxSeq then b.nextRxSeq else seq
  let tailSeq := add seq pktSize
  match b.data with
  | [] => (headSeq, tailSeq)
  | (k, _) :: _ =>
      let maxSeq := add k b.maxBuffer
      let tailSeq := if lt maxSeq tailSeq then maxSeq else tailSeq
      (if lt tailSeq headSeq then tailSeq else headSeq, tailSeq)

/-- What is left of the packet, and of those stored. -/
def trimmed (b : TcpRxBuffer κ) (seq : κ) (pktSize : Nat) : Trimmed κ :=
  removeOverlap b.data (b.trimToWindow seq pktSize).1 (b.trimToWindow seq pktSize).2 b.size

/-- `Add` from where it inserts the packet on. -/
def store (b : TcpRxBuffer κ) (r : Trimmed κ) (p : List UInt8) : TcpRxBuffer κ :=
  let b := { b with data := insertData r.headSeq p r.data, size := r.size }
  let b := if gt r.headSeq b.nextRxSeq then b.updateSackList r.headSeq r.tailSeq else b
  let b := { b with size := b.size + p.length }
  let b := advance b.data b
  if b.gotFin ∧ b.nextRxSeq = b.finSeq then { b with nextRxSeq := add b.nextRxSeq 1 } else b

/-- `Add`; `none` where the fragment is not in the packet. -/
def addPacket (b : TcpRxBuffer κ) (p : List UInt8) (seq : κ) : Option (Bool × TcpRxBuffer κ) :=
  let r := b.trimmed seq p.length
  if ge r.headSeq r.tailSeq then some (false, { b with data := r.data, size := r.size })
  else
    (createFragment p (sub r.headSeq seq) (sub r.tailSeq r.headSeq)).map fun p => (true, b.store r p)

/-! ## Extracting -/

/-- The loop of `Extract`; `none` behind the end of the stored packets. -/
def extractLoop : List (κ × List UInt8) → Nat → List UInt8 → Option (List UInt8 × List (κ × List UInt8))
  | data, 0, out => some (out, data)
  | [], _ + 1, _ => none
  | (k, p) :: data, n + 1, out =>
      if p.length ≤ n + 1 then extractLoop data (n + 1 - p.length) (out ++ p)
      else some (out ++ p.take (n + 1), insertData (add k (n + 1)) (p.drop (n + 1)) data)

/-- The bytes in order, and none where `Extract` returns no packet. -/
def extract (b : TcpRxBuffer κ) (maxSize : Nat) : Option (List UInt8 × TcpRxBuffer κ) :=
  let extractSize := min maxSize b.availBytes
  (extractLoop b.data extractSize []).map fun r =>
    (r.1, { b with data := r.2, size := b.size - extractSize, availBytes := b.availBytes - extractSize })

/-! ## What is stored -/

variable {b : TcpRxBuffer κ} {r : Trimmed κ} {p : List UInt8}

theorem advance_gotFin {data : List (κ × List UInt8)} : (advance data b).gotFin = b.gotFin := by
  induction data generalizing b with
  | nil => rfl
  | cons e rest ih =>
      rw [advance]
      split_ifs
      · exact ih
      · rfl
      · exact ih

/-- As long as no FIN is expected. -/
theorem store_eq (hfin : b.gotFin = false) :
    b.store r p =
      advance (insertData r.headSeq p r.data)
        { b with
          data := insertData r.headSeq p r.data
          size := r.size + p.length
          sackList :=
            if gt r.headSeq b.nextRxSeq then pushBlock b.sackList (r.headSeq, r.tailSeq) else b.sackList } := by
  have hnot : ∀ data : List (κ × List UInt8), ∀ b' : TcpRxBuffer κ, b'.gotFin = false →
      ¬((advance data b').gotFin = true ∧ (advance data b').nextRxSeq = (advance data b').finSeq) := by
    rintro data b' hfin' ⟨h, -⟩
    rw [advance_gotFin, hfin'] at h
    cases h
  rw [store]
  split
  · dsimp only
    rw [if_neg (hnot _ _ (by exact hfin))]
    rfl
  · dsimp only
    rw [if_neg (hnot _ _ (by exact hfin))]

end TcpRxBuffer

end Ns3Raft.Net
