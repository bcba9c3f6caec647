import Mathlib.Data.UInt
import Mathlib.Logic.Function.Basic
import Ns3Raft.Wifi.MacQueue

/-! # Reassembly of MSDUs

`MacRxMiddle` keeps a status for every originator: the last sequence control, and the
fragments of the MSDU that is being put together.
-/

namespace Ns3Raft.Wifi

def Mac48Address.isGroup (a : Mac48Address) : Bool := a.octets.headD 0 &&& 0x01 = 0x01

/-- The header of a data or management frame that has been received. -/
structure RxHeader extends WifiMacHeader where
  retry : Bool
  moreFragments : Bool
  seqSeq : Nat
  seqFrag : Nat
  deriving DecidableEq

/-- `GetSequenceControl`, a `uint16_t`. -/
def RxHeader.sequenceControl (h : RxHeader) : Nat := (h.seqSeq <<< 4 ||| h.seqFrag) % 2 ^ 16

theorem RxHeader.sequenceControl_eq (h : RxHeader) (hseq : h.seqSeq < 2 ^ 12) (hfrag : h.seqFrag < 2 ^ 4) :
    h.sequenceControl = h.seqSeq * 2 ^ 4 + h.seqFrag := by
  rw [sequenceControl, ← Nat.shiftLeft_add_eq_or_of_lt hfrag, Nat.shiftLeft_eq]
  omega

structure OriginatorRxStatus where
  defragmenting : Bool
  lastSequenceControl : Nat
  fragments : List (List UInt8)
  deriving DecidableEq

namespace OriginatorRxStatus

def new : OriginatorRxStatus := ⟨false, 0xffff, []⟩

def accumulateFirstFragment (o : OriginatorRxStatus) (packet : List UInt8) : OriginatorRxStatus :=
  { o with defragmenting := true, fragments := o.fragments ++ [packet] }

def accumulateLastFragment (o : OriginatorRxStatus) (packet : List UInt8) : List UInt8 × OriginatorRxStatus :=
  ((o.fragments ++ [packet]).flatten, { o with defragmenting := false, fragments := [] })

def accumulateFragment (o : OriginatorRxStatus) (packet : List UInt8) : OriginatorRxStatus :=
  { o with fragments := o.fragments ++ [packet] }

def isNextFragment (o : OriginatorRxStatus) (sequenceControl : Nat) : Bool :=
  decide (sequenceControl >>> 4 = o.lastSequenceControl >>> 4) &&
    decide (sequenceControl &&& 0x0f = (o.lastSequenceControl &&& 0x0f) + 1)

def setSequenceControl (o : OriginatorRxStatus) (sequenceControl : Nat) : OriginatorRxStatus :=
  { o with lastSequenceControl := sequenceControl }

def isDuplicate (o : OriginatorRxStatus) (h : RxHeader) : Bool :=
  h.retry && decide (o.lastSequenceControl = h.sequenceControl)

/-- The packet to forward, if there is one. -/
def handleFragments (o : OriginatorRxStatus) (packet : List UInt8) (h : RxHeader) :
    Option (List UInt8) × OriginatorRxStatus :=
  if o.defragmenting then
    if h.moreFragments then
      if o.isNextFragment h.sequenceControl then
        (none, (o.accumulateFragment packet).setSequenceControl h.sequenceControl)
      else (none, o)
    else if o.isNextFragment h.sequenceControl then
      let (p, o) := o.accumulateLastFragment packet
      (some p, o.setSequenceControl h.sequenceControl)
    else (none, o)
  else if h.moreFragments then
    (none, (o.accumulateFirstFragment packet).setSequenceControl h.sequenceControl)
  else (some packet, o)

/-- `Receive` for the status that `Lookup` has found. -/
def receive (o : OriginatorRxStatus) (packet : List UInt8) (h : RxHeader) :
    Option (List UInt8) × OriginatorRxStatus :=
  if o.isDuplicate h then (none, o)
  else
    match o.handleFragments packet h with
    | (none, o) => (none, o)
    | (some aggregate, o) => (some aggregate, if h.addr1.isGroup then o else o.setSequenceControl h.sequenceControl)

variable {o : OriginatorRxStatus} {packet : List UInt8} {h : RxHeader}

theorem receive_duplicate (hretry : h.retry = true) (hlast : o.lastSequenceControl = h.sequenceControl) :
    o.receive packet h = (none, o) := by
  rw [receive, isDuplicate, hretry, hlast, decide_eq_true rfl]
  rfl

/-- Outside of an MSDU every frame begins one, whatever its fragment number is. -/
theorem receive_first (hnew : o.isDuplicate h = false) (hdef : o.defragmenting = false) :
    o.receive packet h =
      if h.moreFragments then (none, ⟨true, h.sequenceControl, o.fragments ++ [packet]⟩)
      else (some packet, if h.addr1.isGroup then o else o.setSequenceControl h.sequenceControl) := by
  rw [receive, hnew, if_neg Bool.false_ne_true, handleFragments, if_neg (ne_true_of_eq_false hdef)]
  by_cases hmore : h.moreFragments
  · rw [if_pos hmore, if_pos hmore]
    rfl
  · rw [if_neg hmore, if_neg hmore]

theorem receive_next (hnew : o.isDuplicate h = false) (hdef : o.defragmenting = true)
    (hnext : o.isNextFragment h.sequenceControl = true) :
    o.receive packet h =
      if h.moreFragments then (none, ⟨true, h.sequenceControl, o.fragments ++ [packet]⟩)
      else (some (o.fragments ++ [packet]).flatten, ⟨false, h.sequenceControl, []⟩) := by
  rw [receive, hnew, if_neg Bool.false_ne_true, handleFragments, if_pos hdef]
  by_cases hmore : h.moreFragments
  · rw [if_pos hmore, if_pos hmore, if_pos hnext, ← hdef]
    rfl
  · rw [if_neg hmore, if_neg hmore, if_pos hnext]
    exact congrArg (Prod.mk _) (ite_self _)

theorem isNextFragment_iff {seq frag : Nat} (hfrag : frag + 1 < 2 ^ 4)
    (hlast : o.lastSequenceControl = seq * 2 ^ 4 + frag) : o.isNextFragment (seq * 2 ^ 4 + (frag + 1)) = true := by
  have hlow := fun n => Nat.and_two_pow_sub_one_eq_mod n 4
  rw [isNextFragment, hlast, Bool.and_eq_true, decide_eq_true_eq, decide_eq_true_eq, Nat.shiftRight_eq_div_pow,
    Nat.shiftRight_eq_div_pow]
  have hmask : 0x0f = 2 ^ 4 - 1 := rfl
  rw [hmask, hlow, hlow]
  omega

end OriginatorRxStatus

/-- Which of the two maps an originator is in, and its key there. -/
inductive Originator where
  | plain (source : Mac48Address)
  | qos (source : Mac48Address) (tid : Nat)
  deriving DecidableEq

def WifiMacHeader.originator (h : WifiMacHeader) : Originator :=
  if h.isQosData && !h.addr2.isGroup then .qos h.addr2 h.qosTid else .plain h.addr2

/-- `m_originatorStatus` and `m_qosOriginatorStatus`, where a key that is not there stands for a new status. -/
structure MacRxMiddle where
  status : Originator → OriginatorRxStatus

namespace MacRxMiddle

def new : MacRxMiddle := ⟨fun _ => .new⟩

def lookup (m : MacRxMiddle) (h : RxHeader) : OriginatorRxStatus := m.status h.originator

/-- The packet that is forwarded, if one is. -/
def receive (m : MacRxMiddle) (packet : List UInt8) (h : RxHeader) : Option (List UInt8) × MacRxMiddle :=
  let (aggregate, o) := (m.lookup h).receive packet h
  (aggregate, ⟨Function.update m.status h.originator o⟩)

theorem receive_status (m : MacRxMiddle) (packet : List UInt8) (h : RxHeader) :
    (m.receive packet h).2.status h.originator = ((m.status h.originator).receive packet h).2 :=
  Function.update_self ..

theorem receive_other (m : MacRxMiddle) (packet : List UInt8) {h : RxHeader} {other : Originator}
    (hne : h.originator ≠ other) : (m.receive packet h).2.status other = m.status other :=
  Function.update_of_ne hne.symm ..

end MacRxMiddle

end Ns3Raft.Wifi
