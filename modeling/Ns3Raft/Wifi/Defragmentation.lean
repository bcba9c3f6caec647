import Ns3Raft.Wifi.MacRxMiddle
import Mathlib.Data.List.Basic

/-! # Runs of one originator

A sender puts its MSDUs on the air one after the other, each in fragments. It sends a
fragment again until it learns that it has arrived, and may give up an MSDU at any
point. Frames of other originators come in between.
-/

namespace Ns3Raft.Wifi

/-- An MSDU as its sender cuts it; one for a group is not cut and not sent again. -/
structure Msdu where
  header : WifiMacHeader
  seq : Nat
  fragments : List (List UInt8)
  seq_lt : seq < 2 ^ 12
  nonempty : 0 < fragments.length
  few : fragments.length ≤ 2 ^ 4
  whole : header.addr1.isGroup = true → fragments.length = 1

namespace Msdu

def frame (m : Msdu) (fragment : Nat) (retry : Bool) : RxHeader :=
  { m.header with retry, moreFragments := decide (fragment + 1 < m.fragments.length), seqSeq := m.seq, seqFrag := fragment }

def sequenceControl (m : Msdu) (fragment : Nat) : Nat := m.seq * 2 ^ 4 + fragment

def payload (m : Msdu) (fragment : Nat) : List UInt8 := m.fragments.getD fragment []

theorem frame_sequenceControl (m : Msdu) {fragment : Nat} (h : fragment < m.fragments.length) (retry : Bool) :
    (m.frame fragment retry).sequenceControl = m.sequenceControl fragment :=
  RxHeader.sequenceControl_eq _ m.seq_lt (Nat.lt_of_lt_of_le h m.few)

theorem take_succ (m : Msdu) {fragment : Nat} (h : fragment < m.fragments.length) :
    m.fragments.take fragment ++ [m.payload fragment] = m.fragments.take (fragment + 1) := by
  rw [payload, List.getD_eq_getElem?_getD, List.getElem?_eq_getElem h, Option.getD_some, List.take_append_getElem]

end Msdu

structure Sender where
  originator : Originator
  msdus : Nat → Msdu
  same : ∀ i, (msdus i).header.originator = originator

/-- The receiver, what the sender is at, the fragments that have arrived and the packets that were forwarded. -/
structure ReceiverRun where
  rx : MacRxMiddle
  msdu : Nat
  fragment : Nat
  sent : Bool
  arrived : List (Nat × Nat)
  forwarded : List (Nat × List UInt8)

inductive SenderOp where
  /-- `retry` counts for a later fragment that is sent for the first time: it may keep the flag of the one before. -/
  | transmit (retry arrives : Bool)
  | nextFragment
  /-- After the last fragment, or because the sender gives up. -/
  | nextMsdu
  | other (packet : List UInt8) (h : RxHeader)

namespace ReceiverRun

def init : ReceiverRun := ⟨.new, 0, 0, false, [], []⟩

def log (s : ReceiverRun) (aggregate : Option (List UInt8)) : List (Nat × List UInt8) :=
  s.forwarded ++ (aggregate.map (Prod.mk s.msdu)).toList

/-- A frame that the sender has put on the air arrives. -/
def arrive (S : Sender) (s : ReceiverRun) (retry : Bool) : ReceiverRun :=
  let m := S.msdus s.msdu
  let (aggregate, rx) := s.rx.receive (m.payload s.fragment) (m.frame s.fragment retry)
  { s with rx, sent := true, arrived := s.arrived ++ [(s.msdu, s.fragment)], forwarded := s.log aggregate }

/-- The retry flag of the frame that a transmission sends. -/
def retryFlag (s : ReceiverRun) (retry : Bool) : Bool := s.sent || decide (0 < s.fragment) && retry

def step (S : Sender) (s : ReceiverRun) : SenderOp → ReceiverRun
  | .transmit retry arrives =>
      if (S.msdus s.msdu).header.addr1.isGroup && s.sent then s
      else if arrives then s.arrive S (s.retryFlag retry)
      else { s with sent := true }
  | .nextFragment =>
      if (s.msdu, s.fragment) ∈ s.arrived ∧ s.fragment + 1 < (S.msdus s.msdu).fragments.length then
        { s with fragment := s.fragment + 1, sent := false }
      else s
  | .nextMsdu => { s with msdu := s.msdu + 1, fragment := 0, sent := false }
  | .other packet h => if h.originator = S.originator then s else { s with rx := (s.rx.receive packet h).2 }

def run (S : Sender) (ops : List SenderOp) : ReceiverRun := ops.foldl (step S) init

/-- What is forwarded is MSDUs as they were sent, in order and once, and all of those that have arrived. -/
structure Delivered (S : Sender) (s : ReceiverRun) : Prop where
  whole : ∀ x ∈ s.forwarded, x.2 = (S.msdus x.1).fragments.flatten
  once : (s.forwarded.map Prod.fst).Pairwise (· < ·)
  complete : ∀ i, (∀ fragment < (S.msdus i).fragments.length, (i, fragment) ∈ s.arrived) → i ∈ s.forwarded.map Prod.fst

/-- When the first frame of an MSDU arrives, the receiver is not within an MSDU that was given up before, and a
retransmission does not have the sequence control that the receiver has seen last. -/
def Meets (S : Sender) (s : ReceiverRun) : SenderOp → Prop
  | .transmit _ true =>
      s.fragment = 0 → (s.msdu, 0) ∉ s.arrived → (s.rx.status S.originator).defragmenting = false ∧
        (s.sent = true → (s.rx.status S.originator).lastSequenceControl ≠ (S.msdus s.msdu).sequenceControl 0)
  | _ => True

instance (S : Sender) (s : ReceiverRun) : DecidablePred (Meets S s)
  | .transmit _ true => inferInstanceAs (Decidable (_ = _ → _ ∉ _ → _ = _ ∧ (_ = _ → _ ≠ _)))
  | .transmit _ false | .nextFragment | .nextMsdu | .other _ _ => isTrue trivial

/-- Every step of the run from `s` on. -/
def MeetsAll (S : Sender) (s : ReceiverRun) : List SenderOp → Prop
  | [] => True
  | op :: ops => Meets S s op ∧ MeetsAll S (s.step S op) ops

/-! ## The invariant -/

variable {S : Sender} {s : ReceiverRun}

/-- How many fragments of the MSDU being sent have arrived. -/
def got (s : ReceiverRun) : Nat := if (s.msdu, s.fragment) ∈ s.arrived then s.fragment + 1 else s.fragment

/-- The receiver within the MSDU `m`, after `n` of its fragments. -/
structure Receiving (m : Msdu) (n : Nat) (o : OriginatorRxStatus) : Prop where
  last : o.lastSequenceControl = m.sequenceControl (n - 1)
  defragmenting : o.defragmenting = decide (n < m.fragments.length)
  fragments : n < m.fragments.length → o.fragments = m.fragments.take n

structure Consistent (S : Sender) (s : ReceiverRun) : Prop where
  bound : s.fragment < (S.msdus s.msdu).fragments.length
  sent : (s.msdu, s.fragment) ∈ s.arrived → s.sent = true
  arrived : ∀ x ∈ s.arrived, x.1 < s.msdu ∨ x.1 = s.msdu ∧ x.2 < s.got
  forwarded : ∀ x ∈ s.forwarded, x.1 < s.msdu ∨ x.1 = s.msdu ∧ s.got = (S.msdus s.msdu).fragments.length
  idle : (s.rx.status S.originator).defragmenting = false → (s.rx.status S.originator).fragments = []
  receiving : 0 < s.got → (S.msdus s.msdu).header.addr1.isGroup = false →
    Receiving (S.msdus s.msdu) s.got (s.rx.status S.originator)
  delivered : Delivered S s

/-- What the receiver does with fragment `n` of `m`, counted from one. -/
structure Received (m : Msdu) (n : Nat) (result : Option (List UInt8) × OriginatorRxStatus) : Prop where
  aggregate : result.1 = if n < m.fragments.length then none else some m.fragments.flatten
  receiving : m.header.addr1.isGroup = false → Receiving m n result.2
  idle : result.2.defragmenting = false → result.2.fragments = []

variable {m : Msdu} {o : OriginatorRxStatus} {n : Nat} {retry : Bool}

theorem received_first (hnew : o.isDuplicate (m.frame 0 retry) = false) (hdef : o.defragmenting = false)
    (hidle : o.fragments = []) : Received m 1 (o.receive (m.payload 0) (m.frame 0 retry)) := by
  have hcontrol := m.frame_sequenceControl m.nonempty retry
  have hone : [m.payload 0] = m.fragments.take 1 := m.take_succ m.nonempty
  rw [OriginatorRxStatus.receive_first hnew hdef, hcontrol, hidle, List.nil_append, hone]
  by_cases hmore : 1 < m.fragments.length
  · rw [if_pos (show (m.frame 0 retry).moreFragments = true from decide_eq_true hmore)]
    exact ⟨(if_pos hmore).symm, fun _ => ⟨rfl, (decide_eq_true hmore).symm, fun _ => rfl⟩, fun h => Bool.noConfusion h⟩
  · have hall : m.fragments = [m.payload 0] := by
      rw [hone, List.take_of_length_le (Nat.le_of_not_lt hmore)]
    rw [if_neg (show ¬(m.frame 0 retry).moreFragments = true from ne_true_of_eq_false (decide_eq_false hmore))]
    refine ⟨?_, fun hgroup => ?_, fun _ => ?_⟩
    · rw [if_neg hmore, hall]
      exact congrArg some (List.append_nil _).symm
    · rw [if_neg (show ¬(m.frame 0 retry).addr1.isGroup = true from ne_true_of_eq_false hgroup)]
      exact ⟨rfl, hdef.trans (decide_eq_false hmore).symm, fun h => absurd h hmore⟩
    · dsimp only
      split
      · exact hidle
      · exact hidle

theorem received_next (hrec : Receiving m n o) (hpos : 0 < n) (hlt : n < m.fragments.length) :
    Received m (n + 1) (o.receive (m.payload n) (m.frame n retry)) := by
  have hcontrol := m.frame_sequenceControl hlt retry
  have hdef : o.defragmenting = true := hrec.defragmenting.trans (decide_eq_true hlt)
  have hlt16 : n < 2 ^ 4 := Nat.lt_of_lt_of_le hlt m.few
  have hnew : o.isDuplicate (m.frame n retry) = false := by
    rw [OriginatorRxStatus.isDuplicate, hcontrol, hrec.last, Msdu.sequenceControl, Msdu.sequenceControl]
    rw [decide_eq_false (by omega), Bool.and_false]
  have hnext : o.isNextFragment (m.frame n retry).sequenceControl = true := by
    have := OriginatorRxStatus.isNextFragment_iff (show n - 1 + 1 < 2 ^ 4 by omega) hrec.last
    rw [Nat.sub_add_cancel hpos] at this
    rwa [hcontrol]
  rw [OriginatorRxStatus.receive_next hnew hdef hnext, hrec.fragments hlt, m.take_succ hlt, hcontrol]
  by_cases hmore : n + 1 < m.fragments.length
  · rw [if_pos (show (m.frame n retry).moreFragments = true from decide_eq_true hmore)]
    exact ⟨(if_pos hmore).symm, fun _ => ⟨rfl, (decide_eq_true hmore).symm, fun _ => rfl⟩, fun h => Bool.noConfusion h⟩
  · rw [if_neg (show ¬(m.frame n retry).moreFragments = true from ne_true_of_eq_false (decide_eq_false hmore)),
      List.take_of_length_le (Nat.le_of_not_lt hmore)]
    exact ⟨(if_neg hmore).symm, fun _ => ⟨rfl, (decide_eq_false hmore).symm, fun h => absurd h hmore⟩, fun _ => rfl⟩

theorem got_eq (h : (s.msdu, s.fragment) ∈ s.arrived) : s.got = s.fragment + 1 := if_pos h

theorem got_of_not (h : (s.msdu, s.fragment) ∉ s.arrived) : s.got = s.fragment := if_neg h

theorem got_arrive : (s.arrive S retry).got = s.fragment + 1 :=
  got_eq (List.mem_append_right _ (List.mem_singleton.mpr rfl))

theorem arrive_status (S : Sender) (s : ReceiverRun) (retry : Bool) :
    (s.arrive S retry).rx.status S.originator = ((s.rx.status S.originator).receive
      ((S.msdus s.msdu).payload s.fragment) ((S.msdus s.msdu).frame s.fragment retry)).2 := by
  have hkey : ((S.msdus s.msdu).frame s.fragment retry).originator = S.originator := S.same s.msdu
  conv_lhs => rw [← hkey]
  rw [← hkey]
  exact MacRxMiddle.receive_status ..

theorem arrive_forwarded (S : Sender) (s : ReceiverRun) (retry : Bool) :
    (s.arrive S retry).forwarded = s.log ((s.rx.status S.originator).receive
      ((S.msdus s.msdu).payload s.fragment) ((S.msdus s.msdu).frame s.fragment retry)).1 := by
  have hkey : ((S.msdus s.msdu).frame s.fragment retry).originator = S.originator := S.same s.msdu
  rw [← hkey]
  rfl

namespace Consistent

/-- A frame that has arrived before. -/
theorem again (hs : Consistent S s) (hgroup : (S.msdus s.msdu).header.addr1.isGroup = false)
    (hin : (s.msdu, s.fragment) ∈ s.arrived) : Consistent S (s.arrive S true) := by
  have hgot := got_eq hin
  have hrec := hs.receiving (hgot ▸ Nat.succ_pos _) hgroup
  have hdup : (s.rx.status S.originator).receive ((S.msdus s.msdu).payload s.fragment)
      ((S.msdus s.msdu).frame s.fragment true) = (none, s.rx.status S.originator) := by
    refine OriginatorRxStatus.receive_duplicate rfl ?_
    rw [hrec.last, hgot, Msdu.frame_sequenceControl _ hs.bound]
    rfl
  have hstatus : (s.arrive S true).rx.status S.originator = s.rx.status S.originator := by
    rw [arrive_status, hdup]
  have hforwarded : (s.arrive S true).forwarded = s.forwarded := by
    rw [arrive_forwarded, hdup]
    exact List.append_nil _
  have harrived : ∀ x, x ∈ (s.arrive S true).arrived ↔ x ∈ s.arrived := fun x => by
    refine List.mem_append.trans ⟨fun h => ?_, Or.inl⟩
    rcases h with h | h
    · exact h
    · rw [List.mem_singleton.mp h]
      exact hin
  have hgot' : (s.arrive S true).got = s.got := got_arrive.trans hgot.symm
  refine ⟨hs.bound, fun _ => rfl, fun x hx => ?_, fun x hx => ?_, ?_, ?_, ?_⟩
  · rw [hgot']
    exact hs.arrived x ((harrived x).mp hx)
  · rw [hgot']
    exact hs.forwarded x (hforwarded ▸ hx)
  · rw [hstatus]
    exact hs.idle
  · rw [hstatus, hgot']
    exact hs.receiving
  · refine ⟨hforwarded ▸ hs.delivered.whole, hforwarded ▸ hs.delivered.once, fun i hi => ?_⟩
    rw [hforwarded]
    exact hs.delivered.complete i fun f hf => (harrived _).mp (hi f hf)

/-- A frame that arrives for the first time. -/
theorem first (hs : Consistent S s) (hnot : (s.msdu, s.fragment) ∉ s.arrived)
    (hrec : Received (S.msdus s.msdu) (s.fragment + 1) ((s.rx.status S.originator).receive
      ((S.msdus s.msdu).payload s.fragment) ((S.msdus s.msdu).frame s.fragment retry))) :
    Consistent S (s.arrive S retry) := by
  have hforwarded := arrive_forwarded S s retry
  rw [hrec.aggregate] at hforwarded
  have hold : ∀ x ∈ s.forwarded, x.1 < s.msdu := fun x hx => by
    rcases hs.forwarded x hx with hlt | ⟨-, hlen⟩
    · exact hlt
    · exact absurd (got_of_not hnot ▸ hlen) (Nat.ne_of_lt hs.bound)
  have hnew : ∀ x, x ∈ (s.arrive S retry).forwarded → x ∈ s.forwarded ∨
      s.fragment + 1 = (S.msdus s.msdu).fragments.length ∧ x = (s.msdu, (S.msdus s.msdu).fragments.flatten) := by
    intro x hx
    rw [hforwarded, log] at hx
    split at hx
    · exact Or.inl ((List.append_nil s.forwarded) ▸ hx)
    · next hlast =>
      rcases List.mem_append.mp hx with hx | hx
      · exact Or.inl hx
      · exact Or.inr ⟨Nat.le_antisymm hs.bound (Nat.le_of_not_lt hlast), List.mem_singleton.mp hx⟩
  refine ⟨hs.bound, fun _ => rfl, fun x hx => ?_, fun x hx => ?_, ?_, fun _ => ?_, ?_, ?_, fun i hi => ?_⟩
  · rw [got_arrive]
    rcases List.mem_append.mp hx with hx | hx
    · rcases hs.arrived x hx with hlt | ⟨heq, hlt⟩
      · exact Or.inl hlt
      · exact Or.inr ⟨heq, Nat.lt_succ_of_lt (got_of_not hnot ▸ hlt)⟩
    · rw [List.mem_singleton.mp hx]
      exact Or.inr ⟨rfl, Nat.lt_succ_self _⟩
  · rw [got_arrive]
    rcases hnew x hx with hx | ⟨hlen, rfl⟩
    · exact Or.inl (hold x hx)
    · exact Or.inr ⟨rfl, hlen⟩
  · rw [arrive_status]
    exact hrec.idle
  · rw [arrive_status, got_arrive]
    exact hrec.receiving
  · intro x hx
    rcases hnew x hx with hx | ⟨-, rfl⟩
    · exact hs.delivered.whole x hx
    · rfl
  · rw [hforwarded, log]
    split
    · exact (List.append_nil s.forwarded).symm ▸ hs.delivered.once
    · rw [List.map_append]
      refine List.pairwise_append.mpr ⟨hs.delivered.once, List.pairwise_singleton _ _, fun a ha b hb => ?_⟩
      obtain ⟨x, hx, rfl⟩ := List.mem_map.mp ha
      rw [List.mem_singleton.mp hb]
      exact hold x hx
  · rw [hforwarded, log, List.map_append]
    by_cases hi' : ∀ fragment < (S.msdus i).fragments.length, (i, fragment) ∈ s.arrived
    · exact List.mem_append_left _ (hs.delivered.complete i hi')
    -- one of its fragments is the one that arrives now, and then it is the last one
    · push Not at hi'
      obtain ⟨f, hf, hmissing⟩ := hi'
      rcases List.mem_append.mp (hi f hf) with hin | hin
      · exact absurd hin hmissing
      obtain ⟨rfl, rfl⟩ := Prod.mk.inj (List.mem_singleton.mp hin)
      refine List.mem_append_right _ ?_
      rw [if_neg fun hmore => ?_]
      · exact List.mem_singleton.mpr rfl
      · rcases List.mem_append.mp (hi (s.fragment + 1) hmore) with hin | hin
        · rcases hs.arrived _ hin with hlt | ⟨-, hlt⟩
          · exact Nat.lt_irrefl _ hlt
          · exact Nat.not_lt.mpr (Nat.le_succ _) (got_of_not hnot ▸ hlt)
        · exact Nat.succ_ne_self _ (Prod.mk.inj (List.mem_singleton.mp hin)).2

theorem transmit (hs : Consistent S s) {retry : Bool} (hmeets : Meets S s (.transmit retry true))
    (hallowed : ¬((S.msdus s.msdu).header.addr1.isGroup && s.sent) = true) :
    Consistent S (s.arrive S (s.retryFlag retry)) := by
  by_cases hin : (s.msdu, s.fragment) ∈ s.arrived
  · have hsent := hs.sent hin
    rw [hsent, Bool.and_true, Bool.not_eq_true] at hallowed
    rw [retryFlag, hsent, Bool.true_or]
    exact hs.again hallowed hin
  · refine hs.first hin ?_
    rcases Nat.eq_zero_or_pos s.fragment with hzero | hpos
    · obtain ⟨hdef, hlast⟩ := hmeets hzero (hzero ▸ hin)
      rw [hzero]
      refine received_first ?_ hdef (hs.idle hdef)
      rw [retryFlag, hzero, OriginatorRxStatus.isDuplicate, Msdu.frame_sequenceControl _ (S.msdus s.msdu).nonempty]
      cases hsent : s.sent with
      | false => rfl
      | true => rw [decide_eq_false (hlast hsent), Bool.and_false]
    · have hgot := got_of_not hin
      have hgroup : (S.msdus s.msdu).header.addr1.isGroup = false := by
        refine Bool.eq_false_iff.mpr fun hgroup => ?_
        have := (S.msdus s.msdu).whole hgroup
        have := hs.bound
        omega
      exact received_next (hgot ▸ hs.receiving (hgot ▸ hpos) hgroup) hpos hs.bound

theorem lost (hs : Consistent S s) : Consistent S { s with sent := true } :=
  ⟨hs.bound, fun _ => rfl, hs.arrived, hs.forwarded, hs.idle, hs.receiving, hs.delivered.whole, hs.delivered.once,
    hs.delivered.complete⟩

theorem nextFragment (hs : Consistent S s) (hin : (s.msdu, s.fragment) ∈ s.arrived)
    (hmore : s.fragment + 1 < (S.msdus s.msdu).fragments.length) :
    Consistent S { s with fragment := s.fragment + 1, sent := false } := by
  have hgot := got_eq hin
  have hnot : (s.msdu, s.fragment + 1) ∉ s.arrived := fun hin' => by
    rcases hs.arrived _ hin' with hlt | ⟨-, hlt⟩
    · exact Nat.lt_irrefl _ hlt
    · exact Nat.lt_irrefl _ (hgot ▸ hlt)
  have hgot' : got { s with fragment := s.fragment + 1, sent := false } = s.got :=
    (got_of_not hnot).trans hgot.symm
  refine ⟨hmore, fun h => absurd h hnot, ?_, ?_, hs.idle, ?_, hs.delivered.whole, hs.delivered.once,
    hs.delivered.complete⟩
  · rw [hgot']
    exact hs.arrived
  · rw [hgot']
    exact hs.forwarded
  · rw [hgot']
    exact hs.receiving

theorem nextMsdu (hs : Consistent S s) : Consistent S { s with msdu := s.msdu + 1, fragment := 0, sent := false } := by
  have hbelow : ∀ x ∈ s.arrived, x.1 < s.msdu + 1 := fun x hx => by
    rcases hs.arrived x hx with hlt | ⟨heq, -⟩ <;> omega
  have hnot : (s.msdu + 1, 0) ∉ s.arrived := fun hin => Nat.lt_irrefl _ (hbelow _ hin)
  refine ⟨(S.msdus (s.msdu + 1)).nonempty, fun h => absurd h hnot, fun x hx => Or.inl (hbelow x hx),
    fun x hx => Or.inl ?_, hs.idle, fun hpos => ?_, hs.delivered.whole, hs.delivered.once, hs.delivered.complete⟩
  · show x.1 < s.msdu + 1
    rcases hs.forwarded x hx with hlt | ⟨heq, -⟩ <;> omega
  · rw [got_of_not hnot] at hpos
    exact absurd hpos (Nat.lt_irrefl 0)

theorem other (hs : Consistent S s) (packet : List UInt8) {h : RxHeader} (hne : h.originator ≠ S.originator) :
    Consistent S { s with rx := (s.rx.receive packet h).2 } := by
  have hsame := s.rx.receive_other packet hne
  exact ⟨hs.bound, hs.sent, hs.arrived, hs.forwarded, by rw [hsame]; exact hs.idle, by rw [hsame]; exact hs.receiving,
    hs.delivered.whole, hs.delivered.once, hs.delivered.complete⟩

theorem step (hs : Consistent S s) {op : SenderOp} (hmeets : Meets S s op) : Consistent S (s.step S op) := by
  cases op with
  | transmit retry arrives =>
      rw [ReceiverRun.step]
      split
      · exact hs
      next hallowed =>
      cases arrives with
      | true => exact hs.transmit hmeets hallowed
      | false => exact hs.lost
  | nextFragment =>
      rw [ReceiverRun.step]
      split
      · next h => exact hs.nextFragment h.1 h.2
      · exact hs
  | nextMsdu => exact hs.nextMsdu
  | other packet h =>
      rw [ReceiverRun.step]
      split
      · exact hs
      · next hne => exact hs.other packet hne

theorem init (S : Sender) : Consistent S ReceiverRun.init :=
  ⟨(S.msdus 0).nonempty, (nomatch ·), fun _ h => (nomatch h), fun _ h => (nomatch h), fun _ => rfl,
    fun h => absurd h (Nat.lt_irrefl 0),
    ⟨fun _ h => (nomatch h), List.Pairwise.nil, fun i hi => (nomatch hi 0 (S.msdus i).nonempty)⟩⟩

theorem foldl (hs : Consistent S s) {ops : List SenderOp} (hops : MeetsAll S s ops) :
    Consistent S (ops.foldl (ReceiverRun.step S) s) := by
  induction ops generalizing s with
  | nil => exact hs
  | cons op ops ih => exact ih (hs.step hops.1) hops.2

end Consistent

theorem delivered_of_meetsAll (S : Sender) (ops : List SenderOp) (hops : MeetsAll S init ops) :
    Delivered S (run S ops) :=
  ((Consistent.init S).foldl hops).delivered

/-! ## An MSDU that is given up -/

def stationHeader : WifiMacHeader :=
  ⟨false, true, false, .replicate 2, .replicate 4, .replicate 2, 0, false⟩

/-- A sender whose first MSDU has two fragments, and all others one. -/
def station : Sender where
  originator := .plain stationHeader.addr2
  msdus i :=
    { header := stationHeader
      seq := i % 2 ^ 12
      fragments := if i = 0 then [[1], [2]] else [[3]]
      seq_lt := Nat.mod_lt i (by decide)
      nonempty := by split <;> decide
      few := by split <;> decide
      whole := fun h => nomatch h }
  same _ := rfl

/-- All frames arrive, and an acknowledgement is lost. -/
theorem delivered_of_meetsAll_station : Delivered station (run station [.transmit false true, .nextFragment,
    .transmit false true, .transmit false true, .nextMsdu, .transmit false true]) :=
  delivered_of_meetsAll station _ ⟨by decide, by decide, by decide, by decide, by decide, by decide, trivial⟩

/-- The second MSDU arrives, after the first one was given up behind its first fragment. -/
theorem not_delivered : ¬∀ (S : Sender) (ops : List SenderOp), Delivered S (run S ops) := fun h => by
  have hin := (h station [.transmit false true, .nextMsdu, .transmit false true]).complete 1
  have hone : ∀ fragment < (station.msdus 1).fragments.length, (1, fragment) ∈
      (run station [.transmit false true, .nextMsdu, .transmit false true]).arrived := by decide
  exact absurd (hin hone) (by decide)

end ReceiverRun

end Ns3Raft.Wifi
