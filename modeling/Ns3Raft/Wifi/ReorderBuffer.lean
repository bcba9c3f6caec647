import Ns3Raft.Wifi.MacRxMiddle
import Ns3Raft.Wifi.OriginatorBlockAck

/-! # The reorder buffer of a block ack agreement

`MacLow` keeps the MPDUs that it has received under an agreement, and passes MSDUs up that
are complete. An iterator of the buffer is the rest of the list from it on.
-/

namespace Ns3Raft.Wifi

structure BufferedPacket where
  packet : List UInt8
  hdr : RxHeader
  seq_lt : hdr.seqSeq < 2 ^ 12
  frag_lt : hdr.seqFrag < 2 ^ 4
  deriving DecidableEq

namespace BufferedPacket

def sequenceControl (p : BufferedPacket) : Nat := p.hdr.sequenceControl

theorem sequenceControl_eq (p : BufferedPacket) : p.sequenceControl = p.hdr.seqSeq * 2 ^ 4 + p.hdr.seqFrag :=
  p.hdr.sequenceControl_eq p.seq_lt p.frag_lt

theorem sequenceControl_lt (p : BufferedPacket) : p.sequenceControl < 2 ^ 16 := by
  have hseq := p.seq_lt
  have hfrag := p.frag_lt
  rw [sequenceControl_eq]
  omega

theorem sequenceControl_inj {p q : BufferedPacket} (h : p.sequenceControl = q.sequenceControl) :
    p.hdr.seqSeq = q.hdr.seqSeq ∧ p.hdr.seqFrag = q.hdr.seqFrag := by
  have hp := p.frag_lt
  have hq := q.frag_lt
  rw [sequenceControl_eq, sequenceControl_eq] at h
  omega

end BufferedPacket

def qosUtilsMapSeqControlToUniqueInteger (seqControl endSequence : Nat) : Nat :=
  let numberSeq := (seqControl >>> 4) &&& 0x0fff
  (4096 - (endSequence + 1) + numberSeq) % 4096 * 16 + (seqControl &&& 0x000f)

/-- The part of an agreement that the buffer uses. -/
structure ReorderAgreement where
  startingSeq : Nat
  buffer : List BufferedPacket
  deriving DecidableEq

namespace ReorderAgreement

def endSequence (a : ReorderAgreement) : Nat := (a.startingSeq + 2047) % 4096

def mapped (a : ReorderAgreement) (p : BufferedPacket) : Nat :=
  qosUtilsMapSeqControlToUniqueInteger p.sequenceControl a.endSequence

/-- `StoreMpduIfNeeded`, for a packet without its trailer. -/
def store (a : ReorderAgreement) (p : BufferedPacket) : ReorderAgreement :=
  { a with buffer := a.buffer.takeWhile (fun q => decide (a.mapped q < a.mapped p)) ++
      p :: a.buffer.dropWhile (fun q => decide (a.mapped q < a.mapped p)) }

end ReorderAgreement

/-- The variables of the loop, with the packets that have been passed up. -/
structure Releasing where
  i : List BufferedPacket
  last : List BufferedPacket
  guard : Nat
  passed : List BufferedPacket

namespace Releasing

/-- The loop starts with its iterators at the beginning of the buffer. -/
def start (buffer : List BufferedPacket) : Releasing :=
  ⟨buffer, buffer, (buffer.head?.map BufferedPacket.sequenceControl).getD 0, []⟩

def goToNext (s : Releasing) : Releasing :=
  match s.i.dropWhile (fun q => decide (s.guard = q.sequenceControl)) with
  | [] => { s with i := [] }
  | p :: rest => { s with i := p :: rest, last := p :: rest, guard := p.sequenceControl }

/-- Everything from `last` to the first packet of `i`, whose iterator comes to be `rest`. -/
def passUpTo (s : Releasing) (rest : List BufferedPacket) : Releasing :=
  { s with passed := s.passed ++ s.last.take (s.last.length - rest.length), last := rest }

/-- One round of the loop, or `none` at its end. -/
def round (below : BufferedPacket → Bool) (s : Releasing) : Option Releasing :=
  match s.i with
  | [] => none
  | p :: rest =>
      if below p then
        some
          (if s.guard = p.sequenceControl then
            if !p.hdr.moreFragments then (s.passUpTo rest).goToNext
            else { s with guard := (s.guard + 1) % 2 ^ 16 }
          else s.goToNext)
      else none

/-- `none` when the fuel is spent before the loop ends. -/
def loop (below : BufferedPacket → Bool) : Nat → Releasing → Option Releasing
  | 0, _ => none
  | fuel + 1, s =>
      match s.round below with
      | none => some s
      | some s' => loop below fuel s'

end Releasing

namespace ReorderAgreement

/-- A packet below the sequence control `seq`. -/
def below (a : ReorderAgreement) (seq : Nat) (p : BufferedPacket) : Bool :=
  decide (a.mapped p < qosUtilsMapSeqControlToUniqueInteger seq a.endSequence)

/-- `RxCompleteBufferedPacketsWithSmallerSequence`: the packets that are passed up, and the agreement after it. -/
def rxCompleteBufferedPacketsWithSmallerSequence (a : ReorderAgreement) (fuel seq : Nat) :
    Option (List BufferedPacket × ReorderAgreement) :=
  (Releasing.loop (a.below seq) fuel (.start a.buffer)).map fun s => (s.passed, { a with buffer := s.i })

end ReorderAgreement

/-- `m_bAckAgreements`. -/
abbrev BAckAgreements := Mac48Address × Nat → Option ReorderAgreement

namespace BAckAgreements

def storeMpduIfNeeded (m : BAckAgreements) (p : BufferedPacket) : Bool × BAckAgreements :=
  match m (p.hdr.addr2, p.hdr.qosTid) with
  | none => (false, m)
  | some a => (true, Function.update m (p.hdr.addr2, p.hdr.qosTid) (a.store { p with packet := p.packet.take (p.packet.length - 4) }))

def rxCompleteBufferedPacketsWithSmallerSequence (m : BAckAgreements) (fuel seq : Nat) (originator : Mac48Address) (tid : Nat) :
    Option (List BufferedPacket × BAckAgreements) :=
  match m (originator, tid) with
  | none => some ([], m)
  | some a =>
      (a.rxCompleteBufferedPacketsWithSmallerSequence fuel seq).map fun r => (r.1, Function.update m (originator, tid) (some r.2))

end BAckAgreements

/-! ## Order -/

namespace ReorderAgreement

variable {a : ReorderAgreement} {p q : BufferedPacket} {seq : Nat}

theorem mapped_eq (a : ReorderAgreement) (p : BufferedPacket) :
    a.mapped p = (4096 - (a.endSequence + 1) + p.hdr.seqSeq) % 4096 * 16 + p.hdr.seqFrag := by
  have hseq := p.seq_lt
  have hfrag := p.frag_lt
  have hnumber : p.sequenceControl >>> 4 &&& 0x0fff = p.hdr.seqSeq := by
    rw [Nat.and_two_pow_sub_one_eq_mod _ 12, Nat.shiftRight_eq_div_pow, p.sequenceControl_eq]
    omega
  have hfragment : p.sequenceControl &&& 0x000f = p.hdr.seqFrag := by
    rw [Nat.and_two_pow_sub_one_eq_mod _ 4, p.sequenceControl_eq]
    omega
  rw [mapped, qosUtilsMapSeqControlToUniqueInteger, hnumber, hfragment]

theorem endSequence_lt (a : ReorderAgreement) : a.endSequence < 4096 := Nat.mod_lt _ (by decide)

theorem mapped_inj (h : a.mapped p = a.mapped q) : p.sequenceControl = q.sequenceControl := by
  have hend := a.endSequence_lt
  have hp := p.frag_lt
  have hq := q.frag_lt
  have hpseq := p.seq_lt
  have hqseq := q.seq_lt
  rw [mapped_eq, mapped_eq] at h
  rw [p.sequenceControl_eq, q.sequenceControl_eq]
  omega

theorem mapped_congr (h : p.sequenceControl = q.sequenceControl) : a.mapped p = a.mapped q := by
  rw [mapped, mapped, h]

/-- The order that `StoreMpduIfNeeded` keeps. -/
def Sorted (a : ReorderAgreement) : Prop := (a.buffer.map a.mapped).Pairwise (· ≤ ·)

theorem store_sorted (h : a.Sorted) (p : BufferedPacket) : (a.store p).Sorted := by
  have hbefore : ∀ q ∈ a.buffer.takeWhile (fun q => decide (a.mapped q < a.mapped p)), a.mapped q < a.mapped p :=
    fun q hq => by
      have hlt := List.mem_takeWhile_imp hq
      exact of_decide_eq_true hlt
  have hafter : ∀ q ∈ a.buffer.dropWhile (fun q => decide (a.mapped q < a.mapped p)), a.mapped p ≤ a.mapped q := by
    intro q hq
    unfold Sorted at h
    rw [List.pairwise_map, ← List.takeWhile_append_dropWhile (p := fun q => decide (a.mapped q < a.mapped p)) (l := a.buffer),
      List.pairwise_append] at h
    cases hrest : a.buffer.dropWhile (fun q => decide (a.mapped q < a.mapped p)) with
    | nil =>
      rw [hrest] at hq
      exact nomatch hq
    | cons r rest =>
      have hfirst : a.mapped p ≤ a.mapped r := by
        have hnot := List.head?_dropWhile_not (fun q => decide (a.mapped q < a.mapped p)) a.buffer
        rw [hrest] at hnot
        exact Nat.le_of_not_lt (by simpa using hnot)
      rw [hrest] at hq h
      rcases List.mem_cons.1 hq with rfl | hin
      · exact hfirst
      · exact Nat.le_trans hfirst ((List.pairwise_cons.1 h.2.1).1 q hin)
  have hmapped : (a.store p).mapped = a.mapped := rfl
  unfold Sorted at *
  rw [hmapped, store, List.pairwise_map]
  rw [List.pairwise_map, ← List.takeWhile_append_dropWhile (p := fun q => decide (a.mapped q < a.mapped p)) (l := a.buffer),
    List.pairwise_append] at h
  refine List.pairwise_append.2 ⟨h.1, List.pairwise_cons.2 ⟨hafter, h.2.1⟩, fun q hq r hr => ?_⟩
  rcases List.mem_cons.1 hr with rfl | hin
  · exact Nat.le_of_lt (hbefore q hq)
  · exact h.2.2 q hq r hin

end ReorderAgreement

/-! ## The first packets of their sequence control -/

/-- Of neighbours with one sequence control only the first. -/
def leaders : List BufferedPacket → List BufferedPacket
  | [] => []
  | p :: rest => p :: leaders (rest.dropWhile fun q => decide (p.sequenceControl = q.sequenceControl))
termination_by l => l.length
decreasing_by exact Nat.lt_succ_of_le (List.length_dropWhile_le _ _)

theorem dropWhile_takeWhile {α : Type} {drop keep : α → Bool} {l : List α} (h : ∀ x ∈ l, drop x = true → keep x = true) :
    (l.takeWhile keep).dropWhile drop = (l.dropWhile drop).takeWhile keep := by
  induction l with
  | nil => rfl
  | cons x xs ih =>
    have hrest := ih fun y hy => h y (List.mem_cons_of_mem _ hy)
    cases hdrop : drop x with
    | true =>
      rw [List.takeWhile_cons_of_pos (h x List.mem_cons_self hdrop), List.dropWhile_cons_of_pos hdrop,
        List.dropWhile_cons_of_pos hdrop]
      exact hrest
    | false =>
      rw [List.dropWhile_cons_of_neg (by simp [hdrop])]
      cases hkeep : keep x with
      | true =>
        rw [List.takeWhile_cons_of_pos hkeep, List.dropWhile_cons_of_neg (by simp [hdrop])]
      | false =>
        rw [List.takeWhile_cons_of_neg (by simp [hkeep])]
        rfl

theorem dropWhile_dropWhile_of_imp {α : Type} {drop keep : α → Bool} {l : List α} (h : ∀ x ∈ l, drop x = true → keep x = true) :
    (l.dropWhile drop).dropWhile keep = l.dropWhile keep := by
  induction l with
  | nil => rfl
  | cons x xs ih =>
    cases hdrop : drop x with
    | true =>
      rw [List.dropWhile_cons_of_pos hdrop, List.dropWhile_cons_of_pos (h x List.mem_cons_self hdrop)]
      exact ih fun y hy => h y (List.mem_cons_of_mem _ hy)
    | false => rw [List.dropWhile_cons_of_neg (by simp [hdrop])]

namespace Releasing

variable {below : BufferedPacket → Bool}

/-- The state at a packet that the loop has not looked at. -/
def fresh (i passed : List BufferedPacket) : Releasing :=
  { start i with passed }

theorem goToNext_some {s : Releasing} {p : BufferedPacket} {rest : List BufferedPacket}
    (h : s.i.dropWhile (fun q => decide (s.guard = q.sequenceControl)) = p :: rest) :
    s.goToNext = fresh (p :: rest) s.passed := by
  rw [goToNext, h]
  rfl

/-- At the first fragment of a packet with more fragments two rounds lead nowhere. -/
theorem loop_more {p : BufferedPacket} {rest passed : List BufferedPacket} (hbelow : below p = true)
    (hmore : p.hdr.moreFragments = true) (fuel : Nat) :
    loop below (fuel + 2) (fresh (p :: rest) passed) = loop below fuel (fresh (p :: rest) passed) := by
  have hlt := p.sequenceControl_lt
  have hne : (p.sequenceControl + 1) % 2 ^ 16 ≠ p.sequenceControl := by omega
  have hfirst : round below (fresh (p :: rest) passed) =
      some ⟨p :: rest, p :: rest, (p.sequenceControl + 1) % 2 ^ 16, passed⟩ := by
    show (if below p then some (if p.sequenceControl = p.sequenceControl then _ else _) else none) = _
    rw [if_pos hbelow, if_pos rfl, hmore]
    rfl
  have hsecond : round below ⟨p :: rest, p :: rest, (p.sequenceControl + 1) % 2 ^ 16, passed⟩ =
      some (fresh (p :: rest) passed) := by
    show (if below p then some (if (p.sequenceControl + 1) % 2 ^ 16 = p.sequenceControl then _ else _) else none) = _
    rw [if_pos hbelow, if_neg hne]
    exact congrArg some (goToNext_some (List.dropWhile_cons_of_neg (by rw [decide_eq_true_eq]; exact hne)))
  rw [loop, hfirst]
  show loop below (fuel + 1) _ = _
  rw [loop, hsecond]

theorem loop_more_none {p : BufferedPacket} (rest passed : List BufferedPacket) (hbelow : below p = true)
    (hmore : p.hdr.moreFragments = true) (fuel : Nat) : loop below fuel (fresh (p :: rest) passed) = none := by
  induction fuel using Nat.strongRecOn with
  | ind fuel ih =>
    match fuel with
    | 0 => rfl
    | 1 =>
      rw [loop]
      cases hround : round below (fresh (p :: rest) passed) with
      | none =>
        rw [round] at hround
        exact absurd hround (by simp [fresh, start, hbelow])
      | some s => rfl
    | fuel + 2 =>
      rw [loop_more hbelow hmore]
      exact ih fuel (by omega)

/-- The loop is at `l`; its variables matter only where there is a packet. -/
structure At (s : Releasing) (l passed : List BufferedPacket) : Prop where
  here : s.i = l
  up : s.passed = passed
  fresh : l ≠ [] → s = fresh l passed

theorem at_start (buffer : List BufferedPacket) : At (start buffer) buffer [] := ⟨rfl, rfl, fun _ => rfl⟩

theorem goToNext_at (s : Releasing) :
    At s.goToNext (s.i.dropWhile fun q => decide (s.guard = q.sequenceControl)) s.passed := by
  cases h : s.i.dropWhile (fun q => decide (s.guard = q.sequenceControl)) with
  | nil =>
    have hnext : s.goToNext = { s with i := [] } := by rw [goToNext, h]
    rw [hnext]
    exact ⟨rfl, rfl, fun hne => absurd rfl hne⟩
  | cons p rest =>
    rw [goToNext_some h]
    exact ⟨rfl, rfl, fun _ => rfl⟩

/-- The first packet of a sequence control, without more fragments, is passed up; its duplicates are skipped. -/
theorem round_leader {p : BufferedPacket} (rest passed : List BufferedPacket) (hbelow : below p = true)
    (hmore : p.hdr.moreFragments = false) :
    ∃ s, round below (fresh (p :: rest) passed) = some s ∧
      At s (rest.dropWhile fun q => decide (p.sequenceControl = q.sequenceControl)) (passed ++ [p]) := by
  have hround : round below (fresh (p :: rest) passed) = some ((fresh (p :: rest) passed).passUpTo rest).goToNext := by
    show (if below p then some (if p.sequenceControl = p.sequenceControl then _ else _) else none) = _
    rw [if_pos hbelow, if_pos rfl, hmore]
    rfl
  have hone : (p :: rest).take ((p :: rest).length - rest.length) = [p] := by
    rw [List.length_cons, Nat.add_sub_cancel_left]
    rfl
  have hup : ((fresh (p :: rest) passed).passUpTo rest).passed = passed ++ [p] := by
    show passed ++ (p :: rest).take ((p :: rest).length - rest.length) = _
    rw [hone]
  have hnext := goToNext_at ((fresh (p :: rest) passed).passUpTo rest)
  rw [hup] at hnext
  refine ⟨_, hround, ?_⟩
  have hskip : ((fresh (p :: rest) passed).passUpTo rest).i.dropWhile (fun q => decide (p.sequenceControl = q.sequenceControl)) =
      rest.dropWhile fun q => decide (p.sequenceControl = q.sequenceControl) :=
    List.dropWhile_cons_of_pos (decide_eq_true rfl)
  rw [← hskip]
  exact hnext

/-- What the loop does when it ends. -/
structure Ended (below : BufferedPacket → Bool) (l passed : List BufferedPacket) (s : Releasing) : Prop where
  here : s.i = l.dropWhile below
  up : s.passed = passed ++ leaders (l.takeWhile below)

theorem ended_of_not_below {l passed : List BufferedPacket} {s : Releasing} (hat : At s l passed)
    (h : s.round below = none) : Ended below l passed s := by
  obtain ⟨rfl, rfl, -⟩ := hat
  rw [round] at h
  cases hi : s.i with
  | nil => exact ⟨hi, by rw [List.takeWhile_nil, leaders, List.append_nil]⟩
  | cons p rest =>
    rw [hi] at h
    cases hbelow : below p with
    | true => exact absurd h (by simp [hbelow])
    | false =>
      have hnot : ¬ below p = true := by simp [hbelow]
      refine ⟨by rw [hi, List.dropWhile_cons_of_neg hnot], ?_⟩
      rw [List.takeWhile_cons_of_neg hnot, leaders, List.append_nil]

theorem leaders_below {p : BufferedPacket} {rest : List BufferedPacket}
    (hcongr : ∀ q r : BufferedPacket, q.sequenceControl = r.sequenceControl → below q = below r) (hbelow : below p = true) :
    leaders ((p :: rest).takeWhile below) =
        p :: leaders ((rest.dropWhile fun q => decide (p.sequenceControl = q.sequenceControl)).takeWhile below) ∧
      (p :: rest).dropWhile below = (rest.dropWhile fun q => decide (p.sequenceControl = q.sequenceControl)).dropWhile below := by
  have hsame : ∀ q ∈ rest, decide (p.sequenceControl = q.sequenceControl) = true → below q = true := by
    intro q _ hq
    rw [← hcongr p q (of_decide_eq_true hq)]
    exact hbelow
  constructor
  · rw [List.takeWhile_cons_of_pos hbelow, leaders, dropWhile_takeWhile hsame]
  · rw [List.dropWhile_cons_of_pos hbelow, dropWhile_dropWhile_of_imp hsame]

theorem Ended.cons {p : BufferedPacket} {rest passed : List BufferedPacket} {s : Releasing}
    (hcongr : ∀ q r : BufferedPacket, q.sequenceControl = r.sequenceControl → below q = below r) (hbelow : below p = true)
    (h : Ended below (rest.dropWhile fun q => decide (p.sequenceControl = q.sequenceControl)) (passed ++ [p]) s) :
    Ended below (p :: rest) passed s := by
  obtain ⟨hleaders, hrest⟩ := leaders_below hcongr hbelow
  refine ⟨by rw [hrest]; exact h.here, ?_⟩
  rw [hleaders, h.up, List.append_assoc]
  rfl

/-- A loop that ends has met no packet with more fragments. -/
theorem loop_some (hcongr : ∀ q r : BufferedPacket, q.sequenceControl = r.sequenceControl → below q = below r)
    {fuel : Nat} {l passed : List BufferedPacket} {s s' : Releasing} (hat : At s l passed)
    (h : loop below fuel s = some s') :
    Ended below l passed s' ∧ ∀ p ∈ leaders (l.takeWhile below), p.hdr.moreFragments = false := by
  induction fuel generalizing l passed s with
  | zero => exact nomatch h
  | succ fuel ih =>
    rw [loop] at h
    cases hround : s.round below with
    | none =>
      rw [hround] at h
      obtain rfl := Option.some.inj h
      have hended := ended_of_not_below hat hround
      refine ⟨hended, ?_⟩
      have hnone : leaders (l.takeWhile below) = [] := by
        have hup := hended.up
        rw [hat.up] at hup
        exact List.append_cancel_left (hup.symm.trans (List.append_nil _).symm)
      rw [hnone]
      exact List.forall_mem_nil _
    | some s₁ =>
      rw [hround] at h
      cases l with
      | nil =>
        rw [round, hat.here] at hround
        exact nomatch hround
      | cons p rest =>
        obtain rfl := hat.fresh (List.cons_ne_nil p rest)
        cases hbelow : below p with
        | false =>
          rw [round] at hround
          exact absurd hround (by simp [Releasing.fresh, start, hbelow])
        | true =>
          cases hmore : p.hdr.moreFragments with
          | true =>
            have hnone := loop_more_none rest passed hbelow hmore (fuel + 1)
            rw [loop, hround] at hnone
            exact nomatch hnone.symm.trans h
          | false =>
            obtain ⟨s₂, hleader, hat'⟩ := round_leader rest passed hbelow hmore
            obtain rfl : s₂ = s₁ := Option.some.inj (hleader.symm.trans hround)
            obtain ⟨hended, hrest⟩ := ih hat' h
            refine ⟨hended.cons hcongr hbelow, ?_⟩
            rw [(leaders_below hcongr hbelow).1]
            exact List.forall_mem_cons.2 ⟨hmore, hrest⟩

/-- The loop ends where no packet that it meets has more fragments. -/
theorem loop_ends (hcongr : ∀ q r : BufferedPacket, q.sequenceControl = r.sequenceControl → below q = below r)
    {l passed : List BufferedPacket} {s : Releasing} (hat : At s l passed)
    (h : ∀ p ∈ leaders (l.takeWhile below), p.hdr.moreFragments = false) :
    ∃ fuel s', loop below fuel s = some s' := by
  induction hn : l.length using Nat.strongRecOn generalizing l passed s with
  | ind n ih =>
    cases hround : s.round below with
    | none => exact ⟨1, s, by rw [loop, hround]⟩
    | some s₁ =>
      cases l with
      | nil =>
        rw [round, hat.here] at hround
        exact nomatch hround
      | cons p rest =>
        obtain rfl := hat.fresh (List.cons_ne_nil p rest)
        cases hbelow : below p with
        | false =>
          rw [round] at hround
          exact absurd hround (by simp [Releasing.fresh, start, hbelow])
        | true =>
          rw [(leaders_below hcongr hbelow).1, List.forall_mem_cons] at h
          obtain ⟨s₂, hleader, hat'⟩ := round_leader rest passed hbelow h.1
          obtain rfl : s₂ = s₁ := Option.some.inj (hleader.symm.trans hround)
          have hshort := List.length_dropWhile_le (fun q => decide (p.sequenceControl = q.sequenceControl)) rest
          rw [List.length_cons] at hn
          obtain ⟨fuel, s', hloop⟩ := ih _ (by omega) hat' h.2 rfl
          exact ⟨fuel + 1, s', by rw [loop, hround]; exact hloop⟩

end Releasing

theorem mem_of_mem_leaders {l : List BufferedPacket} {p : BufferedPacket} (h : p ∈ leaders l) : p ∈ l := by
  induction l using leaders.induct with
  | case1 => rw [leaders] at h; exact nomatch h
  | case2 q rest ih =>
    rw [leaders] at h
    rcases List.mem_cons.1 h with rfl | hin
    · exact List.mem_cons_self
    · exact List.mem_cons_of_mem _ ((List.dropWhile_sublist _).mem (ih hin))

theorem exists_leader {l : List BufferedPacket} {p : BufferedPacket} (h : p ∈ l) :
    ∃ q ∈ leaders l, q.sequenceControl = p.sequenceControl := by
  induction l using leaders.induct with
  | case1 => exact nomatch h
  | case2 q rest ih =>
    rw [leaders]
    by_cases hsame : q.sequenceControl = p.sequenceControl
    · exact ⟨q, List.mem_cons_self, hsame⟩
    · have hrest : p ∈ rest := (List.mem_cons.1 h).resolve_left fun heq => hsame (by rw [heq])
      rw [← List.takeWhile_append_dropWhile (p := fun r => decide (q.sequenceControl = r.sequenceControl)) (l := rest)] at hrest
      rcases List.mem_append.1 hrest with hskipped | hkept
      · have heq := List.mem_takeWhile_imp hskipped
        exact absurd (of_decide_eq_true heq) hsame
      · obtain ⟨r, hr, hcontrol⟩ := ih hkept
        exact ⟨r, List.mem_cons_of_mem _ hr, hcontrol⟩

namespace ReorderAgreement

variable {a : ReorderAgreement} {p q : BufferedPacket} {seq : Nat}

/-- In a sorted buffer the first packets of their sequence control increase strictly. -/
theorem leaders_increasing {l : List BufferedPacket} (h : (l.map a.mapped).Pairwise (· ≤ ·)) :
    ((leaders l).map a.mapped).Pairwise (· < ·) := by
  induction l using leaders.induct with
  | case1 => rw [leaders]; exact .nil
  | case2 p rest ih =>
    rw [List.map_cons, List.pairwise_cons] at h
    have hsub := List.dropWhile_sublist (fun q => decide (p.sequenceControl = q.sequenceControl)) (l := rest)
    have hsorted : ((rest.dropWhile fun q => decide (p.sequenceControl = q.sequenceControl)).map a.mapped).Pairwise (· ≤ ·) :=
      h.2.sublist (hsub.map _)
    rw [leaders, List.map_cons, List.pairwise_cons]
    refine ⟨fun k hk => ?_, ih hsorted⟩
    obtain ⟨q, hq, rfl⟩ := List.mem_map.1 hk
    have hin := mem_of_mem_leaders hq
    cases hrest : rest.dropWhile (fun q => decide (p.sequenceControl = q.sequenceControl)) with
    | nil =>
      rw [hrest] at hin
      exact nomatch hin
    | cons r rs =>
      have hr : r ∈ rest := hsub.mem (by rw [hrest]; exact List.mem_cons_self)
      have hfirst : a.mapped p < a.mapped r := by
        have hnot := List.head?_dropWhile_not (fun q => decide (p.sequenceControl = q.sequenceControl)) rest
        rw [hrest] at hnot
        have hne : p.sequenceControl ≠ r.sequenceControl := by simpa using hnot
        exact Nat.lt_of_le_of_ne (h.1 _ (List.mem_map_of_mem hr)) fun heq => hne (mapped_inj heq)
      rw [hrest] at hin hsorted
      rcases List.mem_cons.1 hin with rfl | hlater
      · exact hfirst
      · exact Nat.lt_of_lt_of_le hfirst ((List.pairwise_cons.1 hsorted).1 _ (List.mem_map_of_mem hlater))

theorem below_congr (h : p.sequenceControl = q.sequenceControl) : a.below seq p = a.below seq q := by
  rw [below, below, mapped_congr h]

/-- The packets below a sequence control are at the front. -/
theorem Sorted.split (h : a.Sorted) (seq : Nat) :
    a.buffer.takeWhile (a.below seq) = a.buffer.filter (a.below seq) ∧
      a.buffer.dropWhile (a.below seq) = a.buffer.filter (fun p => !a.below seq p) := by
  unfold Sorted at h
  generalize a.buffer = l at h
  induction l with
  | nil => exact ⟨rfl, rfl⟩
  | cons p rest ih =>
    rw [List.map_cons, List.pairwise_cons] at h
    obtain ⟨htake, hdrop⟩ := ih h.2
    cases hbelow : a.below seq p with
    | true =>
      rw [List.takeWhile_cons_of_pos hbelow, List.filter_cons_of_pos hbelow, List.dropWhile_cons_of_pos hbelow,
        List.filter_cons_of_neg (by simp [hbelow]), htake, hdrop]
      exact ⟨rfl, rfl⟩
    | false =>
      have hnone : ∀ q ∈ rest, a.below seq q = false := by
        intro q hq
        have hle := h.1 _ (List.mem_map_of_mem hq)
        have hge := of_decide_eq_false hbelow
        exact decide_eq_false fun hlt => hge (Nat.lt_of_le_of_lt hle hlt)
      have hfilter : rest.filter (a.below seq) = [] := List.filter_eq_nil_iff.2 fun q hq => by simp [hnone q hq]
      have hall : rest.filter (fun p => !a.below seq p) = rest := List.filter_eq_self.2 fun q hq => by simp [hnone q hq]
      rw [List.takeWhile_cons_of_neg (by simp [hbelow]), List.filter_cons_of_neg (by simp [hbelow]),
        List.dropWhile_cons_of_neg (by simp [hbelow]), List.filter_cons_of_pos (by simp [hbelow]), hfilter, hall]
      exact ⟨rfl, rfl⟩

end ReorderAgreement

/-! ## What is to be passed up -/

/-- The fragments `0` to `last` of an MSDU are there, and `last` is the first that is without more fragments. -/
structure CompleteMsdu (l : List BufferedPacket) (seqSeq last : Nat) : Prop where
  present : ∀ f ≤ last, ∃ p ∈ l, p.hdr.seqSeq = seqSeq ∧ p.hdr.seqFrag = f
  ends : ∃ p ∈ l, p.hdr.seqSeq = seqSeq ∧ p.hdr.seqFrag = last ∧ p.hdr.moreFragments = false
  more : ∀ p ∈ l, p.hdr.seqSeq = seqSeq → p.hdr.seqFrag < last → p.hdr.moreFragments = true

namespace ReorderAgreement

variable {a : ReorderAgreement}

/-- The fragments of the complete MSDUs of `l`, each once and in order. -/
structure PassedUp (a : ReorderAgreement) (l passed : List BufferedPacket) : Prop where
  stored : ∀ p ∈ passed, p ∈ l
  ordered : (passed.map a.mapped).Pairwise (· < ·)
  complete : ∀ seqSeq f, (∃ p ∈ passed, p.hdr.seqSeq = seqSeq ∧ p.hdr.seqFrag = f) ↔
    ∃ last, CompleteMsdu l seqSeq last ∧ f ≤ last

/-- The loop ends, passes up the complete MSDUs below `seq`, and removes all that is below it. -/
def ReleaseRight (a : ReorderAgreement) (seq : Nat) : Prop :=
  ∃ fuel passed a', a.rxCompleteBufferedPacketsWithSmallerSequence fuel seq = some (passed, a') ∧
    a.PassedUp (a.buffer.filter (a.below seq)) passed ∧ a'.buffer = a.buffer.filter fun p => !a.below seq p

/-- The first packets of their sequence control, below `seq`, are whole MSDUs. -/
def Whole (a : ReorderAgreement) (seq : Nat) : Prop :=
  ∀ p ∈ leaders (a.buffer.filter (a.below seq)), p.hdr.moreFragments = false ∧ p.hdr.seqFrag = 0

theorem exists_leader_zero {l : List BufferedPacket} {seqSeq last : Nat} (h : CompleteMsdu l seqSeq last) :
    ∃ q ∈ leaders l, q.hdr.seqSeq = seqSeq ∧ q.hdr.seqFrag = 0 ∧ (0 < last → q.hdr.moreFragments = true) := by
  obtain ⟨p, hp, hseq, hfrag⟩ := h.present 0 (Nat.zero_le last)
  obtain ⟨q, hq, hcontrol⟩ := exists_leader hp
  obtain ⟨hseq', hfrag'⟩ := BufferedPacket.sequenceControl_inj hcontrol
  refine ⟨q, hq, hseq'.trans hseq, hfrag'.trans hfrag, fun hlast => ?_⟩
  exact h.more q (mem_of_mem_leaders hq) (hseq'.trans hseq) (by rw [hfrag', hfrag]; exact hlast)

theorem passedUp_leaders_iff {l : List BufferedPacket} (hsorted : (l.map a.mapped).Pairwise (· ≤ ·))
    (hmore : ∀ p ∈ leaders l, p.hdr.moreFragments = false) :
    a.PassedUp l (leaders l) ↔ ∀ p ∈ leaders l, p.hdr.seqFrag = 0 := by
  constructor
  · intro h p hp
    refine Nat.eq_zero_of_not_pos fun hpos => ?_
    obtain ⟨last, hcomplete, hle⟩ := (h.complete p.hdr.seqSeq p.hdr.seqFrag).1 ⟨p, hp, rfl, rfl⟩
    obtain ⟨q, hq, -, -, hfirst⟩ := exists_leader_zero hcomplete
    have htrue := hfirst (Nat.lt_of_lt_of_le hpos hle)
    rw [hmore q hq] at htrue
    exact Bool.false_ne_true htrue
  · intro hzero
    refine ⟨fun p hp => mem_of_mem_leaders hp, leaders_increasing hsorted, fun seqSeq f => ⟨?_, ?_⟩⟩
    · rintro ⟨p, hp, rfl, rfl⟩
      have hfrag := hzero p hp
      refine ⟨0, ⟨fun f hf => ?_, ?_, fun q _ _ hlt => absurd hlt (Nat.not_lt_zero _)⟩, Nat.le_of_eq hfrag⟩
      · obtain rfl := Nat.le_zero.1 hf
        exact ⟨p, mem_of_mem_leaders hp, rfl, hfrag⟩
      · exact ⟨p, mem_of_mem_leaders hp, rfl, hfrag, hmore p hp⟩
    · rintro ⟨last, hcomplete, hle⟩
      obtain ⟨q, hq, hseq, hfrag, hfirst⟩ := exists_leader_zero hcomplete
      have hlast : last = 0 := by
        refine Nat.eq_zero_of_not_pos fun hpos => ?_
        have htrue := hfirst hpos
        rw [hmore q hq] at htrue
        exact Bool.false_ne_true htrue
      obtain rfl : f = 0 := Nat.le_zero.1 (hlast ▸ hle)
      exact ⟨q, hq, hseq, hfrag⟩

theorem filter_sorted (h : a.Sorted) (seq : Nat) : ((a.buffer.filter (a.below seq)).map a.mapped).Pairwise (· ≤ ·) :=
  h.sublist (List.filter_sublist.map _)

theorem releaseRight_iff (a : ReorderAgreement) (h : a.Sorted) (seq : Nat) : a.ReleaseRight seq ↔ a.Whole seq := by
  have hsplit := h.split seq
  have hcongr : ∀ q r : BufferedPacket, q.sequenceControl = r.sequenceControl → a.below seq q = a.below seq r :=
    fun q r heq => below_congr heq
  constructor
  · rintro ⟨fuel, passed, a', hrun, hpassed, -⟩
    rw [rxCompleteBufferedPacketsWithSmallerSequence, Option.map_eq_some_iff] at hrun
    obtain ⟨s, hloop, heq⟩ := hrun
    obtain ⟨rfl, -⟩ := Prod.mk.inj heq
    obtain ⟨hended, hmore⟩ := Releasing.loop_some hcongr (Releasing.at_start a.buffer) hloop
    have hup := hended.up
    rw [hsplit.1] at hmore hup
    rw [hup, List.nil_append, passedUp_leaders_iff (filter_sorted h seq) hmore] at hpassed
    exact fun p hp => ⟨hmore p hp, hpassed p hp⟩
  · intro hwhole
    have hmore : ∀ p ∈ leaders (a.buffer.filter (a.below seq)), p.hdr.moreFragments = false := fun p hp => (hwhole p hp).1
    obtain ⟨fuel, s, hloop⟩ := Releasing.loop_ends hcongr (Releasing.at_start a.buffer) (by rw [hsplit.1]; exact hmore)
    obtain ⟨hended, -⟩ := Releasing.loop_some hcongr (Releasing.at_start a.buffer) hloop
    refine ⟨fuel, s.passed, { a with buffer := s.i }, ?_, ?_, ?_⟩
    · rw [rxCompleteBufferedPacketsWithSmallerSequence, hloop]
      rfl
    · rw [hended.up, hsplit.1, List.nil_append, passedUp_leaders_iff (filter_sorted h seq) hmore]
      exact fun p hp => (hwhole p hp).2
    · show s.i = _
      rw [hended.here, hsplit.2]

end ReorderAgreement

/-! ## The agreements -/

namespace BAckAgreements

variable {m : BAckAgreements}

def Sorted (m : BAckAgreements) : Prop := ∀ key a, m key = some a → a.Sorted

theorem Sorted.update (h : m.Sorted) {key : Mac48Address × Nat} {a : ReorderAgreement} (ha : a.Sorted) :
    Sorted (Function.update m key (some a)) := by
  intro key' a' ha'
  by_cases heq : key' = key
  · rw [heq, Function.update_self] at ha'
    exact Option.some.inj ha' ▸ ha
  · rw [Function.update_of_ne heq] at ha'
    exact h key' a' ha'

theorem storeMpduIfNeeded_sorted (h : m.Sorted) (p : BufferedPacket) : (m.storeMpduIfNeeded p).2.Sorted := by
  unfold storeMpduIfNeeded
  cases ha : m (p.hdr.addr2, p.hdr.qosTid) with
  | none => exact h
  | some a => exact h.update (ReorderAgreement.store_sorted (h _ a ha) _)

/-- A release keeps the order of every buffer. -/
theorem rxCompleteBufferedPacketsWithSmallerSequence_sorted (h : m.Sorted) {fuel seq tid : Nat} {originator : Mac48Address}
    {passed : List BufferedPacket} {m' : BAckAgreements}
    (hrun : m.rxCompleteBufferedPacketsWithSmallerSequence fuel seq originator tid = some (passed, m')) : m'.Sorted := by
  rw [rxCompleteBufferedPacketsWithSmallerSequence] at hrun
  cases ha : m (originator, tid) with
  | none =>
    rw [ha] at hrun
    obtain ⟨-, rfl⟩ := Prod.mk.inj (Option.some.inj hrun)
    exact h
  | some a =>
    rw [ha] at hrun
    obtain ⟨r, hr, heq⟩ := Option.map_eq_some_iff.1 hrun
    obtain ⟨-, rfl⟩ := Prod.mk.inj heq
    obtain ⟨s, hloop, rfl⟩ := Option.map_eq_some_iff.1 hr
    have hsorted := h _ a ha
    obtain ⟨hended, -⟩ := Releasing.loop_some (fun q r heq => ReorderAgreement.below_congr heq)
      (Releasing.at_start a.buffer) hloop
    refine h.update ?_
    show ((s.i).map a.mapped).Pairwise (· ≤ ·)
    rw [hended.here]
    exact hsorted.sublist ((List.dropWhile_sublist _).map _)

end BAckAgreements

/-! ## A fragmented MSDU -/

def zeroAddress : Mac48Address := .replicate 0

/-- A fragment of the MSDU with number 5. -/
def fragment (number : Fin 16) (more : Bool) : BufferedPacket where
  packet := []
  hdr := ⟨⟨true, false, false, zeroAddress, zeroAddress, zeroAddress, 0, false⟩, false, more, 5, number⟩
  seq_lt := by show 5 < 2 ^ 12; decide
  frag_lt := number.isLt

namespace ReorderAgreement

theorem releaseRight_whole : ReleaseRight ⟨0, [fragment 0 false]⟩ (6 * 16) := by
  refine (releaseRight_iff ⟨0, [fragment 0 false]⟩ (List.pairwise_singleton _ _) (6 * 16)).2 fun p hp => ?_
  have hin := List.mem_filter.1 (mem_of_mem_leaders hp)
  obtain rfl := List.mem_singleton.1 hin.1
  exact ⟨rfl, rfl⟩

/-- Both fragments are there, and the loop never ends. -/
theorem not_releaseRight_fragments :
    Sorted ⟨0, [fragment 0 true, fragment 1 false]⟩ ∧ ¬ ReleaseRight ⟨0, [fragment 0 true, fragment 1 false]⟩ (6 * 16) := by
  refine ⟨by unfold Sorted; decide, ?_⟩
  rintro ⟨fuel, passed, a', hrun, -⟩
  have hbelow : below ⟨0, [fragment 0 true, fragment 1 false]⟩ (6 * 16) (fragment 0 true) = true := by decide
  have hnone := Releasing.loop_more_none [fragment 1 false] [] hbelow rfl fuel
  rw [rxCompleteBufferedPacketsWithSmallerSequence, Option.map_eq_some_iff] at hrun
  obtain ⟨s, hloop, -⟩ := hrun
  exact nomatch hnone.symm.trans hloop

end ReorderAgreement

end Ns3Raft.Wifi
