import Ns3Raft.Lib.Circular

/-! # The originator's transmit window

`OriginatorBlockAckAgreement` keeps the acknowledged numbers of a block ack agreement in a
`BlockAckWindow`, a circular list of bits.
-/

namespace Ns3Raft.Wifi

/-- `SEQNO_SPACE_SIZE`. -/
def seqnoSpaceSize : Nat := 4096

/-- `SEQNO_SPACE_HALF_SIZE`. -/
def seqnoSpaceHalfSize : Nat := seqnoSpaceSize / 2

structure BlockAckWindow where
  winStart : Nat
  window : List Bool
  head : Nat
  deriving DecidableEq, Repr

namespace BlockAckWindow

def init (winStart winSize : Nat) : BlockAckWindow := ⟨winStart, List.replicate winSize false, 0⟩

def reset (w : BlockAckWindow) (winStart : Nat) : BlockAckWindow := init winStart w.window.length

def getWinSize (w : BlockAckWindow) : Nat := w.window.length

/-- `At`, read. `none` is the assertion. -/
def entry (w : BlockAckWindow) (distance : Nat) : Option Bool :=
  if distance < w.window.length then w.window[(w.head + distance) % w.window.length]? else none

/-- `At`, assigned to. -/
def setEntry (w : BlockAckWindow) (distance : Nat) (value : Bool) : Option BlockAckWindow :=
  if distance < w.window.length then
    some { w with window := w.window.set ((w.head + distance) % w.window.length) value }
  else none

/-- The loop of `Advance`. -/
def advanceHead : Nat → BlockAckWindow → BlockAckWindow
  | 0, w => w
  | count + 1, w =>
      advanceHead count { w with window := w.window.set w.head false, head := (w.head + 1) % w.window.length }

def advance (w : BlockAckWindow) (count : Nat) : BlockAckWindow :=
  if count ≥ w.window.length then w.reset ((w.winStart + count) % seqnoSpaceSize)
  else { advanceHead count w with winStart := (w.winStart + count) % seqnoSpaceSize }

end BlockAckWindow

structure OriginatorBlockAckAgreement where
  startingSeq : Nat
  bufferSize : Nat
  txWindow : BlockAckWindow
  deriving DecidableEq, Repr

namespace OriginatorBlockAckAgreement

/-- An MPDU is given by its sequence number. -/
inductive Event where
  | transmitted (mpduSeqNumber : Nat)
  | acked (mpduSeqNumber : Nat)
  | discarded (mpduSeqNumber : Nat)
  deriving DecidableEq, Repr

def getStartingSequence (a : OriginatorBlockAckAgreement) : Nat :=
  if a.txWindow.getWinSize = 0 then a.startingSeq else a.txWindow.winStart

/-- `none` is the assertion. -/
def getDistance (a : OriginatorBlockAckAgreement) (seqNumber : Nat) : Option Nat :=
  if seqNumber < seqnoSpaceSize then some ((seqNumber + seqnoSpaceSize - a.getStartingSequence) % seqnoSpaceSize)
  else none

def initTxWindow (a : OriginatorBlockAckAgreement) : OriginatorBlockAckAgreement :=
  { a with txWindow := .init a.startingSeq a.bufferSize }

/-- The loop of `AdvanceTxWindow`. `none` when an assertion fails or the rounds run out. -/
def advanceTxWindow : Nat → BlockAckWindow → Option BlockAckWindow
  | rounds, w =>
      match w.entry 0 with
      | some true =>
          match rounds with
          | 0 => none
          | rounds + 1 => advanceTxWindow rounds (w.advance 1)
      | some false => some w
      | none => none

/-- As many rounds as the window has entries. -/
def advanceTx (a : OriginatorBlockAckAgreement) (w : BlockAckWindow) : Option OriginatorBlockAckAgreement :=
  (advanceTxWindow w.getWinSize w).map fun w => { a with txWindow := w }

def notifyTransmittedMpdu (a : OriginatorBlockAckAgreement) (mpduSeqNumber : Nat) : Option OriginatorBlockAckAgreement :=
  match a.getDistance mpduSeqNumber with
  | none => none
  | some distance =>
      if distance ≥ seqnoSpaceHalfSize then some a
      else if distance ≥ a.txWindow.getWinSize then
        a.advanceTx (a.txWindow.advance (distance - a.txWindow.getWinSize + 1))
      else some a

def notifyAckedMpdu (a : OriginatorBlockAckAgreement) (mpduSeqNumber : Nat) : Option OriginatorBlockAckAgreement :=
  match a.getDistance mpduSeqNumber with
  | none => none
  | some distance =>
      if distance ≥ seqnoSpaceHalfSize then some a
      else
        match a.txWindow.setEntry distance true with
        | none => none
        | some w => a.advanceTx w

def notifyDiscardedMpdu (a : OriginatorBlockAckAgreement) (mpduSeqNumber : Nat) : Option OriginatorBlockAckAgreement :=
  match a.getDistance mpduSeqNumber with
  | none => none
  | some distance =>
      if distance ≥ seqnoSpaceHalfSize then some a else a.advanceTx (a.txWindow.advance (distance + 1))

def step (a : OriginatorBlockAckAgreement) : Event → Option OriginatorBlockAckAgreement
  | .transmitted mpduSeqNumber => a.notifyTransmittedMpdu mpduSeqNumber
  | .acked mpduSeqNumber => a.notifyAckedMpdu mpduSeqNumber
  | .discarded mpduSeqNumber => a.notifyDiscardedMpdu mpduSeqNumber

end OriginatorBlockAckAgreement

/-! ## The window moves on -/

namespace BlockAckWindow

variable {w w' w'' : BlockAckWindow} {k l : Nat}

/-- The bit at a distance. -/
def bit (w : BlockAckWindow) (i : Nat) : Option Bool := Circular.slot w.window w.head i

theorem entry_eq {i : Nat} (h : i < w.window.length) : w.entry i = w.bit i := if_pos h

/-- The bits are the old ones from a distance on, and those that come in are not set. -/
structure Shifted (w w' : BlockAckWindow) (k : Nat) : Prop where
  length : w'.window.length = w.window.length
  head : w'.head < w'.window.length
  bit : ∀ i < w.window.length, w'.bit i = if i + k < w.window.length then w.bit (i + k) else some false

theorem Shifted.refl (h : w.head < w.window.length) : Shifted w w 0 := ⟨rfl, h, fun _ hi => (if_pos hi).symm⟩

theorem Shifted.trans (h : Shifted w w' k) (h' : Shifted w' w'' l) : Shifted w w'' (k + l) := by
  refine ⟨h'.length.trans h.length, h'.head, fun i hi => ?_⟩
  have hlen := h.length
  have hsum : i + l + k = i + (k + l) := by omega
  rw [h'.bit i (by omega), hlen]
  split
  · rename_i hin
    rw [h.bit (i + l) hin, hsum]
  · rw [if_neg (by omega)]

theorem advanceHead_shifted (count : Nat) (h : w.head < w.window.length) : Shifted w (advanceHead count w) count := by
  induction count generalizing w with
  | zero => exact Shifted.refl h
  | succ count ih =>
    have hone : Shifted w { w with window := w.window.set w.head false, head := (w.head + 1) % w.window.length } 1 := by
      refine ⟨List.length_set, ?_, fun i hi => Circular.slot_advance h hi⟩
      show (w.head + 1) % w.window.length < (w.window.set w.head false).length
      rw [List.length_set]
      exact Nat.mod_lt _ (Nat.lt_of_le_of_lt (Nat.zero_le _) h)
    have hrest := hone.trans (ih hone.head)
    rw [Nat.add_comm 1 count] at hrest
    exact hrest

/-- The start has moved with the bits. -/
structure Moved (w w' : BlockAckWindow) (k : Nat) : Prop extends Shifted w w' k where
  start : w'.winStart = (w.winStart + k) % seqnoSpaceSize

theorem Moved.refl (h : w.head < w.window.length) (hstart : w.winStart < seqnoSpaceSize) : Moved w w 0 :=
  ⟨Shifted.refl h, (Nat.mod_eq_of_lt hstart).symm⟩

theorem Moved.trans (h : Moved w w' k) (h' : Moved w' w'' l) : Moved w w'' (k + l) :=
  ⟨h.toShifted.trans h'.toShifted, by rw [h'.start, h.start, Nat.mod_add_mod, Nat.add_assoc]⟩

theorem reset_shifted {count : Nat} (start : Nat) (h : 0 < w.window.length) (hcount : w.window.length ≤ count) :
    Shifted w (w.reset start) count := by
  refine ⟨List.length_replicate, ?_, fun i _ => ?_⟩
  · show 0 < (List.replicate w.window.length false).length
    rw [List.length_replicate]
    exact h
  · rw [if_neg (by omega)]
    exact Circular.slot_replicate h 0 i

theorem advance_moved (count : Nat) (h : w.head < w.window.length) : Moved w (w.advance count) count := by
  unfold advance
  split
  · rename_i hge
    exact ⟨reset_shifted _ (Nat.lt_of_le_of_lt (Nat.zero_le _) h) hge, rfl⟩
  · have hshift := advanceHead_shifted count h
    exact ⟨⟨hshift.length, hshift.head, hshift.bit⟩, rfl⟩

/-- Each round resets the head, so there are no more of them than bits that may be set. -/
theorem advanceTxWindow_moved {rounds m : Nat} (h : w.head < w.window.length) (hstart : w.winStart < seqnoSpaceSize)
    (hm : m ≤ rounds) (hset : ∀ i, m ≤ i → i < w.window.length → w.bit i = some false) :
    ∃ w' k, OriginatorBlockAckAgreement.advanceTxWindow rounds w = some w' ∧ Moved w w' k ∧ k ≤ m ∧
      w'.bit 0 = some false := by
  have hpos : 0 < w.window.length := Nat.lt_of_le_of_lt (Nat.zero_le _) h
  have hentry : w.entry 0 = some true ∨ w.entry 0 = some false := by
    have hin : (w.head + 0) % w.window.length < w.window.length := Nat.mod_lt _ hpos
    rw [entry, if_pos hpos, List.getElem?_eq_getElem hin]
    cases w.window[(w.head + 0) % w.window.length]
    · exact .inr rfl
    · exact .inl rfl
  induction rounds generalizing w m with
  | zero =>
    have hzero := hset 0 hm hpos
    refine ⟨w, 0, ?_, Moved.refl h hstart, Nat.zero_le m, hzero⟩
    unfold OriginatorBlockAckAgreement.advanceTxWindow
    rw [entry_eq hpos, hzero]
  | succ rounds ih =>
    unfold OriginatorBlockAckAgreement.advanceTxWindow
    rcases hentry with htrue | hfalse
    · rw [htrue]
      rw [entry_eq hpos] at htrue
      have hone : 1 ≤ m := by
        rcases Nat.eq_zero_or_pos m with hzero | hpos'
        · have hfalse := hset 0 (by omega) hpos
          rw [htrue] at hfalse
          exact nomatch hfalse
        · exact hpos'
      have hmoved := advance_moved 1 h
      have hstart' : (w.advance 1).winStart < seqnoSpaceSize := hmoved.start ▸ Nat.mod_lt _ (by decide)
      have hlen := hmoved.length
      have hset' : ∀ i, m - 1 ≤ i → i < (w.advance 1).window.length → (w.advance 1).bit i = some false := by
        intro i hi hlt
        rw [hmoved.bit i (by omega)]
        split
        · exact hset (i + 1) (by omega) (by omega)
        · rfl
      have hpos' : 0 < (w.advance 1).window.length := by omega
      have hin : ((w.advance 1).head + 0) % (w.advance 1).window.length < (w.advance 1).window.length := Nat.mod_lt _ hpos'
      obtain ⟨w', k, hloop, hrest, hk, hbit⟩ := ih hmoved.head hstart' (by omega) hset' hpos' (by
        rw [entry, if_pos hpos', List.getElem?_eq_getElem hin]
        cases (w.advance 1).window[((w.advance 1).head + 0) % (w.advance 1).window.length]
        · exact .inr rfl
        · exact .inl rfl)
      exact ⟨w', 1 + k, hloop, hmoved.trans hrest, by omega, hbit⟩
    · rw [hfalse]
      exact ⟨w, 0, rfl, Moved.refl h hstart, Nat.zero_le _, by rw [← entry_eq hpos, hfalse]⟩

end BlockAckWindow

/-! ## Runs -/

namespace OriginatorBlockAckAgreement

open BlockAckWindow

/-- What has happened, in numbers that do not wrap: the start of the window, the numbers that were
transmitted, and those that were acknowledged inside of the window. -/
structure Account where
  start : Nat
  sent : List Int
  acked : List Nat

def Event.seq : Event → Nat
  | .transmitted s => s
  | .acked s => s
  | .discarded s => s

/-- How far a sequence number is ahead of the start. -/
def ahead (start seq : Nat) : Nat := (seq + seqnoSpaceSize - start % seqnoSpaceSize) % seqnoSpaceSize

/-- The number that is meant: the nearest one, in front of the start or behind it. -/
def meant (start seq : Nat) : Int :=
  if ahead start seq < seqnoSpaceHalfSize then start + ahead start seq else start + ahead start seq - seqnoSpaceSize

/-- The window of `n` numbers has moved by `k` in the call. -/
def Account.next (c : Account) (n : Nat) (e : Event) (k : Nat) : Account :=
  { start := c.start + k
    sent := match e with
      | .transmitted s => meant c.start s :: c.sent
      | _ => c.sent
    acked := match e with
      | .acked s => if ahead c.start s < n then (c.start + ahead c.start s) :: c.acked else c.acked
      | _ => c.acked }

/-- The window has the numbers that are acknowledged, and the first one is not. -/
def Exact (w : BlockAckWindow) (c : Account) : Prop :=
  (∀ i < w.getWinSize, w.entry i = some (decide (c.start + i ∈ c.acked))) ∧ w.entry 0 = some false ∧
    w.winStart = c.start % seqnoSpaceSize

def movedBy (w w' : BlockAckWindow) : Nat := (w'.winStart + seqnoSpaceSize - w.winStart) % seqnoSpaceSize

/-- The window is exact after every call, as long as the calls are allowed, and every such call returns and
moves the start within the bounds. -/
def Meets (allowed : Account → Event → Prop) (bounded : OriginatorBlockAckAgreement → Event → Nat → Prop) :
    List Event → OriginatorBlockAckAgreement → Account → Prop
  | [], a, c => Exact a.txWindow c
  | e :: es, a, c =>
      Exact a.txWindow c ∧ (allowed c e → ∃ a', a.step e = some a' ∧ bounded a e (movedBy a.txWindow a'.txWindow) ∧
        Meets allowed bounded es a' (c.next a.txWindow.getWinSize e (movedBy a.txWindow a'.txWindow)))

/-- The agreement when it is initialised. -/
def create (startingSeq bufferSize : Nat) : OriginatorBlockAckAgreement :=
  initTxWindow ⟨startingSeq, bufferSize, ⟨0, [], 0⟩⟩

/-- An acknowledged MPDU has been transmitted, and it is not more than half of the space behind. -/
def Allowed (c : Account) (e : Event) : Prop :=
  e.seq < seqnoSpaceSize ∧ match e with
    | .acked s => ∃ p ∈ c.sent, p % seqnoSpaceSize = s ∧ c.start ≤ p + seqnoSpaceHalfSize
    | _ => True

/-- The start moves by half of the space at most, and by less in a smaller window unless the last number in
that half is discarded. -/
def Bounded (a : OriginatorBlockAckAgreement) (e : Event) (k : Nat) : Prop :=
  k ≤ seqnoSpaceHalfSize ∧
    (a.txWindow.getWinSize < seqnoSpaceHalfSize → (∀ s, e = .discarded s → a.getDistance s ≠ some (seqnoSpaceHalfSize - 1)) →
      k < seqnoSpaceHalfSize)

/-- What holds of the window and the account together. -/
structure Kept (w : BlockAckWindow) (c : Account) : Prop where
  head : w.head < w.window.length
  start : w.winStart = c.start % seqnoSpaceSize
  bit : ∀ i < w.window.length, w.bit i = some (decide (c.start + i ∈ c.acked))
  acked_lt : ∀ p ∈ c.acked, p < c.start + w.window.length
  sent_lt : ∀ p ∈ c.sent, p < c.start + w.window.length

variable {w w' : BlockAckWindow} {c : Account} {a : OriginatorBlockAckAgreement} {k n : Nat} {e : Event}

theorem Kept.start_lt (h : Kept w c) : w.winStart < seqnoSpaceSize := h.start ▸ Nat.mod_lt _ (by decide)

/-- The numbers that come into the window are not acknowledged. -/
theorem Kept.moved (h : Kept w c) (hm : Moved w w' k) : Kept w' { c with start := c.start + k } := by
  have hlen := hm.length
  refine ⟨hm.head, ?_, fun i hi => ?_, fun p hp => ?_, fun p hp => ?_⟩
  · rw [hm.start, h.start, Nat.mod_add_mod]
  · rw [hm.bit i (by omega)]
    have hsum : c.start + k + i = c.start + (i + k) := by omega
    show _ = some (decide (c.start + k + i ∈ c.acked))
    rw [hsum]
    split
    · rename_i hin
      exact h.bit _ hin
    · have hnot : c.start + (i + k) ∉ c.acked := fun hmem => by
        have hlt := h.acked_lt _ hmem
        omega
      rw [decide_eq_false hnot]
  · have hlt := h.acked_lt p hp
    show p < c.start + k + _
    omega
  · have hlt := h.sent_lt p hp
    show p < ((c.start + k : Nat) : Int) + _
    omega

theorem Kept.movedBy_eq (h : Kept w c) (hm : Moved w w' k) (hk : k < seqnoSpaceSize) : movedBy w w' = k := by
  have hstart := h.start_lt
  rw [movedBy, hm.start]
  unfold seqnoSpaceSize at *
  omega

theorem Kept.exact (h : Kept w c) (hfirst : w.bit 0 = some false) : Exact w c := by
  have hpos : 0 < w.window.length := Nat.lt_of_le_of_lt (Nat.zero_le _) h.head
  exact ⟨fun i hi => (entry_eq hi).trans (h.bit i hi), (entry_eq hpos).trans hfirst, h.start⟩

theorem Kept.getDistance_eq (h : Kept a.txWindow c) {s : Nat} (hs : s < seqnoSpaceSize) :
    a.getDistance s = some (ahead c.start s) := by
  have hlen : a.txWindow.getWinSize ≠ 0 := fun hzero => by
    have hlt := h.head
    rw [getWinSize] at hzero
    omega
  rw [getDistance, if_pos hs, getStartingSequence, if_neg hlen, h.start]
  rfl

/-- The window moves by `j` first, and then as far as the numbers are acknowledged. -/
theorem Kept.advanceTx {w₁ : BlockAckWindow} {j m : Nat} (h : Kept w c) (hm : Moved w w₁ j)
    (hset : ∀ i, m ≤ i → i < w.window.length → w₁.bit i = some false) (hle : m ≤ w.window.length) :
    ∃ w' k, a.advanceTx w₁ = some { a with txWindow := w' } ∧ Moved w w' k ∧ j ≤ k ∧ k ≤ j + m ∧ w'.bit 0 = some false := by
  have hlen := hm.length
  have hkept := h.moved hm
  obtain ⟨w', l, hloop, hmoved, hl, hfirst⟩ := advanceTxWindow_moved hm.head hkept.start_lt
    (show m ≤ w₁.getWinSize by rw [getWinSize]; omega) (fun i hi hlt => hset i hi (by omega))
  refine ⟨w', j + l, ?_, hm.trans hmoved, by omega, by omega, hfirst⟩
  rw [OriginatorBlockAckAgreement.advanceTx, hloop]
  rfl

/-- What a call leaves. -/
def Stepped (a : OriginatorBlockAckAgreement) (c : Account) (e : Event) (a' : OriginatorBlockAckAgreement) : Prop :=
  ∃ k, a'.txWindow.window.length = a.txWindow.window.length ∧ movedBy a.txWindow a'.txWindow = k ∧ Bounded a e k ∧
    Kept a'.txWindow (c.next a.txWindow.getWinSize e k) ∧ a'.txWindow.bit 0 = some false

theorem moved_le_of_advance {j : Nat} (hm : Moved w w' j) :
    ∀ i, w.window.length - j ≤ i → i < w.window.length → w'.bit i = some false := by
  intro i hi hlt
  rw [hm.bit i hlt, if_neg (by omega)]

theorem ahead_lt (start seq : Nat) : ahead start seq < seqnoSpaceSize := Nat.mod_lt _ (by decide)

theorem notifyTransmittedMpdu_stepped (h : Kept a.txWindow c) (hfirst : a.txWindow.bit 0 = some false)
    (hn : a.txWindow.window.length ≤ seqnoSpaceHalfSize) {s : Nat} (hs : s < seqnoSpaceSize) :
    ∃ a', a.notifyTransmittedMpdu s = some a' ∧ Stepped a c (.transmitted s) a' := by
  have hdist := h.getDistance_eq hs
  have hlt := ahead_lt c.start s
  have hpos : 0 < a.txWindow.window.length := Nat.lt_of_le_of_lt (Nat.zero_le _) h.head
  have hmeant : meant c.start s < c.start + ahead c.start s + 1 := by
    unfold meant
    split <;> omega
  have hsame (hsent : meant c.start s < c.start + a.txWindow.window.length) : Stepped a c (.transmitted s) a := by
    refine ⟨0, rfl, h.movedBy_eq (Moved.refl h.head h.start_lt) (by decide), ⟨Nat.zero_le _, fun _ _ => by decide⟩,
      ⟨h.head, h.start, h.bit, h.acked_lt, ?_⟩, hfirst⟩
    exact List.forall_mem_cons.2 ⟨hsent, h.sent_lt⟩
  by_cases hold : ahead c.start s ≥ seqnoSpaceHalfSize
  · refine ⟨a, ?_, hsame ?_⟩
    · simp only [notifyTransmittedMpdu, hdist, if_pos hold]
    · rw [meant, if_neg (by omega)]
      omega
  by_cases hbeyond : ahead c.start s ≥ a.txWindow.getWinSize
  · have hmoved := advance_moved (ahead c.start s - a.txWindow.getWinSize + 1) h.head
    obtain ⟨w', k, hadv, hall, hjk, hk, hbit⟩ := h.advanceTx (a := a) hmoved (moved_le_of_advance hmoved) (Nat.sub_le _ _)
    have hbeyond' : a.txWindow.window.length ≤ ahead c.start s := hbeyond
    rw [getWinSize] at hjk hk
    have hhalf : seqnoSpaceHalfSize < seqnoSpaceSize := by decide
    have hkept := h.moved hall
    refine ⟨{ a with txWindow := w' }, ?_, k, hall.length, h.movedBy_eq hall (by omega), ⟨by omega, fun _ _ => by omega⟩,
      ⟨hkept.head, hkept.start, hkept.bit, hkept.acked_lt, ?_⟩, hbit⟩
    · simp only [notifyTransmittedMpdu, hdist, if_neg hold]
      rw [if_pos hbeyond]
      exact hadv
    · -- the window ends with the number now, or beyond it
      refine List.forall_mem_cons.2 ⟨?_, hkept.sent_lt⟩
      have hlen := hall.length
      show meant c.start s < ((c.start + k : Nat) : Int) + (w'.window.length : Nat)
      omega
  · refine ⟨a, ?_, hsame ?_⟩
    · simp only [notifyTransmittedMpdu, hdist, if_neg hold]
      exact if_neg hbeyond
    · rw [getWinSize] at hbeyond
      omega

theorem notifyDiscardedMpdu_stepped (h : Kept a.txWindow c) (hfirst : a.txWindow.bit 0 = some false)
    (hn : a.txWindow.window.length ≤ seqnoSpaceHalfSize) {s : Nat} (hs : s < seqnoSpaceSize) :
    ∃ a', a.notifyDiscardedMpdu s = some a' ∧ Stepped a c (.discarded s) a' := by
  have hdist := h.getDistance_eq hs
  by_cases hold : ahead c.start s ≥ seqnoSpaceHalfSize
  · refine ⟨a, ?_, 0, rfl, h.movedBy_eq (Moved.refl h.head h.start_lt) (by decide),
      ⟨Nat.zero_le _, fun _ _ => by decide⟩, h, hfirst⟩
    simp only [notifyDiscardedMpdu, hdist, if_pos hold]
  · have hmoved := advance_moved (ahead c.start s + 1) h.head
    obtain ⟨w', k, hadv, hall, hjk, hk, hbit⟩ := h.advanceTx (a := a) hmoved (moved_le_of_advance hmoved) (Nat.sub_le _ _)
    have hhalf : seqnoSpaceHalfSize < seqnoSpaceSize := by decide
    refine ⟨{ a with txWindow := w' }, ?_, k, hall.length, h.movedBy_eq hall (by omega), ⟨by omega, fun hsmall hlast => ?_⟩,
      h.moved hall, hbit⟩
    · simp only [notifyDiscardedMpdu, hdist, if_neg hold]
      exact hadv
    · have hne := hlast s rfl
      rw [hdist] at hne
      rw [getWinSize] at hsmall
      have hne' : ahead c.start s ≠ seqnoSpaceHalfSize - 1 := fun heq => hne (congrArg some heq)
      omega

/-- An MPDU that is not far behind is in the window, or is old. -/
theorem ahead_of_sent (hn : n ≤ seqnoSpaceHalfSize) {s : Nat} {p : Int} (hp : p < c.start + n) (hseq : p % seqnoSpaceSize = s)
    (hnear : c.start ≤ p + seqnoSpaceHalfSize) : ahead c.start s < n ∨ seqnoSpaceHalfSize ≤ ahead c.start s := by
  unfold ahead seqnoSpaceHalfSize seqnoSpaceSize at *
  omega

theorem notifyAckedMpdu_stepped (h : Kept a.txWindow c) (hfirst : a.txWindow.bit 0 = some false)
    (hn : a.txWindow.window.length ≤ seqnoSpaceHalfSize) {s : Nat} (hs : s < seqnoSpaceSize)
    (hsent : ∃ p ∈ c.sent, p % seqnoSpaceSize = s ∧ c.start ≤ p + seqnoSpaceHalfSize) :
    ∃ a', a.notifyAckedMpdu s = some a' ∧ Stepped a c (.acked s) a' := by
  have hdist := h.getDistance_eq hs
  obtain ⟨p, hp, hseq, hnear⟩ := hsent
  have hin := ahead_of_sent hn (h.sent_lt p hp) hseq hnear
  by_cases hold : ahead c.start s ≥ seqnoSpaceHalfSize
  · refine ⟨a, ?_, 0, rfl, h.movedBy_eq (Moved.refl h.head h.start_lt) (by decide),
      ⟨Nat.zero_le _, fun _ _ => by decide⟩, ?_, hfirst⟩
    · simp only [notifyAckedMpdu, hdist, if_pos hold]
    · have hout : ¬ ahead c.start s < a.txWindow.getWinSize := by
        rw [getWinSize]
        omega
      simp only [Account.next, if_neg hout]
      exact h
  · have hlt : ahead c.start s < a.txWindow.window.length := hin.resolve_right hold
    obtain ⟨w₁, hw₁⟩ : ∃ w₁, a.txWindow.setEntry (ahead c.start s) true = some w₁ := ⟨_, if_pos hlt⟩
    have hw₁eq : w₁ = { a.txWindow with
        window := a.txWindow.window.set ((a.txWindow.head + ahead c.start s) % a.txWindow.window.length) true } := by
      rw [setEntry, if_pos hlt] at hw₁
      exact (Option.some.inj hw₁).symm
    have hlen : w₁.window.length = a.txWindow.window.length := by rw [hw₁eq]; exact List.length_set
    -- the number is acknowledged now
    have hkept : Kept w₁ { c with acked := (c.start + ahead c.start s) :: c.acked } := by
      refine ⟨?_, ?_, fun i hi => ?_, ?_, ?_⟩
      · rw [hlen, hw₁eq]
        exact h.head
      · rw [hw₁eq]
        exact h.start
      · rw [hlen] at hi
        have hbit : w₁.bit i = if i = ahead c.start s then some true else a.txWindow.bit i := by
          rw [hw₁eq]
          exact Circular.slot_set hi hlt
        rw [hbit]
        split
        · rename_i heq
          rw [heq, decide_eq_true List.mem_cons_self]
        · rename_i hne
          have hne' : c.start + i ≠ c.start + ahead c.start s := fun heq => hne (Nat.add_left_cancel heq)
          rw [h.bit i hi]
          congr 1
          rw [decide_eq_decide]
          exact ⟨List.mem_cons_of_mem _, fun hmem => (List.mem_cons.1 hmem).resolve_left hne'⟩
      · rw [hlen]
        exact List.forall_mem_cons.2 ⟨Nat.add_lt_add_left hlt c.start, h.acked_lt⟩
      · rw [hlen]
        exact h.sent_lt
    obtain ⟨w', k, hadv, hall, -, hk, hbit⟩ := hkept.advanceTx (a := a) (Moved.refl hkept.head hkept.start_lt)
      (fun i hi hlt => absurd hlt (Nat.not_lt_of_le hi)) (Nat.le_refl _)
    have hhalf : seqnoSpaceHalfSize < seqnoSpaceSize := by decide
    have hmoved : movedBy a.txWindow w' = k := by
      rw [← hkept.movedBy_eq hall (by omega), hw₁eq]
      rfl
    refine ⟨{ a with txWindow := w' }, ?_, k, hall.length.trans hlen, hmoved, ⟨by omega, fun hsmall _ => ?_⟩, ?_, hbit⟩
    · simp only [notifyAckedMpdu, hdist, if_neg hold, hw₁]
      exact hadv
    · rw [getWinSize] at hsmall
      omega
    · have hin' : ahead c.start s < a.txWindow.getWinSize := hlt
      simp only [Account.next, if_pos hin']
      exact hkept.moved hall

theorem step_stepped (h : Kept a.txWindow c) (hfirst : a.txWindow.bit 0 = some false)
    (hn : a.txWindow.window.length ≤ seqnoSpaceHalfSize) (hallowed : Allowed c e) :
    ∃ a', a.step e = some a' ∧ Stepped a c e a' := by
  cases e with
  | transmitted s => exact notifyTransmittedMpdu_stepped h hfirst hn hallowed.1
  | acked s => exact notifyAckedMpdu_stepped h hfirst hn hallowed.1 hallowed.2
  | discarded s => exact notifyDiscardedMpdu_stepped h hfirst hn hallowed.1

theorem Kept.meets (h : Kept a.txWindow c) (hfirst : a.txWindow.bit 0 = some false)
    (hn : a.txWindow.window.length ≤ seqnoSpaceHalfSize) (events : List Event) : Meets Allowed Bounded events a c := by
  induction events generalizing a c with
  | nil => exact h.exact hfirst
  | cons e es ih =>
    refine ⟨h.exact hfirst, fun hallowed => ?_⟩
    obtain ⟨a', hstep, k, hlen, hk, hbounded, hkept, hfirst'⟩ := step_stepped h hfirst hn hallowed
    exact ⟨a', hstep, hk ▸ hbounded, hk ▸ ih hkept hfirst' (by omega)⟩

theorem create_kept {startingSeq bufferSize : Nat} (hn : 1 ≤ bufferSize) (hstart : startingSeq < seqnoSpaceSize) :
    Kept (create startingSeq bufferSize).txWindow ⟨startingSeq, [], []⟩ ∧
      (create startingSeq bufferSize).txWindow.bit 0 = some false := by
  have hbit : ∀ i, (create startingSeq bufferSize).txWindow.bit i = some false := Circular.slot_replicate hn 0
  refine ⟨⟨?_, (Nat.mod_eq_of_lt hstart).symm, fun i _ => hbit i, List.forall_mem_nil _, List.forall_mem_nil _⟩, hbit 0⟩
  show 0 < (List.replicate bufferSize false).length
  rw [List.length_replicate]
  exact hn

/-- A window of up to half of the space is exact after every call of a run in which no MPDU is acknowledged
that has fallen back by more than that. -/
theorem create_meets {startingSeq bufferSize : Nat} (hn : 1 ≤ bufferSize) (hhalf : bufferSize ≤ seqnoSpaceHalfSize)
    (hstart : startingSeq < seqnoSpaceSize) (events : List Event) :
    Meets Allowed Bounded events (create startingSeq bufferSize) ⟨startingSeq, [], []⟩ := by
  obtain ⟨hkept, hfirst⟩ := create_kept hn hstart
  refine hkept.meets hfirst ?_ events
  show (List.replicate bufferSize false).length ≤ _
  rw [List.length_replicate]
  exact hhalf

theorem create_meets_sixteen :
    Meets Allowed Bounded [.transmitted 20, .acked 20, .discarded 6] (create 0 16) ⟨0, [], []⟩ :=
  create_meets (by decide) (by decide) (by decide) _

/-- Any MPDU that has been transmitted is acknowledged. -/
def Sent (c : Account) (e : Event) : Prop :=
  e.seq < seqnoSpaceSize ∧ match e with
    | .acked s => ∃ p ∈ c.sent, p % seqnoSpaceSize = s
    | _ => True

def BelowHalf (_ : OriginatorBlockAckAgreement) (_ : Event) (k : Nat) : Prop := k < seqnoSpaceHalfSize

theorem notMeets_comeAround :
    ¬ Meets Sent BelowHalf [.transmitted 0, .transmitted 1500, .transmitted 2500, .acked 0] (create 0 16) ⟨0, [], []⟩ := by
  have hstep₁ : (create 0 16).step (.transmitted 0) = some ⟨0, 16, ⟨0, List.replicate 16 false, 0⟩⟩ := by decide
  have hstep₂ : (⟨0, 16, ⟨0, List.replicate 16 false, 0⟩⟩ : OriginatorBlockAckAgreement).step (.transmitted 1500) =
      some ⟨0, 16, ⟨1485, List.replicate 16 false, 0⟩⟩ := by decide
  have hstep₃ : (⟨0, 16, ⟨1485, List.replicate 16 false, 0⟩⟩ : OriginatorBlockAckAgreement).step (.transmitted 2500) =
      some ⟨0, 16, ⟨2485, List.replicate 16 false, 0⟩⟩ := by decide
  have hstep₄ : (⟨0, 16, ⟨2485, List.replicate 16 false, 0⟩⟩ : OriginatorBlockAckAgreement).step (.acked 0) = none := by
    decide
  rintro ⟨-, hrun⟩
  obtain ⟨a₁, h₁, -, -, hrun⟩ := hrun ⟨by decide, trivial⟩
  rw [hstep₁] at h₁
  obtain rfl := Option.some.inj h₁
  obtain ⟨a₂, h₂, -, -, hrun⟩ := hrun ⟨by decide, trivial⟩
  rw [hstep₂] at h₂
  obtain rfl := Option.some.inj h₂
  obtain ⟨a₃, h₃, -, -, hrun⟩ := hrun ⟨by decide, trivial⟩
  rw [hstep₃] at h₃
  obtain rfl := Option.some.inj h₃
  obtain ⟨a₄, h₄, -⟩ := hrun ⟨by decide, by decide⟩
  rw [hstep₄] at h₄
  exact nomatch h₄

theorem notMeets_lastOfHalf : ¬ Meets Sent BelowHalf [.discarded 2047] (create 0 16) ⟨0, [], []⟩ := by
  have hstep : (create 0 16).step (.discarded 2047) = some ⟨0, 16, ⟨2048, List.replicate 16 false, 0⟩⟩ := by decide
  rintro ⟨-, hrun⟩
  obtain ⟨a, h, hbelow, -⟩ := hrun ⟨by decide, trivial⟩
  rw [hstep] at h
  obtain rfl := Option.some.inj h
  unfold BelowHalf at hbelow
  exact absurd hbelow (by decide)

theorem notMeets_largeWindow :
    ¬ Meets Sent BelowHalf [.transmitted 2048, .acked 2048] (create 0 2049) ⟨0, [], []⟩ := by
  have hkept := (create_kept (by decide : 1 ≤ 2049) (by decide : 0 < seqnoSpaceSize)).1
  have hdist : (create 0 2049).getDistance 2048 = some (ahead 0 2048) := hkept.getDistance_eq (by decide)
  have hold : ahead 0 2048 ≥ seqnoSpaceHalfSize := by decide
  have hstep₁ : (create 0 2049).step (.transmitted 2048) = some (create 0 2049) := by
    simp only [step, notifyTransmittedMpdu, hdist, if_pos hold]
  have hstep₂ : (create 0 2049).step (.acked 2048) = some (create 0 2049) := by
    simp only [step, notifyAckedMpdu, hdist, if_pos hold]
  have hsize : (create 0 2049).txWindow.getWinSize = 2049 := List.length_replicate
  have hmoved : movedBy (create 0 2049).txWindow (create 0 2049).txWindow = 0 :=
    hkept.movedBy_eq (Moved.refl hkept.head hkept.start_lt) (by decide)
  rintro ⟨-, hrun⟩
  obtain ⟨a₁, h₁, -, -, hrun⟩ := hrun ⟨by decide, trivial⟩
  rw [hstep₁] at h₁
  obtain rfl := Option.some.inj h₁
  rw [hsize, hmoved] at hrun
  obtain ⟨a₂, h₂, -, hexact⟩ := hrun ⟨by decide, by decide⟩
  rw [hstep₂] at h₂
  obtain rfl := Option.some.inj h₂
  rw [hmoved] at hexact
  -- the number is in the window and acknowledged, and its bit is not set
  have hbit := hexact.1 2048 (by rw [hsize]; decide)
  rw [entry_eq (by rw [← getWinSize, hsize]; decide)] at hbit
  have hclear : (create 0 2049).txWindow.bit 2048 = some false := Circular.slot_replicate (by decide) 0 2048
  rw [hclear] at hbit
  exact absurd hbit (by decide)

/-- The assertion fails for an MPDU that has come around; the last number of the half moves the start by all of it;
and in a window of more than that half an acknowledgement is lost. -/
theorem not_meets_sent :
    ¬ Meets Sent BelowHalf [.transmitted 0, .transmitted 1500, .transmitted 2500, .acked 0] (create 0 16) ⟨0, [], []⟩ ∧
      ¬ Meets Sent BelowHalf [.discarded 2047] (create 0 16) ⟨0, [], []⟩ ∧
      ¬ Meets Sent BelowHalf [.transmitted 2048, .acked 2048] (create 0 2049) ⟨0, [], []⟩ :=
  ⟨notMeets_comeAround, notMeets_lastOfHalf, notMeets_largeWindow⟩

end OriginatorBlockAckAgreement

end Ns3Raft.Wifi
