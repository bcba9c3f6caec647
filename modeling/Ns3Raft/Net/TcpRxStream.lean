import Ns3Raft.Net.TcpRxRuns

/-! # The stream that is received

The segments are those of one stream, from its first byte on. What is taken is the
stream again, and what is stored lies in the window as long as the additions that
the buffer does not trim do.
-/

namespace Ns3Raft.Net

open Sequence SequenceNumber32 Slices Transition TcpRxBuffer

def InStream (S : List UInt8) (k : Nat) (p : List UInt8) : Prop := p = slice S k p.length

variable {S : List UInt8} {b b' : TcpRxBuffer Nat} {k off len o : Nat} {p : List UInt8}

theorem inStream_content : Content (InStream S) where
  slice {k p off len} hp hin := by
    have hlen := length_slice hin
    rw [InStream, hlen]
    conv_lhs => rw [hp]
    exact slice_slice hin
  append {k p q} hp hq := by
    rw [InStream, List.length_append, slice_append]
    exact congrArg₂ (· ++ ·) hp hq
  nil k := slice_zero.symm

theorem InStream.le (hp : InStream S k p) (hne : 0 < p.length) : k + p.length ≤ S.length := by
  have hlen := congrArg List.length hp
  rw [slice, List.length_take, List.length_drop] at hlen
  omega

namespace TcpRxBuffer

variable {fits : Nat → List UInt8 → Prop}

theorem Spread.fits_of_mem {lo : Nat} {data : List (Nat × List UInt8)} {e : Nat × List UInt8} (hd : Spread fits lo data)
    (he : e ∈ data) : fits e.1 e.2 := by
  induction data generalizing lo with
  | nil => cases he
  | cons d rest ih =>
      obtain ⟨-, -, hfits, hrest⟩ := hd
      rcases List.mem_cons.mp he with rfl | he
      · exact hfits
      · exact ih hrest he

theorem Spread.lt_length {lo : Nat} {data : List (Nat × List UInt8)} (hd : Spread (InStream S) lo data)
    (ho : Holds data o) : o < S.length := by
  obtain ⟨e, he, hle, hlt⟩ := ho
  exact Nat.lt_of_lt_of_le hlt ((hd.fits_of_mem he).le (hd.pos_of_mem he))

/-- The first packet starts at the front exactly when something is in order. -/
theorem Stores.head_eq_iff (hs : Stores fits k b) : b.availBytes ≠ 0 ↔ ∃ p rest, b.data = (k, p) :: rest := by
  have havail := hs.avail
  have hnext := hs.next
  have hspread := hs.spread
  cases hdata : b.data with
  | nil =>
      rw [hdata, contiguous] at hnext
      simp
      omega
  | cons e rest =>
      obtain ⟨f, q⟩ := e
      rw [hdata] at hspread hnext
      have hpos := List.length_pos_iff.mpr hspread.2.1
      have hle := TcpRxBuffer.le_contiguous (k + q.length) rest
      rw [contiguous] at hnext
      simp only [List.cons.injEq, Prod.mk.injEq]
      split at hnext
      · next heq => exact ⟨fun _ => ⟨q, rest, ⟨heq, rfl⟩, rfl⟩, fun _ => by omega⟩
      · next hne =>
          refine ⟨fun h => absurd h (by omega), ?_⟩
          rintro ⟨-, -, ⟨heq, -⟩, -⟩
          exact absurd heq hne

/-- The window starts at the first byte that is not taken. -/
theorem Stores.maxRxSequence (hs : Stores fits k b) : b.maxRxSequence = k + b.maxBuffer := by
  have hle := hs.le_next
  have havail := hs.avail
  have hhead := hs.head_eq_iff
  rw [TcpRxBuffer.maxRxSequence, if_neg (by rw [hs.noFin]; exact Bool.false_ne_true)]
  by_cases hzero : b.availBytes = 0
  · have heq : b.nextRxSeq = k := by omega
    cases hdata : b.data with
    | nil => simp only [add_nat, heq]
    | cons e rest =>
        have hfirst := hs.spread.le_of_mem (hdata ▸ List.mem_cons_self)
        simp only [gt_nat, add_nat, heq, decide_eq_true_eq, if_neg (Nat.not_lt.mpr hfirst)]
  · obtain ⟨p, rest, hdata⟩ := hhead.mp hzero
    simp only [hdata, gt_nat, add_nat, decide_eq_true_eq]
    rw [if_pos (by omega)]

/-- What an addition stores lies in the window when something is in order, when the segment does, and
when it lies behind what the buffer takes. -/
theorem Stores.trimmed_window (hs : Stores fits k b)
    (hin : b.availBytes ≠ 0 ∨ off + len ≤ k + b.maxBuffer ∨ ∃ w ∈ b.windowEnd, w ≤ off)
    (ho : (b.trimToWindow off len).1 ≤ o ∧ o < (b.trimToWindow off len).2) : o < k + b.maxBuffer := by
  obtain ⟨hhead, htail, hw⟩ := trimToWindow_spec off len (show (b.trimToWindow off len).1 < _ by omega)
  rcases hin with havail | hin | ⟨w, hmem, hle⟩
  · obtain ⟨p, rest, hdata⟩ := hs.head_eq_iff.mp havail
    have := hw (k + b.maxBuffer) (by rw [windowEnd, hdata]; rfl)
    omega
  · omega
  · have := hw w hmem
    omega

theorem maxRxSequence_map {κ : Type} [DecidableEq κ] [Sequence κ] {φ : Nat → κ} {lo hi : Nat} (he : Embeds φ lo hi)
    (hb : Within lo hi b.data) (hn : lo ≤ b.nextRxSeq ∧ b.nextRxSeq ≤ hi) (hfin : b.gotFin = false) :
    (b.map φ).maxRxSequence = φ b.maxRxSequence := by
  have hfin' : (b.map φ).gotFin = false := hfin
  have hmax : (b.map φ).maxBuffer = b.maxBuffer := rfl
  rw [TcpRxBuffer.maxRxSequence, TcpRxBuffer.maxRxSequence, hfin, hfin', hmax]
  cases hdata : b.data with
  | nil =>
      have hmap : (b.map φ).data = [] := by rw [map, hdata]; rfl
      simp only [hmap, Bool.false_eq_true, if_false]
      exact he.add _ _
  | cons e rest =>
      have hmap : (b.map φ).data = (φ e.1, e.2) :: mapData φ rest := by rw [map, hdata]; rfl
      have hin := hb e (hdata ▸ List.mem_cons_self)
      have hgt : gt (b.map φ).nextRxSeq (φ e.1) = gt b.nextRxSeq e.1 := by
        rw [gt_nat]
        exact he.gt _ _ hn.1 hn.2 hin.1 (by omega)
      simp only [hmap, hgt, Bool.false_eq_true, if_false]
      split
      · exact he.add _ _
      · exact he.add _ _

end TcpRxBuffer

namespace RxRun

/-- The byte with the number `x` is stored. -/
def Stored (b : TcpRxBuffer SequenceNumber32) (x : SequenceNumber32) : Prop :=
  ∃ e ∈ b.data, ∃ i < e.2.length, x = add e.1 i

instance (b : TcpRxBuffer SequenceNumber32) (x : SequenceNumber32) : Decidable (Stored b x) :=
  inferInstanceAs (Decidable (∃ e ∈ b.data, ∃ i < e.2.length, x = add e.1 i))

variable {base : SequenceNumber32} {start maxBuffer : Nat} {fits : Nat → List UInt8 → Prop} {s : RxRun}
  {accepted : Nat → Prop}

theorem Sound.stored_iff (h : Sound base start fits s b) (hle : s.front start ≤ o + 2 ^ 31) (hlt : o < s.front start + 2 ^ 31) :
    Stored s.buffer (add base o) ↔ Holds b.data o := by
  rw [Stored, h.data_eq]
  constructor
  · rintro ⟨e, he, i, hi, heq⟩
    obtain ⟨d, hd, rfl⟩ := List.mem_map.mp he
    have hstart := h.stores.spread.le_of_mem hd
    dsimp only at hi heq
    have hend := h.ends (d.1 + i) ⟨d, hd, by omega, by omega⟩
    rw [add_add, add_eq_add_iff base (by omega) (by omega)] at heq
    exact ⟨d, hd, by omega, by omega⟩
  · rintro ⟨d, hd, hle, hlt⟩
    refine ⟨(add base d.1, d.2), List.mem_map_of_mem hd, o - d.1, by dsimp only; omega, ?_⟩
    rw [add_add]
    congr 1
    omega

/-- A segment of the stream. -/
def Asked (S : List UInt8) : RxOp → Prop
  | .add off p => off + p.length ≤ S.length ∧ p = slice S off p.length
  | .extract _ => True

/-- The numbers of the window and of the segment compare right; and the segment has no bytes, or something is
in order, or it ends in the window, or it lies behind all that the buffer would take. -/
def Fits (base : SequenceNumber32) (s : RxRun) : RxOp → Prop
  | .add off p =>
      (∀ e ∈ s.buffer.data.head?, position base (s.front 0) e.1 + s.buffer.maxBuffer < off + p.length + 2 ^ 31) ∧
        (p = [] ∨ s.buffer.availBytes ≠ 0 ∨ off + p.length ≤ s.front 0 + s.buffer.maxBuffer ∨
          ∃ e ∈ s.buffer.data.head?, position base (s.front 0) e.1 + s.buffer.maxBuffer ≤ off)
  | .extract _ => True

instance (S : List UInt8) : ∀ op, Decidable (Asked S op)
  | .add off p => inferInstanceAs (Decidable (off + p.length ≤ S.length ∧ p = slice S off p.length))
  | .extract _ => .isTrue trivial

instance (base : SequenceNumber32) (s : RxRun) : ∀ op, Decidable (Fits base s op)
  | .add off p => by
      unfold Fits
      infer_instance
  | .extract _ => .isTrue trivial

/-- The byte was stored at some time. -/
def Accepted (base : SequenceNumber32) (tr : List (RxRun × RxOp)) (s : RxRun) (o : Nat) : Prop :=
  (∃ q ∈ tr, Stored q.1.buffer (add base o)) ∨ Stored s.buffer (add base o)

/-- The buffer has the stream, as far as it has accepted it. -/
structure Reassembles (base : SequenceNumber32) (S : List UInt8) (accepted : Nat → Prop) (s : RxRun) : Prop where
  intact : s.broken = false
  taken : s.taken <+: S
  next : ∃ m ≤ S.length, s.buffer.nextRxSeq = add base m ∧ (∀ o < m, accepted o) ∧ ¬accepted m ∧
    s.taken.length + s.buffer.availBytes = m
  size : s.buffer.size = (s.buffer.data.map (·.2.length)).sum
  disjoint : s.buffer.data.Pairwise fun e d => ∀ i < e.2.length, ∀ j < d.2.length, add e.1 i ≠ add d.1 j
  window : ∀ x, Stored s.buffer x → Sequence.lt x s.buffer.maxRxSequence

theorem Sound.front_le (h : Sound base 0 (InStream S) s b) : s.front 0 ≤ S.length := by
  rw [front, Nat.zero_add]
  by_cases hpos : 0 < s.taken.length
  · have := h.taken.le hpos
    omega
  · omega

theorem Sound.near_of_fits (h : Sound base 0 (InStream S) s b) (hS : S.length < 2 ^ 31) {op : RxOp} (hask : Asked S op)
    (hfit : Fits base s op) : Near base 0 s op := by
  have hfront := h.front_le
  cases op with
  | extract maxSize => trivial
  | add off p =>
      obtain ⟨hin, -⟩ := hask
      refine ⟨⟨by omega, by omega, by omega⟩, fun e he => ?_, hfit.1⟩
      rw [h.data_eq] at he
      obtain ⟨d, hd, rfl⟩ := List.mem_map.mp he
      have hend := (h.stores.spread.fits_of_mem hd).le (h.stores.spread.pos_of_mem hd)
      dsimp only
      rw [h.position_eq hd]
      omega

theorem accepted_snoc {tr : List (RxRun × RxOp)} {s' : RxRun} {op : RxOp} :
    Accepted base (tr ++ [(s, op)]) s' o ↔ Accepted base tr s o ∨ Stored s'.buffer (add base o) := by
  simp [Accepted, or_assoc]

/-- A run beside the positions: what it holds is in the window, and what it has accepted is taken or held. -/
structure Received (base : SequenceNumber32) (S : List UInt8) (maxBuffer : Nat) (accepted : Nat → Prop) (s : RxRun)
    (b : TcpRxBuffer Nat) : Prop where
  sound : Sound base 0 (InStream S) s b
  window : ∀ o, Holds b.data o → o < s.front 0 + maxBuffer
  accepted : ∀ o ≤ S.length, accepted o ↔ o < s.front 0 ∨ Holds b.data o
  size : b.maxBuffer = maxBuffer

theorem Received.trimmed_window (hr : Received base S maxBuffer accepted s b) (hfit : Fits base s (.add off p))
    (ho : (b.trimToWindow off p.length).1 ≤ o ∧ o < (b.trimToWindow off p.length).2) : o < s.front 0 + maxBuffer := by
  have hmax : s.buffer.maxBuffer = b.maxBuffer := by rw [hr.sound.buffer]; rfl
  have havail : s.buffer.availBytes = b.availBytes := by rw [hr.sound.buffer]; rfl
  obtain ⟨-, hcase⟩ := hfit
  rw [hmax, havail] at hcase
  rw [← hr.size]
  rcases hcase with rfl | hcase
  · obtain ⟨hhead, htail, -⟩ := trimToWindow_spec off 0 (Nat.lt_of_le_of_lt ho.1 ho.2)
    dsimp only [List.length_nil] at ho
    omega
  · refine hr.sound.stores.trimmed_window (hcase.imp_right (Or.imp_right ?_)) ho
    rintro ⟨e, he, hle⟩
    rw [hr.sound.data_eq, mapData, List.head?_map] at he
    obtain ⟨d, hd, rfl⟩ := Option.map_eq_some_iff.mp he
    rw [hr.sound.position_eq (List.mem_of_mem_head? hd)] at hle
    exact ⟨d.1 + b.maxBuffer, Option.map_eq_some_iff.mpr ⟨d, hd, rfl⟩, hle⟩

theorem Received.step (hr : Received base S maxBuffer accepted s b) (hS : S.length < 2 ^ 31) {op : RxOp} (hask : Asked S op)
    (hfit : Fits base s op) :
    ∃ b', Received base S maxBuffer (fun o => accepted o ∨ Stored (step base s op).buffer (add base o)) (step base s op) b' := by
  have hnear := hr.sound.near_of_fits hS hask hfit
  cases op with
  | add off p =>
      obtain ⟨b', hsound, hadded, htaken⟩ := hr.sound.stepAdd _ _ inStream_content hask.2 hnear
      have hfront : (RxRun.step base s (.add off p)).front 0 = s.front 0 := by rw [front, htaken, front]
      have hle := hsound.front_le
      refine ⟨b', hsound, fun o ho => ?_, fun o ho => ?_, hadded.maxBuffer.trans hr.size⟩
      · rw [hfront]
        rcases (hadded.holds o).mp ho with ho | ho
        · exact hr.window o ho
        · exact hr.trimmed_window hfit ho
      · rw [hr.accepted o ho, hsound.stored_iff (by omega) (by omega), hfront, hadded.holds, or_assoc, or_self_left]
  | extract maxSize =>
      obtain ⟨bytes, b', hsound, hextracted, htaken⟩ := hr.sound.stepExtract inStream_content maxSize
      have hfront : (RxRun.step base s (.extract maxSize)).front 0 = s.front 0 + bytes.length := by
        rw [front, htaken, front, List.length_append, Nat.add_assoc]
      have hle := hsound.front_le
      refine ⟨b', hsound, fun o ho => ?_, fun o ho => ?_, hextracted.maxBuffer.trans hr.size⟩
      · have := hr.window o ((hextracted.holds o).mp ho).1
        omega
      · have hnext : s.front 0 + bytes.length ≤ contiguous (s.front 0) b.data := by
          rw [← hr.sound.stores.next, ← hextracted.next, ← hfront]
          exact hsound.stores.le_next
        have htook : s.front 0 ≤ o → o < s.front 0 + bytes.length → Holds b.data o := fun hge hlt =>
          hr.sound.stores.spread.holds_of_lt hge (by omega)
        rw [hr.accepted o ho, hsound.stored_iff (by omega) (by omega), hfront, hextracted.holds]
        by_cases hin : Holds b.data o
        · simp only [hin, or_true, true_and, true_or, true_iff]
          omega
        · simp only [hin, or_false, false_and]
          constructor
          · intro hlt
            omega
          · intro hlt
            by_contra hge
            exact hin (htook (by omega) (by omega))

theorem Spread.pairwise {lo : Nat} {data : List (Nat × List UInt8)} (hd : Spread fits lo data) :
    data.Pairwise fun e d => e.1 + e.2.length ≤ d.1 := by
  induction data generalizing lo with
  | nil => exact List.Pairwise.nil
  | cons d rest ih =>
      obtain ⟨-, -, -, hrest⟩ := hd
      exact List.pairwise_cons.mpr ⟨fun e he => hrest.le_of_mem he, ih hrest⟩

theorem Received.next_le (hr : Received base S maxBuffer accepted s b) : b.nextRxSeq ≤ S.length := by
  by_cases heq : b.nextRxSeq = s.front 0
  · rw [heq]
    exact hr.sound.front_le
  · have hle := hr.sound.stores.le_next
    have hnext := hr.sound.stores.next
    have := hr.sound.stores.spread.lt_length (hr.sound.stores.spread.holds_of_lt (o := b.nextRxSeq - 1) (by omega) (by omega))
    omega

/-- What the positions say of the numbers. -/
theorem Received.reassembles (hr : Received base S maxBuffer accepted s b) (hS : S.length < 2 ^ 31)
    (hmax : maxBuffer < 2 ^ 31) : Reassembles base S accepted s := by
  have hst := hr.sound.stores
  have hle := hst.le_next
  have hfront := hr.sound.front_le
  have hnext := hr.next_le
  have hend : ∀ e ∈ b.data, e.1 + e.2.length ≤ S.length := fun e he => (hst.spread.fits_of_mem he).le (hst.spread.pos_of_mem he)
  refine ⟨hr.sound.intact, ?_, ⟨b.nextRxSeq, hnext, ?_, fun o ho => ?_, fun hacc => ?_, ?_⟩, ?_, ?_, fun x hx => ?_⟩
  · have htaken : s.taken = slice S 0 s.taken.length := hr.sound.taken
    rw [htaken, slice, List.drop_zero]
    exact List.take_prefix _ _
  · rw [hr.sound.buffer]
    rfl
  · refine (hr.accepted o (by omega)).mpr (or_iff_not_imp_left.mpr fun hge => ?_)
    have := hst.next
    exact hst.spread.holds_of_lt (Nat.not_lt.mp hge) (by omega)
  · rcases (hr.accepted _ hnext).mp hacc with hlt | hholds
    · omega
    · exact hst.not_holds_next hholds
  · have havail : s.buffer.availBytes = b.availBytes := by rw [hr.sound.buffer]; rfl
    have := hst.avail
    have hdef : s.front 0 = 0 + s.taken.length := rfl
    omega
  · have hsize : s.buffer.size = b.size := by rw [hr.sound.buffer]; rfl
    rw [hsize, hst.size, hr.sound.data_eq, mapData, List.map_map, total]
    rfl
  · rw [hr.sound.data_eq, mapData, List.pairwise_map]
    refine (Spread.pairwise hst.spread).imp_of_mem fun {e d} he hd hed i hi j hj heq => ?_
    dsimp only at hi hj heq
    have h₁ := hend e he
    have h₂ := hend d hd
    rw [add_add, add_add, add_eq_add_iff base (by omega) (by omega)] at heq
    omega
  · rw [hr.sound.buffer, maxRxSequence_map (embeds base 0 S.length (by omega))
      (fun e he => ⟨Nat.zero_le _, hend e he⟩) ⟨Nat.zero_le _, hnext⟩ hst.noFin, hst.maxRxSequence, hr.size]
    obtain ⟨e, he, i, hi, rfl⟩ := hx
    rw [hr.sound.data_eq] at he
    obtain ⟨d, hd, rfl⟩ := List.mem_map.mp he
    dsimp only at hi ⊢
    have hholds : Holds b.data (d.1 + i) := ⟨d, hd, by omega, by omega⟩
    have h₁ := hr.window _ hholds
    have h₂ := hst.spread.le_of_holds hholds
    have h₃ := hend d hd
    rw [add_add, lt_add_add base (by omega) (by omega), decide_eq_true_eq]
    exact h₁

/-- The stream is received as it should be, for a buffer of less than half the sequence space, when the window
covers what the buffer adds without having anything in order. -/
theorem stream_reassembled_when (base : SequenceNumber32) (maxBuffer : Nat) (S : List UInt8) (hS : S.length < 2 ^ 31)
    (hmax : maxBuffer < 2 ^ 31) {tr : List (RxRun × RxOp)} {s : RxRun}
    (hrun : Run (step base) (fun _ => Asked S) (init base 0 maxBuffer) tr s) (hfits : ∀ q ∈ tr, Fits base q.1 q.2) :
    Reassembles base S (Accepted base tr s) s := by
  have hreceived : ∃ b, Received base S maxBuffer (Accepted base tr s) s b := by
    induction hrun with
    | nil =>
        obtain ⟨b, hsound, hdata, hsize, -⟩ := init_sound base 0 maxBuffer
          (inStream_content (S := S))
        refine ⟨b, hsound, fun o ho => ?_, fun o ho => ?_, hsize⟩
        · rw [hdata] at ho
          exact absurd ho not_holds_nil
        · simp [Accepted, Stored, init, hdata, Holds, front]
    | @snoc tr s op hrun hask ih =>
        obtain ⟨b, hb⟩ := ih fun q hq => hfits q (List.mem_append_left _ hq)
        obtain ⟨b', hb'⟩ := hb.step hS hask (hfits (s, op) (by simp))
        refine ⟨b', hb'.sound, hb'.window, fun o ho => ?_, hb'.size⟩
        rw [accepted_snoc]
        exact hb'.accepted o ho
  obtain ⟨b, hb⟩ := hreceived
  exact hb.reassembles hS hmax

/-- Segments that overlap, out of order and over the end of the window, across the end of the number space. -/
def overlappingOps : List RxOp :=
  [.add 4 [4, 5, 6], .add 0 [0, 1], .add 1 [1, 2, 3, 4], .extract 3, .add 2 [2, 3, 4, 5, 6, 7, 8, 9, 10, 11, 12, 13],
    .add 15 [], .extract 20]

theorem stream_reassembled_when_overlapping :
    Reassembles ⟨4294967290⟩ ((List.range 16).map UInt8.ofNat)
        (Accepted ⟨4294967290⟩ (trace (step ⟨4294967290⟩) (init ⟨4294967290⟩ 0 8) overlappingOps)
          (overlappingOps.foldl (step ⟨4294967290⟩) (init ⟨4294967290⟩ 0 8)))
        (overlappingOps.foldl (step ⟨4294967290⟩) (init ⟨4294967290⟩ 0 8)) ∧
      (overlappingOps.foldl (step ⟨4294967290⟩) (init ⟨4294967290⟩ 0 8)).taken = [0, 1, 2, 3, 4, 5, 6, 7, 8, 9, 10] :=
  ⟨stream_reassembled_when ⟨4294967290⟩ 8 _ (by decide) (by decide)
      (run_of_passes (step ⟨4294967290⟩) (fun _ => Asked _) _ overlappingOps (by decide +kernel)) (by decide +kernel),
    by decide +kernel⟩

/-- A segment that goes over the end of the window of an empty buffer is stored as it is. -/
theorem not_stream_reassembled :
    ¬∀ (base : SequenceNumber32) (maxBuffer : Nat) (S : List UInt8) (tr : List (RxRun × RxOp)) (s : RxRun),
      S.length < 2 ^ 31 → Run (step base) (fun _ => Asked S) (init base 0 maxBuffer) tr s →
        Reassembles base S (Accepted base tr s) s := fun hall => by
  have hright := hall ⟨0⟩ 10 (List.replicate 30 7) _ _ (by decide)
    (run_of_passes (step ⟨0⟩) (fun _ => Asked _) _ [.add 0 (List.replicate 30 7)] (by decide +kernel))
  have hstored : Stored ([RxOp.add 0 (List.replicate 30 7)].foldl (step ⟨0⟩) (init ⟨0⟩ 0 10)).buffer ⟨20⟩ :=
    ⟨(⟨0⟩, List.replicate 30 7), by decide +kernel, 20, by decide, by decide⟩
  exact absurd (hright.window _ hstored) (by decide +kernel)

end RxRun

end Ns3Raft.Net
