import Ns3Raft.Lib.Run
import Ns3Raft.Net.TcpRxSack

/-! # A receive buffer in use

Segments are added in any order while the application extracts. Beside the buffer
stands one whose numbers are the positions of the segments.
-/

namespace Ns3Raft.Net

open Sequence SequenceNumber32 Slices Transition TcpRxBuffer

inductive RxOp where
  /-- A segment at a position, counted from the number `base`. -/
  | add (off : Nat) (p : List UInt8)
  | extract (maxSize : Nat)
  deriving DecidableEq, Repr

/-- The buffer and all that was taken from it. -/
structure RxRun where
  buffer : TcpRxBuffer SequenceNumber32
  taken : List UInt8
  broken : Bool
  deriving DecidableEq, Repr

namespace RxRun

def init (base : SequenceNumber32) (start maxBuffer : Nat) : RxRun where
  buffer :=
    { nextRxSeq := add base start
      finSeq := ⟨0⟩
      gotFin := false
      size := 0
      maxBuffer := maxBuffer
      availBytes := 0
      data := []
      sackList := [] }
  taken := []
  broken := false

def step (base : SequenceNumber32) (s : RxRun) : RxOp → RxRun
  | .add off p =>
      match s.buffer.addPacket p (add base off) with
      | some r => { s with buffer := r.2 }
      | none => { s with broken := true }
  | .extract maxSize =>
      match s.buffer.extract maxSize with
      | some r => { s with buffer := r.2, taken := s.taken ++ r.1 }
      | none => { s with broken := true }

/-- The position of the first byte that is not taken. -/
def front (start : Nat) (s : RxRun) : Nat := start + s.taken.length

/-- The position of a number at or behind the front. -/
def position (base : SequenceNumber32) (k : Nat) (x : SequenceNumber32) : Nat := k + sub x (add base k)

/-- The segment, what is stored and the front are less than half the space apart, and so are the ends of the
segment and of the window. -/
def Near (base : SequenceNumber32) (start : Nat) (s : RxRun) : RxOp → Prop
  | .add off p =>
      (p.length < 2 ^ 31 ∧ off + p.length < s.front start + 2 ^ 31 ∧ s.front start < off + 2 ^ 31) ∧
        (∀ e ∈ s.buffer.data, position base (s.front start) e.1 + e.2.length < off + 2 ^ 31) ∧
        ∀ e ∈ s.buffer.data.head?,
          position base (s.front start) e.1 + s.buffer.maxBuffer < off + p.length + 2 ^ 31
  | .extract _ => True

instance (base : SequenceNumber32) (start : Nat) (s : RxRun) : ∀ op, Decidable (Near base start s op)
  | .add off p => by
      unfold Near
      infer_instance
  | .extract _ => .isTrue trivial

/-- The buffer beside the one of positions. -/
structure Sound (base : SequenceNumber32) (start : Nat) (fits : Nat → List UInt8 → Prop) (s : RxRun)
    (b : TcpRxBuffer Nat) : Prop where
  intact : s.broken = false
  buffer : s.buffer = b.map (add base)
  stores : Stores fits (s.front start) b
  ends : ∀ o, Holds b.data o → o + 1 < s.front start + 2 ^ 31
  sacked : b.Sacked
  taken : fits start s.taken

variable {base : SequenceNumber32} {start maxBuffer : Nat} {fits : Nat → List UInt8 → Prop} {s : RxRun}
  {b : TcpRxBuffer Nat} {off o : Nat} {p : List UInt8}

theorem position_add {k x : Nat} (hle : k ≤ x) (hlt : x < k + 2 ^ 32) : position base k (add base x) = x := by
  rw [position, sub_add_add_of_le base hle hlt]
  omega

theorem init_sound (base : SequenceNumber32) (start maxBuffer : Nat) (hc : Content fits) :
    ∃ b, Sound base start fits (init base start maxBuffer) b ∧ b.data = [] ∧ b.maxBuffer = maxBuffer ∧
      b.sackList = [] := by
  let b : TcpRxBuffer Nat :=
    { nextRxSeq := start
      finSeq := sub ⟨0⟩ base
      gotFin := false
      size := 0
      maxBuffer := maxBuffer
      availBytes := 0
      data := []
      sackList := [] }
  have hbuffer : (init base start maxBuffer).buffer = b.map (add base) := by
    simp only [init, map, b, SequenceNumber32.add_sub_self]
    rfl
  exact ⟨b, ⟨rfl, hbuffer, ⟨trivial, rfl, (Nat.sub_self start).symm, rfl, rfl⟩, fun o ho => absurd ho not_holds_nil,
    fun e he => (by cases he), hc.nil start⟩, rfl, rfl, rfl⟩

/-- What is stored lies between the front and half the space behind it. -/
theorem Sound.within (h : Sound base start fits s b) {hi : Nat} (hhi : ∀ o, Holds b.data o → o + 1 ≤ hi) :
    Within (s.front start) hi b.data := by
  intro e he
  have hstart := h.stores.spread.le_of_mem he
  have hpos := h.stores.spread.pos_of_mem he
  have hlast := hhi (e.1 + e.2.length - 1) ⟨e, he, by omega, by omega⟩
  omega

theorem Sound.position_eq (h : Sound base start fits s b) {e : Nat × List UInt8} (he : e ∈ b.data) :
    position base (s.front start) (add base e.1) = e.1 := by
  have hstart := h.stores.spread.le_of_mem he
  have hpos := h.stores.spread.pos_of_mem he
  have hend := h.ends e.1 ⟨e, he, Nat.le_refl _, by omega⟩
  exact position_add hstart (by omega)

theorem Sound.data_eq (h : Sound base start fits s b) : s.buffer.data = mapData (add base) b.data := by
  rw [h.buffer]
  rfl

/-- What `Near` says of the positions. -/
theorem Sound.near (h : Sound base start fits s b) (hnear : Near base start s (.add off p)) :
    ∃ lo hi, hi < lo + 2 ^ 31 ∧ hi < s.front start + 2 ^ 31 ∧ Within lo hi b.data ∧
      (lo ≤ b.nextRxSeq ∧ b.nextRxSeq ≤ hi) ∧ lo ≤ off ∧ off + p.length ≤ hi ∧
      WindowNear (add base) b (off + p.length) := by
  obtain ⟨⟨hlen, htail, hfront⟩, hends, hwindow⟩ := hnear
  have hmem : ∀ e ∈ b.data, (add base e.1, e.2) ∈ s.buffer.data := fun e he => by
    rw [h.data_eq]
    exact List.mem_map_of_mem he
  have hends' : ∀ o, Holds b.data o → o + 1 < off + 2 ^ 31 := by
    rintro o ⟨e, he, hle, hlt⟩
    have hend := hends _ (hmem e he)
    rw [h.position_eq he] at hend
    exact Nat.lt_of_le_of_lt hlt hend
  have hwithin : Within (s.front start) (min off (s.front start) + 2 ^ 31 - 1) b.data := h.within fun o ho => by
    have h₁ := h.ends o ho
    have h₂ := hends' o ho
    omega
  have hnext := h.stores.le_next
  have hnext' : b.nextRxSeq ≤ min off (s.front start) + 2 ^ 31 - 1 := by
    by_cases hstart : b.nextRxSeq = s.front start
    · omega
    · have hn := h.stores.next
      have hholds : Holds b.data (b.nextRxSeq - 1) := h.stores.spread.holds_of_lt (by omega) (by omega)
      have h₁ := h.ends _ hholds
      have h₂ := hends' _ hholds
      omega
  refine ⟨min off (s.front start), min off (s.front start) + 2 ^ 31 - 1, by omega, by omega, fun e he => ?_,
    ⟨by omega, hnext'⟩, by omega, by omega, fun w hw => ?_⟩
  · obtain ⟨hstart, hend⟩ := hwithin e he
    exact ⟨by omega, hend⟩
  · rw [windowEnd] at hw
    cases hdata : b.data with
    | nil =>
        rw [hdata] at hw
        cases hw
    | cons e rest =>
        rw [hdata] at hw
        obtain rfl : e.1 + b.maxBuffer = w := Option.some.inj hw
        have hin : e ∈ b.data := hdata ▸ List.mem_cons_self
        have hhead : (add base e.1, e.2) ∈ s.buffer.data.head? := by
          rw [h.data_eq, hdata]
          rfl
        have hend := hwindow _ hhead
        have hmax : s.buffer.maxBuffer = b.maxBuffer := by rw [h.buffer]; rfl
        rw [h.position_eq hin, hmax] at hend
        have hstart := h.stores.spread.le_of_mem hin
        exact lt_add_add base (by omega) (by omega)

/-- A step that adds a segment, at the positions. -/
theorem Sound.stepAdd (off : Nat) (p : List UInt8) (h : Sound base start fits s b) (hc : Content fits) (hp : fits off p)
    (hnear : Near base start s (.add off p)) :
    ∃ b', Sound base start fits (step base s (.add off p)) b' ∧ Added fits (s.front start) off p.length b b' ∧
      (step base s (.add off p)).taken = s.taken := by
  obtain ⟨lo, hi, hspan, hfar, hwithin, hnext, hoff, hend, hwindow⟩ := h.near hnear
  obtain ⟨stored, b', hadd, hadded⟩ := h.stores.addPacket hc hp
  have hmap := h.stores.addPacket_map (embeds base _ _ hspan) hwithin (h.sacked.within hwithin) hnext hoff hend hwindow
  rw [hadd, ← h.buffer] at hmap
  have hstep : step base s (.add off p) = { s with buffer := b'.map (add base) } := by
    rw [step, hmap]
    rfl
  rw [hstep]
  refine ⟨b', ⟨h.intact, rfl, hadded.stores, fun o ho => ?_, hadded.sacked h.stores h.sacked, h.taken⟩, hadded, rfl⟩
  rcases (hadded.holds o).mp ho with ho | ho
  · exact h.ends o ho
  · have htrim := trimToWindow_within hwithin hnext hoff hend
    change o + 1 < s.front start + 2 ^ 31
    omega

/-- A step that extracts, at the positions. -/
theorem Sound.stepExtract (h : Sound base start fits s b) (hc : Content fits) (maxSize : Nat) :
    ∃ bytes b', Sound base start fits (step base s (.extract maxSize)) b' ∧
      Extracted fits (s.front start) bytes.length b b' ∧
      (step base s (.extract maxSize)).taken = s.taken ++ bytes := by
  have hwithin : Within (s.front start) (s.front start + 2 ^ 31 - 1) b.data := h.within fun o ho => by
    have := h.ends o ho
    omega
  obtain ⟨bytes, b', hextract, hlen, hbytes, hextracted⟩ := h.stores.extract hc maxSize
  have hmap := extract_map (embeds base (s.front start) (s.front start + 2 ^ 31 - 1) (by omega)) hwithin maxSize
  rw [hextract, ← h.buffer] at hmap
  have hstep : step base s (.extract maxSize) =
      { s with buffer := b'.map (add base), taken := s.taken ++ bytes } := by
    rw [step, hmap]
    rfl
  rw [← hlen] at hextracted
  have hle : s.front start + bytes.length ≤ b.nextRxSeq := by
    have := h.stores.avail
    have := h.stores.le_next
    omega
  have hfront : RxRun.front start { s with buffer := b'.map (add base), taken := s.taken ++ bytes } =
      s.front start + bytes.length := by
    rw [front, front, List.length_append, Nat.add_assoc]
  rw [hstep]
  refine ⟨bytes, b', ⟨h.intact, rfl, ?_, fun o ho => ?_, hextracted.sacked hle h.sacked, hc.append h.taken hbytes⟩,
    hextracted, rfl⟩
  · rw [hfront]
    exact hextracted.stores
  · have := h.ends o ((hextracted.holds o).mp ho).1
    rw [hfront]
    omega

end RxRun

end Ns3Raft.Net
