import Ns3Raft.Net.TcpRxStream

/-! # What the SACK list reports

The blocks of the list are stored, and the first one is all that was received around
the last segment, but for what was dropped when the list was full.
-/

namespace Ns3Raft.Net.RxRun

open Sequence SequenceNumber32 Transition TcpRxBuffer

/-- Out of order the segment removes no packet that is stored. -/
def KeepsStored (base : SequenceNumber32) (s : RxRun) : RxOp → Prop
  | .add off p =>
      Sequence.gt (s.buffer.trimmed (add base off) p.length).headSeq s.buffer.nextRxSeq →
        (s.buffer.trimmed (add base off) p.length).data = s.buffer.data
  | .extract _ => True

instance (base : SequenceNumber32) (s : RxRun) : ∀ op, Decidable (KeepsStored base s op)
  | .add off p => by
      unfold KeepsStored
      infer_instance
  | .extract _ => .isTrue trivial

def InBlock (e : SequenceNumber32 × SequenceNumber32) (x : SequenceNumber32) : Prop := ∃ i < sub e.2 e.1, x = add e.1 i

/-- The byte at the position is in a block of the list. -/
def Reports (base : SequenceNumber32) (start : Nat) (s : RxRun) (o : Nat) : Prop :=
  s.front start ≤ o ∧ o < s.front start + 2 ^ 31 ∧ ∃ e ∈ s.buffer.sackList, InBlock e (add base o)

/-- The byte was in a block that was dropped for another, when the list had four. -/
def Cut (base : SequenceNumber32) (start : Nat) (tr : List (RxRun × RxOp)) (o : Nat) : Prop :=
  ∃ q ∈ tr, Reports base start q.1 o ∧ ¬Reports base start (step base q.1 q.2) o ∧
    (step base q.1 q.2).front start + (step base q.1 q.2).buffer.availBytes ≤ o ∧
    (step base q.1 q.2).buffer.sackList.length = 4

structure SackStored (s : RxRun) : Prop where
  length_le : s.buffer.sackList.length ≤ 4
  nonempty : ∀ e ∈ s.buffer.sackList, Sequence.lt e.1 e.2
  above : ∀ e ∈ s.buffer.sackList, Sequence.gt e.1 s.buffer.nextRxSeq
  stored : ∀ e ∈ s.buffer.sackList, ∀ x, InBlock e x → Stored s.buffer x

/-- Any two blocks leave a byte between them. -/
def SackApart (s : RxRun) : Prop :=
  s.buffer.sackList.Pairwise fun x y => Sequence.lt x.2 y.1 ∨ Sequence.lt y.2 x.1

/-- The first block has what was stored out of order, and ends where nothing more is stored but for what `cut` allows. -/
def FirstBlock (s s' : RxRun) (cut : SequenceNumber32 → Prop) : Prop :=
  (∃ x, Stored s'.buffer x ∧ ¬Stored s.buffer x) → s'.buffer.nextRxSeq = s.buffer.nextRxSeq →
    ∃ first rest, s'.buffer.sackList = first :: rest ∧
      (∀ x, Stored s'.buffer x → ¬Stored s.buffer x → InBlock first x) ∧
      ∀ x, (add x 1 = first.1 ∨ x = first.2) → Stored s'.buffer x → cut x

variable {base : SequenceNumber32} {start maxBuffer : Nat} {fits : Nat → List UInt8 → Prop} {s s' : RxRun}
  {b b' : TcpRxBuffer Nat} {off o : Nat} {p : List UInt8} {tr : List (RxRun × RxOp)}

/-! ## Blocks at their positions -/

theorem Sound.within_front (h : Sound base start fits s b) :
    Within (s.front start) (s.front start + 2 ^ 31 - 1) b.data :=
  h.within fun o ho => by
    have := h.ends o ho
    omega

theorem Sound.blocks_within (h : Sound base start fits s b) {e : Nat × Nat} (he : e ∈ b.sackList) :
    s.front start ≤ e.1 ∧ e.1 < e.2 ∧ e.2 < s.front start + 2 ^ 31 := by
  have hw := h.sacked.within h.within_front e he
  have hne := (h.sacked e he).1
  omega

theorem Sound.sackList_eq (h : Sound base start fits s b) : s.buffer.sackList = mapBlocks (add base) b.sackList := by
  rw [h.buffer]
  rfl

theorem Sound.inBlock_iff (h : Sound base start fits s b) {e : Nat × Nat} (he : e ∈ b.sackList)
    (hle : s.front start ≤ o) (hlt : o < s.front start + 2 ^ 31) :
    InBlock (add base e.1, add base e.2) (add base o) ↔ e.1 ≤ o ∧ o < e.2 := by
  obtain ⟨hfirst, hne, hlast⟩ := h.blocks_within he
  rw [InBlock, sub_add_add_of_le base (by omega) (by omega)]
  constructor
  · rintro ⟨i, hi, heq⟩
    rw [add_add, add_eq_add_iff base (by omega) (by omega)] at heq
    omega
  · rintro ⟨hin, hin'⟩
    refine ⟨o - e.1, by omega, ?_⟩
    rw [add_add]
    congr 1
    omega

theorem Sound.reports_iff (h : Sound base start fits s b) : Reports base start s o ↔ Covers b.sackList o := by
  rw [Reports, h.sackList_eq]
  constructor
  · rintro ⟨hle, hlt, e, he, hin⟩
    obtain ⟨d, hd, rfl⟩ := List.mem_map.mp he
    exact ⟨d, hd, (h.inBlock_iff hd hle hlt).mp hin⟩
  · rintro ⟨d, hd, hin⟩
    obtain ⟨hfirst, hne, hlast⟩ := h.blocks_within hd
    exact ⟨by omega, by omega, (add base d.1, add base d.2), List.mem_map_of_mem hd,
      (h.inBlock_iff hd (by omega) (by omega)).mpr hin⟩

theorem Sound.next_position (h : Sound base start fits s b) :
    s.front start + s.buffer.availBytes = b.nextRxSeq := by
  have havail : s.buffer.availBytes = b.availBytes := by rw [h.buffer]; rfl
  have := h.stores.avail
  have := h.stores.le_next
  omega

theorem Sound.next_lt (h : Sound base start fits s b) : b.nextRxSeq < s.front start + 2 ^ 31 := by
  by_cases heq : b.nextRxSeq = s.front start
  · omega
  · have hle := h.stores.le_next
    have hnext := h.stores.next
    have := h.ends _ (h.stores.spread.holds_of_lt (o := b.nextRxSeq - 1) (by omega) (by omega))
    omega

/-- What the positions say of the blocks. -/
theorem Sound.sackStored (h : Sound base start fits s b) (hle : b.sackList.length ≤ 4) : SackStored s := by
  have hnext : s.buffer.nextRxSeq = add base b.nextRxSeq := by rw [h.buffer]; rfl
  have hn := h.next_lt
  have hn' := h.stores.le_next
  refine ⟨?_, fun e he => ?_, fun e he => ?_, fun e he x hx => ?_⟩
  · rw [h.sackList_eq, mapBlocks, List.length_map]
    exact hle
  all_goals
    rw [h.sackList_eq] at he
    obtain ⟨d, hd, rfl⟩ := List.mem_map.mp he
    obtain ⟨hfirst, hne, hlast⟩ := h.blocks_within hd
  · rw [lt_add_add base (by omega) (by omega)]
    exact decide_eq_true hne
  · have := (h.sacked d hd).2.1
    rw [hnext, gt_add_add base (by omega) (by omega)]
    exact decide_eq_true this
  · obtain ⟨i, hi, rfl⟩ := hx
    dsimp only at hi ⊢
    rw [sub_add_add_of_le base (by omega) (by omega)] at hi
    rw [add_add, h.stored_iff (by omega) (by omega)]
    exact (h.sacked d hd).2.2 _ (by omega) (by omega)

theorem Sound.sackApart (h : Sound base start fits s b) (hb : Blocks b.sackList) : SackApart s := by
  rw [SackApart, h.sackList_eq, mapBlocks, List.pairwise_map]
  refine hb.apart.imp_of_mem fun {x y} hx hy hap => ?_
  obtain ⟨hx₁, hx₂, hx₃⟩ := h.blocks_within hx
  obtain ⟨hy₁, hy₂, hy₃⟩ := h.blocks_within hy
  dsimp only
  rw [lt_add_add base (by omega) (by omega), lt_add_add base (by omega) (by omega), decide_eq_true_eq, decide_eq_true_eq]
  exact hap

theorem Sound.keepsPackets (h : Sound base start fits s b) (hnear : Near base start s (.add off p))
    (hkeep : KeepsStored base s (.add off p)) : b.KeepsPackets off p.length := by
  obtain ⟨lo, hi, hspan, hfar, hwithin, hnext, hoff, hend, hwindow⟩ := h.near hnear
  have hmap := trimmed_map (embeds base _ _ hspan) hwithin hnext hoff hend hwindow
  obtain ⟨hhead, -⟩ := h.stores.trimmed_within hwithin hnext hoff hend
  have hsub := (h.stores.overlapped off p.length).sublist
  intro hgt
  have hgt' : Sequence.gt (add base (b.trimmed off p.length).headSeq) (add base b.nextRxSeq) = true := by
    rw [gt_add_add base (by omega) (by omega)]
    exact decide_eq_true hgt
  rw [KeepsStored, h.buffer, hmap] at hkeep
  have hdata := congrArg List.length (hkeep hgt')
  simp only [Trimmed.map, map, mapData, List.length_map] at hdata
  exact hsub.eq_of_length hdata

theorem Sound.exists_position (h : Sound base start fits s b) {x : SequenceNumber32} (hx : Stored s.buffer x) :
    ∃ o, x = add base o ∧ Holds b.data o := by
  obtain ⟨e, he, i, hi, rfl⟩ := hx
  rw [h.data_eq] at he
  obtain ⟨d, hd, rfl⟩ := List.mem_map.mp he
  dsimp only at hi ⊢
  exact ⟨d.1 + i, add_add base d.1 i, d, hd, by omega, by omega⟩

theorem Sound.holds_range (h : Sound base start fits s b) (ho : Holds b.data o) :
    s.front start ≤ o ∧ o < s.front start + 2 ^ 31 := by
  have hle := h.stores.spread.le_of_holds ho
  have := h.ends o ho
  omega

/-! ## Runs -/

/-- A run beside the positions: the list has at most four blocks; and they are apart and have all that is stored out of
order but for what was cut, as long as no packet was removed out of order. -/
structure Reporting (base : SequenceNumber32) (start : Nat) (tr : List (RxRun × RxOp)) (s : RxRun) (b : TcpRxBuffer Nat) :
    Prop where
  sound : Sound base start (fun _ _ => True) s b
  length_le : b.sackList.length ≤ 4
  apart : (∀ q ∈ tr, KeepsStored base q.1 q.2) → Blocks b.sackList
  covered : (∀ q ∈ tr, KeepsStored base q.1 q.2) → ∀ o, Holds b.data o → b.nextRxSeq ≤ o →
    Covers b.sackList o ∨ Cut base start tr o

theorem Cut.snoc {op : RxOp} (h : Cut base start tr o) : Cut base start (tr ++ [(s, op)]) o := by
  obtain ⟨q, hq, hcut⟩ := h
  exact ⟨q, List.mem_append_left _ hq, hcut⟩

/-- What a step leaves out of the list, though it is above the next byte, is cut. -/
theorem Sound.cut {op : RxOp} (h : Sound base start fits s b) (h' : Sound base start fits (step base s op) b')
    (ho : Covers b.sackList o) (hno : ¬Covers b'.sackList o) (hle : b'.nextRxSeq ≤ o) (hlen : b'.sackList.length = 4) :
    Cut base start (tr ++ [(s, op)]) o := by
  refine ⟨(s, op), by simp, h.reports_iff.mpr ho, fun hr => hno (h'.reports_iff.mp hr), ?_, ?_⟩
  · rw [h'.next_position]
    exact hle
  · rw [h'.sackList_eq, mapBlocks, List.length_map]
    exact hlen

theorem anyContent : Content fun _ _ => True := ⟨fun _ _ _ _ => trivial, fun _ _ => trivial, fun _ => trivial⟩

theorem Reporting.stepAdd (hr : Reporting base start tr s b) (hnear : Near base start s (.add off p)) :
    ∃ b', Reporting base start (tr ++ [(s, .add off p)]) (step base s (.add off p)) b' ∧
      Added (fun _ _ => True) (s.front start) off p.length b b' ∧
      (step base s (.add off p)).front start = s.front start := by
  obtain ⟨b', hsound, hadded, htaken⟩ := hr.sound.stepAdd off p anyContent trivial hnear
  have hlen := hadded.length_sackList hr.length_le
  have hbefore : (∀ q ∈ tr ++ [(s, RxOp.add off p)], KeepsStored base q.1 q.2) →
      Blocks b.sackList ∧ b.KeepsPackets off p.length := fun hkeeps =>
    ⟨hr.apart fun q hq => hkeeps q (List.mem_append_left _ hq),
      hr.sound.keepsPackets hnear (hkeeps (s, .add off p) (by simp))⟩
  refine ⟨b', ⟨hsound, hlen, fun hkeeps => ?_, fun hkeeps o ho hle => ?_⟩, hadded, by rw [front, htaken, front]⟩
  · obtain ⟨hapart, hkeep⟩ := hbefore hkeeps
    exact hadded.blocksApart hr.sound.stores hr.sound.sacked hapart hkeep
  · obtain ⟨hapart, hkeep⟩ := hbefore hkeeps
    by_cases hold : Holds b.data o
    · rcases hr.covered (fun q hq => hkeeps q (List.mem_append_left _ hq)) o hold (Nat.le_trans hadded.next_le hle) with
        hin | hcut
      · by_cases hin' : Covers b'.sackList o
        · exact Or.inl hin'
        · have hfull := (hadded.covers_old hr.sound.stores hr.sound.sacked hapart hkeep hin hle).resolve_left hin'
          exact Or.inr (hr.sound.cut hsound hin hin' hle (Nat.le_antisymm hlen hfull))
      · exact Or.inr hcut.snoc
    · exact Or.inl (hadded.covers_new hr.sound.stores hr.sound.sacked hapart hkeep ho hold hle)

theorem Reporting.step (hr : Reporting base start tr s b) {op : RxOp} (hnear : Near base start s op) :
    ∃ b', Reporting base start (tr ++ [(s, op)]) (step base s op) b' := by
  cases op with
  | add off p =>
      obtain ⟨b', hr', -⟩ := hr.stepAdd hnear
      exact ⟨b', hr'⟩
  | extract maxSize =>
      obtain ⟨bytes, b', hsound, hextracted, -⟩ := hr.sound.stepExtract anyContent maxSize
      have hlist := hextracted.sackList
      refine ⟨b', hsound, hlist ▸ hr.length_le, fun hkeeps => ?_, fun hkeeps o ho hle => ?_⟩
      · exact hlist ▸ hr.apart fun q hq => hkeeps q (List.mem_append_left _ hq)
      · rw [hlist]
        rw [hextracted.next] at hle
        exact (hr.covered (fun q hq => hkeeps q (List.mem_append_left _ hq)) o ((hextracted.holds o).mp ho).1 hle).imp_right
          Cut.snoc

/-- The first block after a segment out of order. -/
theorem Reporting.firstBlock (hr : Reporting base start tr s b) (hkeeps : ∀ q ∈ tr, KeepsStored base q.1 q.2)
    (hnear : Near base start s (.add off p)) (hkeep : KeepsStored base s (.add off p)) :
    FirstBlock s (RxRun.step base s (.add off p))
      fun x => ∃ o, x = add base o ∧ Cut base start (tr ++ [(s, .add off p)]) o := by
  obtain ⟨b', hr', hadded, hfront⟩ := hr.stepAdd hnear
  have hkeeps' : ∀ q ∈ tr ++ [(s, RxOp.add off p)], KeepsStored base q.1 q.2 := fun q hq => by
    rcases List.mem_append.mp hq with hq | hq
    · exact hkeeps q hq
    · rw [List.mem_singleton.mp hq]
      exact hkeep
  have hnew : ∀ {o}, Holds b'.data o → ¬Stored s.buffer (add base o) → ¬Holds b.data o := fun ho hx => by
    obtain ⟨hle, hlt⟩ := hr'.sound.holds_range ho
    rwa [hr.sound.stored_iff (by omega) (by omega)] at hx
  rintro ⟨x, hx, hx'⟩ hnext
  obtain ⟨o, rfl, ho⟩ := hr'.sound.exists_position hx
  have heq : b'.nextRxSeq = b.nextRxSeq := by
    have h₁ := hr.sound.next_lt
    have h₂ := hr'.sound.next_lt
    have h₃ := hr.sound.stores.le_next
    have h₄ := hr'.sound.stores.le_next
    rw [hr.sound.buffer, hr'.sound.buffer] at hnext
    exact (add_eq_add_iff base (by omega) (by omega)).mp hnext
  obtain ⟨first, rest, hlist, hall⟩ := hadded.firstBlock hr.sound.stores hr.sound.sacked (hr.apart hkeeps)
    (hr.sound.keepsPackets hnear hkeep) ho (hnew ho hx') heq
  have hfirst : first ∈ b'.sackList := hlist ▸ List.mem_cons_self
  obtain ⟨hf₁, hf₂, hf₃⟩ := hr'.sound.blocks_within hfirst
  refine ⟨(add base first.1, add base first.2), mapBlocks (add base) rest, ?_, fun y hy hy' => ?_, fun y hy hstored => ?_⟩
  · rw [hr'.sound.sackList_eq, hlist]
    rfl
  · obtain ⟨o, rfl, ho⟩ := hr'.sound.exists_position hy
    obtain ⟨hle, hlt⟩ := hr'.sound.holds_range ho
    exact (hr'.sound.inBlock_iff hfirst hle hlt).mpr (hall o ho (hnew ho hy'))
  · obtain ⟨o, rfl, ho⟩ := hr'.sound.exists_position hstored
    obtain ⟨hle, hlt⟩ := hr'.sound.holds_range ho
    have hbeside : o + 1 = first.1 ∨ o = first.2 := by
      rcases hy with hy | hy
      · rw [add_add] at hy
        exact Or.inl ((add_eq_add_iff base (by omega) (by omega)).mp hy)
      · exact Or.inr ((add_eq_add_iff base (by omega) (by omega)).mp hy)
    have habove := (hr'.sound.sacked first hfirst).2.1
    have hblocks := hr'.apart hkeeps'
    rw [hlist] at hblocks
    refine ⟨o, rfl, (hr'.covered hkeeps' o ho (by omega)).resolve_left ?_⟩
    rw [hlist]
    exact hblocks.not_covers_beside hbeside

/-- The list is right as long as the numbers compare; that its blocks are apart, and that the first is all that
was received around the last segment, is so as long as no segment removes a packet out of order, and but for what
was dropped from a list of four. -/
theorem sack_list_right_when (base : SequenceNumber32) (start maxBuffer : Nat) {tr : List (RxRun × RxOp)} {s : RxRun}
    (hrun : Run (step base) (Near base start) (init base start maxBuffer) tr s) :
    SackStored s ∧
      ((∀ q ∈ tr, KeepsStored base q.1 q.2) →
        SackApart s ∧
          ∀ off p, Near base start s (.add off p) → KeepsStored base s (.add off p) →
            FirstBlock s (step base s (.add off p))
              fun x => ∃ o, x = add base o ∧ Cut base start (tr ++ [(s, .add off p)]) o) := by
  have hreporting : ∃ b, Reporting base start tr s b := by
    induction hrun with
    | nil =>
        obtain ⟨b, hsound, hdata, -, hlist⟩ := init_sound base start maxBuffer anyContent
        refine ⟨b, hsound, by rw [hlist]; exact Nat.zero_le _, fun _ => ?_, fun _ o ho => ?_⟩
        · rw [hlist]
          exact ⟨fun e he => (by cases he), List.Pairwise.nil⟩
        · rw [hdata] at ho
          exact absurd ho not_holds_nil
    | snoc _ hnear ih =>
        obtain ⟨b, hb⟩ := ih
        exact hb.step hnear
  obtain ⟨b, hr⟩ := hreporting
  exact ⟨hr.sound.sackStored hr.length_le, fun hkeeps =>
    ⟨hr.sound.sackApart (hr.apart hkeeps), fun off p hnear hkeep => hr.firstBlock hkeeps hnear hkeep⟩⟩

/-- Segments out of order; the last one closes a gap between two others. -/
def gappedOps : List RxOp :=
  [.add 40 [1, 2, 3], .add 10 [1, 2, 3, 4], .add 20 [5], .add 30 [6, 7], .add 50 [8], .extract 5, .add 42 [9, 9, 9], .add 0 [1, 2]]

def gapped : RxRun := gappedOps.foldl (step ⟨4294967290⟩) (init ⟨4294967290⟩ 0 100)

theorem sack_list_right_when_gapped :
    (SackStored gapped ∧ SackApart gapped ∧
        FirstBlock gapped (step ⟨4294967290⟩ gapped (.add 14 [3, 3, 3, 3, 3, 3]))
          fun x => ∃ o, x = add ⟨4294967290⟩ o ∧
            Cut ⟨4294967290⟩ 0 (trace (step ⟨4294967290⟩) (init ⟨4294967290⟩ 0 100) gappedOps ++
              [(gapped, .add 14 [3, 3, 3, 3, 3, 3])]) o) ∧
      gapped.buffer.sackList = [(⟨37⟩, ⟨39⟩), (⟨44⟩, ⟨45⟩), (⟨24⟩, ⟨26⟩), (⟨14⟩, ⟨15⟩)] := by
  have hright := sack_list_right_when ⟨4294967290⟩ 0 100
    (run_of_passes (step ⟨4294967290⟩) (Near ⟨4294967290⟩ 0) (init ⟨4294967290⟩ 0 100) gappedOps (by decide +kernel))
  obtain ⟨hapart, hfirst⟩ := hright.2 (by decide +kernel)
  exact ⟨⟨hright.1, hapart, hfirst 14 [3, 3, 3, 3, 3, 3] (by decide +kernel) (by decide +kernel)⟩, by decide +kernel⟩

/-- A segment around a stored one. -/
def embeddingOps : List RxOp := [.add 50 [0, 0, 0, 0, 0], .add 40 (List.replicate 30 1)]

/-- A segment that ends more than half the space ahead, and one in order that is taken. -/
def farOps : List RxOp := [.add (2 ^ 31 - 2) [0, 0, 0, 0, 0], .add 0 [1], .extract 1]

/-- What the first block has to be is not so when `x` is stored beside it. -/
theorem not_firstBlock {cut : SequenceNumber32 → Prop} {e : SequenceNumber32 × SequenceNumber32} (x y : SequenceNumber32)
    (hnew : Stored s'.buffer y ∧ ¬Stored s.buffer y) (hnext : s'.buffer.nextRxSeq = s.buffer.nextRxSeq)
    (hhead : s'.buffer.sackList.head? = some e) (hbeside : add x 1 = e.1 ∨ x = e.2) (hx : Stored s'.buffer x)
    (hcut : ¬cut x) : ¬FirstBlock s s' cut := fun hfirst => by
  obtain ⟨first, rest, hlist, -, hends⟩ := hfirst ⟨y, hnew⟩ hnext
  rw [hlist] at hhead
  obtain rfl := Option.some.inj hhead
  exact hcut (hends x hbeside hx)

/-- A block stays beside the one that has it inside; a block that was dropped is not found again; and a block that
is far ahead is cleared. -/
theorem not_sack_list_right :
    (¬∀ (base : SequenceNumber32) (start maxBuffer : Nat) (tr : List (RxRun × RxOp)) (s : RxRun),
      Run (step base) (Near base start) (init base start maxBuffer) tr s → SackApart s) ∧
    (¬∀ (base : SequenceNumber32) (start maxBuffer : Nat) (tr : List (RxRun × RxOp)) (s : RxRun),
      Run (step base) (Near base start) (init base start maxBuffer) tr s → (∀ q ∈ tr, KeepsStored base q.1 q.2) →
        ∀ off p, Near base start s (.add off p) → KeepsStored base s (.add off p) →
          FirstBlock s (step base s (.add off p)) fun _ => False) ∧
    ¬∀ (base : SequenceNumber32) (start maxBuffer : Nat) (tr : List (RxRun × RxOp)) (s : RxRun),
      Run (step base) (fun _ _ => True) (init base start maxBuffer) tr s → (∀ q ∈ tr, KeepsStored base q.1 q.2) →
        ∀ off p, KeepsStored base s (.add off p) →
          FirstBlock s (step base s (.add off p))
            fun x => ∃ o, x = add base o ∧ Cut base start (tr ++ [(s, .add off p)]) o := by
  refine ⟨fun hall => ?_, fun hall => ?_, fun hall => ?_⟩
  · have hapart := hall ⟨0⟩ 0 100 _ _ (run_of_passes (step ⟨0⟩) (Near ⟨0⟩ 0) (init ⟨0⟩ 0 100) embeddingOps (by decide +kernel))
    exact absurd hapart (by unfold SackApart; decide +kernel)
  · exact not_firstBlock ⟨7⟩ ⟨8⟩ (by decide +kernel) (by decide +kernel) (e := (⟨8⟩, ⟨15⟩)) (by decide +kernel) (by decide)
      (by decide +kernel) id (hall ⟨4294967290⟩ 0 100 _ _
        (run_of_passes (step ⟨4294967290⟩) (Near ⟨4294967290⟩ 0) (init ⟨4294967290⟩ 0 100) gappedOps (by decide +kernel))
        (by decide +kernel) 14 [3, 3, 3, 3, 3, 3] (by decide +kernel) (by decide +kernel))
  · have hshort : ∀ q ∈ trace (step ⟨0⟩) (init ⟨0⟩ 0 1) farOps ++
        [(farOps.foldl (step ⟨0⟩) (init ⟨0⟩ 0 1), .add (2 ^ 31 - 5) [1, 2, 3])],
        (step ⟨0⟩ q.1 q.2).buffer.sackList.length ≠ 4 := by decide +kernel
    refine not_firstBlock ⟨2147483646⟩ ⟨2147483645⟩ (by decide +kernel) (by decide +kernel)
      (e := (⟨2147483643⟩, ⟨2147483646⟩)) (by decide +kernel) (by decide) (by decide +kernel) ?_ (hall ⟨0⟩ 0 1 _ _
        (run_of_passes (step ⟨0⟩) (fun _ _ => True) (init ⟨0⟩ 0 1) farOps (passes_of_forall fun _ _ => trivial))
        (by decide +kernel) (2 ^ 31 - 5) [1, 2, 3] (by decide +kernel))
    rintro ⟨o, -, q, hq, -, -, -, hlen⟩
    exact hshort q hq hlen

end Ns3Raft.Net.RxRun
