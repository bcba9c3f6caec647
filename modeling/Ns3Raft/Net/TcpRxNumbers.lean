import Ns3Raft.Net.TcpRxSteps

/-! # From positions to sequence numbers

The buffer does with sequence numbers what it does with positions, as long as the
numbers it compares are those of positions that are not too far apart.
-/

namespace Ns3Raft.Net

open Sequence Slices

namespace TcpRxBuffer

variable {κ : Type} [DecidableEq κ] [Sequence κ] {φ : Nat → κ} {lo hi : Nat}

def mapData (φ : Nat → κ) (data : List (Nat × List UInt8)) : List (κ × List UInt8) := data.map fun e => (φ e.1, e.2)

def mapBlocks (φ : Nat → κ) (blocks : List (Nat × Nat)) : List (κ × κ) := blocks.map fun e => (φ e.1, φ e.2)

def Trimmed.map (φ : Nat → κ) (r : Trimmed Nat) : Trimmed κ :=
  ⟨mapData φ r.data, φ r.headSeq, φ r.tailSeq, r.size⟩

/-- The buffer with a number for each position. -/
def map (φ : Nat → κ) (b : TcpRxBuffer Nat) : TcpRxBuffer κ :=
  { nextRxSeq := φ b.nextRxSeq
    finSeq := φ b.finSeq
    gotFin := b.gotFin
    size := b.size
    maxBuffer := b.maxBuffer
    availBytes := b.availBytes
    data := mapData φ b.data
    sackList := mapBlocks φ b.sackList }

/-- All packets lie between `lo` and `hi`. -/
def Within (lo hi : Nat) (data : List (Nat × List UInt8)) : Prop := ∀ e ∈ data, lo ≤ e.1 ∧ e.1 + e.2.length ≤ hi

variable {data rest : List (Nat × List UInt8)} {fits : Nat → List UInt8 → Prop} {p : List UInt8}
  {h t k n off len size : Nat} {b : TcpRxBuffer Nat}

theorem Within.tail {e : Nat × List UInt8} (hb : Within lo hi (e :: rest)) : Within lo hi rest :=
  (List.forall_mem_cons.mp hb).2

theorem Within.head (hb : Within lo hi ((k, p) :: rest)) : lo ≤ k ∧ k + p.length ≤ hi := hb (k, p) List.mem_cons_self

theorem Within.sublist {sub : List (Nat × List UInt8)} (hb : Within lo hi data) (hs : sub.Sublist data) :
    Within lo hi sub := fun e he => hb e (hs.mem he)

theorem removeOverlap_map (he : Embeds φ lo hi) (hb : Within lo hi data) (hh : lo ≤ h ∧ h ≤ hi) (ht : lo ≤ t ∧ t ≤ hi) :
    removeOverlap (mapData φ data) (φ h) (φ t) size = (removeOverlap data h t size).map φ := by
  induction data generalizing h t size with
  | nil => rfl
  | cons e rest ih =>
      obtain ⟨k, p⟩ := e
      obtain ⟨hstart, hend⟩ := hb.head
      have hle : le (φ k) (φ t) = decide (k ≤ t) := he.le hstart (by omega) ht.1 ht.2
      have hle' : le (φ k) (φ h) = decide (k ≤ h) := he.le hstart (by omega) hh.1 hh.2
      have hgt : gt (φ (k + p.length)) (φ h) = decide (h < k + p.length) := he.gt _ _ (by omega) hend hh.1 hh.2
      have hgt' : gt (φ k) (φ h) = decide (h < k) := he.gt _ _ hstart (by omega) hh.1 hh.2
      have hlt : lt (φ (k + p.length)) (φ t) = decide (k + p.length < t) := he.lt (by omega) hend ht.1 ht.2
      have hge : ge (φ (k + p.length)) (φ t) = decide (t ≤ k + p.length) := he.ge (by omega) hend ht.1 ht.2
      have hhead : (if k ≤ h then φ (k + p.length) else φ h) = φ (if k ≤ h then k + p.length else h) := by split <;> rfl
      have htail : (if t ≤ k + p.length then φ k else φ t) = φ (if t ≤ k + p.length then k else t) := by split <;> rfl
      have hcase : lo ≤ (if k ≤ h then k + p.length else h) ∧ (if k ≤ h then k + p.length else h) ≤ hi := by
        split <;> omega
      have hcase' : lo ≤ (if t ≤ k + p.length then k else t) ∧ (if t ≤ k + p.length then k else t) ≤ hi := by
        split <;> omega
      have hrest : ∀ {h t size : Nat}, lo ≤ h ∧ h ≤ hi → lo ≤ t ∧ t ≤ hi →
          removeOverlap (rest.map fun e => (φ e.1, e.2)) (φ h) (φ t) size = (removeOverlap rest h t size).map φ :=
        fun hh ht => ih hb.tail hh ht
      rw [removeOverlap_cons]
      simp only [mapData, List.map_cons, removeOverlap, he.add, hle, hle', hgt, hgt', hlt, hge, Bool.and_eq_true,
        decide_eq_true_eq, hhead, htail]
      rw [hrest hcase hcase', hrest hh ht, hrest hh ht]
      split_ifs <;> rfl

theorem insertData_map (he : Embeds φ lo hi) (hb : Within lo hi data) (hh : lo ≤ h ∧ h ≤ hi) :
    insertData (φ h) p (mapData φ data) = mapData φ (insertData h p data) := by
  induction data with
  | nil => rfl
  | cons e rest ih =>
      obtain ⟨k, q⟩ := e
      obtain ⟨hstart, hend⟩ := hb.head
      have hlt : lt (φ k) (φ h) = decide (k < h) := he.lt hstart (by omega) hh.1 hh.2
      have hlt' : lt (φ h) (φ k) = decide (h < k) := he.lt hh.1 hh.2 hstart (by omega)
      have hrest : insertData (φ h) p (rest.map fun e => (φ e.1, e.2)) = mapData φ (insertData h p rest) := ih hb.tail
      rw [insertData_cons]
      simp only [mapData, List.map_cons, insertData, hlt, hlt', decide_eq_true_eq, hrest]
      split_ifs <;> rfl

/-! ## Blocks -/

def BlocksWithin (lo hi : Nat) (blocks : List (Nat × Nat)) : Prop :=
  ∀ e ∈ blocks, (lo ≤ e.1 ∧ e.1 ≤ hi) ∧ lo ≤ e.2 ∧ e.2 ≤ hi

variable {blocks : List (Nat × Nat)} {new : Nat × Nat}

/-- What holds of all blocks, and of two that are put together, holds of the merged ones. -/
theorem mergeBlock_forall {P : Nat × Nat → Prop} {r : (Nat × Nat) × List (Nat × Nat)}
    (hjoin : ∀ x y z, P (x, y) → P (y, z) → P (x, z)) (hb : ∀ e ∈ blocks, P e) (hnew : P new)
    (h : mergeBlock new blocks = some r) : P r.1 ∧ ∀ e ∈ r.2, P e := by
  induction blocks generalizing r with
  | nil => cases h
  | cons c rest ih =>
      obtain ⟨hc, hrest⟩ := List.forall_mem_cons.mp hb
      rw [mergeBlock] at h
      split at h
      · next heq =>
          obtain rfl := Option.some.inj h
          exact ⟨hjoin _ _ _ hc (heq ▸ hnew), hrest⟩
      · split at h
        · next heq =>
            obtain rfl := Option.some.inj h
            exact ⟨hjoin _ _ _ hnew (heq ▸ hc), hrest⟩
        · obtain ⟨r', hr', rfl⟩ := Option.map_eq_some_iff.mp h
          obtain ⟨hfirst, hothers⟩ := ih hrest hr'
          exact ⟨hfirst, List.forall_mem_cons.mpr ⟨hc, hothers⟩⟩

theorem mergeBlocks_forall {P : Nat × Nat → Prop} {fuel : Nat} (hjoin : ∀ x y z, P (x, y) → P (y, z) → P (x, z))
    (hb : ∀ e ∈ blocks, P e) (hnew : P new) : ∀ e ∈ mergeBlocks fuel new blocks, P e := by
  induction fuel generalizing new blocks with
  | zero => exact List.forall_mem_cons.mpr ⟨hnew, hb⟩
  | succ fuel ih =>
      rw [mergeBlocks]
      cases hm : mergeBlock new blocks with
      | none => exact List.forall_mem_cons.mpr ⟨hnew, hb⟩
      | some r =>
          obtain ⟨hfirst, hothers⟩ := mergeBlock_forall hjoin hb hnew hm
          exact ih hothers hfirst

theorem pushBlock_forall {P : Nat × Nat → Prop} (hjoin : ∀ x y z, P (x, y) → P (y, z) → P (x, z))
    (hb : ∀ e ∈ blocks, P e) (hnew : P new) : ∀ e ∈ pushBlock blocks new, P e := by
  rw [pushBlock]
  split
  · exact fun e he => mergeBlocks_forall hjoin hb hnew e (List.mem_of_mem_dropLast he)
  · exact mergeBlocks_forall hjoin hb hnew

theorem mergeBlock_map (he : Embeds φ lo hi) (hb : BlocksWithin lo hi blocks)
    (hnew : (lo ≤ new.1 ∧ new.1 ≤ hi) ∧ lo ≤ new.2 ∧ new.2 ≤ hi) :
    mergeBlock (φ new.1, φ new.2) (mapBlocks φ blocks) =
      (mergeBlock new blocks).map fun r => ((φ r.1.1, φ r.1.2), mapBlocks φ r.2) := by
  induction blocks with
  | nil => rfl
  | cons c rest ih =>
      obtain ⟨hc, hothers⟩ := List.forall_mem_cons.mp hb
      have hrest : mergeBlock (φ new.1, φ new.2) (rest.map fun e => (φ e.1, φ e.2)) = _ := ih hothers
      simp only [mapBlocks, List.map_cons, mergeBlock, he.inj _ _ hnew.1.1 hnew.1.2 hc.2.1 hc.2.2,
        he.inj _ _ hnew.2.1 hnew.2.2 hc.1.1 hc.1.2, hrest]
      split
      · rfl
      · split
        · rfl
        · rw [Option.map_map, Option.map_map]
          rfl

theorem mergeBlocks_map {fuel : Nat} (he : Embeds φ lo hi) (hb : BlocksWithin lo hi blocks)
    (hnew : (lo ≤ new.1 ∧ new.1 ≤ hi) ∧ lo ≤ new.2 ∧ new.2 ≤ hi) :
    mergeBlocks fuel (φ new.1, φ new.2) (mapBlocks φ blocks) = mapBlocks φ (mergeBlocks fuel new blocks) := by
  induction fuel generalizing new blocks with
  | zero => rfl
  | succ fuel ih =>
      rw [mergeBlocks, mergeBlocks, mergeBlock_map he hb hnew]
      cases hm : mergeBlock new blocks with
      | none => rfl
      | some r =>
          obtain ⟨hfirst, hothers⟩ := mergeBlock_forall
            (P := fun e => (lo ≤ e.1 ∧ e.1 ≤ hi) ∧ lo ≤ e.2 ∧ e.2 ≤ hi) (fun _ _ _ h h' => ⟨h.1, h'.2⟩) hb hnew hm
          exact ih hothers hfirst

theorem pushBlock_map (new : Nat × Nat) (he : Embeds φ lo hi) (hb : BlocksWithin lo hi blocks)
    (hnew : (lo ≤ new.1 ∧ new.1 ≤ hi) ∧ lo ≤ new.2 ∧ new.2 ≤ hi) :
    pushBlock (mapBlocks φ blocks) (φ new.1, φ new.2) = mapBlocks φ (pushBlock blocks new) := by
  have hlen : (mapBlocks φ blocks).length = blocks.length := List.length_map ..
  have hlen' : (mapBlocks φ (mergeBlocks blocks.length new blocks)).length =
    (mergeBlocks blocks.length new blocks).length := List.length_map ..
  rw [pushBlock, pushBlock, hlen, mergeBlocks_map he hb hnew, hlen']
  split
  · rw [mapBlocks, mapBlocks, List.map_dropLast]
  · rfl

omit [DecidableEq κ] in
theorem clearSackList_map (he : Embeds φ lo hi) (hb : BlocksWithin lo hi b.sackList) (hn : lo ≤ n ∧ n ≤ hi) :
    clearSackList (b.map φ) (φ n) = (clearSackList b n).map φ := by
  have hfilter : (mapBlocks φ b.sackList).filter (fun block => !le block.2 (φ n)) =
      mapBlocks φ (b.sackList.filter fun block => !le block.2 n) := by
    rw [mapBlocks, mapBlocks, List.filter_map]
    refine congrArg _ (List.filter_congr fun block hblock => ?_)
    rw [Function.comp_apply, he.le (hb block hblock).2.1 (hb block hblock).2.2 hn.1 hn.2, le_nat]
  simp only [clearSackList, map, hfilter]

/-! ## Operations -/

theorem advance_map (he : Embeds φ lo hi) (hb : Within lo hi data) (hs : BlocksWithin lo hi b.sackList)
    (hn : lo ≤ b.nextRxSeq ∧ b.nextRxSeq ≤ hi) : advance (mapData φ data) (b.map φ) = (advance data b).map φ := by
  induction data generalizing b with
  | nil => rfl
  | cons e rest ih =>
      obtain ⟨k, q⟩ := e
      obtain ⟨hstart, hend⟩ := hb.head
      have hclear := clearSackList_map (n := k + q.length)
        (b := { b with nextRxSeq := k + q.length, availBytes := b.availBytes + q.length }) he hs ⟨by omega, hend⟩
      have hnext := ih (b := clearSackList
        { b with nextRxSeq := k + q.length, availBytes := b.availBytes + q.length } (k + q.length)) hb.tail
        (fun e he => hs e (List.mem_of_mem_filter he)) ⟨Nat.le_trans hstart (Nat.le_add_right _ _), hend⟩
      have hrest : advance (mapData φ rest) (b.map φ) = (advance rest b).map φ := ih hb.tail hs hn
      have hlt : lt (φ k) (b.map φ).nextRxSeq = decide (k < b.nextRxSeq) := he.lt hstart (by omega) hn.1 hn.2
      have hgt : gt (φ k) (b.map φ).nextRxSeq = decide (b.nextRxSeq < k) := he.gt _ _ hstart (by omega) hn.1 hn.2
      rw [advance_cons, mapData, List.map_cons, advance, hlt, hgt, he.add]
      simp only [decide_eq_true_eq]
      split_ifs
      · exact hrest
      · rfl
      · rw [← hnext, ← hclear]
        rfl

/-- The numbers that the window is compared with are close enough. -/
def WindowNear (φ : Nat → κ) (b : TcpRxBuffer Nat) (tail : Nat) : Prop :=
  ∀ w ∈ b.windowEnd, lt (φ w) (φ tail) = decide (w < tail)

/-- What the packet is trimmed to lies between `lo` and `hi` when the packet, what is stored and
the window do. -/
theorem trimToWindow_within (hb : Within lo hi b.data) (hn : lo ≤ b.nextRxSeq ∧ b.nextRxSeq ≤ hi) (hoff : lo ≤ off)
    (hin : off + len ≤ hi) :
    (lo ≤ (b.trimToWindow off len).1 ∧ (b.trimToWindow off len).1 ≤ hi) ∧
      lo ≤ (b.trimToWindow off len).2 ∧ (b.trimToWindow off len).2 ≤ hi := by
  rw [trimToWindow_nat, windowEnd]
  cases hdata : b.data with
  | nil =>
      simp only [List.head?_nil, Option.map_none]
      omega
  | cons e rest =>
      obtain ⟨hstart, hend⟩ := hb e (hdata ▸ List.mem_cons_self)
      simp only [List.head?_cons, Option.map_some]
      split <;> omega

theorem trimToWindow_map (he : Embeds φ lo hi) (hb : Within lo hi b.data) (hn : lo ≤ b.nextRxSeq ∧ b.nextRxSeq ≤ hi)
    (hoff : lo ≤ off) (hin : off + len ≤ hi) (hw : WindowNear φ b (off + len)) :
    (b.map φ).trimToWindow (φ off) len = (φ (b.trimToWindow off len).1, φ (b.trimToWindow off len).2) := by
  have hhead : (if lt (φ off) (b.map φ).nextRxSeq then (b.map φ).nextRxSeq else φ off) =
      φ (if off < b.nextRxSeq then b.nextRxSeq else off) := by
    have hlt : lt (φ off) (b.map φ).nextRxSeq = decide (off < b.nextRxSeq) := he.lt hoff (by omega) hn.1 hn.2
    rw [hlt]
    simp only [decide_eq_true_eq]
    split <;> rfl
  simp only [trimToWindow, hhead, he.add, lt_nat, add_nat, decide_eq_true_eq]
  cases hdata : b.data with
  | nil =>
      have hmap : (b.map φ).data = [] := by rw [map, hdata]; rfl
      simp only [hmap]
  | cons e rest =>
      obtain ⟨k, q⟩ := e
      have hmap : (b.map φ).data = (φ k, q) :: mapData φ rest := by rw [map, hdata]; rfl
      have hnear := hw (k + b.maxBuffer) (by rw [windowEnd, hdata]; rfl)
      obtain ⟨hstart, hend⟩ : lo ≤ k ∧ k + q.length ≤ hi := hb (k, q) (hdata ▸ List.mem_cons_self)
      have hmax : (if lt (add (φ k) (b.map φ).maxBuffer) (φ (off + len)) then add (φ k) (b.map φ).maxBuffer
          else φ (off + len)) = φ (if k + b.maxBuffer < off + len then k + b.maxBuffer else off + len) := by
        change (if lt (add (φ k) b.maxBuffer) _ then add (φ k) b.maxBuffer else _) = _
        rw [he.add, hnear]
        simp only [decide_eq_true_eq]
        split <;> rfl
      have htail : lo ≤ (if k + b.maxBuffer < off + len then k + b.maxBuffer else off + len) ∧
          (if k + b.maxBuffer < off + len then k + b.maxBuffer else off + len) ≤ hi := by
        split <;> omega
      have hhead' : lo ≤ (if off < b.nextRxSeq then b.nextRxSeq else off) ∧
          (if off < b.nextRxSeq then b.nextRxSeq else off) ≤ hi := by
        split <;> omega
      simp only [hmap, hmax, he.lt htail.1 htail.2 hhead'.1 hhead'.2, decide_eq_true_eq]
      split_ifs <;> rfl

theorem trimmed_map (he : Embeds φ lo hi) (hb : Within lo hi b.data) (hn : lo ≤ b.nextRxSeq ∧ b.nextRxSeq ≤ hi)
    (hoff : lo ≤ off) (hin : off + len ≤ hi) (hw : WindowNear φ b (off + len)) :
    (b.map φ).trimmed (φ off) len = (b.trimmed off len).map φ := by
  obtain ⟨hhead, htail⟩ := trimToWindow_within hb hn hoff hin
  rw [trimmed, trimmed, trimToWindow_map he hb hn hoff hin hw]
  exact removeOverlap_map he hb hhead htail

theorem store_map {r : Trimmed Nat} (he : Embeds φ lo hi) (hb : Within lo hi (insertData r.headSeq p r.data))
    (hb' : Within lo hi r.data) (hs : BlocksWithin lo hi b.sackList) (hn : lo ≤ b.nextRxSeq ∧ b.nextRxSeq ≤ hi)
    (hh : lo ≤ r.headSeq ∧ r.headSeq ≤ hi) (ht : lo ≤ r.tailSeq ∧ r.tailSeq ≤ hi) (hfin : b.gotFin = false) :
    (b.map φ).store (r.map φ) p = (b.store r p).map φ := by
  have hinsert : insertData (r.map φ).headSeq p (r.map φ).data = _ := insertData_map he hb' hh
  have hgt : gt (r.map φ).headSeq (b.map φ).nextRxSeq = decide (b.nextRxSeq < r.headSeq) :=
    he.gt _ _ hh.1 hh.2 hn.1 hn.2
  have hpush : pushBlock (b.map φ).sackList ((r.map φ).headSeq, (r.map φ).tailSeq) = _ :=
    pushBlock_map (r.headSeq, r.tailSeq) he hs ⟨hh, ht⟩
  have hblocks : BlocksWithin lo hi
      (if gt r.headSeq b.nextRxSeq then pushBlock b.sackList (r.headSeq, r.tailSeq) else b.sackList) := by
    split
    · exact pushBlock_forall (fun _ _ _ h h' => ⟨h.1, h'.2⟩) hs ⟨hh, ht⟩
    · exact hs
  have hfin' : (b.map φ).gotFin = false := hfin
  rw [store_eq hfin, store_eq hfin']
  refine Eq.trans ?_ (advance_map he hb hblocks hn)
  rw [hgt, hinsert, hpush, gt_nat]
  split <;> rfl

theorem removeOverlap_headSeq_le (hb : Within lo hi data) (hh : h ≤ hi) :
    (removeOverlap data h t size).headSeq ≤ hi := by
  induction data generalizing h t size with
  | nil => exact hh
  | cons e rest ih =>
      obtain ⟨k, q⟩ := e
      have hend := hb.head.2
      rw [removeOverlap_cons]
      split_ifs
      all_goals first | exact ih hb.tail hh | exact ih hb.tail hend | exact hh

theorem le_removeOverlap_tailSeq (hb : Within lo hi data) (ht : lo ≤ t) :
    lo ≤ (removeOverlap data h t size).tailSeq := by
  induction data generalizing h t size with
  | nil => exact ht
  | cons e rest ih =>
      obtain ⟨k, q⟩ := e
      have hstart := hb.head.1
      rw [removeOverlap_cons]
      split_ifs
      all_goals first | exact ih hb.tail ht | exact ih hb.tail hstart | exact ht

theorem Within.insertData (hb : Within lo hi data) (hstart : lo ≤ h) (hin : h + p.length ≤ hi) :
    Within lo hi (insertData h p data) := by
  induction data with
  | nil => exact List.forall_mem_singleton.mpr ⟨hstart, hin⟩
  | cons e rest ih =>
      obtain ⟨k, q⟩ := e
      rw [insertData_cons]
      split_ifs
      · exact List.forall_mem_cons.mpr ⟨hb.head, ih hb.tail⟩
      · exact List.forall_mem_cons.mpr ⟨⟨hstart, hin⟩, hb⟩
      · refine List.forall_mem_cons.mpr ⟨?_, hb.tail⟩
        dsimp only
        omega

/-- What is left of the packet lies between `lo` and `hi`. -/
theorem Stores.trimmed_within (hst : Stores fits k b) (hb : Within lo hi b.data)
    (hn : lo ≤ b.nextRxSeq ∧ b.nextRxSeq ≤ hi) (hoff : lo ≤ off) (hin : off + len ≤ hi) :
    (lo ≤ (b.trimmed off len).headSeq ∧ (b.trimmed off len).headSeq ≤ hi) ∧
      lo ≤ (b.trimmed off len).tailSeq ∧ (b.trimmed off len).tailSeq ≤ hi := by
  have hr := hst.overlapped off len
  obtain ⟨hhead, htail⟩ := trimToWindow_within hb hn hoff hin
  exact ⟨⟨Nat.le_trans hhead.1 hr.head_le, removeOverlap_headSeq_le hb hhead.2⟩,
    le_removeOverlap_tailSeq hb htail.1, Nat.le_trans hr.le_tail htail.2⟩

theorem Stores.addPacket_map (hst : Stores fits k b) (he : Embeds φ lo hi) (hb : Within lo hi b.data)
    (hs : BlocksWithin lo hi b.sackList) (hn : lo ≤ b.nextRxSeq ∧ b.nextRxSeq ≤ hi) (hoff : lo ≤ off)
    (hin : off + p.length ≤ hi) (hw : WindowNear φ b (off + p.length)) :
    (b.map φ).addPacket p (φ off) = (b.addPacket p off).map fun r => (r.1, r.2.map φ) := by
  have hb' := hb.sublist (hst.overlapped off p.length).sublist
  obtain ⟨hhead, htail⟩ := hst.trimmed_within hb hn hoff hin
  have hbounds := @Stores.trimmed_bounds _ _ _ off p.length hst
  rw [TcpRxBuffer.addPacket, TcpRxBuffer.addPacket, trimmed_map he hb hn hoff hin hw]
  generalize b.trimmed off p.length = r at *
  have hge : ge (r.map φ).headSeq (r.map φ).tailSeq = ge r.headSeq r.tailSeq := by
    rw [ge_nat]
    exact he.ge hhead.1 hhead.2 htail.1 htail.2
  rw [hge, ge_nat]
  by_cases hle : r.tailSeq ≤ r.headSeq
  · simp only [hle, decide_true, if_true]
    rfl
  · obtain ⟨hhead', htail'⟩ := hbounds (by omega)
    have hsub : sub (r.map φ).headSeq (φ off) = r.headSeq - off := he.sub _ _ hhead.2 hoff (by omega)
    have hsub' : sub (r.map φ).tailSeq (r.map φ).headSeq = r.tailSeq - r.headSeq :=
      he.sub _ _ htail.2 hhead.1 (by omega)
    simp only [hle, decide_false, Bool.false_eq_true, if_false, hsub, hsub', sub_nat]
    cases hp : createFragment p (r.headSeq - off) (r.tailSeq - r.headSeq) with
    | none => rfl
    | some q =>
        have hlen := createFragment_length hp
        have hstore := store_map (p := q) he (hb'.insertData hhead.1 (by omega)) hb' hs hn hhead htail hst.noFin
        exact congrArg (fun b => some (true, b)) hstore

theorem extractLoop_map (he : Embeds φ lo hi) (hb : Within lo hi data) (out : List UInt8) :
    extractLoop (mapData φ data) n out = (extractLoop data n out).map fun r => (r.1, mapData φ r.2) := by
  induction data generalizing n out with
  | nil => cases n <;> rfl
  | cons e rest ih =>
      obtain ⟨k, q⟩ := e
      obtain ⟨hstart, hend⟩ := hb.head
      have hrest : ∀ n out, extractLoop (rest.map fun e => (φ e.1, e.2)) n out = _ := fun n out => ih hb.tail out
      cases n with
      | zero => rfl
      | succ n =>
          rw [mapData, List.map_cons, extractLoop, extractLoop, hrest, he.add]
          split
          · rfl
          · next hlt =>
              dsimp only at hlt
              have hinsert : insertData (φ (k + (n + 1))) (q.drop (n + 1)) (mapData φ rest) = _ :=
                insertData_map he hb.tail ⟨by omega, by omega⟩
              exact congrArg (fun data => some (out ++ q.take (n + 1), data)) hinsert

theorem extract_map (he : Embeds φ lo hi) (hb : Within lo hi b.data) (maxSize : Nat) :
    (b.map φ).extract maxSize = (b.extract maxSize).map fun r => (r.1, r.2.map φ) := by
  have hloop : extractLoop (b.map φ).data (min maxSize (b.map φ).availBytes) [] = _ :=
    extractLoop_map (n := min maxSize b.availBytes) he hb []
  rw [extract, extract, hloop, Option.map_map, Option.map_map]
  rfl

end TcpRxBuffer

end Ns3Raft.Net
