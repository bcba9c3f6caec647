import Ns3Raft.Net.TcpRxNumbers

/-! # The SACK blocks at their positions

What the blocks report is stored, whatever has been added. They are apart from each
other as long as a packet that is added out of order removes none.
-/

namespace Ns3Raft.Net.TcpRxBuffer

open Sequence

/-! ## Merging -/

def Covers (blocks : List (Nat × Nat)) (o : Nat) : Prop := ∃ e ∈ blocks, e.1 ≤ o ∧ o < e.2

/-- Neither overlapping nor adjacent. -/
def Apart (x y : Nat × Nat) : Prop := x.2 < y.1 ∨ y.2 < x.1

variable {blocks : List (Nat × Nat)} {new c : Nat × Nat} {o : Nat}

theorem covers_cons : Covers (c :: blocks) o ↔ (c.1 ≤ o ∧ o < c.2) ∨ Covers blocks o := by simp [Covers]

theorem Covers.mono {sub : List (Nat × Nat)} (hs : ∀ e ∈ sub, e ∈ blocks) (h : Covers sub o) : Covers blocks o := by
  obtain ⟨e, he, ho⟩ := h
  exact ⟨e, hs e he, ho⟩

/-- The blocks of a list, each apart from the others. -/
structure Blocks (blocks : List (Nat × Nat)) : Prop where
  nonempty : ∀ e ∈ blocks, e.1 < e.2
  apart : blocks.Pairwise Apart

theorem Blocks.tail (hb : Blocks (c :: blocks)) : Blocks blocks :=
  ⟨(List.forall_mem_cons.mp hb.nonempty).2, (List.pairwise_cons.mp hb.apart).2⟩

theorem Blocks.sublist {sub : List (Nat × Nat)} (hb : Blocks blocks) (hs : sub.Sublist blocks) : Blocks sub :=
  ⟨fun e he => hb.nonempty e (hs.mem he), hb.apart.sublist hs⟩

theorem Blocks.cons (hb : Blocks blocks) (hc : c.1 < c.2) (hap : ∀ e ∈ blocks, Apart c e) : Blocks (c :: blocks) :=
  ⟨List.forall_mem_cons.mpr ⟨hc, hb.nonempty⟩, List.pairwise_cons.mpr ⟨hap, hb.apart⟩⟩

/-- A new block that overlaps none of the others, merged with them. -/
structure Merged (new : Nat × Nat) (blocks : List (Nat × Nat)) (first : Nat × Nat) (rest : List (Nat × Nat)) : Prop where
  le_first : first.1 ≤ new.1 ∧ new.2 ≤ first.2
  sublist : rest.Sublist blocks
  covers : ∀ o, Covers (first :: rest) o ↔ Covers (new :: blocks) o

theorem Merged.refl : Merged new blocks new blocks := ⟨⟨Nat.le_refl _, Nat.le_refl _⟩, List.Sublist.refl _, fun _ => Iff.rfl⟩

theorem Merged.trans {first second : Nat × Nat} {rest rest' : List (Nat × Nat)} (h : Merged new blocks first rest)
    (h' : Merged first rest second rest') : Merged new blocks second rest' :=
  ⟨⟨Nat.le_trans h'.le_first.1 h.le_first.1, Nat.le_trans h.le_first.2 h'.le_first.2⟩, h'.sublist.trans h.sublist,
    fun o => (h'.covers o).trans (h.covers o)⟩

theorem mergeBlock_none (h : mergeBlock new blocks = none) : ∀ e ∈ blocks, new.1 ≠ e.2 ∧ new.2 ≠ e.1 := by
  induction blocks with
  | nil => exact fun e he => by cases he
  | cons c rest ih =>
      rw [mergeBlock] at h
      split at h
      · cases h
      · next hleft =>
          split at h
          · cases h
          · next hright => exact List.forall_mem_cons.mpr ⟨⟨hleft, hright⟩, ih (Option.map_eq_none_iff.mp h)⟩

/-- One block is taken from the list and put together with the new one. -/
theorem mergeBlock_some {r : (Nat × Nat) × List (Nat × Nat)} (h : mergeBlock new blocks = some r) :
    ∃ as c bs, blocks = as ++ c :: bs ∧ r.2 = as ++ bs ∧
      (new.1 = c.2 ∧ r.1 = (c.1, new.2) ∨ new.2 = c.1 ∧ r.1 = (new.1, c.2)) := by
  induction blocks generalizing r with
  | nil => cases h
  | cons c rest ih =>
      rw [mergeBlock] at h
      split at h
      · next heq =>
          obtain rfl := Option.some.inj h
          exact ⟨[], c, rest, rfl, rfl, Or.inl ⟨heq, rfl⟩⟩
      · split at h
        · next heq =>
            obtain rfl := Option.some.inj h
            exact ⟨[], c, rest, rfl, rfl, Or.inr ⟨heq, rfl⟩⟩
        · obtain ⟨r', hr', rfl⟩ := Option.map_eq_some_iff.mp h
          obtain ⟨as, d, bs, rfl, hrest, hjoin⟩ := ih hr'
          exact ⟨c :: as, d, bs, rfl, congrArg (c :: ·) hrest, hjoin⟩

/-- A block that overlaps none of the others overlaps none after it is merged. -/
theorem Blocks.mergeBlock (hb : Blocks blocks) (hnew : new.1 < new.2)
    (hbeside : ∀ e ∈ blocks, new.2 ≤ e.1 ∨ e.2 ≤ new.1) {r : (Nat × Nat) × List (Nat × Nat)}
    (h : mergeBlock new blocks = some r) :
    Merged new blocks r.1 r.2 ∧ r.2.length + 1 = blocks.length ∧ r.1.1 < r.1.2 ∧
      ∀ e ∈ r.2, r.1.2 ≤ e.1 ∨ e.2 ≤ r.1.1 := by
  obtain ⟨as, c, bs, rfl, hrest, hjoin⟩ := mergeBlock_some h
  obtain ⟨first, rest⟩ := r
  dsimp only at hrest hjoin ⊢
  subst hrest
  have hc := hb.nonempty c (by simp)
  have hapart : ∀ e ∈ as ++ bs, Apart c e := by
    have hp := (List.perm_middle.pairwise_iff (R := Apart) (fun h => h.symm)).mp hb.apart
    exact (List.pairwise_cons.mp hp).1
  have hsub : (as ++ bs).Sublist (as ++ c :: bs) := (List.sublist_cons_self c bs).append_left as
  refine ⟨⟨?_, hsub, fun o => ?_⟩, by simp; omega, ?_, fun e he => ?_⟩
  · rcases hjoin with ⟨heq, rfl⟩ | ⟨heq, rfl⟩ <;> dsimp only <;> omega
  · have hmid : Covers (as ++ c :: bs) o ↔ Covers (c :: (as ++ bs)) o := by
      simp only [Covers, List.perm_middle.mem_iff]
    rw [covers_cons, covers_cons, hmid, covers_cons, ← or_assoc]
    refine or_congr_left ?_
    rcases hjoin with ⟨heq, rfl⟩ | ⟨heq, rfl⟩ <;> dsimp only <;> omega
  · rcases hjoin with ⟨heq, rfl⟩ | ⟨heq, rfl⟩ <;> dsimp only <;> omega
  · have h₁ : Apart c e := hapart e he
    have h₂ := hbeside e (hsub.mem he)
    have h₃ := hb.nonempty e (hsub.mem he)
    rw [Apart] at h₁
    rcases hjoin with ⟨heq, rfl⟩ | ⟨heq, rfl⟩ <;> dsimp only <;> omega

theorem Blocks.mergeBlocks {fuel : Nat} (hb : Blocks blocks) (hnew : new.1 < new.2)
    (hbeside : ∀ e ∈ blocks, new.2 ≤ e.1 ∨ e.2 ≤ new.1) (hfuel : blocks.length ≤ fuel) :
    ∃ first rest, mergeBlocks fuel new blocks = first :: rest ∧ Merged new blocks first rest ∧ Blocks (first :: rest) := by
  induction fuel generalizing new blocks with
  | zero =>
      obtain rfl : blocks = [] := List.eq_nil_of_length_eq_zero (Nat.le_zero.mp hfuel)
      exact ⟨new, [], rfl, Merged.refl, hb.cons hnew fun e he => by cases he⟩
  | succ fuel ih =>
      rw [TcpRxBuffer.mergeBlocks]
      cases hm : TcpRxBuffer.mergeBlock new blocks with
      | none =>
          refine ⟨new, blocks, rfl, Merged.refl, hb.cons hnew fun e he => ?_⟩
          have h₁ := mergeBlock_none hm e he
          have h₂ := hbeside e he
          rw [Apart]
          omega
      | some r =>
          obtain ⟨hmerged, hlen, hne, hbeside'⟩ := hb.mergeBlock hnew hbeside hm
          obtain ⟨first, rest, heq, hmerged', hblocks⟩ := ih (hb.sublist hmerged.sublist) hne hbeside' (by omega)
          exact ⟨first, rest, heq, hmerged.trans hmerged', hblocks⟩

/-- What the list is after a block that overlaps none of the others. -/
theorem Blocks.pushBlock (new : Nat × Nat) (hb : Blocks blocks) (hnew : new.1 < new.2)
    (hbeside : ∀ e ∈ blocks, new.2 ≤ e.1 ∨ e.2 ≤ new.1) :
    ∃ first rest, pushBlock blocks new = first :: rest ∧ (first.1 ≤ new.1 ∧ new.2 ≤ first.2) ∧
      Blocks (first :: rest) ∧
      ∀ o, Covers (new :: blocks) o → Covers (first :: rest) o ∨ Covers blocks o ∧ 4 ≤ (first :: rest).length := by
  obtain ⟨first, rest, heq, hmerged, hblocks⟩ := hb.mergeBlocks hnew hbeside (Nat.le_refl _)
  rw [TcpRxBuffer.pushBlock, heq]
  split
  · next hlong =>
      have hne : rest ≠ [] := by
        rintro rfl
        simp at hlong
      refine ⟨first, rest.dropLast, List.dropLast_cons_of_ne_nil hne, hmerged.le_first,
        hblocks.sublist (rest.dropLast_sublist.cons_cons first), fun o ho => ?_⟩
      rcases covers_cons.mp ((hmerged.covers o).mpr ho) with hin | hin
      · exact Or.inl (covers_cons.mpr (Or.inl hin))
      · refine Or.inr ⟨hin.mono fun e he => hmerged.sublist.mem he, ?_⟩
        rw [List.length_cons] at hlong ⊢
        rw [List.length_dropLast]
        omega
  · exact ⟨first, rest, rfl, hmerged.le_first, hblocks, fun o ho => Or.inl ((hmerged.covers o).mpr ho)⟩

theorem mergeBlocks_length (fuel : Nat) (new : Nat × Nat) (blocks : List (Nat × Nat)) :
    (mergeBlocks fuel new blocks).length ≤ blocks.length + 1 := by
  induction fuel generalizing new blocks with
  | zero => exact Nat.le_refl _
  | succ fuel ih =>
      rw [mergeBlocks]
      cases hm : mergeBlock new blocks with
      | none => exact Nat.le_refl _
      | some r =>
          obtain ⟨as, c, bs, hblocks, hrest, -⟩ := mergeBlock_some hm
          have hle : (mergeBlocks fuel r.1 r.2).length ≤ r.2.length + 1 := ih _ _
          have hlen : r.2.length + 1 = blocks.length := by
            rw [hrest, hblocks, List.length_append, List.length_append, List.length_cons, Nat.add_assoc]
          exact Nat.le_trans hle (by omega)

/-- Four blocks fit into a header. -/
theorem pushBlock_length (new : Nat × Nat) (hle : blocks.length ≤ 4) : (pushBlock blocks new).length ≤ 4 := by
  have hlen := mergeBlocks_length blocks.length new blocks
  rw [pushBlock]
  split
  · rw [List.length_dropLast]
    omega
  · omega

/-- No byte beside the first block is in another. -/
theorem Blocks.not_covers_beside {first : Nat × Nat} {rest : List (Nat × Nat)} (hb : Blocks (first :: rest))
    (ho : o + 1 = first.1 ∨ o = first.2) : ¬Covers (first :: rest) o := by
  have hne := (List.forall_mem_cons.mp hb.nonempty).1
  have hap := (List.pairwise_cons.mp hb.apart).1
  rw [covers_cons]
  rintro (hin | ⟨e, he, hle, hlt⟩)
  · omega
  · have := hap e he
    rw [Apart] at this
    omega

/-! ## Adding and extracting -/

/-- All that a block reports lies above the next byte and is stored. -/
def Sacked (b : TcpRxBuffer Nat) : Prop :=
  ∀ e ∈ b.sackList, e.1 < e.2 ∧ b.nextRxSeq < e.1 ∧ ∀ o, e.1 ≤ o → o < e.2 → Holds b.data o

variable {fits : Nat → List UInt8 → Prop} {b b' : TcpRxBuffer Nat} {k n off len lo hi : Nat}

theorem Within.of_holds {data : List (Nat × List UInt8)} (hw : Within lo hi data) (ho : Holds data o) :
    lo ≤ o ∧ o < hi := by
  obtain ⟨e, he, hle, hlt⟩ := ho
  obtain ⟨hstart, hend⟩ := hw e he
  omega

theorem Sacked.within (h : b.Sacked) (hw : Within lo hi b.data) : BlocksWithin lo hi b.sackList := by
  intro e he
  obtain ⟨hne, -, hall⟩ := h e he
  have hfirst := hw.of_holds (hall e.1 (Nat.le_refl _) hne)
  have hlast := hw.of_holds (hall (e.2 - 1) (by omega) (by omega))
  omega

/-- Out of order no packet is removed. -/
def KeepsPackets (b : TcpRxBuffer Nat) (off len : Nat) : Prop :=
  b.nextRxSeq < (b.trimmed off len).headSeq → (b.trimmed off len).data = b.data

theorem Stores.not_holds_next (hs : Stores fits k b) : ¬Holds b.data b.nextRxSeq := by
  rw [hs.next]
  exact hs.spread.not_holds_contiguous

/-- What is stored anew is all of what the loop has left. -/
theorem Added.holds_trimmed (ha : Added fits k off len b b') (hs : Stores fits k b)
    (hlt : (b.trimmed off len).headSeq < (b.trimmed off len).tailSeq) (o : Nat) :
    Holds b'.data o ↔ Holds (b.trimmed off len).data o ∨
      ((b.trimmed off len).headSeq ≤ o ∧ o < (b.trimmed off len).tailSeq) := by
  rw [ha.holds, (hs.overlapped off len).covers hlt]

theorem Stores.holds_of_trimmed (hs : Stores fits k b) (ho : Holds (b.trimmed off len).data o) : Holds b.data o := by
  obtain ⟨e, he, hin⟩ := ho
  exact ⟨e, (hs.overlapped off len).sublist.mem he, hin⟩

/-- Out of order the next byte stays. -/
theorem Added.next_eq (ha : Added fits k off len b b') (hs : Stores fits k b)
    (hlt : (b.trimmed off len).headSeq < (b.trimmed off len).tailSeq)
    (hnew : b.nextRxSeq < (b.trimmed off len).headSeq) : b'.nextRxSeq = b.nextRxSeq := by
  have hle := ha.next_le
  have hstart := hs.le_next
  by_contra hne
  have hnext := ha.stores.next
  have hholds : Holds b'.data b.nextRxSeq := ha.stores.spread.holds_of_lt hstart (by omega)
  rcases (ha.holds_trimmed hs hlt _).mp hholds with ho | ho
  · exact hs.not_holds_next (hs.holds_of_trimmed ho)
  · omega

/-- In order the next byte goes behind all of it. -/
theorem Added.tailSeq_le (ha : Added fits k off len b b') (hs : Stores fits k b)
    (hlt : (b.trimmed off len).headSeq < (b.trimmed off len).tailSeq)
    (hnew : (b.trimmed off len).headSeq ≤ b.nextRxSeq) : (b.trimmed off len).tailSeq ≤ b'.nextRxSeq := by
  have hle := ha.next_le
  by_contra hgt
  exact ha.stores.not_holds_next ((ha.holds_trimmed hs hlt _).mpr (Or.inr (by omega)))

theorem Added.length_sackList (ha : Added fits k off len b b') (hle : b.sackList.length ≤ 4) :
    b'.sackList.length ≤ 4 := by
  rcases ha.blocks with rfl | ⟨-, heq⟩
  · exact hle
  · have hpush := pushBlock_length ((b.trimmed off len).headSeq, (b.trimmed off len).tailSeq) hle
    rw [heq, storedBlocks]
    split_ifs
    · exact Nat.le_trans (List.length_filter_le ..) hpush
    · exact Nat.le_trans (List.length_filter_le ..) hle
    · exact hpush
    · exact hle

/-- The new block, when there is one, is stored. -/
theorem Added.sacked (ha : Added fits k off len b b') (hs : Stores fits k b) (h : b.Sacked) : b'.Sacked := by
  rcases ha.blocks with rfl | ⟨hlt, heq⟩
  · exact h
  · have hold : ∀ e ∈ b.sackList, e.1 < e.2 ∧ b.nextRxSeq < e.1 ∧ ∀ o, e.1 ≤ o → o < e.2 → Holds b'.data o :=
      fun e he => ⟨(h e he).1, (h e he).2.1, fun o ho ho' => (ha.holds o).mpr (Or.inl ((h e he).2.2 o ho ho'))⟩
    have hall : ∀ e ∈ (if b.nextRxSeq < (b.trimmed off len).headSeq then
        pushBlock b.sackList ((b.trimmed off len).headSeq, (b.trimmed off len).tailSeq) else b.sackList),
        e.1 < e.2 ∧ b.nextRxSeq < e.1 ∧ ∀ o, e.1 ≤ o → o < e.2 → Holds b'.data o := by
      split
      · next hnew =>
          refine pushBlock_forall (fun x y z hx hy => ⟨Nat.lt_trans hx.1 hy.1, hx.2.1, fun o ho ho' => ?_⟩) hold
            ⟨hlt, hnew, fun o ho ho' => (ha.holds_trimmed hs hlt o).mpr (Or.inr ⟨ho, ho'⟩)⟩
          by_cases hoy : o < y
          · exact hx.2.2 o ho hoy
          · exact hy.2.2 o (Nat.not_lt.mp hoy) ho'
      · exact hold
    intro e he
    rw [heq, storedBlocks] at he
    split at he
    · next hnext =>
        obtain ⟨hin, hgt⟩ := List.mem_filter.mp he
        obtain ⟨hne, -, hstored⟩ := hall e hin
        refine ⟨hne, ?_, hstored⟩
        by_contra hle
        exact ha.stores.not_holds_next (hstored _ (Nat.not_lt.mp hle) (of_decide_eq_true hgt))
    · next hnext =>
        obtain ⟨hne, hgt, hstored⟩ := hall e he
        exact ⟨hne, by omega, hstored⟩

/-- A packet that removes none overlaps no block. -/
theorem Stores.beside (hs : Stores fits k b) (h : b.Sacked)
    (hlt : (b.trimmed off len).headSeq < (b.trimmed off len).tailSeq) (hkeep : (b.trimmed off len).data = b.data) :
    ∀ e ∈ b.sackList, (b.trimmed off len).tailSeq ≤ e.1 ∨ e.2 ≤ (b.trimmed off len).headSeq := by
  intro e he
  obtain ⟨hne, -, hall⟩ := h e he
  have hclear : ∀ o, Holds b.data o → ¬((b.trimmed off len).headSeq ≤ o ∧ o < (b.trimmed off len).tailSeq) := by
    rintro o ⟨d, hd, hle, hlt'⟩ hin
    rw [← hkeep] at hd
    have := (hs.overlapped off len).apart hlt d hd
    omega
  by_contra hover
  exact hclear (max e.1 (b.trimmed off len).headSeq) (hall _ (by omega) (by omega)) (by omega)

/-- The first block after a packet is stored out of order. -/
theorem Added.push (ha : Added fits k off len b b') (hs : Stores fits k b) (h : b.Sacked) (hb : Blocks b.sackList)
    (hkeep : b.KeepsPackets off len) (hlt : (b.trimmed off len).headSeq < (b.trimmed off len).tailSeq)
    (hnew : b.nextRxSeq < (b.trimmed off len).headSeq) (heq : b'.sackList = b.storedBlocks (b.trimmed off len) b'.nextRxSeq) :
    ∃ first rest, b'.sackList = first :: rest ∧
      (first.1 ≤ (b.trimmed off len).headSeq ∧ (b.trimmed off len).tailSeq ≤ first.2) ∧ Blocks (first :: rest) ∧
      (∀ o, Holds b'.data o → ¬Holds b.data o → Covers (first :: rest) o) ∧
      ∀ o, Covers b.sackList o → Covers (first :: rest) o ∨ 4 ≤ (first :: rest).length := by
  obtain ⟨first, rest, hpush, hle, hblocks, hcovers⟩ :=
    hb.pushBlock ((b.trimmed off len).headSeq, (b.trimmed off len).tailSeq) hlt (hs.beside h hlt (hkeep hnew))
  refine ⟨first, rest, ?_, hle, hblocks, fun o ho hno => ?_, fun o ho => ?_⟩
  · rw [heq, storedBlocks, if_pos hnew, if_neg (by rw [ha.next_eq hs hlt hnew]; omega), hpush]
  · have hin : (b.trimmed off len).headSeq ≤ o ∧ o < (b.trimmed off len).tailSeq :=
      ((ha.holds_trimmed hs hlt o).mp ho).resolve_left fun ho => hno (hs.holds_of_trimmed ho)
    refine (hcovers o (covers_cons.mpr (Or.inl hin))).resolve_right ?_
    rintro ⟨⟨e, he, hle, hlt'⟩, -⟩
    exact hno ((h e he).2.2 o hle hlt')
  · exact (hcovers o (covers_cons.mpr (Or.inr ho))).imp_right And.right

theorem Added.blocksApart (ha : Added fits k off len b b') (hs : Stores fits k b) (h : b.Sacked) (hb : Blocks b.sackList)
    (hkeep : b.KeepsPackets off len) : Blocks b'.sackList := by
  rcases ha.blocks with rfl | ⟨hlt, heq⟩
  · exact hb
  · by_cases hnew : b.nextRxSeq < (b.trimmed off len).headSeq
    · obtain ⟨first, rest, hpush, -, hblocks, -, -⟩ := ha.push hs h hb hkeep hlt hnew heq
      rw [hpush]
      exact hblocks
    · rw [heq, storedBlocks, if_neg hnew]
      split
      · exact hb.sublist List.filter_sublist
      · exact hb

/-- What is stored anew above the next byte is in a block. -/
theorem Added.covers_new (ha : Added fits k off len b b') (hs : Stores fits k b) (h : b.Sacked) (hb : Blocks b.sackList)
    (hkeep : b.KeepsPackets off len) (ho : Holds b'.data o) (hno : ¬Holds b.data o) (hle : b'.nextRxSeq ≤ o) :
    Covers b'.sackList o := by
  rcases ha.blocks with rfl | ⟨hlt, heq⟩
  · exact absurd ho hno
  · by_cases hnew : b.nextRxSeq < (b.trimmed off len).headSeq
    · obtain ⟨first, rest, hpush, -, -, hcovers, -⟩ := ha.push hs h hb hkeep hlt hnew heq
      rw [hpush]
      exact hcovers o ho hno
    · have hin : (b.trimmed off len).headSeq ≤ o ∧ o < (b.trimmed off len).tailSeq :=
        ((ha.holds_trimmed hs hlt o).mp ho).resolve_left fun ho => hno (hs.holds_of_trimmed ho)
      have := ha.tailSeq_le hs hlt (Nat.not_lt.mp hnew)
      omega

/-- A block that is above the next byte stays, unless the list is full. -/
theorem Added.covers_old (ha : Added fits k off len b b') (hs : Stores fits k b) (h : b.Sacked) (hb : Blocks b.sackList)
    (hkeep : b.KeepsPackets off len) (ho : Covers b.sackList o) (hle : b'.nextRxSeq ≤ o) :
    Covers b'.sackList o ∨ 4 ≤ b'.sackList.length := by
  rcases ha.blocks with rfl | ⟨hlt, heq⟩
  · exact Or.inl ho
  · by_cases hnew : b.nextRxSeq < (b.trimmed off len).headSeq
    · obtain ⟨first, rest, hpush, -, -, -, hold⟩ := ha.push hs h hb hkeep hlt hnew heq
      rw [hpush]
      exact hold o ho
    · rw [heq, storedBlocks, if_neg hnew]
      split
      · obtain ⟨e, he, hstart, hend⟩ := ho
        exact Or.inl ⟨e, List.mem_filter.mpr ⟨he, decide_eq_true (by omega)⟩, hstart, hend⟩
      · exact Or.inl ho

/-- The first block has all that an addition has stored that leaves the next byte where it was. -/
theorem Added.firstBlock (ha : Added fits k off len b b') (hs : Stores fits k b) (h : b.Sacked) (hb : Blocks b.sackList)
    (hkeep : b.KeepsPackets off len) (ho : Holds b'.data o) (hno : ¬Holds b.data o) (hnext : b'.nextRxSeq = b.nextRxSeq) :
    ∃ first rest, b'.sackList = first :: rest ∧
      ∀ o, Holds b'.data o → ¬Holds b.data o → first.1 ≤ o ∧ o < first.2 := by
  rcases ha.blocks with rfl | ⟨hlt, heq⟩
  · exact absurd ho hno
  · have hnew : b.nextRxSeq < (b.trimmed off len).headSeq := by
      by_contra hnot
      have := ha.tailSeq_le hs hlt (Nat.not_lt.mp hnot)
      obtain ⟨hhead, -⟩ := hs.trimmed_bounds hlt
      omega
    obtain ⟨first, rest, hpush, hle, -, -, -⟩ := ha.push hs h hb hkeep hlt hnew heq
    refine ⟨first, rest, hpush, fun o ho hno => ?_⟩
    have hin : (b.trimmed off len).headSeq ≤ o ∧ o < (b.trimmed off len).tailSeq :=
      ((ha.holds_trimmed hs hlt o).mp ho).resolve_left fun ho => hno (hs.holds_of_trimmed ho)
    omega

theorem Extracted.sacked (he : Extracted fits k n b b') (hn : k + n ≤ b.nextRxSeq) (h : b.Sacked) : b'.Sacked := by
  intro e hin
  rw [he.sackList] at hin
  obtain ⟨hne, hgt, hall⟩ := h e hin
  exact ⟨hne, by rw [he.next]; exact hgt, fun o ho ho' => (he.holds o).mpr ⟨hall o ho ho', by omega⟩⟩

end Ns3Raft.Net.TcpRxBuffer
