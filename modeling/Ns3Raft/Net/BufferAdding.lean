import Ns3Raft.Net.BufferSharing

/-! # Adding bytes to a buffer

The bytes that are added are the buffer's own, in place or in a copy, and what an
iterator writes there changes no other buffer.
-/

namespace Ns3Raft.Net.Buffer

open Slices BlockPool BufferHeap

variable {env : BufferEnv} {h h' : BufferHeap} {b b' c o : Buffer} {bs : List Buffer} {d : BufferData}
  {n lo hi pos : Nat}

/-- The address of the byte at a position, as long as it is not a virtual zero. -/
def real (b : Buffer) (pos : Nat) : Nat :=
  if pos ≤ b.front then b.start + pos else b.start + pos - b.zeros

/-- Nobody else reads the bytes between the positions. -/
structure Writable (b : Buffer) (bs : List Buffer) (lo hi : Nat) : Prop where
  apart : hi ≤ b.front ∨ b.front + b.zeros ≤ lo
  le_length : hi ≤ b.length
  own : ∀ c ∈ bs, c.data = b.data → c.realEnd ≤ b.real lo ∨ b.real hi ≤ c.start

/-- The data is referred to once for every buffer that shares it. -/
theorem Sharing.shared (hs : Sharing h (b :: bs)) (hc : c ∈ bs) (heq : c.data = b.data) :
    1 < h.pool.cnt b.data := by
  have hpos : 0 < (bs.map (·.data)).count b.data := List.count_pos_iff.mpr (heq ▸ List.mem_map_of_mem hc)
  rw [hs.pool.counted, List.map_cons, List.count_cons_self]
  omega

/-- The bounds of one buffer change, and the bounds of the dirty area of its data. -/
theorem Sharing.rebound (hs : Sharing h (b :: bs)) {g : BufferData → BufferData} (hdata : b'.data = b.data)
    (hpool : h'.pool.Sound (b.data :: bs.map (·.data)))
    (hval : ∀ a, h'.pool.val? a = if a = b.data then (h.pool.val? a).map g else h.pool.val? a)
    (hd : h.pool.val? b.data = some d) (hbytes : (g d).bytes.length = d.bytes.length) (hfits : b'.Fits (g d))
    (hothers : ∀ c ∈ bs, c.data = b.data → c.Fits (g d))
    (hlast : ∀ c ∈ bs, c.data = b.data → b'.stop = (g d).dirtyEnd → c.realEnd ≤ b'.realEnd)
    (hend : ∀ c ∈ bs, c.data = b.data → c.stop = (g d).dirtyEnd →
      c.stop = d.dirtyEnd ∧ b'.realEnd ≤ b.realEnd) :
    Sharing h' (b' :: bs) := by
  have hat : h'.pool.val? b.data = some (g d) := by rw [hval, if_pos rfl, hd, Option.map_some]
  have hother : ∀ a, a ≠ b.data → h'.pool.val? a = h.pool.val? a := fun a ha => by rw [hval, if_neg ha]
  have hb : b ∈ b :: bs := List.mem_cons_self
  refine ⟨by rwa [List.map_cons, hdata], fun a e he => ?_, fun c hc e he => ?_,
    fun c hc c' hc' heq e he hstop => ?_⟩
  · by_cases ha : a = b.data
    · subst ha
      obtain rfl : g d = e := Option.some.inj (hat ▸ he)
      rw [hbytes]
      exact hs.bounded _ d hd
    · exact hs.bounded a e (hother a ha ▸ he)
  · rcases List.mem_cons.mp hc with rfl | hc
    · obtain rfl : g d = e := Option.some.inj (hat ▸ hdata ▸ he)
      exact hfits
    · by_cases ha : c.data = b.data
      · obtain rfl : g d = e := Option.some.inj (hat ▸ ha ▸ he)
        exact hothers c hc ha
      · exact hs.fits c (List.mem_cons_of_mem _ hc) e (hother _ ha ▸ he)
  · by_cases ha : c.data = b.data
    · obtain rfl : g d = e := Option.some.inj (hat ▸ ha ▸ he)
      rcases List.mem_cons.mp hc with rfl | hmem
      · rcases List.mem_cons.mp hc' with rfl | hmem'
        · exact Nat.le_refl _
        · exact hlast c' hmem' (heq.trans ha) hstop
      · obtain ⟨hold, hle⟩ := hend c hmem ha hstop
        have hdc : h.pool.val? c.data = some d := by rw [ha, hd]
        rcases List.mem_cons.mp hc' with rfl | hmem'
        · exact Nat.le_trans hle (hs.last c (List.mem_cons_of_mem _ hmem) b hb ha.symm d hdc hold)
        · exact hs.last c (List.mem_cons_of_mem _ hmem) c' (List.mem_cons_of_mem _ hmem') heq d hdc hold
    · have hcb : c ∈ bs := by
        rcases List.mem_cons.mp hc with rfl | hmem
        · exact absurd hdata ha
        · exact hmem
      have hcb' : c' ∈ bs := by
        rcases List.mem_cons.mp hc' with rfl | hmem
        · exact absurd (heq.symm.trans hdata) ha
        · exact hmem
      exact hs.last c (List.mem_cons_of_mem _ hcb) c' (List.mem_cons_of_mem _ hcb') heq e (hother _ ha ▸ he) hstop

theorem contentsOf_of_bytes {g : BufferData → BufferData}
    (hval : ∀ a, h'.pool.val? a = if a = b.data then (h.pool.val? a).map g else h.pool.val? a)
    (hbytes : ∀ d, (g d).bytes = d.bytes) : contentsOf h' c = contentsOf h c := by
  rw [contentsOf, contentsOf, hval]
  by_cases hc : c.data = b.data
  · rw [if_pos hc]
    cases h.pool.val? c.data with
    | none => rfl
    | some d => simp only [Option.map_some, contents, hbytes]
  · rw [if_neg hc]

theorem Sharing.narrow (hs : Sharing h (b :: bs)) (hn : Narrower b' b) : Sharing h (b' :: bs) := by
  obtain ⟨d, hd, hfits⟩ := hs.exists_fits List.mem_cons_self
  have hval : ∀ a, h.pool.val? a = if a = b.data then (h.pool.val? a).map id else h.pool.val? a := fun a => by simp
  have hfit : ∀ c ∈ bs, c.data = b.data → c.Fits d := fun c hc heq =>
    hs.fits c (List.mem_cons_of_mem _ hc) d (heq ▸ hd)
  refine hs.rebound (g := id) hn.data hs.pool hval hd rfl (hn.fits hfits) hfit (fun c hc heq hstop => ?_)
    fun c hc heq hstop => ⟨hstop, hn.realEnd_le⟩
  have hle := hn.stop_le
  have hdirty := hfits.le_dirtyEnd
  have hstop' : b'.stop = d.dirtyEnd := hstop
  have hsame : b'.stop = b.stop := by omega
  rw [hn.same hsame]
  exact hs.last b List.mem_cons_self c (List.mem_cons_of_mem _ hc) heq d hd (by omega)

/-! ## Copies with more room -/

/-- The bytes of `b` in a block of their own, at an offset. -/
structure Moved (h h' : BufferHeap) (b : Buffer) (bs : List Buffer) (a off n : Nat) (d d' : BufferData) : Prop where
  pool : h'.pool.Sound (a :: bs.map (·.data))
  bounded : h'.Bounded
  fresh : a ∉ bs.map (·.data)
  kept : ∀ c ∈ bs, h'.pool.val? c.data = h.pool.val? c.data
  val : h'.pool.val? a = some d'
  room : b.front + b.back + n ≤ d'.bytes.length
  inFront : slice d'.bytes off b.front = slice d.bytes b.start b.front
  inBack : slice d'.bytes (off + b.front) b.back = slice d.bytes b.zeroAreaStart b.back

theorem Sharing.moved (env : BufferEnv) (hs : Sharing h (b :: bs)) (hd : h.pool.val? b.data = some d)
    (hn : b.front + b.back + n + sizeofData ≤ 2 ^ 32) {off : Nat} (hoff : off ≤ n) :
    ∃ a h₁ bytes h₂ d', h.create env (add32 b.getInternalSize n) = some (a, h₁) ∧
      h₁.load b.data b.start b.getInternalSize = some bytes ∧ h₁.save a off bytes = some h₂ ∧
      Moved h (h₂.unref b.data) b bs a off n d d' := by
  have hfits := hs.fits b List.mem_cons_self d hd
  obtain ⟨hlength, hreal, hzas, hzae, hstop⟩ := hfits.sizes
  have hinside := hfits.inside
  have hsize : add32 b.getInternalSize n = b.front + b.back + n := by
    rw [hfits.getInternalSize_eq]
    exact add32_eq (by simp only [sizeofData] at hn; omega)
  rw [hsize, hfits.getInternalSize_eq]
  obtain ⟨a, h₁, d₁, hcreate, ha, hpool, hbounded, hval, hroom, hkept⟩ := create_spec env hs.pool hs.bounded hn
  have hrefs : ∀ c ∈ b :: bs, h₁.pool.val? c.data = h.pool.val? c.data := fun c hc =>
    hkept c.data (List.mem_map_of_mem hc)
  have hd₁ : h₁.pool.val? b.data = some d := (hrefs b List.mem_cons_self).trans hd
  let bytes := slice d.bytes b.start (b.front + b.back)
  have hlen : bytes.length = b.front + b.back := length_slice (by omega)
  have hload : h₁.load b.data b.start (b.front + b.back) = some bytes := load_eq hd₁ (by omega)
  let d' : BufferData := { d₁ with bytes := overwrite d₁.bytes off bytes }
  have hin : off + bytes.length ≤ d₁.bytes.length := by omega
  obtain ⟨h₂, hsave, hpool₂, hvals⟩ := save_spec hval hin
  have hval₂ : h₂.pool.val? a = some d' := by rw [hvals, if_pos rfl, hval, Option.map_some]
  have hsame₂ : ∀ c, c ≠ a → h₂.pool.val? c = h₁.pool.val? c := fun c hc => by rw [hvals, if_neg hc]
  have hperm : (a :: (b :: bs).map (·.data)).Perm (b.data :: a :: bs.map (·.data)) := List.Perm.swap _ _ _
  obtain ⟨hpool₃, hkept₃, horigin⟩ := unref_spec _ ((hpool₂ _ hpool).perm hperm)
  have hnew : ∀ c ∈ b :: bs, c.data ≠ a := fun c hc heq => ha (heq ▸ List.mem_map_of_mem hc)
  have hlen' : d'.bytes.length = d₁.bytes.length := length_overwrite hin
  refine ⟨a, h₁, bytes, h₂, d', hcreate, hload, hsave, hpool₃, fun c e he => ?_, fun hmem => ?_,
    fun c hc => ?_, ?_, by omega, ?_, ?_⟩
  · have he₂ := horigin c e he
    by_cases hc : c = a
    · subst hc
      obtain rfl : d' = e := Option.some.inj (hval₂ ▸ he₂)
      rw [hlen']
      exact hbounded c d₁ hval
    · exact hbounded c e (hsame₂ c hc ▸ he₂)
  · exact ha (List.mem_cons_of_mem _ hmem)
  · rw [hkept₃ _ (List.mem_cons_of_mem _ (List.mem_map_of_mem hc)), hsame₂ _ (hnew c (List.mem_cons_of_mem _ hc)),
      hrefs c (List.mem_cons_of_mem _ hc)]
  · rw [hkept₃ a List.mem_cons_self, hval₂]
  · rw [slice_overwrite_part hin (Nat.le_refl _) (by omega), Nat.sub_self, slice_slice (by omega), Nat.add_zero]
  · rw [slice_overwrite_part hin (by omega) (by omega), Nat.add_sub_cancel_left, slice_slice (by omega), hzas]

/-- The block gets a dirty area, and a buffer that lies in it. -/
theorem Moved.sharing {a off s e : Nat} {d' : BufferData} (hm : Moved h h' b bs a off n d d') (hs : Sharing h (b :: bs))
    (hdata : b'.data = a) (hfits : b'.Fits { d' with dirtyStart := s, dirtyEnd := e }) :
    Sharing ((h'.setDirtyStart a s).setDirtyEnd a e) (b' :: bs) ∧
      (∀ c ∈ bs, contentsOf ((h'.setDirtyStart a s).setDirtyEnd a e) c = contentsOf h c) ∧
      contentsOf ((h'.setDirtyStart a s).setDirtyEnd a e) b' = contents d' b' := by
  let g : BufferData → BufferData := fun d => { d with dirtyStart := s }
  let g' : BufferData → BufferData := fun d => { d with dirtyEnd := e }
  have hval : ((h'.setDirtyStart a s).setDirtyEnd a e).pool.val? a =
      some { d' with dirtyStart := s, dirtyEnd := e } := by
    rw [val?_setDirtyEnd, if_pos rfl, val?_setDirtyStart, if_pos rfl, hm.val]
    rfl
  have hkept : ∀ c, c ≠ a → ((h'.setDirtyStart a s).setDirtyEnd a e).pool.val? c = h'.pool.val? c := fun c hc => by
    rw [val?_setDirtyEnd, if_neg hc, val?_setDirtyStart, if_neg hc]
  have hother : ∀ c ∈ bs, c.data ≠ a := fun c hc heq => hm.fresh (heq ▸ List.mem_map_of_mem hc)
  have hkept' : ∀ c ∈ bs, ((h'.setDirtyStart a s).setDirtyEnd a e).pool.val? c.data = h.pool.val? c.data :=
    fun c hc => (hkept _ (hother c hc)).trans (hm.kept c hc)
  have hbounded : ((h'.setDirtyStart a s).setDirtyEnd a e).Bounded := fun c v hv => by
    by_cases hc : c = a
    · subst hc
      obtain rfl := Option.some.inj (hval ▸ hv)
      exact hm.bounded c d' hm.val
    · exact hm.bounded c v (hkept c hc ▸ hv)
  have hpool : ((h'.setDirtyStart a s).setDirtyEnd a e).pool.Sound (b'.data :: bs.map (·.data)) := by
    rw [hdata]
    exact (hm.pool.update a g).update a g'
  refine ⟨hs.tail.1.cons_fresh hpool hbounded (fun c hc => ?_) (hdata ▸ hm.fresh) (hdata ▸ hval) hfits,
    fun c hc => contentsOf_congr (hkept' c hc), ?_⟩
  · rw [hkept' c hc]
    exact ((unref_spec (bs.map (·.data)) hs.pool).2.1 c.data (List.mem_map_of_mem hc)).symm
  · rw [contentsOf_eq (d := { d' with dirtyStart := s, dirtyEnd := e }) (hdata ▸ hval)]
    rfl

/-! ## In front -/

/-- Nothing wraps when `n` bytes are added in front. -/
def StartFits (h : BufferHeap) (b : Buffer) (n : Nat) : Prop :=
  RoomAtStart h b n ∨ b.length + n < 2 ^ 32 ∧ b.front + b.back + n + sizeofData ≤ 2 ^ 32

instance (h : BufferHeap) (b : Buffer) (n : Nat) : Decidable (StartFits h b n) :=
  inferInstanceAs (Decidable (_ ∨ _))

/-- New bytes in front of the old ones, which nobody else reads, and nothing else changes. -/
structure AddedAtStart (h h' : BufferHeap) (b b' : Buffer) (bs : List Buffer) (n : Nat) : Prop where
  sharing : Sharing h' (b' :: bs)
  others : ∀ c ∈ bs, contentsOf h' c = contentsOf h c
  contents : ∃ new, new.length = n ∧ contentsOf h' b' = new ++ contentsOf h b
  writable : Writable b' bs 0 n
  zeros : b'.zeros = b.zeros
  stop : b'.stop = b.stop ∨ b'.stop = b.length + n
  data : RoomAtStart h b n ∧ b'.data = b.data ∨ b'.data ∉ bs.map (·.data)

theorem Sharing.addAtStart_room (hs : Sharing h (b :: bs)) (hroom : RoomAtStart h b n) :
    AddedAtStart h (h.setDirtyStart b.data (sub32 b.start n)) b
      (Buffer.raiseMax { b with start := sub32 b.start n }) bs n := by
  obtain ⟨d, hd, hfits⟩ := hs.exists_fits List.mem_cons_self
  obtain ⟨hlength, hreal, hzas, hzae, hstop⟩ := hfits.sizes
  obtain ⟨h₁, h₂, h₃, h₄⟩ := hfits.toOrdered
  obtain ⟨hle, hclean⟩ := id hroom
  have hinside := hfits.inside
  have hstart : sub32 b.start n = b.start - n := sub32_eq hle (by omega)
  rw [hstart]
  let b' : Buffer := Buffer.raiseMax { b with start := b.start - n }
  let g : BufferData → BufferData := fun d => { d with dirtyStart := b.start - n }
  have hfits' : b'.Fits (g d) :=
    ⟨⟨by simp only [b', Buffer.raiseMax]; omega, h₂, h₃, h₄⟩, hfits.inside, Nat.le_refl _, hfits.le_dirtyEnd⟩
  have hshared : ∀ c ∈ bs, c.data = b.data → b.start ≤ c.start := fun c hc heq => by
    have hcount := hs.shared hc heq
    have hfitc := hs.fits c (List.mem_cons_of_mem _ hc) d (heq ▸ hd)
    have hdirty : h.dirtyStart b.data = d.dirtyStart := by simp [BufferHeap.dirtyStart, hd]
    rw [hdirty] at hclean
    have := hfitc.dirtyStart_le
    omega
  have hval := fun a => val?_setDirtyStart (h := h) (a := b.data) (c := a) (x := b.start - n)
  have hsharing : Sharing (h.setDirtyStart b.data (b.start - n)) (b' :: bs) := by
    refine hs.rebound (g := g) rfl (hs.pool.update b.data g) hval hd rfl hfits' (fun c hc heq => ?_)
      (fun c hc heq hstop => ?_) fun c hc heq hstop => ⟨hstop, Nat.le_refl _⟩
    · have hfitc := hs.fits c (List.mem_cons_of_mem _ hc) d (heq ▸ hd)
      have hbc := hshared c hc heq
      exact ⟨hfitc.toOrdered, hfitc.inside, by simp only [g]; omega, hfitc.le_dirtyEnd⟩
    · exact hs.last b List.mem_cons_self c (List.mem_cons_of_mem _ hc) heq d hd hstop
  have hsame := fun c : Buffer => contentsOf_of_bytes (c := c) hval fun d => rfl
  refine ⟨hsharing, fun c _ => hsame c, ⟨slice d.bytes (b.start - n) n, length_slice (by omega), ?_⟩, ?_, rfl,
    Or.inl rfl, Or.inl ⟨hroom, rfl⟩⟩
  · rw [hsame, contentsOf_eq hd, contentsOf_eq (b := b') (d := d) hd, contents, contents]
    have hfront : b'.front = n + b.front := by
      simp only [b', front, Buffer.raiseMax]
      omega
    have hback : b.start - n + n = b.start := by omega
    rw [hfront, slice_append]
    simp only [b', Buffer.raiseMax, hback, List.append_assoc]
    rfl
  · refine ⟨Or.inl ?_, ?_, fun c hc heq => Or.inr ?_⟩
    · simp only [front, Buffer.raiseMax]
      omega
    · simp only [length, Buffer.raiseMax]
      omega
    · have hbc := hshared c hc heq
      have hfront : n ≤ b'.front := by
        simp only [b', front, Buffer.raiseMax]
        omega
      rw [real, if_pos hfront]
      simp only [Buffer.raiseMax]
      omega

theorem Moved.addedAtStart {a e : Nat} {d' : BufferData} (hm : Moved h h' b bs a n n d d') (hs : Sharing h (b :: bs))
    (hd : h.pool.val? b.data = some d) (hdata : b'.data = a) (hstart : b'.start = 0) (hstop : b'.stop = e)
    (hshape : b'.Shape (n + b.front) b.zeros b.back (n + b.front)) (hlen : b.length + n < 2 ^ 32) :
    AddedAtStart h ((h'.setDirtyStart a 0).setDirtyEnd a e) b b' bs n := by
  subst hstop
  obtain ⟨hlength, -⟩ := (hs.fits b List.mem_cons_self d hd).sizes
  have hroom := hm.room
  obtain ⟨hs₁, hs₂, hs₃, hs₄⟩ := hshape
  have hfits : b'.Fits { d' with dirtyStart := 0, dirtyEnd := b'.stop } :=
    ⟨⟨by omega, by omega, by omega, by omega⟩, by simp only [realEnd, back]; omega, Nat.zero_le _, Nat.le_refl _⟩
  obtain ⟨hsharing, hothers, hcontents⟩ := hm.sharing hs hdata hfits
  have hfront : b'.front = b'.zeroAreaStart - b'.start := rfl
  have hlen' : b'.length = b'.stop - b'.start := rfl
  have hzeros : b'.zeros = b'.zeroAreaEnd - b'.zeroAreaStart := rfl
  refine ⟨hsharing, hothers, ⟨slice d'.bytes 0 n, length_slice (by omega), ?_⟩,
    ⟨Or.inl (by omega), by omega, fun c hc heq => ?_⟩, by omega, by omega, Or.inr (hdata ▸ hm.fresh)⟩
  · rw [hcontents, Shape.contents_eq ⟨hs₁, hs₂, hs₃, hs₄⟩, hstart, contentsOf_eq hd, contents, ← hm.inFront,
      ← hm.inBack, slice_append, Nat.zero_add, List.append_assoc, List.append_assoc, List.append_assoc]
  · exact absurd (hdata ▸ heq ▸ List.mem_map_of_mem hc) hm.fresh

theorem Sharing.addAtStart (env : BufferEnv) (hs : Sharing h (b :: bs)) (hfit : StartFits h b n) :
    ∃ h' b', Buffer.addAtStart env h b n = some (h', b') ∧ AddedAtStart h h' b b' bs n := by
  rw [Buffer.addAtStart]
  split
  · next hroom => exact ⟨_, _, rfl, hs.addAtStart_room hroom⟩
  · next hroom =>
      obtain ⟨hlen, hsize⟩ := hfit.resolve_left hroom
      obtain ⟨d, hd, hfits⟩ := hs.exists_fits List.mem_cons_self
      obtain ⟨hlength, hreal, hzas, hzae, hstop⟩ := hfits.sizes
      have hsmall := hfits.small
      obtain ⟨a, h₁, bytes, h₂, d', hcreate, hload, hsave, hmoved⟩ := hs.moved env hd hsize (Nat.le_refl n)
      have hdelta : ∀ x, b.start ≤ x → x ≤ b.stop → add32 x (sub32 n b.start) = x - b.start + n :=
        fun x hx hlt => by
          simp only [add32, sub32]
          omega
      have hstart : sub32 (add32 b.start (sub32 n b.start)) n = 0 := by
        rw [hdelta b.start (Nat.le_refl _) (by omega)]
        simp only [sub32]
        omega
      simp only [hcreate, hload, hsave, Option.bind_eq_bind, Option.bind_some]
      refine ⟨_, _, rfl, ?_⟩
      rw [hstart]
      refine hmoved.addedAtStart hs hd rfl rfl rfl ⟨?_, ?_, ?_, ?_⟩ hlen
      · simp only [Buffer.raiseMax]
        omega
      · simp only [Buffer.raiseMax, hdelta b.zeroAreaStart (by omega) (by omega)]
        omega
      · simp only [Buffer.raiseMax, hdelta b.zeroAreaEnd (by omega) (by omega)]
        omega
      · simp only [Buffer.raiseMax, hdelta b.stop (by omega) (Nat.le_refl _)]
        omega

/-! ## Behind -/

/-- Nothing wraps when `n` bytes are added behind. -/
def EndFits (h : BufferHeap) (b : Buffer) (n : Nat) : Prop :=
  if RoomAtEnd h b n then b.stop + n < 2 ^ 32
  else b.length + n < 2 ^ 32 ∧ b.front + b.back + n + sizeofData ≤ 2 ^ 32

instance (h : BufferHeap) (b : Buffer) (n : Nat) : Decidable (EndFits h b n) := by
  unfold EndFits
  infer_instance

/-- New bytes behind the old ones, which nobody else reads, and nothing else changes. -/
structure AddedAtEnd (h h' : BufferHeap) (b b' : Buffer) (bs : List Buffer) (n : Nat) : Prop where
  sharing : Sharing h' (b' :: bs)
  others : ∀ c ∈ bs, contentsOf h' c = contentsOf h c
  contents : ∃ new, new.length = n ∧ contentsOf h' b' = contentsOf h b ++ new
  writable : Writable b' bs b.length (b.length + n)
  zeros : b'.zeros = b.zeros
  stop : b'.stop = b.stop + n ∨ b'.stop = b.length + n
  data : RoomAtEnd h b n ∧ b'.data = b.data ∨ b'.data ∉ bs.map (·.data)

theorem Ordered.real_length (hb : b.Ordered) : b.real b.length = b.realEnd := by
  obtain ⟨hlength, hreal, hzas, hzae, hstop⟩ := hb.sizes
  rw [real]
  split
  · omega
  · omega

theorem Sharing.addAtEnd_room (hs : Sharing h (b :: bs)) (hroom : RoomAtEnd h b n) (hn : b.stop + n < 2 ^ 32) :
    AddedAtEnd h (h.setDirtyEnd b.data (add32 b.stop n)) b
      (Buffer.raiseMax { b with stop := add32 b.stop n }) bs n := by
  obtain ⟨d, hd, hfits⟩ := hs.exists_fits List.mem_cons_self
  obtain ⟨hlength, hreal, hzas, hzae, hstop⟩ := hfits.sizes
  obtain ⟨h₁, h₂, h₃, h₄⟩ := hfits.toOrdered
  have ⟨hle, hclean⟩ := hroom
  rw [hfits.getInternalEnd_eq, size_eq hd, add32_eq (by omega)] at hle
  rw [add32_eq hn]
  let b' : Buffer := Buffer.raiseMax { b with stop := b.stop + n }
  let g : BufferData → BufferData := fun d => { d with dirtyEnd := b.stop + n }
  have hback : b'.back = b.back + n := by
    simp only [b', back, Buffer.raiseMax]
    omega
  have hrealEnd : b'.realEnd = b.realEnd + n := by
    rw [realEnd, hback, realEnd, Nat.add_assoc]
    rfl
  have hstop' : b'.stop = b.stop + n := rfl
  have hordered : b'.Ordered := ⟨h₁, h₂, Nat.le_trans h₃ (Nat.le_add_right _ _), hn⟩
  have hfits' : b'.Fits (g d) := ⟨hordered, by rw [hrealEnd]; exact hle, hfits.dirtyStart_le, Nat.le_refl _⟩
  have hshared : ∀ c ∈ bs, c.data = b.data → b.stop = d.dirtyEnd := fun c hc heq => by
    have hcount := hs.shared hc heq
    have hdirty : h.dirtyEnd b.data = d.dirtyEnd := by simp [BufferHeap.dirtyEnd, hd]
    rw [hdirty] at hclean
    have := hfits.le_dirtyEnd
    omega
  have hbelow : ∀ c ∈ bs, c.data = b.data → c.realEnd ≤ b.realEnd := fun c hc heq =>
    hs.last b List.mem_cons_self c (List.mem_cons_of_mem _ hc) heq d hd (hshared c hc heq)
  have hfit : ∀ c ∈ bs, c.data = b.data → c.Fits d := fun c hc heq =>
    hs.fits c (List.mem_cons_of_mem _ hc) d (heq ▸ hd)
  have hval := fun a => val?_setDirtyEnd (h := h) (a := b.data) (c := a) (x := b.stop + n)
  have hsharing : Sharing (h.setDirtyEnd b.data (b.stop + n)) (b' :: bs) := by
    refine hs.rebound (g := g) rfl (hs.pool.update b.data g) hval hd rfl hfits' (fun c hc heq => ?_)
      (fun c hc heq _ => ?_) fun c hc heq hstop => ?_
    · have hfitc := hfit c hc heq
      have hdirty := hshared c hc heq
      have hend := hfitc.le_dirtyEnd
      exact ⟨hfitc.toOrdered, hfitc.inside, hfitc.dirtyStart_le, by simp only [g]; omega⟩
    · have := hbelow c hc heq
      omega
    · have hdirty := hshared c hc heq
      have hend := (hfit c hc heq).le_dirtyEnd
      have hstop₂ : c.stop = b.stop + n := hstop
      exact ⟨by omega, by omega⟩
  have hsame := fun c : Buffer => contentsOf_of_bytes (c := c) hval fun d => rfl
  refine ⟨hsharing, fun c _ => hsame c, ⟨slice d.bytes b.realEnd n, length_slice hle, ?_⟩, ⟨?_, ?_, ?_⟩, rfl,
    Or.inl rfl, Or.inl ⟨hroom, rfl⟩⟩
  · rw [hsame, contentsOf_eq hd, contentsOf_eq (b := b') (d := d) hd, Buffer.contents, Buffer.contents, hback,
      slice_append, ← List.append_assoc]
    rfl
  · refine Or.inr ?_
    change b.front + b.zeros ≤ b.length
    omega
  · simp only [length, Buffer.raiseMax]
    omega
  · intro c hc heq
    refine Or.inl ?_
    have hlast : b'.real b.length = b.realEnd := hfits.real_length
    rw [hlast]
    exact hbelow c hc heq

theorem Moved.addedAtEnd {a e : Nat} {d' : BufferData} (hm : Moved h h' b bs a 0 n d d') (hs : Sharing h (b :: bs))
    (hd : h.pool.val? b.data = some d) (hdata : b'.data = a) (hstart : b'.start = 0) (hstop : b'.stop = e)
    (hshape : b'.Shape b.front b.zeros (b.back + n) b.front) (hlen : b.length + n < 2 ^ 32) :
    AddedAtEnd h ((h'.setDirtyStart a 0).setDirtyEnd a e) b b' bs n := by
  subst hstop
  obtain ⟨hlength, -⟩ := (hs.fits b List.mem_cons_self d hd).sizes
  have hroom := hm.room
  obtain ⟨hs₁, hs₂, hs₃, hs₄⟩ := hshape
  have hfits : b'.Fits { d' with dirtyStart := 0, dirtyEnd := b'.stop } :=
    ⟨⟨by omega, by omega, by omega, by omega⟩, by simp only [realEnd, back]; omega, Nat.zero_le _, Nat.le_refl _⟩
  obtain ⟨hsharing, hothers, hcontents⟩ := hm.sharing hs hdata hfits
  refine ⟨hsharing, hothers, ⟨slice d'.bytes (b.front + b.back) n, length_slice hroom, ?_⟩,
    ⟨Or.inr ?_, ?_, fun c hc heq => ?_⟩, ?_, Or.inr ?_, Or.inr (hdata ▸ hm.fresh)⟩
  · have hfront := hm.inFront
    have hback := hm.inBack
    rw [Nat.zero_add] at hback
    rw [hcontents, Shape.contents_eq ⟨hs₁, hs₂, hs₃, hs₄⟩, hstart, contentsOf_eq hd, Buffer.contents, ← hfront,
      ← hback, slice_append, ← List.append_assoc]
  · have hfront : b'.front = b'.zeroAreaStart - b'.start := rfl
    have hzeros : b'.zeros = b'.zeroAreaEnd - b'.zeroAreaStart := rfl
    omega
  · have hlen' : b'.length = b'.stop - b'.start := rfl
    omega
  · exact absurd (hdata ▸ heq ▸ List.mem_map_of_mem hc) hm.fresh
  · have hzeros : b'.zeros = b'.zeroAreaEnd - b'.zeroAreaStart := rfl
    omega
  · omega

theorem Sharing.addAtEnd (env : BufferEnv) (hs : Sharing h (b :: bs)) (hfit : EndFits h b n) :
    ∃ h' b', Buffer.addAtEnd env h b n = some (h', b') ∧ AddedAtEnd h h' b b' bs n := by
  rw [EndFits] at hfit
  rw [Buffer.addAtEnd]
  split
  · next hroom =>
      rw [if_pos hroom] at hfit
      exact ⟨_, _, rfl, hs.addAtEnd_room hroom hfit⟩
  · next hroom =>
      rw [if_neg hroom] at hfit
      obtain ⟨hlen, hsize⟩ := hfit
      obtain ⟨d, hd, hfits⟩ := hs.exists_fits List.mem_cons_self
      obtain ⟨hlength, hreal, hzas, hzae, hstop⟩ := hfits.sizes
      have hsmall := hfits.small
      obtain ⟨a, h₁, bytes, h₂, d', hcreate, hload, hsave, hmoved⟩ := hs.moved env hd hsize (Nat.zero_le n)
      have hdelta : ∀ x, b.start ≤ x → x ≤ b.stop → add32 x (sub32 0 b.start) = x - b.start := fun x hx hlt => by
        simp only [add32, sub32]
        omega
      have hstart : add32 b.start (sub32 0 b.start) = 0 := by
        rw [hdelta b.start (Nat.le_refl _) (by omega), Nat.sub_self]
      have hend : add32 (add32 b.stop (sub32 0 b.start)) n = b.length + n := by
        rw [hdelta b.stop (by omega) (Nat.le_refl _)]
        exact add32_eq hlen
      simp only [hcreate, hload, hsave, Option.bind_eq_bind, Option.bind_some]
      refine ⟨_, _, rfl, ?_⟩
      rw [hstart]
      refine hmoved.addedAtEnd hs hd rfl rfl rfl ⟨?_, ?_, ?_, ?_⟩ hlen
      · simp only [Buffer.raiseMax]
        omega
      · simp only [Buffer.raiseMax, hdelta b.zeroAreaStart (by omega) (by omega)]
        omega
      · simp only [Buffer.raiseMax, hdelta b.zeroAreaEnd (by omega) (by omega)]
        omega
      · simp only [Buffer.raiseMax, hend]
        omega

end Ns3Raft.Net.Buffer
