import Ns3Raft.Net.BufferAdding

/-! # Writing through an iterator

A write to bytes that are the buffer's own changes them and nothing else. The
writes find the address behind the zero area, except for a write from another
iterator, which only finds it when there is no zero area in front.
-/

namespace Ns3Raft.Net.Buffer

open Slices BlockPool BufferHeap

variable {env : BufferEnv} {h h' : BufferHeap} {b c o : Buffer} {bs : List Buffer} {d : BufferData}
  {n lo hi pos off len : Nat} {vs : List UInt8}

theorem Writable.real_eq (hw : Writable b bs lo hi) (hlo : lo ≤ pos) (hhi : pos ≤ hi) :
    (hi ≤ b.front ∧ b.real pos = b.start + pos) ∨
      (b.front + b.zeros ≤ lo ∧ b.real pos = b.start + pos - b.zeros) := by
  rcases hw.apart with hfront | hback
  · exact Or.inl ⟨hfront, if_pos (Nat.le_trans hhi hfront)⟩
  · refine Or.inr ⟨hback, ?_⟩
    rw [real]
    split
    · omega
    · rfl

theorem real_front (h : pos ≤ b.front) : b.real pos = b.start + pos := if_pos h

theorem real_back (h : b.front + b.zeros ≤ pos) : b.real pos = b.start + (pos - b.zeros) := by
  by_cases hle : pos ≤ b.front
  · have hnone : b.zeros = 0 := by omega
    rw [real_front hle, hnone, Nat.sub_zero]
  · rw [real, if_neg hle, Nat.add_sub_assoc (Nat.le_trans (Nat.le_add_left _ _) h)]

/-- The addresses between the positions are in a row. -/
theorem Writable.real_add (hw : Writable b bs lo hi) (hlo : lo ≤ pos) (hhi : pos + n ≤ hi) :
    b.real (pos + n) = b.real pos + n := by
  rcases hw.apart with hfront | hback
  · rw [real_front (by omega), real_front (by omega), Nat.add_assoc]
  · rw [real_back (by omega), real_back (by omega), Nat.sub_add_comm (by omega), Nat.add_assoc]

theorem Writable.real_le (hw : Writable b bs lo hi) (hb : b.Ordered) (hle : lo ≤ hi) : b.real hi ≤ b.realEnd := by
  obtain ⟨hlength, hreal, -⟩ := hb.sizes
  have hhi := hw.le_length
  rw [hreal]
  rcases hw.apart with hfront | hback
  · rw [real_front hfront]
    omega
  · rw [real_back (by omega)]
    omega

/-- What a write does to the buffers. -/
structure Written (h h' : BufferHeap) (b : Buffer) (bs : List Buffer) (pos : Nat) (vs : List UInt8) : Prop where
  sharing : Sharing h' (b :: bs)
  others : ∀ c ∈ bs, contentsOf h' c = contentsOf h c
  contents : contentsOf h' b = overwrite (contentsOf h b) pos vs

theorem Sharing.length_contentsOf (hs : Sharing h bs) (hb : b ∈ bs) : (contentsOf h b).length = b.length := by
  obtain ⟨d, hd, hfits⟩ := hs.exists_fits hb
  rw [contentsOf_eq hd, hfits.length_contents]

/-- The contents after a write to the bytes of the data. -/
theorem Fits.contents_overwrite (hfits : b.Fits d) (hw : Writable b bs lo hi) (hlo : lo ≤ pos)
    (hhi : pos + vs.length ≤ hi) :
    Buffer.contents { d with bytes := overwrite d.bytes (b.real pos) vs } b =
      overwrite (Buffer.contents d b) pos vs := by
  obtain ⟨hlength, hreal, hzas, hzae, hstop⟩ := hfits.sizes
  have hinside := hfits.inside
  have hle := hw.le_length
  have hfront : (slice d.bytes b.start b.front).length = b.front := length_slice (by omega)
  have hback : (slice d.bytes b.zeroAreaStart b.back).length = b.back := length_slice (by omega)
  have hleft : (slice d.bytes b.start b.front ++ List.replicate b.zeros (0 : UInt8)).length =
      b.front + b.zeros := by
    rw [List.length_append, hfront, List.length_replicate]
  rcases hw.real_eq hlo (show pos ≤ hi by omega) with ⟨hat, hpos⟩ | ⟨hat, hpos⟩
  · rw [hpos, Buffer.contents, Buffer.contents, List.append_assoc, List.append_assoc,
      overwrite_append_left (by omega)]
    congr 1
    · rw [slice_overwrite_inside (by omega) (by omega) (by omega), Nat.add_sub_cancel_left]
    · rw [slice_overwrite_of_disjoint (by omega) (Or.inr (by omega))]
  · rw [hpos, Buffer.contents, Buffer.contents, overwrite_append_right (by omega), hleft]
    congr 1
    · rw [slice_overwrite_of_disjoint (by omega) (Or.inl (by omega))]
    · rw [slice_overwrite_inside (by omega) (by omega) (by omega)]
      congr 1
      omega

/-- A buffer beside the written bytes reads what it read. -/
theorem Fits.contents_beside (hfits : c.Fits d) (hin : off + vs.length ≤ d.bytes.length)
    (hbeside : c.realEnd ≤ off ∨ off + vs.length ≤ c.start) :
    Buffer.contents { d with bytes := overwrite d.bytes off vs } c = Buffer.contents d c := by
  obtain ⟨hlength, hreal, hzas, hzae, hstop⟩ := hfits.sizes
  rw [Buffer.contents, Buffer.contents, slice_overwrite_of_disjoint hin (by omega),
    slice_overwrite_of_disjoint hin (by omega)]

theorem Sharing.save (hs : Sharing h (b :: bs)) (hw : Writable b bs lo hi) (hlo : lo ≤ pos)
    (hhi : pos + vs.length ≤ hi) (hoff : vs = [] ∨ off = b.real pos) :
    ∃ h', h.save b.data off vs = some h' ∧ Written h h' b bs pos vs := by
  by_cases hnil : vs = []
  · subst hnil
    exact ⟨h, if_pos rfl, hs, fun c _ => rfl, overwrite_nil.symm⟩
  · obtain rfl := hoff.resolve_left hnil
    obtain ⟨d, hd, hfits⟩ := hs.exists_fits List.mem_cons_self
    obtain ⟨before, rfl⟩ := Nat.exists_eq_add_of_le hlo
    obtain ⟨behind, rfl⟩ := Nat.exists_eq_add_of_le hhi
    have hend := hw.real_le hfits.toOrdered (by omega)
    have hfirst := hw.real_add (Nat.le_refl lo) (show lo + before ≤ _ by omega)
    rw [hw.real_add (by omega) (Nat.le_refl _), hw.real_add hlo (Nat.le_add_right _ _)] at hend
    have hin : b.real (lo + before) + vs.length ≤ d.bytes.length :=
      Nat.le_trans (Nat.le_trans (Nat.le_add_right _ _) hend) hfits.inside
    obtain ⟨h', hsave, hpool, hval⟩ := save_spec hd hin
    let g : BufferData → BufferData := fun d => { d with bytes := overwrite d.bytes (b.real (lo + before)) vs }
    have hbytes : (g d).bytes.length = d.bytes.length := length_overwrite hin
    have hfit : ∀ c : Buffer, c.Fits d → c.Fits (g d) := fun c hc =>
      ⟨hc.toOrdered, hbytes ▸ hc.inside, hc.dirtyStart_le, hc.le_dirtyEnd⟩
    have hfitc : ∀ c ∈ bs, c.data = b.data → c.Fits d := fun c hc heq =>
      hs.fits c (List.mem_cons_of_mem _ hc) d (heq ▸ hd)
    have hsharing : Sharing h' (b :: bs) := by
      refine hs.rebound (g := g) rfl (hpool _ hs.pool) hval hd hbytes (hfit b hfits)
        (fun c hc heq => hfit c (hfitc c hc heq)) (fun c hc heq hstop => ?_)
        fun c hc heq hstop => ⟨hstop, Nat.le_refl _⟩
      exact hs.last b List.mem_cons_self c (List.mem_cons_of_mem _ hc) heq d hd hstop
    have hat : h'.pool.val? b.data = some (g d) := by rw [hval, if_pos rfl, hd, Option.map_some]
    refine ⟨h', hsave, hsharing, fun c hc => ?_, ?_⟩
    · by_cases heq : c.data = b.data
      · rw [contentsOf_eq (heq ▸ hat), contentsOf_eq (heq ▸ hd)]
        refine (hfitc c hc heq).contents_beside hin ?_
        rcases hw.own c hc heq with hleft | hright
        · exact Or.inl (Nat.le_trans hleft (hfirst ▸ Nat.le_add_right _ _))
        · rw [hw.real_add (by omega) (Nat.le_refl _), hw.real_add hlo (Nat.le_add_right _ _)] at hright
          exact Or.inr (Nat.le_trans (Nat.le_add_right _ _) hright)
      · exact contentsOf_congr (by rw [hval, if_neg heq])
    · rw [contentsOf_eq hat, contentsOf_eq hd]
      exact hfits.contents_overwrite hw hlo hhi

/-! ## Iterators -/

/-- The iterator at a position of the buffer. -/
def iteratorAt (b : Buffer) (pos : Nat) : Iterator := { b.first with current := b.start + pos }

theorem first_eq : b.first = b.iteratorAt 0 := rfl

theorem Ordered.last_eq (hb : b.Ordered) : b.last = b.iteratorAt b.length := by
  obtain ⟨hlength, hreal, hzas, hzae, hstop⟩ := hb.sizes
  simp only [iteratorAt, ← hstop]
  rfl

theorem Ordered.next_eq (hb : b.Ordered) (hle : pos + n ≤ b.length) :
    (b.iteratorAt pos).next n = b.iteratorAt (pos + n) := by
  obtain ⟨hlength, hreal, hzas, hzae, hstop⟩ := hb.sizes
  have hsmall := hb.small
  simp only [iteratorAt, Iterator.next]
  rw [add32_eq (by omega), Nat.add_assoc]

theorem Ordered.prev_eq (hb : b.Ordered) (hle : n ≤ pos) (hpos : pos ≤ b.length) :
    (b.iteratorAt pos).prev n = b.iteratorAt (pos - n) := by
  obtain ⟨hlength, hreal, hzas, hzae, hstop⟩ := hb.sizes
  have hsmall := hb.small
  simp only [iteratorAt, Iterator.prev]
  rw [sub32_eq (by omega) (by omega), Nat.add_sub_assoc hle]

theorem Ordered.behind_eq (hb : b.Ordered) (hpos : pos ≤ b.length) (hle : b.zeros ≤ b.start + pos) :
    (b.iteratorAt pos).behind = b.start + pos - b.zeros := by
  obtain ⟨hlength, hreal, hzas, hzae, hstop⟩ := hb.sizes
  have hsmall := hb.small
  simp only [iteratorAt, Iterator.behind, first]
  rw [hb.zeros_eq, sub32_eq hle (by omega)]

/-- The writes of bytes tell the two sides of the zero area apart. -/
theorem Writable.address (hw : Writable b bs lo hi) (hb : b.Ordered) (hlo : lo ≤ pos) (hhi : pos + len ≤ hi)
    {front : Prop} [Decidable front] (hin : b.start + pos + len ≤ b.zeroAreaStart → front)
    (hout : b.zeroAreaEnd ≤ b.start + pos → front → b.zeros = 0) :
    (if front then (b.iteratorAt pos).current else (b.iteratorAt pos).behind) = b.real pos := by
  obtain ⟨hlength, hreal, hzas, hzae, hstop⟩ := hb.sizes
  have hle := hw.le_length
  have hcurrent : (b.iteratorAt pos).current = b.start + pos := rfl
  rcases hw.real_eq hlo (show pos ≤ hi by omega) with ⟨hat, hpos⟩ | ⟨hat, hpos⟩
  · rw [if_pos (hin (by omega)), hcurrent, hpos]
  · split
    · next hfront =>
        have hzero := hout (by omega) hfront
        rw [hcurrent, hpos, hzero, Nat.sub_zero]
    · rw [hb.behind_eq (by omega) (by omega), hpos]

/-- What all writes of bytes do. -/
theorem Sharing.write_from (hs : Sharing h (b :: bs)) (hw : Writable b bs lo hi) (hlo : lo ≤ pos)
    (hhi : pos + vs.length ≤ hi) (front : Prop) [Decidable front]
    (hin : b.start + pos + vs.length ≤ b.zeroAreaStart → front)
    (hout : b.zeroAreaEnd ≤ b.start + pos → front → b.zeros = 0) :
    ∃ h', h.save b.data (if front then (b.iteratorAt pos).current else (b.iteratorAt pos).behind) vs = some h' ∧
      (b.iteratorAt pos).next vs.length = b.iteratorAt (pos + vs.length) ∧ Written h h' b bs pos vs := by
  obtain ⟨d, hd, hfits⟩ := hs.exists_fits List.mem_cons_self
  have hle := hw.le_length
  have haddress := hw.address hfits.toOrdered hlo hhi hin hout
  obtain ⟨h', hsave, hwritten⟩ := hs.save hw hlo hhi (Or.inr haddress)
  exact ⟨h', hsave, hfits.next_eq (by omega), hwritten⟩

theorem Sharing.writeU8 (hs : Sharing h (b :: bs)) (hw : Writable b bs lo hi) (hlo : lo ≤ pos) (hhi : pos + 1 ≤ hi)
    (x : UInt8) : ∃ h', (b.iteratorAt pos).writeU8 h x = some (h', b.iteratorAt (pos + 1)) ∧
      Written h h' b bs pos [x] := by
  obtain ⟨d, hd, hfits⟩ := hs.exists_fits List.mem_cons_self
  have h₂ := hfits.zero_le
  obtain ⟨h', hsave, hnext, hwritten⟩ := hs.write_from hw hlo (show pos + [x].length ≤ hi from hhi)
    ((b.iteratorAt pos).current < (b.iteratorAt pos).zeroStart)
    (fun hin => hin) fun hout hlt => by
      change b.start + pos < b.zeroAreaStart at hlt
      omega
  refine ⟨h', ?_, hwritten⟩
  rw [Iterator.writeU8]
  exact (congrArg (Option.bind · _) hsave).trans (congrArg some (Prod.ext rfl hnext))

theorem Sharing.write (hs : Sharing h (b :: bs)) (hw : Writable b bs lo hi) (hlo : lo ≤ pos)
    (hhi : pos + vs.length ≤ hi) : ∃ h', (b.iteratorAt pos).write h vs = some (h', b.iteratorAt (pos + vs.length)) ∧
      Written h h' b bs pos vs := by
  obtain ⟨d, hd, hfits⟩ := hs.exists_fits List.mem_cons_self
  have h₂ := hfits.zero_le
  obtain ⟨h', hsave, hnext, hwritten⟩ := hs.write_from hw hlo hhi
    ((b.iteratorAt pos).current ≤ (b.iteratorAt pos).zeroStart)
    (fun hin => by
      change b.start + pos ≤ b.zeroAreaStart
      omega)
    fun hout hle => by
      change b.start + pos ≤ b.zeroAreaStart at hle
      rw [zeros]
      omega
  refine ⟨h', ?_, hwritten⟩
  rw [Iterator.write]
  exact (congrArg (Option.bind · _) hsave).trans (congrArg some (Prod.ext rfl hnext))

theorem Sharing.writeU8s (hs : Sharing h (b :: bs)) (hw : Writable b bs lo hi) (hlo : lo ≤ pos)
    (hhi : pos + len ≤ hi) (x : UInt8) :
    ∃ h', (b.iteratorAt pos).writeU8s h x len = some (h', b.iteratorAt (pos + len)) ∧
      Written h h' b bs pos (List.replicate len x) := by
  have hlen : (List.replicate len x).length = len := List.length_replicate
  have hwrite := hs.write hw hlo (show pos + (List.replicate len x).length ≤ hi by rwa [hlen])
  simp only [Iterator.write, hlen] at hwrite
  exact hwrite

theorem Sharing.writeHton (hs : Sharing h (b :: bs)) (hw : Writable b bs lo hi) (hlo : lo ≤ pos)
    (hhi : pos + vs.length ≤ hi) (hne : vs ≠ []) :
    ∃ h', (b.iteratorAt pos).writeHton h vs = some (h', b.iteratorAt (pos + vs.length)) ∧
      Written h h' b bs pos vs := by
  obtain ⟨d, hd, hfits⟩ := hs.exists_fits List.mem_cons_self
  obtain ⟨hlength, hreal, hzas, hzae, hstop⟩ := hfits.sizes
  have hsmall := hfits.small
  have hle := hw.le_length
  have hpos := List.length_pos_iff.mpr hne
  have hsum : add32 (b.iteratorAt pos).current vs.length = b.start + pos + vs.length := add32_eq (by
    change b.start + pos + vs.length < 2 ^ 32
    omega)
  obtain ⟨h', hsave, hnext, hwritten⟩ := hs.write_from hw hlo hhi
    (add32 (b.iteratorAt pos).current vs.length ≤ (b.iteratorAt pos).zeroStart)
    (fun hin => by
      rw [hsum]
      exact hin)
    fun hout hle => by
      rw [hsum] at hle
      change b.start + pos + vs.length ≤ b.zeroAreaStart at hle
      omega
  refine ⟨h', ?_, hwritten⟩
  rw [Iterator.writeHton]
  exact (congrArg (Option.bind · _) hsave).trans (congrArg some (Prod.ext rfl hnext))

/-! ## From another buffer -/

theorem Sharing.load_front (hs : Sharing h bs) (ho : o ∈ bs) (pos len : Nat) (hle : len = 0 ∨ pos + len ≤ o.front) :
    h.load o.data (o.start + pos) len = some (slice (contentsOf h o) pos len) := by
  by_cases hzero : len = 0
  · rw [load, if_pos hzero, hzero, slice_zero]
  · obtain ⟨d, hd, hfits⟩ := hs.exists_fits ho
    obtain ⟨hlength, hreal, hzas, hzae, hstop⟩ := hfits.sizes
    have hinside := hfits.inside
    have hle := hle.resolve_left hzero
    rw [load_eq hd (by omega), contentsOf_eq hd]
    congr 1
    apply List.ext_getElem?
    intro k
    rw [getElem?_slice, getElem?_slice, hfits.getElem?_contents]
    by_cases hk : k < len
    · rw [if_pos hk, if_pos hk, if_pos (by omega), Nat.add_assoc]
    · rw [if_neg hk, if_neg hk]

theorem Sharing.load_back (hs : Sharing h bs) (ho : o ∈ bs) (pos len : Nat) (hle : o.front + o.zeros ≤ pos)
    (hend : pos + len ≤ o.length) :
    h.load o.data (o.start + pos - o.zeros) len = some (slice (contentsOf h o) pos len) := by
  obtain ⟨d, hd, hfits⟩ := hs.exists_fits ho
  obtain ⟨hlength, hreal, hzas, hzae, hstop⟩ := hfits.sizes
  have hinside := hfits.inside
  rw [load_eq hd (by omega), contentsOf_eq hd]
  congr 1
  apply List.ext_getElem?
  intro k
  rw [getElem?_slice, getElem?_slice, hfits.getElem?_contents]
  by_cases hk : k < len
  · rw [if_pos hk, if_pos hk, if_neg (by omega), if_neg (by omega), if_pos (by omega)]
    congr 1
    omega
  · rw [if_neg hk, if_neg hk]

theorem Sharing.zeros_eq (hs : Sharing h bs) (ho : o ∈ bs) (pos len : Nat)
    (hle : len = 0 ∨ o.front ≤ pos ∧ pos + len ≤ o.front + o.zeros) :
    List.replicate len 0 = slice (contentsOf h o) pos len := by
  obtain ⟨d, hd, hfits⟩ := hs.exists_fits ho
  rw [contentsOf_eq hd]
  apply List.ext_getElem?
  intro k
  rw [getElem?_slice, hfits.getElem?_contents, List.getElem?_replicate]
  by_cases hk : k < len
  · rw [if_pos hk, if_pos hk, if_neg (by omega), if_pos (by omega)]
  · rw [if_neg hk, if_neg hk]

theorem Written.trans {h'' : BufferHeap} (us vs : List UInt8) (hus : Written h h' b bs pos us)
    (hvs : Written h' h'' b bs (pos + us.length) vs) (hs : Sharing h (b :: bs))
    (hle : pos + us.length + vs.length ≤ b.length) : Written h h'' b bs pos (us ++ vs) where
  sharing := hvs.sharing
  others c hc := (hvs.others c hc).trans (hus.others c hc)
  contents := by
    rw [hvs.contents, hus.contents]
    exact overwrite_overwrite (by rwa [hs.length_contentsOf List.mem_cons_self])

/-! ## Ranges of another buffer -/

/-- The bytes of a range that lie in front of the zero area, in it and behind it. -/
structure RangeParts (o : Buffer) (start inFront inZero rest : Nat) : Prop where
  inFront_or : inFront = 0 ∨ start + inFront ≤ o.front
  inZero_or : inZero = 0 ∨ o.front ≤ start + inFront ∧ start + inFront + inZero ≤ o.front + o.zeros
  rest_or : rest = 0 ∨ o.front + o.zeros ≤ start + inFront + inZero
  le_length : start + inFront + inZero + rest ≤ o.length

/-- What is taken up to a bound, and what is left. -/
theorem exists_taken (base s len bound : Nat) (hsmall : base + bound < 2 ^ 32) : ∃ taken left, len = taken + left ∧
    (if base + s ≤ base + bound then min len (sub32 (base + bound) (base + s)) else 0) = taken ∧
    (taken = 0 ∨ s + taken ≤ bound) ∧ (left = 0 ∨ bound ≤ s + taken) := by
  by_cases hle : s ≤ bound
  · obtain ⟨room, rfl⟩ := Nat.exists_eq_add_of_le hle
    rw [if_pos (by omega), sub32_of_add (Nat.add_assoc base s room).symm hsmall]
    by_cases hroom : len ≤ room
    · exact ⟨len, 0, rfl, Nat.min_eq_left hroom, Or.inr (Nat.add_le_add_left hroom s), Or.inl rfl⟩
    · have hlt := Nat.le_of_not_le hroom
      obtain ⟨left, hleft⟩ := Nat.exists_eq_add_of_le hlt
      exact ⟨room, left, hleft, Nat.min_eq_right hlt, Or.inr (Nat.le_refl _), Or.inr (Nat.le_refl _)⟩
  · rw [if_neg (by omega)]
    exact ⟨0, len, (Nat.zero_add len).symm, rfl, Or.inl rfl, Or.inr (by omega)⟩

theorem Ordered.exists_rangeParts {start : Nat} (h : o.Ordered) (hend : start + len ≤ o.length) :
    ∃ inFront inZero rest, len = inFront + inZero + rest ∧ RangeParts o start inFront inZero rest ∧
      (if o.start + start ≤ o.zeroAreaStart then min len (sub32 o.zeroAreaStart (o.start + start)) else 0) = inFront ∧
      (if o.start + (start + inFront) ≤ o.zeroAreaEnd then
        min (len - inFront) (sub32 o.zeroAreaEnd (o.start + (start + inFront))) else 0) = inZero ∧
      min (len - inFront - inZero) (sub32 o.stop (o.start + (start + inFront + inZero))) = rest := by
  have hsmall := h.small
  obtain ⟨hlength, -, hzas, hzae, hstop⟩ := h.sizes
  rw [Nat.add_assoc] at hzae
  rw [hzas, hzae, hstop]
  obtain ⟨inFront, left, rfl, hfront, hfits, hleft⟩ := exists_taken o.start start len o.front (by omega)
  obtain ⟨inZero, rest, rfl, hzero, hfits', hrest⟩ :=
    exists_taken o.start (start + inFront) left (o.front + o.zeros) (by omega)
  refine ⟨inFront, inZero, rest, (Nat.add_assoc ..).symm, ⟨hfits, ?_, hrest, by omega⟩, hfront, ?_, ?_⟩
  · rcases hfits' with hnone | hle
    · exact Or.inl hnone
    · rcases hleft with hnone | hge
      · exact Or.inl (Nat.eq_zero_of_add_eq_zero_right hnone)
      · exact Or.inr ⟨hge, hle⟩
  · rw [Nat.add_sub_cancel_left, hzero]
  · obtain ⟨more, hmore⟩ := Nat.exists_eq_add_of_le hend
    have hsub : sub32 (o.start + o.length) (o.start + (start + inFront + inZero)) = rest + more :=
      sub32_of_add (by omega) (by omega)
    rw [Nat.add_sub_cancel_left, Nat.add_sub_cancel_left, hsub, Nat.min_eq_left (Nat.le_add_right ..)]

/-- Where no zeros are in front of it, the iterator points at the address of its position. -/
theorem Sharing.save_current (hs : Sharing h (b :: bs)) (hw : Writable b bs lo hi) (hlo : lo ≤ pos) (vs : List UInt8)
    (hhi : pos + vs.length ≤ hi) (hzeros : hi ≤ b.front ∨ b.zeros = 0 ∨ vs = []) :
    ∃ h', h.save b.data (b.iteratorAt pos).current vs = some h' ∧ Written h h' b bs pos vs := by
  refine hs.save hw hlo hhi ?_
  by_cases hnil : vs = []
  · exact Or.inl hnil
  · refine Or.inr ?_
    change b.start + pos = b.real pos
    rcases hw.real_eq hlo (show pos ≤ hi by omega) with ⟨-, hat⟩ | ⟨hback, hat⟩
    · exact hat.symm
    · have hpos := List.length_pos_iff.mpr hnil
      have hnone : b.zeros = 0 := by
        rcases hzeros with hfront | hnone | hempty
        · omega
        · exact hnone
        · exact absurd hempty hnil
      rw [hat, hnone, Nat.sub_zero]

theorem Sharing.length_slice_contentsOf (hs : Sharing h (b :: bs)) (ho : o ∈ bs) {s : Nat} (hle : s + len ≤ o.length) :
    (slice (contentsOf h o) s len).length = len :=
  length_slice (by rwa [hs.length_contentsOf (List.mem_cons_of_mem _ ho)])

/-- An iterator writes where the other one points, and finds its address when no zeros are in front. -/
theorem Sharing.writeRange (env : BufferEnv) (hs : Sharing h (b :: bs)) (hw : Writable b bs lo hi) (hlo : lo ≤ pos)
    (ho : o ∈ bs) (start stop : Nat) (hle : start ≤ stop) (hend : stop ≤ o.length) (hhi : pos + (stop - start) ≤ hi)
    (hzeros : hi ≤ b.front ∨ b.zeros = 0 ∨ start = stop) (hasserts : env.asserts → b.data ≠ o.data) :
    ∃ h', (b.iteratorAt pos).writeRange env h (o.iteratorAt start) (o.iteratorAt stop) =
        some (h', b.iteratorAt (pos + (stop - start))) ∧
      Written h h' b bs pos (slice (contentsOf h o) start (stop - start)) := by
  obtain ⟨d, -, hfits⟩ := hs.exists_fits List.mem_cons_self
  have ho' : o ∈ b :: bs := List.mem_cons_of_mem _ ho
  obtain ⟨e, -, hfito⟩ := hs.exists_fits ho'
  have hwle := hw.le_length
  obtain ⟨len, rfl⟩ := Nat.exists_eq_add_of_le hle
  rw [Nat.add_sub_cancel_left] at hhi ⊢
  obtain ⟨inFront, inZero, rest, hlen, hparts, hfront, hzero, hrest⟩ := hfito.toOrdered.exists_rangeParts hend
  have hpartsLe := hparts.le_length
  have hsome : ∀ vs : List UInt8, vs.length ≤ len → hi ≤ b.front ∨ b.zeros = 0 ∨ vs = [] := fun vs hvs => by
    rcases hzeros with hle | hnone | hempty
    · exact Or.inl hle
    · exact Or.inr (Or.inl hnone)
    · exact Or.inr (Or.inr (List.eq_nil_of_length_eq_zero (by omega)))
  -- the bytes in front of the zero area of the source
  have hload₁ := hs.load_front ho' start inFront hparts.inFront_or
  have hlen₁ := hs.length_slice_contentsOf ho (show start + inFront ≤ o.length by omega)
  obtain ⟨h₁, hsave₁, hw₁⟩ := hs.save_current hw hlo (slice (contentsOf h o) start inFront) (by omega)
    (hsome _ (by omega))
  -- the zeros
  have hlen₂ : (List.replicate inZero (0 : UInt8)).length = inZero := List.length_replicate
  obtain ⟨h₂, hsave₂, hw₂⟩ := hw₁.sharing.save_current hw (show lo ≤ pos + inFront by omega)
    (List.replicate inZero 0) (by omega) (hsome _ (by omega))
  have hzeros₂ := hs.zeros_eq ho' (start + inFront) inZero hparts.inZero_or
  -- the bytes behind it
  have hload₃ : h₂.load o.data (o.iteratorAt (start + inFront + inZero)).behind rest =
      some (slice (contentsOf h o) (start + inFront + inZero) rest) := by
    rcases hparts.rest_or with hnil | hbehind
    · rw [load, if_pos hnil, hnil, slice_zero]
    · rw [hfito.behind_eq (by omega) (by omega), hw₂.sharing.load_back ho' _ _ hbehind hpartsLe, hw₂.others o ho,
        hw₁.others o ho]
  have hlen₃ := hs.length_slice_contentsOf ho hpartsLe
  obtain ⟨h₃, hsave₃, hw₃⟩ := hw₂.sharing.save_current hw (show lo ≤ pos + inFront + inZero by omega)
    (slice (contentsOf h o) (start + inFront + inZero) rest) (by omega) (hsome _ (by omega))
  have hsize : sub32 (o.iteratorAt (start + len)).current (o.iteratorAt start).current = len := by
    have hsmall := hfito.small
    obtain ⟨-, -, -, -, hstop⟩ := hfito.sizes
    exact sub32_of_add (Nat.add_assoc o.start start len).symm (by
      change o.start + (start + len) < 2 ^ 32
      omega)
  have hfront' : (if (o.iteratorAt start).current ≤ (o.iteratorAt start).zeroStart then
      min len (sub32 (o.iteratorAt start).zeroStart (o.iteratorAt start).current) else 0) = inFront := hfront
  have hzero' : (if (o.iteratorAt (start + inFront)).current ≤ (o.iteratorAt (start + inFront)).zeroEnd then
      min (len - inFront) (sub32 (o.iteratorAt (start + inFront)).zeroEnd
        (o.iteratorAt (start + inFront)).current) else 0) = inZero := hzero
  have hrest' : min (len - inFront - inZero) (sub32 (o.iteratorAt (start + inFront + inZero)).dataEnd
      (o.iteratorAt (start + inFront + inZero)).current) = rest := hrest
  refine ⟨h₃, ?_, ?_⟩
  · rw [Iterator.writeRange, if_neg fun hboth => hasserts hboth.1 hboth.2]
    simp only [hsize, hfront', hfits.next_eq (show pos + inFront ≤ b.length by omega),
      hfito.next_eq (show start + inFront ≤ o.length by omega), hzero',
      hfits.next_eq (show pos + inFront + inZero ≤ b.length by omega),
      hfito.next_eq (show start + inFront + inZero ≤ o.length by omega), hrest']
    change (h.load o.data (o.start + start) inFront).bind _ = _
    rw [hload₁, Option.bind_some]
    change (h.save b.data _ _).bind _ = _
    rw [hsave₁, Option.bind_some]
    change (h₁.save b.data _ _).bind _ = _
    rw [hsave₂, Option.bind_some]
    change (h₂.load o.data _ _).bind _ = _
    rw [hload₃, Option.bind_some]
    change (h₂.save b.data _ _).bind _ = _
    rw [hsave₃, Option.bind_some, hfits.next_eq (by omega), Nat.add_assoc, Nat.add_assoc, ← Nat.add_assoc inFront, ← hlen]
  · have hw₁₂ := hw₁.trans (slice (contentsOf h o) start inFront) (List.replicate inZero 0)
      (by rw [hlen₁]; exact hw₂) hs (by omega)
    have hlen₁₂ : (slice (contentsOf h o) start inFront ++ List.replicate inZero (0 : UInt8)).length =
        inFront + inZero := by rw [List.length_append, hlen₁, hlen₂]
    have hall := hw₁₂.trans _ (slice (contentsOf h o) (start + inFront + inZero) rest)
      (by rw [hlen₁₂, ← Nat.add_assoc]; exact hw₃) hs (by omega)
    rw [hzeros₂, ← slice_append, Nat.add_assoc, ← slice_append, ← hlen] at hall
    exact hall

end Ns3Raft.Net.Buffer
