import Ns3Raft.Net.BufferWriting

/-! # A buffer behind a buffer

`AddAtEnd` of a buffer copies its bytes behind a full copy, or merges two zero
areas that meet. The two ways give the same bytes as long as nothing follows the
zero area of the buffer that is added.
-/

namespace Ns3Raft.Net.Buffer

open Slices BlockPool BufferHeap

variable {env : BufferEnv} {h h' : BufferHeap} {b b' c o : Buffer} {bs : List Buffer} {d : BufferData}
  {n : Nat}

/-! ## Construction and copies -/

/-- Where a new buffer starts. -/
def firstStart (env : BufferEnv) (h : BufferHeap) : Nat :=
  match h.create env 0 with
  | some (a, h') => min (h'.size a) h'.recommendedStart
  | none => 0

/-- A buffer joins, and nothing else changes. -/
structure Joined (h h' : BufferHeap) (b : Buffer) (bs : List Buffer) : Prop where
  sharing : Sharing h' (b :: bs)
  others : ∀ c ∈ bs, contentsOf h' c = contentsOf h c

theorem Sharing.construct (env : BufferEnv) (hs : Sharing h bs) (hn : firstStart env h + n < 2 ^ 32) :
    ∃ h' b, Buffer.construct env h n = some (h', b) ∧ Joined h h' b bs ∧
      contentsOf h' b = List.replicate n 0 ∧ b.data ∉ bs.map (·.data) ∧
      b.Shape 0 n 0 (firstStart env h) := by
  obtain ⟨a, h₁, d, hcreate, ha, hpool, hbounded, hd, -, hkept⟩ :=
    create_spec env hs.pool hs.bounded (n := 0) (by decide)
  have hsize := size_eq hd
  have hfirst : firstStart env h = min (h₁.size a) h₁.recommendedStart := by rw [firstStart, hcreate]
  let s := min (h₁.size a) h₁.recommendedStart
  have hstop : add32 s n = s + n := add32_eq (by rwa [hfirst] at hn)
  let b : Buffer := ⟨a, s, s, s + n, s, s + n⟩
  let e : BufferData := { d with dirtyStart := s, dirtyEnd := s + n }
  have hval : ((h₁.setDirtyStart a s).setDirtyEnd a (s + n)).pool.val? a = some e := by
    rw [val?_setDirtyEnd, if_pos rfl, val?_setDirtyStart, if_pos rfl, hd]
    rfl
  have hsame : ∀ c, c ≠ a → ((h₁.setDirtyStart a s).setDirtyEnd a (s + n)).pool.val? c = h₁.pool.val? c :=
    fun c hc => by rw [val?_setDirtyEnd, if_neg hc, val?_setDirtyStart, if_neg hc]
  have hkept' : ∀ c ∈ bs, ((h₁.setDirtyStart a s).setDirtyEnd a (s + n)).pool.val? c.data = h.pool.val? c.data :=
    fun c hc => by
      have hmem : c.data ∈ bs.map (·.data) := List.mem_map_of_mem hc
      rw [hsame _ fun heq => ha (heq ▸ hmem), hkept _ hmem]
  have hlt : s + n < 2 ^ 32 := by rwa [hfirst] at hn
  have hfits : b.Fits e := by
    refine ⟨⟨Nat.le_refl _, Nat.le_add_right _ _, Nat.le_refl _, hlt⟩, ?_, Nat.le_refl _, Nat.le_refl _⟩
    have hs : s ≤ h₁.size a := Nat.min_le_left _ _
    simp only [b, e, realEnd, back]
    omega
  have hbounded' : ((h₁.setDirtyStart a s).setDirtyEnd a (s + n)).Bounded := fun c v hv => by
    by_cases hc : c = a
    · subst hc
      obtain rfl := Option.some.inj (hval ▸ hv)
      exact hbounded c d hd
    · exact hbounded c v (hsame c hc ▸ hv)
  have hpool' : ((h₁.setDirtyStart a s).setDirtyEnd a (s + n)).pool.Sound (b.data :: bs.map (·.data)) :=
    (hpool.update a fun d => { d with dirtyStart := s }).update a fun d => { d with dirtyEnd := s + n }
  refine ⟨_, b, ?_, ⟨hs.cons_fresh hpool' hbounded' hkept' ha hval hfits, fun c hc => contentsOf_congr (hkept' c hc)⟩,
    ?_, ha, ?_⟩
  · rw [Buffer.construct, hcreate, Option.map_some]
    simp only [s] at hstop
    simp only [hstop]
    rfl
  · have hzero : List.replicate b.zeros (0 : UInt8) = List.replicate n 0 := by
      congr 1
      simp only [b, zeros]
      omega
    rw [contentsOf_eq hval, contents, hzero]
    simp [b, front, back, slice_zero]
  · rw [hfirst]
    exact ⟨rfl, rfl, rfl, rfl⟩

/-- Another buffer with the same bounds, and one more reference to the data. -/
theorem Sharing.retain (hs : Sharing h bs) (ho : o ∈ bs) (m : Nat) (h' : BufferHeap) (hpool : h'.pool = h.pool.retain o.data) :
    Joined h h' { o with maxZeroAreaStart := m } bs ∧
      contentsOf h' { o with maxZeroAreaStart := m } = contentsOf h o := by
  have hval : ∀ a, h'.pool.val? a = h.pool.val? a := fun a => by rw [hpool, Pool.val?_retain]
  have hsame : ∀ c : Buffer, contentsOf h' c = contentsOf h c := fun c => contentsOf_congr (hval _)
  refine ⟨⟨⟨?_, fun a d hd => hs.bounded a d (hval a ▸ hd), fun c hc d hd => ?_, fun c hc c' hc' heq d hd hstop => ?_⟩,
    fun c _ => hsame c⟩, hsame _⟩
  · rw [List.map_cons, hpool]
    exact hs.pool.retain (List.mem_map_of_mem ho)
  · rw [hval] at hd
    rcases List.mem_cons.mp hc with rfl | hc
    · have hfits := hs.fits o ho d hd
      exact ⟨⟨hfits.start_le, hfits.zero_le, hfits.end_le, hfits.small⟩, hfits.inside, hfits.dirtyStart_le,
        hfits.le_dirtyEnd⟩
    · exact hs.fits c hc d hd
  · rw [hval] at hd
    rcases List.mem_cons.mp hc with rfl | hmem
    · rcases List.mem_cons.mp hc' with rfl | hmem'
      · exact Nat.le_refl _
      · exact hs.last o ho c' hmem' heq d hd hstop
    · rcases List.mem_cons.mp hc' with rfl | hmem'
      · exact hs.last c hmem o ho heq d hd hstop
      · exact hs.last c hmem c' hmem' heq d hd hstop

theorem Sharing.of_pool (hs : Sharing h bs) (h' : BufferHeap) (hpool : h'.pool = h.pool) :
    Sharing h' bs ∧ ∀ c : Buffer, contentsOf h' c = contentsOf h c := by
  have hval : ∀ a, h'.pool.val? a = h.pool.val? a := fun a => by rw [hpool]
  refine ⟨hs.of_kept (hpool ▸ hs.pool) (fun a d hd => hs.bounded a d (hval a ▸ hd)) fun c _ => hval _, fun c => ?_⟩
  exact contentsOf_congr (hval _)

theorem Sharing.copy (hs : Sharing h bs) (ho : o ∈ bs) :
    Joined h (Buffer.copy h o).1 (Buffer.copy h o).2 bs ∧
      contentsOf (Buffer.copy h o).1 (Buffer.copy h o).2 = contentsOf h o :=
  hs.retain ho _ _ rfl

theorem Sharing.destroy (hs : Sharing h (b :: bs)) :
    Sharing (Buffer.destroy h b) bs ∧ ∀ c ∈ bs, contentsOf (Buffer.destroy h b) c = contentsOf h c := by
  obtain ⟨hs', hsame⟩ :=
    hs.of_pool { h with recommendedStart := max h.recommendedStart b.maxZeroAreaStart } rfl
  obtain ⟨hs'', hothers⟩ := hs'.tail
  exact ⟨hs'', fun c hc => (hothers c hc).trans (hsame c)⟩

/-- The assigned buffer reads what the other one reads. -/
theorem Sharing.assign (hs : Sharing h (b :: bs)) (ho : o ∈ bs) :
    Joined h (Buffer.assign h b o).1 (Buffer.assign h b o).2 bs ∧
      contentsOf (Buffer.assign h b o).1 (Buffer.assign h b o).2 = contentsOf h o := by
  rw [Buffer.assign]
  split
  · next heq =>
      have hmem : o ∈ b :: bs := List.mem_cons_of_mem _ ho
      have hsharing : Sharing h (o :: bs) := by
        refine ⟨by rw [List.map_cons, ← heq]; exact hs.pool, hs.bounded, fun c hc => ?_, fun c hc c' hc' => ?_⟩
        · rcases List.mem_cons.mp hc with rfl | hc
          · exact hs.fits c hmem
          · exact hs.fits c (List.mem_cons_of_mem _ hc)
        · have hin : ∀ x ∈ o :: bs, x ∈ b :: bs := fun x hx => by
            rcases List.mem_cons.mp hx with rfl | hx
            · exact hmem
            · exact List.mem_cons_of_mem _ hx
          exact hs.last c (hin c hc) c' (hin c' hc')
      obtain ⟨hs', hsame⟩ :=
        hsharing.of_pool { h with recommendedStart := max h.recommendedStart b.maxZeroAreaStart } rfl
      exact ⟨⟨hs', fun c _ => hsame c⟩, hsame o⟩
  · obtain ⟨hs', hothers⟩ := hs.tail
    obtain ⟨hjoined, hcontents⟩ := hs'.retain ho o.maxZeroAreaStart
      { (h.unref b.data) with
        pool := (h.unref b.data).pool.retain o.data
        recommendedStart := max (h.unref b.data).recommendedStart b.maxZeroAreaStart } rfl
    exact ⟨⟨hjoined.sharing, fun c hc => (hjoined.others c hc).trans (hothers c hc)⟩,
      hcontents.trans (hothers o ho)⟩

/-! ## Full copies -/

/-- All of the range is written. -/
theorem overwrite_all {xs vs ys : List UInt8} (hlen : xs.length = vs.length) :
    overwrite (xs ++ ys) 0 vs = vs ++ ys := by
  rw [overwrite_append_left (by omega), overwrite, List.take_zero, List.nil_append,
    List.drop_of_length_le (by omega), List.append_nil]

theorem overwrite_behind {xs vs ys : List UInt8} (hlen : ys.length = vs.length) :
    overwrite (xs ++ ys) xs.length vs = xs ++ vs := by
  rw [overwrite_append_right (Nat.le_refl _), Nat.sub_self, overwrite, List.take_zero, List.nil_append,
    List.drop_of_length_le (by omega), List.append_nil]

theorem writeU8s_eq (it : Iterator) (x : UInt8) (n : Nat) : it.writeU8s h x n = it.write h (List.replicate n x) := by
  rw [Iterator.writeU8s, Iterator.write, List.length_replicate]

/-- Bytes are added in front and written at once. -/
theorem Sharing.prepend (env : BufferEnv) (hs : Sharing h (b :: bs)) (hfit : StartFits h b n) :
    ∃ h₁ b', Buffer.addAtStart env h b n = some (h₁, b') ∧ Joined h h₁ b' bs ∧ AddedAtStart h h₁ b b' bs n ∧
      ∀ vs : List UInt8, vs.length = n → ∃ h' it, b'.first.write h₁ vs = some (h', it) ∧ Joined h h' b' bs ∧
        contentsOf h' b' = vs ++ contentsOf h b := by
  obtain ⟨h₁, b', hadd, hadded⟩ := hs.addAtStart env hfit
  refine ⟨h₁, b', hadd, ⟨hadded.sharing, hadded.others⟩, hadded, fun vs hvs => ?_⟩
  obtain ⟨new, hnew, hcontents⟩ := hadded.contents
  obtain ⟨h', hwrite, hw⟩ := hadded.sharing.write hadded.writable (Nat.le_refl 0)
    (show 0 + vs.length ≤ n by omega)
  refine ⟨h', _, hwrite, ⟨hw.sharing, fun c hc => (hw.others c hc).trans (hadded.others c hc)⟩, ?_⟩
  rw [hw.contents, hcontents, overwrite_all (hnew.trans hvs.symm)]

/-- Bytes are added behind and written at once. -/
theorem Sharing.postpend (env : BufferEnv) (hs : Sharing h (b :: bs)) (hfit : EndFits h b n) :
    ∃ h₁ b', Buffer.addAtEnd env h b n = some (h₁, b') ∧ Joined h h₁ b' bs ∧ AddedAtEnd h h₁ b b' bs n ∧
      b'.last.prev n = b'.iteratorAt b.length ∧ b'.length = b.length + n ∧
      ∀ vs : List UInt8, vs.length = n → ∃ h' it, (b'.iteratorAt b.length).write h₁ vs = some (h', it) ∧
        Joined h h' b' bs ∧ contentsOf h' b' = contentsOf h b ++ vs := by
  obtain ⟨h₁, b', hadd, hadded⟩ := hs.addAtEnd env hfit
  obtain ⟨new, hnew, hcontents⟩ := hadded.contents
  have hlen := hs.length_contentsOf List.mem_cons_self
  have hlen' : b'.length = b.length + n := by
    rw [← hadded.sharing.length_contentsOf List.mem_cons_self, hcontents, List.length_append, hnew, hlen]
  obtain ⟨d, -, hfits⟩ := hadded.sharing.exists_fits List.mem_cons_self
  refine ⟨h₁, b', hadd, ⟨hadded.sharing, hadded.others⟩, hadded, ?_, hlen', fun vs hvs => ?_⟩
  · rw [hfits.last_eq, hfits.prev_eq (by omega) (Nat.le_refl _), hlen', Nat.add_sub_cancel]
  · obtain ⟨h', hwrite, hw⟩ := hadded.sharing.write hadded.writable (Nat.le_refl b.length)
      (show b.length + vs.length ≤ b.length + n by omega)
    refine ⟨h', _, hwrite, ⟨hw.sharing, fun c hc => (hw.others c hc).trans (hadded.others c hc)⟩, ?_⟩
    rw [hw.contents, hcontents, ← hlen, overwrite_behind (hnew.trans hvs.symm)]

/-- The parts of the contents. -/
theorem Sharing.contents_parts (hs : Sharing h bs) (hb : b ∈ bs) :
    slice (contentsOf h b) 0 b.front ++ (List.replicate b.zeros 0 ++ slice (contentsOf h b) (b.front + b.zeros) b.back) =
      contentsOf h b := by
  obtain ⟨d, -, hfits⟩ := hs.exists_fits hb
  obtain ⟨hlength, -⟩ := hfits.sizes
  have hlen := hs.length_contentsOf hb
  have hwhole : slice (contentsOf h b) 0 b.length = contentsOf h b := by
    rw [slice, List.drop_zero, List.take_of_length_le (by omega)]
  have hfirst : slice (contentsOf h b) 0 (b.front + b.zeros) = _ := slice_append b.front b.zeros
  have hsecond : slice (contentsOf h b) 0 (b.front + b.zeros + b.back) = _ := slice_append (b.front + b.zeros) b.back
  rw [Nat.zero_add] at hfirst hsecond
  rw [hs.zeros_eq hb b.front _ (by omega), ← List.append_assoc, ← hfirst, ← hsecond, ← hlength, hwhole]

/-- The copy has no zero area, and data of its own. -/
theorem Sharing.createFullCopy (env : BufferEnv) (hs : Sharing h bs) (hb : b ∈ bs) (hzeros : b.zeros ≠ 0)
    (hn : firstStart env h + b.length + sizeofData ≤ 2 ^ 32) :
    ∃ h' tmp, Buffer.createFullCopy env h b = some (h', tmp) ∧ Joined h h' tmp bs ∧
      contentsOf h' tmp = contentsOf h b ∧ tmp.zeros = 0 ∧ tmp.data ∉ bs.map (·.data) ∧
      tmp.stop ≤ firstStart env h + b.length := by
  obtain ⟨d, -, hfits⟩ := hs.exists_fits hb
  obtain ⟨hlength, hreal, hzas, hzae, hstop⟩ := hfits.sizes
  have hheader : sizeofData = 20 := rfl
  have hcontentslen := hs.length_contentsOf hb
  -- an empty buffer
  obtain ⟨h₀, t₀, hconstruct, hjoined₀, hcontents₀, hfresh₀, hs₁, hs₂, hs₃, hs₄⟩ := hs.construct env (n := 0) (by omega)
  have hempty : t₀.front = 0 ∧ t₀.back = 0 ∧ t₀.zeros = 0 ∧ t₀.length = 0 := by
    simp only [front, back, zeros, length]
    omega
  -- the zeros
  obtain ⟨h₁, t₁, hadd₁, -, hadded₁, hwrites₁⟩ :=
    hjoined₀.sharing.prepend env (n := b.zeros) (Or.inr (by omega))
  obtain ⟨h₂, it₂, hwrite₂, hjoined₂, hread₂⟩ := hwrites₁ (List.replicate b.zeros 0) List.length_replicate
  obtain ⟨d₂, -, hfits₂⟩ := hjoined₂.sharing.exists_fits List.mem_cons_self
  have hlen₂ := hjoined₂.sharing.length_contentsOf List.mem_cons_self
  rw [hread₂, hcontents₀, List.replicate_zero, List.append_nil, List.length_replicate] at hlen₂
  obtain ⟨hlength₂, -⟩ := hfits₂.sizes
  -- the bytes in front of them
  obtain ⟨h₃, t₃, hadd₃, hjoined₃, hadded₃, hwrites₃⟩ :=
    hjoined₂.sharing.prepend env (n := b.front) (Or.inr (by omega))
  have hload₃ := hjoined₃.sharing.load_front (List.mem_cons_of_mem _ hb) 0 b.front
    (Or.inr (by omega))
  rw [hjoined₃.others b hb, hjoined₂.others b hb, hjoined₀.others b hb, Nat.add_zero] at hload₃
  obtain ⟨h₄, it₄, hwrite₄, hjoined₄, hread₄⟩ :=
    hwrites₃ (slice (contentsOf h b) 0 b.front) (length_slice (by omega))
  obtain ⟨d₄, -, hfits₄⟩ := hjoined₄.sharing.exists_fits List.mem_cons_self
  have hlen₄ := hjoined₄.sharing.length_contentsOf List.mem_cons_self
  rw [hread₄, hread₂, hcontents₀, List.replicate_zero, List.append_nil, List.length_append, List.length_replicate,
    length_slice (by omega)] at hlen₄
  obtain ⟨hlength₄, -⟩ := hfits₄.sizes
  -- the bytes behind them
  have hstop₁ := hadded₁.stop
  have hstop₃ := hadded₃.stop
  have hendfits : EndFits h₄ t₃ b.back := by
    rw [EndFits]
    split
    · omega
    · omega
  obtain ⟨h₅, t₅, hadd₅, hjoined₅, hadded₅, hlast₅, -, hwrites₅⟩ := hjoined₄.sharing.postpend env hendfits
  have hload₅ := hjoined₅.sharing.load_back (List.mem_cons_of_mem _ hb) (b.front + b.zeros) b.back
    (Nat.le_refl _) (by omega)
  have hzas' : b.start + (b.front + b.zeros) - b.zeros = b.zeroAreaStart := by omega
  rw [hjoined₅.others b hb, hjoined₄.others b hb, hjoined₂.others b hb, hjoined₀.others b hb, hzas'] at hload₅
  obtain ⟨h₆, it₆, hwrite₆, hjoined₆, hread₆⟩ :=
    hwrites₅ (slice (contentsOf h b) (b.front + b.zeros) b.back) (length_slice (by omega))
  have hstop₅ := hadded₅.stop
  refine ⟨h₆, t₅, ?_, ⟨hjoined₆.sharing, fun c hc => ?_⟩, ?_, ?_, ?_, by omega⟩
  · rw [Buffer.createFullCopy]
    simp only [hfits.zeros_eq, if_neg hzeros, hconstruct, hadd₁, hfits.front_eq, hfits.back_eq, writeU8s_eq,
      Option.bind_eq_bind, Option.bind_some, hwrite₂, hadd₃, hload₃, hwrite₄, hadd₅, hload₅, hlast₅, hwrite₆]
  · rw [hjoined₆.others c hc, hjoined₄.others c hc, hjoined₂.others c hc, hjoined₀.others c hc]
  · rw [hread₆, hread₄, hread₂, hcontents₀, List.replicate_zero, List.append_nil, List.append_assoc]
    exact hs.contents_parts hb
  · rw [hadded₅.zeros, hadded₃.zeros, hadded₁.zeros, hempty.2.2.1]
  · rcases hadded₅.data with ⟨-, heq₅⟩ | hfresh
    · rcases hadded₃.data with ⟨-, heq₃⟩ | hfresh
      · rcases hadded₁.data with ⟨-, heq₁⟩ | hfresh
        · rwa [heq₅, heq₃, heq₁]
        · rwa [heq₅, heq₃]
      · rwa [heq₅]
    · exact hfresh

/-! ## One buffer behind another -/

/-- Nothing wraps when zero areas are merged, and nothing follows the zero area of `o`. -/
def MergeFits (b o : Buffer) : Prop := o.zeroAreaEnd = o.stop ∧ b.stop + o.length < 2 ^ 32

/-- Nothing wraps when `o` is copied behind `b`, and no assertion fails because the two share their data. -/
def CopyFits (env : BufferEnv) (h : BufferHeap) (b o : Buffer) : Prop :=
  if b.zeros = 0 then
    EndFits h b o.length ∧ (env.asserts → RoomAtEnd h b o.length → b.data ≠ o.data)
  else firstStart env h + b.length + o.length + sizeofData ≤ 2 ^ 32

def AppendFits (env : BufferEnv) (h : BufferHeap) (b o : Buffer) : Prop :=
  if ZerosMeet h b o then MergeFits b o else CopyFits env h b o

instance (b o : Buffer) : Decidable (MergeFits b o) := inferInstanceAs (Decidable (_ ∧ _))

instance (env : BufferEnv) (h : BufferHeap) (b o : Buffer) : Decidable (CopyFits env h b o) := by
  unfold CopyFits
  infer_instance

instance (env : BufferEnv) (h : BufferHeap) (b o : Buffer) : Decidable (AppendFits env h b o) := by
  unfold AppendFits
  infer_instance

/-- What `AddAtEnd` of a buffer is for. -/
structure Appended (h h' : BufferHeap) (b b' o : Buffer) (bs : List Buffer) : Prop extends Joined h h' b' bs where
  contents : contentsOf h' b' = contentsOf h b ++ contentsOf h o

theorem Sharing.mergeAtEnd (env : BufferEnv) (hs : Sharing h (b :: bs)) (ho : o ∈ bs) (hmeet : ZerosMeet h b o)
    (hfit : MergeFits b o) :
    ∃ h' b', Buffer.mergeAtEnd env h b o = some (h', b') ∧ Appended h h' b b' o bs := by
  obtain ⟨d, hd, hfits⟩ := hs.exists_fits List.mem_cons_self
  obtain ⟨e, he, hfito⟩ := hs.exists_fits (List.mem_cons_of_mem _ ho)
  obtain ⟨hlength, hreal, hzas, hzae, hstop⟩ := hfits.sizes
  obtain ⟨hlengtho, hrealo, hzaso, hzaeo, hstopo⟩ := hfito.sizes
  obtain ⟨h₁, h₂, h₃, h₄⟩ := hfits.toOrdered
  obtain ⟨hcount, hstopzae, -, hstarto, -⟩ := hmeet
  obtain ⟨hbacko, hsum⟩ := hfit
  have halone : ∀ c ∈ bs, c.data ≠ b.data := fun c hc heq => by
    have := hs.shared hc heq
    omega
  have hfronto : o.front = 0 := by rw [front]; omega
  have hback0 : o.back = 0 := by rw [back]; omega
  have hcontentso : contentsOf h o = List.replicate o.zeros 0 := by
    have hparts := hs.contents_parts (List.mem_cons_of_mem _ ho)
    rw [hfronto, hback0, slice_zero, slice_zero, List.nil_append, List.append_nil] at hparts
    exact hparts.symm
  -- the zero areas become one
  let b₁ : Buffer := { b with zeroAreaEnd := b.zeroAreaEnd + o.zeros, stop := b.zeroAreaEnd + o.zeros }
  let g : BufferData → BufferData := fun d => { d with dirtyEnd := b.zeroAreaEnd + o.zeros }
  have hback₁ : b₁.back = 0 := Nat.sub_self _
  have hback : b.back = 0 := by rw [back]; omega
  have hzeros₁ : b₁.zeros = b.zeros + o.zeros := by
    simp only [b₁, zeros]
    omega
  have hordered₁ : b₁.Ordered := ⟨h₁, by simp only [b₁]; omega, Nat.le_refl _, by simp only [b₁]; omega⟩
  have hinside := hfits.inside
  have hfits₁ : b₁.Fits (g d) :=
    ⟨hordered₁, by rw [realEnd, hback₁]; rw [realEnd, hback] at hinside; exact hinside, hfits.dirtyStart_le,
      Nat.le_refl _⟩
  have hval := fun a => val?_setDirtyEnd (h := h) (a := b.data) (c := a) (x := b.zeroAreaEnd + o.zeros)
  have hs₁ : Sharing (h.setDirtyEnd b.data (b.zeroAreaEnd + o.zeros)) (b₁ :: bs) :=
    hs.rebound (g := g) rfl (hs.pool.update b.data g) hval hd rfl hfits₁
      (fun c hc heq => absurd heq (halone c hc)) (fun c hc heq => absurd heq (halone c hc))
      fun c hc heq => absurd heq (halone c hc)
  have hsame := fun c : Buffer => contentsOf_of_bytes (c := c) hval fun d => rfl
  have hcontents₁ : contentsOf (h.setDirtyEnd b.data (b.zeroAreaEnd + o.zeros)) b₁ =
      contentsOf h b ++ contentsOf h o := by
    rw [hsame, contentsOf_eq (b := b₁) (d := d) hd, contentsOf_eq hd, hcontentso, Buffer.contents, Buffer.contents,
      hback₁, hback, hzeros₁, slice_zero, List.append_nil, List.append_nil, ← List.replicate_append_replicate,
      ← List.append_assoc]
    rfl
  -- nothing is left to add
  have hbounded := hs₁.bounded _ _ (show _ = some (g d) by rw [hval, if_pos rfl, hd]; rfl)
  obtain ⟨hlength₁, hreal₁, -, -, hstop₁⟩ := hordered₁.sizes
  have hinside₁ := hfits₁.inside
  have hsmall₁ := hordered₁.small
  have hendfits : EndFits (h.setDirtyEnd b.data (b.zeroAreaEnd + o.zeros)) b₁ 0 := by
    rw [EndFits]
    split
    · omega
    · omega
  obtain ⟨h₂', b₂, hadd, hjoined, hadded, hlast, hlen₂, -⟩ := hs₁.postpend env hendfits
  obtain ⟨new, hnew, hcontents₂⟩ := hadded.contents
  obtain rfl := List.eq_nil_of_length_eq_zero hnew
  have hdata : b₂.data ≠ o.data := by
    rcases hadded.data with ⟨-, heq⟩ | hfresh
    · rw [heq]
      exact (halone o ho).symm
    · exact fun heq => hfresh (heq ▸ List.mem_map_of_mem ho)
  obtain ⟨h₃', hwrite, hw⟩ := hadded.sharing.writeRange env hadded.writable (Nat.le_refl b₁.length) ho
    o.length o.length (Nat.le_refl _) (Nat.le_refl _) (by omega)
    (Or.inr (Or.inr rfl)) fun _ => hdata
  rw [Nat.sub_self, slice_zero] at hw
  refine ⟨h₃', b₂, ?_, ⟨hw.sharing, fun c hc => ?_⟩, ?_⟩
  · have hzero : add32 b.zeroAreaEnd o.zeros = b.zeroAreaEnd + o.zeros := add32_eq (by omega)
    have hlasto : (o.iteratorAt o.length).prev 0 = o.iteratorAt o.length := by
      rw [hfito.prev_eq (Nat.zero_le _) (Nat.le_refl _), Nat.sub_zero]
    simp only [Buffer.mergeAtEnd, hfito.zeros_eq, hfito.back_eq, hback0, hzero, Option.bind_eq_bind]
    rw [show Buffer.addAtEnd env (h.setDirtyEnd b.data (b.zeroAreaEnd + o.zeros)) _ 0 = some (h₂', b₂) from hadd,
      Option.bind_some]
    simp only [hlast, hfito.last_eq, hlasto, hwrite, Option.bind_some]
  · rw [hw.others c hc, hjoined.others c hc, hsame]
  · rw [hw.contents, overwrite_nil, hcontents₂, List.append_nil, hcontents₁]

/-- A full copy takes the place of the buffer. -/
theorem Sharing.replaceByCopy (env : BufferEnv) (hs : Sharing h (b :: bs))
    (hfit : b.zeros ≠ 0 → firstStart env h + b.length + sizeofData ≤ 2 ^ 32) :
    ∃ h₁ tmp, Buffer.createFullCopy env h b = some (h₁, tmp) ∧ (Buffer.assign h₁ b tmp).2 = tmp ∧
      Joined h (Buffer.destroy (Buffer.assign h₁ b tmp).1 tmp) tmp bs ∧
      contentsOf (Buffer.destroy (Buffer.assign h₁ b tmp).1 tmp) tmp = contentsOf h b ∧ tmp.zeros = 0 ∧
      (b.zeros ≠ 0 → tmp.data ∉ bs.map (·.data) ∧ tmp.stop ≤ firstStart env h + b.length) ∧
      (b.zeros = 0 → tmp = { b with maxZeroAreaStart := b.zeroAreaStart } ∧ h₁ = (Buffer.copy h b).1) := by
  obtain ⟨h₁, tmp, hcreate, hjoined, hcontents, hzero, hnew, hsame⟩ : ∃ h₁ tmp,
      Buffer.createFullCopy env h b = some (h₁, tmp) ∧ Joined h h₁ tmp (b :: bs) ∧
      contentsOf h₁ tmp = contentsOf h b ∧ tmp.zeros = 0 ∧
      (b.zeros ≠ 0 → tmp.data ∉ bs.map (·.data) ∧ tmp.stop ≤ firstStart env h + b.length) ∧
      (b.zeros = 0 → tmp = { b with maxZeroAreaStart := b.zeroAreaStart } ∧ h₁ = (Buffer.copy h b).1) := by
    by_cases hzeros : b.zeros = 0
    · obtain ⟨d, -, hfits⟩ := hs.exists_fits List.mem_cons_self
      obtain ⟨hjoined, hcontents⟩ := hs.copy (o := b) List.mem_cons_self
      refine ⟨_, _, ?_, hjoined, hcontents, hzeros, fun hne => absurd hzeros hne, fun _ => ⟨rfl, rfl⟩⟩
      simp only [Buffer.createFullCopy, hfits.zeros_eq, hzeros, if_pos]
    · obtain ⟨h₁, tmp, hcreate, hjoined, hcontents, hzero, hfresh, hstop⟩ :=
        hs.createFullCopy env List.mem_cons_self hzeros (hfit hzeros)
      exact ⟨h₁, tmp, hcreate, hjoined, hcontents, hzero,
        fun _ => ⟨fun hmem => hfresh (List.mem_cons_of_mem _ hmem), hstop⟩, fun heq => absurd heq hzeros⟩
  obtain ⟨hassign, hread⟩ := (hjoined.sharing.perm (List.Perm.swap b tmp bs)).assign (o := tmp) List.mem_cons_self
  have hresult : (Buffer.assign h₁ b tmp).2 = tmp := rfl
  rw [hresult] at hassign hread
  obtain ⟨hdestroy, hkept⟩ := hassign.sharing.destroy
  refine ⟨h₁, tmp, hcreate, rfl, ⟨hdestroy, fun c hc => ?_⟩, ?_, hzero, hnew, hsame⟩
  · rw [hkept c (List.mem_cons_of_mem _ hc), hassign.others c (List.mem_cons_of_mem _ hc),
      hjoined.others c (List.mem_cons_of_mem _ hc)]
  · rw [hkept tmp List.mem_cons_self, hread, hcontents]

/-- The copy of a buffer without zeros takes its place and nothing else happens. -/
theorem Sharing.replaceByCopy_room (hs : Sharing h (b :: bs)) {tmp : Buffer} {h₁ : BufferHeap}
    (htmp : tmp = { b with maxZeroAreaStart := b.zeroAreaStart }) (hh₁ : h₁ = (Buffer.copy h b).1) :
    RoomAtEnd (Buffer.destroy (Buffer.assign h₁ b tmp).1 tmp) tmp n ↔ RoomAtEnd h b n := by
  subst htmp hh₁
  have hpos : 0 < h.pool.cnt b.data := by
    rw [hs.pool.counted, List.map_cons, List.count_cons_self]
    omega
  have hsome := hs.pool.isSome (a := b.data) List.mem_cons_self
  have hcnt : ∀ a, ((h.pool.retain b.data).release b.data).cnt a = h.pool.cnt a := fun a => by
    rw [Pool.cnt_release, Pool.cnt_retain hsome]
    split <;> omega
  have hval : ∀ a, ((h.pool.retain b.data).release b.data).val? a = h.pool.val? a := fun a => by
    rw [Pool.val?_release, Pool.val?_retain]
  have hpool : (Buffer.destroy (Buffer.assign (Buffer.copy h b).1 b
      { b with maxZeroAreaStart := b.zeroAreaStart }).1 { b with maxZeroAreaStart := b.zeroAreaStart }).pool =
        (h.pool.retain b.data).release b.data := by
    have hne : ¬((h.pool.retain b.data).release b.data).cnt b.data = 0 := by
      rw [hcnt]
      omega
    rw [Buffer.assign, if_pos rfl, Buffer.destroy, unref]
    split
    · next heq => exact absurd heq hne
    · rfl
  simp only [RoomAtEnd, size, BufferHeap.dirtyEnd, hpool, hcnt, hval]
  rfl

theorem Sharing.copyAtEnd (env : BufferEnv) (hs : Sharing h (b :: bs)) (ho : o ∈ bs) (hfit : CopyFits env h b o) :
    ∃ h' b', Buffer.copyAtEnd env h b o = some (h', b') ∧ Appended h h' b b' o bs := by
  obtain ⟨d, -, hfits⟩ := hs.exists_fits List.mem_cons_self
  obtain ⟨e, -, hfito⟩ := hs.exists_fits (List.mem_cons_of_mem _ ho)
  obtain ⟨hlength, hreal, hzas, hzae, hstop⟩ := hfits.sizes
  have hheader : sizeofData = 20 := rfl
  obtain ⟨h₁, tmp, hcreate, hassign, hjoined, hread, hzero, hnew, hsame⟩ := hs.replaceByCopy env fun hne => by
    rw [CopyFits, if_neg hne] at hfit
    omega
  obtain ⟨d₁, -, hfits₁⟩ := hjoined.sharing.exists_fits List.mem_cons_self
  obtain ⟨hlength₁, hreal₁, hzas₁, hzae₁, hstop₁⟩ := hfits₁.sizes
  have hlen : tmp.length = b.length := by
    rw [← hjoined.sharing.length_contentsOf List.mem_cons_self, hread, hs.length_contentsOf List.mem_cons_self]
  -- the bytes of `o` find room
  have hfits₂ : EndFits (Buffer.destroy (Buffer.assign h₁ b tmp).1 tmp) tmp o.length ∧
      (env.asserts → RoomAtEnd (Buffer.destroy (Buffer.assign h₁ b tmp).1 tmp) tmp o.length →
        tmp.data ≠ o.data) := by
    rw [CopyFits] at hfit
    split at hfit
    · next hzeros =>
        obtain ⟨htmp, hh₁⟩ := hsame hzeros
        have hroom := hs.replaceByCopy_room (n := o.length) htmp hh₁
        have hfields : tmp.data = b.data ∧ tmp.stop = b.stop ∧ tmp.front = b.front ∧ tmp.back = b.back := by
          subst htmp
          exact ⟨rfl, rfl, rfl, rfl⟩
        refine ⟨?_, fun hasserts hin => hfields.1 ▸ hfit.2 hasserts (hroom.mp hin)⟩
        have hend := hfit.1
        rw [EndFits] at hend ⊢
        simp only [hroom, hfields, hlen]
        exact hend
    · next hzeros =>
        obtain ⟨hfresh, hle⟩ := hnew hzeros
        refine ⟨?_, fun _ _ heq => hfresh (heq ▸ List.mem_map_of_mem ho)⟩
        rw [EndFits]
        split
        · omega
        · omega
  obtain ⟨h₄, b₄, hadd, hjoined₄, hadded, hlast, hlen₄, -⟩ := hjoined.sharing.postpend env hfits₂.1
  obtain ⟨new, hnew₄, hcontents₄⟩ := hadded.contents
  have hdata : env.asserts → b₄.data ≠ o.data := fun hasserts => by
    rcases hadded.data with ⟨hroom, heq⟩ | hfresh
    · rw [heq]
      exact hfits₂.2 hasserts hroom
    · exact fun heq => hfresh (heq ▸ List.mem_map_of_mem ho)
  obtain ⟨h₅, hwrite, hw⟩ := hadded.sharing.writeRange env hadded.writable (Nat.le_refl tmp.length) ho
    0 o.length (Nat.zero_le _) (Nat.le_refl _) (by omega)
    (Or.inr (Or.inl (hadded.zeros.trans hzero))) hdata
  refine ⟨h₅, b₄, ?_, ⟨hw.sharing, fun c hc => ?_⟩, ?_⟩
  · simp only [Buffer.copyAtEnd, hcreate, hassign, hfito.getSize_eq, Option.bind_eq_bind, Option.bind_some, hadd, hlast,
      first_eq, hfito.last_eq, hwrite]
  · rw [hw.others c hc, hjoined₄.others c hc, hjoined.others c hc]
  · have hlentmp := hjoined.sharing.length_contentsOf List.mem_cons_self
    have hlenslice := hs.length_contentsOf (List.mem_cons_of_mem _ ho)
    have hwhole : slice (contentsOf h₄ o) 0 (o.length - 0) = contentsOf h o := by
      rw [hjoined₄.others o ho, hjoined.others o ho, slice, List.drop_zero, Nat.sub_zero,
        List.take_of_length_le (by omega)]
    rw [hw.contents, hcontents₄, hwhole, ← hlentmp, overwrite_behind (by omega), hread]

/-- The bytes of `o` behind those of `b`, and no other buffer changes. -/
theorem Sharing.append (env : BufferEnv) (hs : Sharing h (b :: bs)) (ho : o ∈ bs) (hfit : AppendFits env h b o) :
    ∃ h' b', Buffer.append env h b o = some (h', b') ∧ Appended h h' b b' o bs := by
  rw [AppendFits] at hfit
  rw [Buffer.append]
  split
  · next hmeet =>
      rw [if_pos hmeet] at hfit
      exact hs.mergeAtEnd env ho hmeet hfit
  · next hmeet =>
      rw [if_neg hmeet] at hfit
      exact hs.copyAtEnd env ho hfit

end Ns3Raft.Net.Buffer
