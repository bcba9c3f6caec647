import Mathlib.Data.List.Basic
import Mathlib.Data.List.Count
import Mathlib.Data.List.Perm.Basic

/-! # Pools of counted blocks

Blocks that are shared by reference, with a count in each, and a stack of blocks
that nothing refers to any more and that may be used again. A pool is sound for a
list of references when every count is the number of references to its block.
-/

namespace BlockPool

structure Block (α : Type*) where
  count : Nat
  val : α
  deriving DecidableEq, Repr

structure Pool (α : Type*) where
  blocks : List (Option (Block α))
  free : List Nat
  deriving DecidableEq, Repr

namespace Pool

variable {α : Type*}

def block (p : Pool α) (a : Nat) : Option (Block α) := (p.blocks[a]?).join

def val? (p : Pool α) (a : Nat) : Option α := (p.block a).map (·.val)

/-- A block that is not there has no count. -/
def cnt (p : Pool α) (a : Nat) : Nat := ((p.block a).map (·.count)).getD 0

def modify (p : Pool α) (a : Nat) (f : Block α → Block α) : Pool α :=
  { p with blocks := p.blocks.modify a (Option.map f) }

def retain (p : Pool α) (a : Nat) : Pool α := p.modify a fun b => { b with count := b.count + 1 }

def release (p : Pool α) (a : Nat) : Pool α := p.modify a fun b => { b with count := b.count - 1 }

def update (p : Pool α) (a : Nat) (f : α → α) : Pool α := p.modify a fun b => { b with val := f b.val }

def discard (p : Pool α) (a : Nat) : Pool α := { p with blocks := p.blocks.set a none }

/-- The block may be used again. -/
def shelve (p : Pool α) (a : Nat) : Pool α := { p with free := a :: p.free }

/-- A new block with one reference, whose address is the number of blocks. -/
def alloc (p : Pool α) (v : α) : Pool α := { p with blocks := p.blocks ++ [some ⟨1, v⟩] }

/-- Take blocks from the stack until one is fit for use; the others are given away. -/
def reuseFrom (fit : α → Bool) (p : Pool α) : List Nat → Option Nat × Pool α
  | [] => (none, { p with free := [] })
  | a :: free =>
      if (p.val? a).any fit then
        (some a, { p.modify a fun b => { b with count := 1 } with free := free })
      else reuseFrom fit { p.discard a with free := free } free

def reuse (p : Pool α) (fit : α → Bool) : Option Nat × Pool α := p.reuseFrom fit p.free

/-- The counts are those of `refs`, and nothing refers to what is on the stack. -/
structure Sound (p : Pool α) (refs : List Nat) : Prop where
  counted : ∀ a, p.cnt a = refs.count a
  idle : ∀ a ∈ p.free, (p.block a).isSome ∧ p.cnt a = 0
  nodup : p.free.Nodup

variable {p : Pool α} {refs : List Nat} {a b : Nat} {f : Block α → Block α} {v : α}

theorem block_modify : (p.modify a f).block b = if b = a then (p.block b).map f else p.block b := by
  simp only [block, modify, List.getElem?_modify]
  by_cases hb : a = b
  · subst hb
    cases hat : p.blocks[a]? with
    | none => simp
    | some o => cases o <;> simp
  · simp [hb, Ne.symm hb]

theorem block_discard : (p.discard a).block b = if b = a then none else p.block b := by
  simp only [block, discard, List.getElem?_set]
  by_cases hb : a = b
  · subst hb
    by_cases hlt : a < p.blocks.length <;> simp [hlt]
  · simp [hb, Ne.symm hb]

theorem block_alloc : (p.alloc v).block b = if b = p.blocks.length then some ⟨1, v⟩ else p.block b := by
  simp only [block, alloc]
  rcases Nat.lt_trichotomy b p.blocks.length with hb | rfl | hb
  · rw [List.getElem?_append_left hb, if_neg (Nat.ne_of_lt hb)]
  · simp
  · rw [List.getElem?_eq_none (by simp; omega), List.getElem?_eq_none (by omega), if_neg (Nat.ne_of_gt hb)]

theorem block_length : p.block p.blocks.length = none := by simp [block]

@[simp] theorem block_shelve : (p.shelve a).block b = p.block b := rfl

theorem val?_update {g : α → α} : (p.update a g).val? b = if b = a then (p.val? b).map g else p.val? b := by
  rw [val?, update, block_modify]
  split
  · simp [val?, Function.comp_def]
  · rfl

theorem val?_retain : (p.retain a).val? b = p.val? b := by
  rw [val?, retain, block_modify]
  split
  · simp [val?, Function.comp_def]
  · rfl

theorem val?_release : (p.release a).val? b = p.val? b := by
  rw [val?, release, block_modify]
  split
  · simp [val?, Function.comp_def]
  · rfl

theorem val?_alloc : (p.alloc v).val? b = if b = p.blocks.length then some v else p.val? b := by
  rw [val?, block_alloc]
  split
  · rfl
  · rfl

theorem val?_discard : (p.discard a).val? b = if b = a then none else p.val? b := by
  rw [val?, block_discard]
  split
  · rfl
  · rfl

theorem cnt_modify (hf : ∀ n, (f n).count = n.count) : (p.modify a f).cnt b = p.cnt b := by
  rw [cnt, block_modify]
  split
  · simp [cnt, Function.comp_def, hf]
  · rfl

theorem cnt_release : (p.release a).cnt b = p.cnt b - if b = a then 1 else 0 := by
  rw [cnt, release, block_modify]
  split
  · cases hb : p.block b <;> simp [cnt, hb]
  · rfl

theorem cnt_retain (h : (p.block a).isSome) : (p.retain a).cnt b = p.cnt b + if b = a then 1 else 0 := by
  rw [cnt, retain, block_modify]
  split
  · next heq =>
      subst heq
      obtain ⟨n, hn⟩ := Option.isSome_iff_exists.mp h
      simp [cnt, hn]
  · rfl

theorem isSome_block_modify : ((p.modify a f).block b).isSome = (p.block b).isSome := by
  rw [block_modify]
  split
  · rw [Option.isSome_map]
  · rfl

/-- Whatever is referred to is there. -/
theorem Sound.isSome (h : p.Sound refs) (ha : a ∈ refs) : (p.block a).isSome := by
  have hpos : 0 < p.cnt a := by
    rw [h.counted]
    exact List.count_pos_iff.mpr ha
  rw [cnt] at hpos
  cases hb : p.block a with
  | none => simp [hb] at hpos
  | some n => rfl

theorem Sound.exists_val (h : p.Sound refs) (ha : a ∈ refs) : ∃ v, p.val? a = some v := by
  obtain ⟨n, hn⟩ := Option.isSome_iff_exists.mp (h.isSome ha)
  exact ⟨n.val, by rw [val?, hn, Option.map_some]⟩

theorem Sound.not_free (h : p.Sound refs) (ha : a ∈ refs) : a ∉ p.free := by
  intro hfree
  have hzero := (h.idle a hfree).2
  rw [h.counted, List.count_eq_zero] at hzero
  exact hzero ha

theorem Sound.perm {refs' : List Nat} (h : p.Sound refs) (hperm : refs.Perm refs') : p.Sound refs' :=
  ⟨fun a => by rw [h.counted, hperm.count_eq], h.idle, h.nodup⟩

theorem Sound.update (h : p.Sound refs) (a : Nat) (g : α → α) : (p.update a g).Sound refs where
  counted b := by rw [Pool.update, cnt_modify (f := fun b => { b with val := g b.val }) fun _ => rfl, h.counted]
  idle b hb := by
    rw [Pool.update, isSome_block_modify,
      cnt_modify (f := fun b => { b with val := g b.val }) fun _ => rfl]
    exact h.idle b hb
  nodup := h.nodup

theorem Sound.retain (h : p.Sound refs) (ha : a ∈ refs) : (p.retain a).Sound (a :: refs) where
  counted b := by
    rw [cnt_retain (h.isSome ha), h.counted, List.count_cons]
    simp only [beq_iff_eq, eq_comm (a := b)]
  idle b hb := by
    have hne : b ≠ a := fun heq => h.not_free ha (heq ▸ hb)
    rw [cnt_retain (h.isSome ha), if_neg hne, Pool.retain, isSome_block_modify]
    exact h.idle b hb
  nodup := h.nodup

theorem Sound.release (h : p.Sound (a :: refs)) : (p.release a).Sound refs where
  counted b := by
    rw [cnt_release, h.counted, List.count_cons]
    simp only [beq_iff_eq, eq_comm (a := b)]
    omega
  idle b hb := by
    rw [cnt_release, Pool.release, isSome_block_modify]
    obtain ⟨hsome, hzero⟩ := h.idle b hb
    exact ⟨hsome, by omega⟩
  nodup := h.nodup

/-- The last reference is gone and the block is given away. -/
theorem Sound.discard (h : p.Sound refs) (ha : a ∉ refs) (hfree : a ∉ p.free) :
    (p.discard a).Sound refs where
  counted b := by
    rw [cnt, block_discard]
    split
    · next heq => rw [heq, List.count_eq_zero.mpr ha]; rfl
    · exact h.counted b
  idle b hb := by
    have hne : b ≠ a := fun heq => hfree (heq ▸ hb)
    rw [cnt, block_discard, if_neg hne]
    exact h.idle b hb
  nodup := h.nodup

theorem Sound.shelve (h : p.Sound refs) (ha : a ∉ refs) (hfree : a ∉ p.free)
    (hsome : (p.block a).isSome) : (p.shelve a).Sound refs where
  counted := h.counted
  idle b hb := by
    rcases List.mem_cons.mp hb with rfl | hb
    · exact ⟨hsome, by rw [show (p.shelve b).cnt b = p.cnt b from rfl, h.counted, List.count_eq_zero.mpr ha]⟩
    · exact h.idle b hb
  nodup := List.nodup_cons.mpr ⟨hfree, h.nodup⟩

theorem Sound.alloc (h : p.Sound refs) (v : α) :
    p.blocks.length ∉ refs ∧ (p.alloc v).Sound (p.blocks.length :: refs) := by
  have hfresh : p.blocks.length ∉ refs := fun hmem => by simpa [block_length] using h.isSome hmem
  refine ⟨hfresh, fun b => ?_, fun b hb => ?_, h.nodup⟩
  · rw [cnt, block_alloc, List.count_cons]
    by_cases hb : b = p.blocks.length
    · subst hb
      simp [List.count_eq_zero.mpr hfresh]
    · rw [if_neg hb, ← cnt, h.counted]
      simp [Ne.symm hb]
  · have hne : b ≠ p.blocks.length := by
      rintro rfl
      simpa [block_length] using (h.idle _ hb).1
    rw [cnt, block_alloc, if_neg hne]
    exact h.idle b hb

/-- What `reuse` gives back. The blocks that are referred to stay as they are. -/
structure Reused (p : Pool α) (fit : α → Bool) (refs : List Nat) (r : Option Nat × Pool α) : Prop where
  kept : ∀ b ∈ refs, r.2.val? b = p.val? b
  missed : r.1 = none → r.2.Sound refs
  found : ∀ a, r.1 = some a → a ∉ refs ∧ r.2.Sound (a :: refs) ∧ r.2.val? a = p.val? a ∧
    ∃ v, p.val? a = some v ∧ fit v
  origin : ∀ b v, r.2.val? b = some v → p.val? b = some v

theorem Sound.reuseFrom (fit : α → Bool) {free : List Nat} (h : p.Sound refs) (hfree : p.free = free) :
    Reused p fit refs (p.reuseFrom fit free) := by
  induction free generalizing p with
  | nil =>
      have hsound : ({ p with free := [] } : Pool α).Sound refs :=
        ⟨h.counted, fun a ha => (List.not_mem_nil ha).elim, List.nodup_nil⟩
      refine ⟨fun b _ => rfl, fun _ => hsound, fun a ha => ?_, fun b v hv => hv⟩
      cases ha
  | cons a free ih =>
      have hmem : a ∈ p.free := by simp [hfree]
      have hnot : a ∉ refs := fun ha => h.not_free ha hmem
      have hnodup := h.nodup
      rw [hfree, List.nodup_cons] at hnodup
      rw [Pool.reuseFrom]
      by_cases hfit : (p.val? a).any fit
      · rw [if_pos hfit]
        let q : Pool α := { p.modify a fun b => { b with count := 1 } with free := free }
        have hval : ∀ b, q.val? b = p.val? b := fun b => by
          change (p.modify a fun b => { b with count := 1 }).val? b = _
          rw [val?, block_modify]
          split
          · simp [val?, Function.comp_def]
          · rfl
        have hblock : ∀ b, b ≠ a → q.block b = p.block b := fun b hb => by
          change (p.modify a fun b => { b with count := 1 }).block b = _
          rw [block_modify, if_neg hb]
        obtain ⟨n, hn⟩ := Option.isSome_iff_exists.mp (h.idle a hmem).1
        have hsound : q.Sound (a :: refs) := by
          refine ⟨fun b => ?_, fun b hb => ?_, hnodup.2⟩
          · rw [List.count_cons]
            by_cases hb : b = a
            · subst hb
              have hat : q.block b = some { n with count := 1 } := by
                change (p.modify b fun b => { b with count := 1 }).block b = _
                rw [block_modify, if_pos rfl, hn]
                rfl
              simp [cnt, hat, List.count_eq_zero.mpr hnot]
            · rw [cnt, hblock b hb, ← cnt, h.counted]
              simp [Ne.symm hb]
          · have hne : b ≠ a := fun heq => hnodup.1 (heq ▸ hb)
            rw [cnt, hblock b hne]
            exact h.idle b (by rw [hfree]; exact List.mem_cons_of_mem _ hb)
        refine ⟨fun b _ => hval b, fun hnone => ?_, fun c hc => ?_, fun b v hv => (hval b).symm.trans hv⟩
        · cases hnone
        obtain rfl : a = c := Option.some.inj hc
        exact ⟨hnot, hsound, hval a, by simpa [Option.any_eq_true] using hfit⟩
      · rw [if_neg hfit]
        let q : Pool α := { p.discard a with free := free }
        have hq : q.Sound refs := by
          refine ⟨fun b => ?_, fun b hb => ?_, hnodup.2⟩
          · change (p.discard a).cnt b = _
            rw [cnt, block_discard]
            split
            · next heq => rw [heq, List.count_eq_zero.mpr hnot]; rfl
            · exact h.counted b
          · have hne : b ≠ a := fun heq => hnodup.1 (heq ▸ hb)
            change ((p.discard a).block b).isSome ∧ (p.discard a).cnt b = 0
            rw [cnt, block_discard, if_neg hne]
            exact h.idle b (by rw [hfree]; exact List.mem_cons_of_mem _ hb)
        have hthen := ih hq rfl
        have hval : ∀ b, b ≠ a → q.val? b = p.val? b := fun b hb => by
          change (p.discard a).val? b = _
          rw [val?_discard, if_neg hb]
        have horigin : ∀ b v, q.val? b = some v → p.val? b = some v := fun b v hv => by
          change (p.discard a).val? b = _ at hv
          rw [val?_discard] at hv
          split at hv
          · cases hv
          · exact hv
        refine ⟨fun b hb => ?_, hthen.missed, fun c hc => ?_, fun b v hv => horigin b v (hthen.origin b v hv)⟩
        · rw [hthen.kept b hb, hval b fun heq => hnot (heq ▸ hb)]
        · obtain ⟨hc, hsound, hsame, v, hv, hfits⟩ := hthen.found c hc
          have hp := horigin c v hv
          exact ⟨hc, hsound, by rw [hsame, hv, hp], v, hp, hfits⟩

theorem Sound.reuse (h : p.Sound refs) (fit : α → Bool) : Reused p fit refs (p.reuse fit) :=
  h.reuseFrom fit rfl

end Pool

end BlockPool
