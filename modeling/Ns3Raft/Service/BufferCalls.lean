import Ns3Raft.Service.Cursor

/-! # Runs of calls on buffers

A run allocates buffers and calls them in any order, some with another buffer as the
argument. The same calls are played on blocks and on arrays with a cursor.
-/

namespace Ns3Raft.Service

/-- What a call returns. -/
inductive Value where
  | unit
  | int (v : Int32)
  | ulong (v : UInt64)
  | byte (v : UInt8)
  | str (v : Option Bytes)
  deriving DecidableEq, Repr

/-- The calls without another buffer. -/
inductive Call where
  | putByte (b : UInt8)
  | putInt (val : Int32)
  | putUlong (val : UInt64)
  | putStr (str : Bytes)
  | getInt
  | getUlong
  | getByte
  | getStr
  | setPos (q : Nat)
  deriving DecidableEq, Repr

/-- The buffers of a run go by the order of their allocation. -/
inductive Action where
  | alloc (heap : Nat → UInt8) (size : Nat)
  | call (i : Nat) (c : Call)
  | putBuffer (i src : Nat)
  | getInto (i dst : Nat)

/-- What the class offers, over its blocks or over their abstraction. -/
structure Members (β : Type) where
  alloc : (Nat → UInt8) → Nat → Except String β
  call : Call → β → Except String Value × β
  putBuffer : β → β → Except String Unit × β
  getInto : β → β → Except String Unit × β × β

def Block.call : Call → Block → Except String Value × Block
  | .putByte b, p => let (r, p') := p.putByte b; (r.map fun _ => .unit, p')
  | .putInt val, p => let (r, p') := p.putInt val; (r.map fun _ => .unit, p')
  | .putUlong val, p => let (r, p') := p.putUlong val; (r.map fun _ => .unit, p')
  | .putStr str, p => let (r, p') := p.putStr str; (r.map fun _ => .unit, p')
  | .getInt, p => let (r, p') := p.getInt; (r.map .int, p')
  | .getUlong, p => let (r, p') := p.getUlong; (r.map .ulong, p')
  | .getByte, p => let (r, p') := p.getByte; (r.map .byte, p')
  | .getStr, p => let (r, p') := p.getStr; (.ok (.str r), p')
  | .setPos q, p => (.ok .unit, p.setPos q)

def Block.members : Members Block where
  alloc := Block.alloc
  call := Block.call
  putBuffer := Block.putBuffer
  getInto p dst := (.ok (), p.getInto dst)

def Buffer.call : Call → Buffer → Except String Value × Buffer
  | .putByte byte, b => let (r, b') := b.putByte byte; (r.map fun _ => .unit, b')
  | .putInt val, b => let (r, b') := b.putInt val; (r.map fun _ => .unit, b')
  | .putUlong val, b => let (r, b') := b.putUlong val; (r.map fun _ => .unit, b')
  | .putStr str, b => let (r, b') := b.putStr str; (r.map fun _ => .unit, b')
  | .getInt, b => let (r, b') := b.getInt; (r.map .int, b')
  | .getUlong, b => let (r, b') := b.getUlong; (r.map .ulong, b')
  | .getByte, b => let (r, b') := b.getByte; (r.map .byte, b')
  | .getStr, b => let (r, b') := b.getStr; (.ok (.str r), b')
  | .setPos q, b => (.ok .unit, b.setPos q)

def Buffer.members : Members Buffer where
  alloc := Buffer.allocate
  call := Buffer.call
  putBuffer := Buffer.putBuffer
  getInto := Buffer.getInto

namespace Members

variable {β : Type} (m : Members β)

/-- A name that no buffer has leaves the pool as it is. -/
def step (pool : List β) : Action → Except String Value × List β
  | .alloc heap size =>
      match m.alloc heap size with
      | .ok b => (.ok .unit, pool ++ [b])
      | .error e => (.error e, pool)
  | .call i c =>
      match pool[i]? with
      | none => (.ok .unit, pool)
      | some b => let (r, b') := m.call c b; (r, pool.set i b')
  | .putBuffer i j =>
      match pool[i]?, pool[j]? with
      | some b, some src =>
          let (r, b') := m.putBuffer b src
          (r.map fun _ => .unit, pool.set i b')
      | _, _ => (.ok .unit, pool)
  | .getInto i j =>
      match pool[i]?, pool[j]? with
      | some b, some dst =>
          -- when both are one buffer its bytes are copied onto themselves
          let (r, dst', b') := m.getInto b dst
          (r.map fun _ => .unit, (pool.set j dst').set i b')
      | _, _ => (.ok .unit, pool)

/-- What the actions return, and the pool they leave. -/
def play (pool : List β) : List Action → List (Except String Value) × List β
  | [] => ([], pool)
  | a :: as =>
      let (r, pool') := m.step pool a
      let (rs, last) := play pool' as
      (r :: rs, last)

end Members

/-! ## A call that throws -/

/-- The block is as it was if the call throws. -/
def Keeps {α β : Type} (x : Except String α × β) (p : β) : Prop := ∀ e, x.1 = .error e → x.2 = p

theorem Keeps.of_ok {α β : Type} {r : Except String α} {p' p : β} {v : α} (h : r = .ok v) :
    Keeps (r, p') p :=
  fun e he => nomatch h.symm.trans he

theorem Keeps.map {α β γ : Type} {x : Except String α × β} {p : β} (h : Keeps x p) (f : α → γ) :
    Keeps (x.1.map f, x.2) p := by
  rintro e he
  obtain ⟨r, p'⟩ := x
  cases r with
  | error e' => exact h e' rfl
  | ok v => cases he

namespace Block

theorem keeps_ite {α : Type} {c : Prop} [Decidable c] {text : String} {v : α} {p p' : Block} :
    Keeps (if c then (.error text, p) else (.ok v, p')) p := by
  split
  · exact fun _ _ => rfl
  · exact .of_ok rfl

theorem keeps_call (c : Call) (p : Block) : Keeps (call c p) p := by
  cases c with
  | putByte b => exact Keeps.map (x := p.putByte b) keeps_ite _
  | putInt val => exact Keeps.map (x := p.putInt val) keeps_ite _
  | putUlong val => exact Keeps.map (x := p.putUlong val) keeps_ite _
  | putStr str => exact Keeps.map (x := p.putStr str) keeps_ite _
  | getInt => exact Keeps.map (x := p.getInt) keeps_ite _
  | getUlong => exact Keeps.map (x := p.getUlong) keeps_ite _
  | getByte => exact Keeps.map (x := p.getByte) keeps_ite _
  | getStr => exact .of_ok rfl
  | setPos q => exact .of_ok rfl

end Block

/-- An action that throws leaves every buffer as it was. -/
theorem keeps_step (pool : List Block) (a : Action) : Keeps (Block.members.step pool a) pool := by
  cases a with
  | alloc heap size =>
      simp only [Members.step]
      split
      · exact .of_ok rfl
      · exact fun _ _ => rfl
  | call i c =>
      simp only [Members.step]
      split
      · exact .of_ok rfl
      · next p hp =>
          intro e he
          have hkept : (Block.call c p).2 = p := Block.keeps_call c p e he
          obtain ⟨hi, rfl⟩ := List.getElem?_eq_some_iff.mp hp
          simp only [Block.members, hkept, List.set_getElem_self]
  | putBuffer i j =>
      simp only [Members.step]
      split
      · next p src hp hsrc =>
          intro e he
          have hkept : (p.putBuffer src).2 = p :=
            (Keeps.map (x := p.putBuffer src) Block.keeps_ite fun _ => Value.unit) e he
          obtain ⟨hi, rfl⟩ := List.getElem?_eq_some_iff.mp hp
          simp only [Block.members, hkept, List.set_getElem_self]
      · exact .of_ok rfl
  | getInto i j =>
      simp only [Members.step]
      split
      · exact .of_ok rfl
      · exact .of_ok rfl

/-! ## Blocks and arrays -/

section related

variable {α β : Type} {R : α → β → Prop} {as : List α} {bs : List β}

theorem related_getElem? (h : List.Forall₂ R as bs) (i : Nat) :
    (as[i]? = none ∧ bs[i]? = none) ∨ ∃ a b, as[i]? = some a ∧ bs[i]? = some b ∧ R a b := by
  induction h generalizing i with
  | nil => exact .inl ⟨rfl, rfl⟩
  | cons hab _ ih =>
      cases i with
      | zero => exact .inr ⟨_, _, rfl, rfl, hab⟩
      | succ i => exact ih i

theorem related_set {a : α} {b : β} (h : List.Forall₂ R as bs) (i : Nat) (hab : R a b) :
    List.Forall₂ R (as.set i a) (bs.set i b) := by
  induction h generalizing i with
  | nil => exact .nil
  | cons hxy hrest ih =>
      cases i with
      | zero => exact .cons hab hrest
      | succ i => exact .cons hxy (ih i)

end related

theorem Agree.map {α γ : Type} {x : Block.Called α} {y : Except String α × Buffer} (h : Agree x y)
    (f : α → γ) : Agree (x.1.map f, x.2) (y.1.map f, y.2) :=
  ⟨congrArg (·.map f) h.1, h.2⟩

theorem Holds.call {p : Block} {b : Buffer} (h : Holds p b) (c : Call) :
    Agree (Block.call c p) (Buffer.call c b) := by
  cases c with
  | putByte byte => exact Agree.map (x := p.putByte byte) h.store _
  | putInt val => exact Agree.map (x := p.putInt val) h.store _
  | putUlong val => exact Agree.map (x := p.putUlong val) h.store _
  | putStr str => exact Agree.map (x := p.putStr str) h.store _
  | getInt => exact h.getInt.map _
  | getUlong => exact h.getUlong.map _
  | getByte => exact h.getByte.map _
  | getStr => exact Agree.map (f := Value.str) h.getStr
  | setPos q => exact ⟨rfl, h.setPos q⟩

/-- `get (bufptr&)` is called when the buffer has as much as the destination takes. -/
def Fits (pool : List Block) : Action → Prop
  | .getInto i j => ∀ p ∈ pool[i]?, ∀ dst ∈ pool[j]?, dst.avail ≤ p.avail
  | _ => True

variable {pool : List Block} {bufs : List Buffer} {a : Action}

theorem step_refines (h : List.Forall₂ Holds pool bufs) (hfit : Fits pool a) :
    (Block.members.step pool a).1 = (Buffer.members.step bufs a).1 ∧
      List.Forall₂ Holds (Block.members.step pool a).2 (Buffer.members.step bufs a).2 := by
  cases a with
  | alloc heap size =>
      by_cases hsize : size < 0x80000000
      · obtain ⟨p, b, hp, hb, hhold, -⟩ := alloc_of_lt (m := heap) hsize
        simp only [Members.step, Block.members, Buffer.members, hp, hb]
        exact ⟨trivial, List.rel_append h (.cons hhold .nil)⟩
      · obtain ⟨e, hp, hb⟩ := alloc_of_le (m := heap) (Nat.not_lt.mp hsize)
        simp only [Members.step, Block.members, Buffer.members, hp, hb]
        exact ⟨trivial, h⟩
  | call i c =>
      rcases related_getElem? h i with ⟨hp, hb⟩ | ⟨p, b, hp, hb, hhold⟩
      · simp only [Members.step, hp, hb]
        exact ⟨trivial, h⟩
      · obtain ⟨hret, hkept⟩ := hhold.call c
        simp only [Members.step, hp, hb]
        exact ⟨hret, related_set h i hkept⟩
  | putBuffer i j =>
      rcases related_getElem? h i with ⟨hp, hb⟩ | ⟨p, b, hp, hb, hhold⟩
      · simp only [Members.step, hp, hb]
        exact ⟨trivial, h⟩
      rcases related_getElem? h j with ⟨hq, hsrc⟩ | ⟨q, src, hq, hsrc, hhold'⟩
      · simp only [Members.step, hp, hb, hq, hsrc]
        exact ⟨trivial, h⟩
      · obtain ⟨hret, hkept⟩ := (hhold.putBuffer hhold').map fun _ => Value.unit
        simp only [Members.step, hp, hb, hq, hsrc]
        exact ⟨hret, related_set h i hkept⟩
  | getInto i j =>
      rcases related_getElem? h i with ⟨hp, hb⟩ | ⟨p, b, hp, hb, hhold⟩
      · simp only [Members.step, hp, hb]
        exact ⟨trivial, h⟩
      rcases related_getElem? h j with ⟨hq, hdst⟩ | ⟨q, dst, hq, hdst, hhold'⟩
      · simp only [Members.step, hp, hb, hq, hdst]
        exact ⟨trivial, h⟩
      · have hle : dst.remaining ≤ b.remaining := by
          rw [← hhold.avail_eq, ← hhold'.avail_eq]
          exact hfit p hp q hq
        obtain ⟨hret, hfilled, hkept⟩ := hhold.getInto hhold' hle
        simp only [Members.step, hp, hb, hq, hdst, Block.members, Buffer.members, hret]
        exact ⟨trivial, related_set (related_set h j hfilled) i hkept⟩

/-- Without the condition `get (bufptr&)` returns where an array would throw. -/
theorem step_returns (h : List.Forall₂ Holds pool bufs) (hfit : ¬ Fits pool a) :
    (Block.members.step pool a).1 ≠ (Buffer.members.step bufs a).1 := by
  cases a with
  | getInto i j =>
      simp only [Fits, not_forall] at hfit
      obtain ⟨p, hp, q, hq, hlt⟩ := hfit
      rcases related_getElem? h i with ⟨hp', -⟩ | ⟨p', b, hp', hb, hhold⟩
      · cases hp.symm.trans hp'
      rcases related_getElem? h j with ⟨hq', -⟩ | ⟨q', dst, hq', hdst, hhold'⟩
      · cases hq.symm.trans hq'
      obtain rfl := Option.some.inj (hp.symm.trans hp')
      obtain rfl := Option.some.inj (hq.symm.trans hq')
      have hthrow : ¬ dst.remaining ≤ b.remaining := by
        rwa [← hhold.avail_eq, ← hhold'.avail_eq]
      simp only [Members.step, hp', hb, hq', hdst, Block.members, Buffer.members, Buffer.getInto,
        dif_neg hthrow]
      intro heq
      cases heq
  | alloc heap size => exact absurd trivial hfit
  | call i c => exact absurd trivial hfit
  | putBuffer i j => exact absurd trivial hfit

/-! ## Sizes -/

namespace Buffer

variable (b : Buffer)

theorem next_size (text : String) (n : Nat) : (b.next text n).2.size = b.size := by
  unfold next
  split <;> rfl

theorem fill_size (text : String) (bytes : Bytes) : (b.fill text bytes).2.size = b.size := by
  by_cases h : bytes.length ≤ b.remaining
  · obtain ⟨b', hfill, hsize, -⟩ := b.fill_of_le (t := text) h
    rw [hfill, hsize]
  · rw [b.fill_of_lt (Nat.not_le.mp h)]

theorem getStr_size : b.getStr.2.size = b.size := by
  unfold getStr
  dsimp only
  split <;> rfl

theorem call_size (c : Call) : (Buffer.call c b).2.size = b.size := by
  cases c with
  | putByte byte => exact b.fill_size _ _
  | putInt val => exact b.fill_size _ _
  | putUlong val => exact b.fill_size _ _
  | putStr str => exact b.fill_size _ _
  | getInt => exact b.next_size _ _
  | getUlong => exact b.next_size _ _
  | getByte => exact b.next_size _ _
  | getStr => exact b.getStr_size
  | setPos q => rfl

theorem refill_size {bytes : Bytes} (h : bytes.length = b.remaining) : (b.refill bytes h).size = b.size := by
  have hle := b.pos_le
  simp only [refill, size, List.length_append, List.length_take, h, remaining]
  omega

theorem getInto_size (dst : Buffer) :
    (b.getInto dst).2.1.size = dst.size ∧ (b.getInto dst).2.2.size = b.size := by
  unfold getInto
  split
  · next h =>
      have hlen : (b.data.take dst.remaining).length = dst.remaining := by
        simpa [data_length] using h
      exact ⟨dst.refill_size hlen, rfl⟩
  · exact ⟨rfl, rfl⟩

end Buffer

/-- The sizes that were allocated. -/
def allocated : List Action → List Nat
  | [] => []
  | .alloc _ size :: as => if size < 0x80000000 then size :: allocated as else allocated as
  | _ :: as => allocated as

/-- What a buffer became has its size. -/
theorem map_size_set {i : Nat} {b' : Buffer} (h : (bufs.map Buffer.size)[i]? = some b'.size) :
    (bufs.set i b').map Buffer.size = bufs.map Buffer.size := by
  obtain ⟨hi, hsize⟩ := List.getElem?_eq_some_iff.mp h
  rw [List.map_set, ← hsize, List.set_getElem_self]

theorem getElem?_map_size {i : Nat} {b : Buffer} (h : bufs[i]? = some b) :
    (bufs.map Buffer.size)[i]? = some b.size := by
  rw [List.getElem?_map, h, Option.map_some]

theorem step_sizes (bufs : List Buffer) (a : Action) :
    (Buffer.members.step bufs a).2.map Buffer.size = bufs.map Buffer.size ++ allocated [a] := by
  cases a with
  | alloc heap size =>
      by_cases hsize : size < 0x80000000
      · obtain ⟨p, b, -, hb, -, hbsize⟩ := alloc_of_lt (m := heap) hsize
        simp [Members.step, Buffer.members, hb, allocated, hsize, hbsize]
      · obtain ⟨e, -, hb⟩ := alloc_of_le (m := heap) (Nat.not_lt.mp hsize)
        simp [Members.step, Buffer.members, hb, allocated, hsize]
  | call i c =>
      simp only [Members.step, allocated, List.append_nil]
      split
      · rfl
      · next b hb => exact map_size_set ((getElem?_map_size hb).trans (congrArg some (b.call_size c).symm))
  | putBuffer i j =>
      simp only [Members.step, allocated, List.append_nil]
      split
      · next b src hb _ =>
          have hsize : (Buffer.putBuffer b src).2.size = b.size := b.fill_size _ _
          exact map_size_set ((getElem?_map_size hb).trans (congrArg some hsize.symm))
      · rfl
  | getInto i j =>
      simp only [Members.step, allocated, List.append_nil]
      split
      · next b dst hb hdst =>
          obtain ⟨hfilled, hleft⟩ := b.getInto_size dst
          have hfirst : (bufs.set j (b.getInto dst).2.1).map Buffer.size = bufs.map Buffer.size :=
            map_size_set ((getElem?_map_size hdst).trans (congrArg some hfilled.symm))
          refine (map_size_set ?_).trans hfirst
          have hthere := (getElem?_map_size hb).trans (congrArg some hleft.symm)
          exact (congrArg (·[i]?) hfirst).trans hthere
      · rfl

theorem play_sizes (bufs : List Buffer) (as : List Action) :
    (Buffer.members.play bufs as).2.map Buffer.size = bufs.map Buffer.size ++ allocated as := by
  induction as generalizing bufs with
  | nil => simp [Members.play, allocated]
  | cons a as ih =>
      have hsplit : allocated (a :: as) = allocated [a] ++ allocated as := by
        cases a <;> simp only [allocated, List.nil_append]
        split <;> simp
      simp only [Members.play]
      rw [ih, step_sizes, hsplit, List.append_assoc]

/-! ## Runs -/

/-- Every action of the run is one that fits when it is taken. -/
def AllFit (pool : List Block) : List Action → Prop
  | [] => True
  | a :: as => Fits pool a ∧ AllFit (Block.members.step pool a).2 as

/-- The blocks did what the arrays do: the same was returned and thrown by every call, and
each block holds its array. -/
def AsArrays (as : List Action) : Prop :=
  (Block.members.play [] as).1 = (Buffer.members.play [] as).1 ∧
    List.Forall₂ Holds (Block.members.play [] as).2 (Buffer.members.play [] as).2

theorem play_refines_iff (h : List.Forall₂ Holds pool bufs) (as : List Action) :
    ((Block.members.play pool as).1 = (Buffer.members.play bufs as).1 ∧
      List.Forall₂ Holds (Block.members.play pool as).2 (Buffer.members.play bufs as).2) ↔
    AllFit pool as := by
  induction as generalizing pool bufs with
  | nil => exact ⟨fun _ => trivial, fun _ => ⟨rfl, h⟩⟩
  | cons a as ih =>
      simp only [Members.play, AllFit, List.cons.injEq]
      by_cases hfit : Fits pool a
      · obtain ⟨hret, hnext⟩ := step_refines h hfit
        rw [and_iff_right hret, ih hnext, and_iff_right hfit]
      · have hne := step_returns h hfit
        exact ⟨fun hall => absurd hall.1.1 hne, fun hall => absurd hall.1 hfit⟩

theorem AllFit.of_append {as as' : List Action} (h : AllFit pool (as ++ as')) : AllFit pool as := by
  induction as generalizing pool with
  | nil => trivial
  | cons a as ih => exact ⟨h.1, ih h.2⟩

/-- The pool after the actions: its headers decode to the sizes that were allocated and to
cursors that are inside, the calls so far returned what they return on arrays, and a call
that throws next changes nothing. -/
structure Represented (as : List Action) : Prop where
  sizes : (Block.members.play [] as).2.map Block.size = allocated as
  inside : ∀ p ∈ (Block.members.play [] as).2, p.pos ≤ p.size
  asArrays : AsArrays as
  thrown : ∀ a, Keeps (Block.members.step (Block.members.play [] as).2 a) (Block.members.play [] as).2

theorem represented_of_asArrays {as : List Action} (h : AsArrays as) : Represented as := by
  have hholds := h.2
  refine ⟨?_, ?_, h, fun a => keeps_step _ a⟩
  · have hsizes : (Block.members.play [] as).2.map Block.size =
        (Buffer.members.play [] as).2.map Buffer.size := by
      rw [← List.forall₂_eq_eq_eq, List.forall₂_map_left_iff, List.forall₂_map_right_iff]
      exact hholds.imp fun p b hhold => hhold.size_eq
    rw [hsizes, play_sizes, List.map_nil, List.nil_append]
  · intro p hp
    obtain ⟨i, hi⟩ := List.mem_iff_getElem?.mp hp
    rcases related_getElem? hholds i with ⟨hnone, -⟩ | ⟨p', b, hp', -, hhold⟩
    · cases hi.symm.trans hnone
    · obtain rfl := Option.some.inj (hi.symm.trans hp')
      rw [hhold.size_eq, hhold.pos_eq]
      exact b.pos_le

/-- Exactly the runs without a `get (bufptr&)` that asks for too much represent their buffers
throughout. -/
theorem represented_iff_allFit (as : List Action) :
    (∀ before, before <+: as → Represented before) ↔ AllFit [] as := by
  constructor
  · intro h
    exact (play_refines_iff .nil as).mp (h as List.prefix_rfl).asArrays
  · rintro h before ⟨rest, rfl⟩
    exact represented_of_asArrays ((play_refines_iff .nil before).mpr h.of_append)

/-- A buffer of eight bytes filled from one of four. -/
def overread : List Action := [.alloc (fun _ => 0) 4, .alloc (fun _ => 0) 8, .getInto 0 1]

theorem not_represented_overread : ¬ Represented overread := by
  intro h
  have houtside : ∃ p ∈ (Block.members.play [] overread).2, p.size < p.pos := by decide +kernel
  obtain ⟨p, hp, hlt⟩ := houtside
  exact absurd (h.inside p hp) (Nat.not_le.mpr hlt)

end Ns3Raft.Service
