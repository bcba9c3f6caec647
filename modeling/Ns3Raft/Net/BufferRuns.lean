import Ns3Raft.Net.BufferAppend

/-! # Programs over buffers

Any number of buffers are made from each other, changed and destroyed. Next to them
runs a model in which every buffer has a byte string of its own. The two read the same
as long as no sum of sizes wraps and no write misses the zero area of its target.
-/

namespace Ns3Raft.Net

open Slices BlockPool

/-- What a program does with an iterator. `writeFrom` is `Write (start, end)` with the source at two
positions; the other writes of words are these in a row. -/
inductive BufferWrite where
  | next (n : Nat)
  | prev (n : Nat)
  | writeU8 (x : UInt8)
  | writeU8s (x : UInt8) (len : Nat)
  | write (bytes : List UInt8)
  | writeHtonU16 (x : UInt16)
  | writeHtonU32 (x : UInt32)
  | writeFrom (j start stop : Nat)
  deriving DecidableEq, Repr

/-- The operations on the buffers in order, the newest first. -/
inductive BufferOp where
  | construct (zeroSize : Nat)
  | copy (j : Nat)
  | assign (i j : Nat)
  | destroy (i : Nat)
  | addAtStart (i n : Nat) (writes : List BufferWrite)
  | addAtEnd (i n : Nat) (writes : List BufferWrite)
  | append (i j : Nat)
  | removeAtStart (i n : Nat)
  | removeAtEnd (i n : Nat)
  | createFragment (j start length : Nat)
  deriving DecidableEq, Repr

namespace BufferWrite

open Buffer

def run (env : BufferEnv) (bufs : List Buffer) (h : BufferHeap) (it : Iterator) :
    BufferWrite → Option (BufferHeap × Iterator)
  | next n => some (h, it.next n)
  | prev n => some (h, it.prev n)
  | writeU8 x => it.writeU8 h x
  | writeU8s x len => it.writeU8s h x len
  | write bytes => it.write h bytes
  | writeHtonU16 x => it.writeHtonU16 h x
  | writeHtonU32 x => it.writeHtonU32 h x
  | writeFrom j start stop => do
    let o ← bufs[j]?
    it.writeRange env h (o.first.next start) (o.first.next stop)

def runAll (env : BufferEnv) (bufs : List Buffer) : BufferHeap → Iterator → List BufferWrite → Option BufferHeap
  | h, _, [] => some h
  | h, it, w :: ws => do
    let (h, it) ← w.run env bufs h it
    runAll env bufs h it ws

/-! ## On byte strings -/

/-- The bytes that a write puts down. -/
def bytes (values : List (List UInt8)) : BufferWrite → List UInt8
  | next _ | prev _ => []
  | writeU8 x => [x]
  | writeU8s x len => List.replicate len x
  | write bytes => bytes
  | writeHtonU16 x => [(x >>> 8).toUInt8, x.toUInt8]
  | writeHtonU32 x => [(x >>> 24).toUInt8, (x >>> 16).toUInt8, (x >>> 8).toUInt8, x.toUInt8]
  | writeFrom j start stop => slice (values.getD j []) start (stop - start)

def moved (values : List (List UInt8)) (pos : Nat) : BufferWrite → Nat
  | next n => pos + n
  | prev n => pos - n
  | w => pos + (w.bytes values).length

def owned (values : List (List UInt8)) (v : List UInt8) (pos : Nat) (w : BufferWrite) : List UInt8 :=
  overwrite v pos (w.bytes values)

def ownedAll (values : List (List UInt8)) : List UInt8 → Nat → List BufferWrite → List UInt8
  | v, _, [] => v
  | v, pos, w :: ws => ownedAll values (w.owned values v pos) (w.moved values pos) ws

/-- The iterator stays in the buffer `i` of `size` bytes, and what it writes from `lo` to `hi`. -/
def Confined (values : List (List UInt8)) (i size lo hi pos : Nat) : BufferWrite → Prop
  | next n => pos + n ≤ size
  | prev n => n ≤ pos
  | writeFrom j start stop =>
      j ≠ i ∧ j < values.length ∧ start ≤ stop ∧ stop ≤ (values.getD j []).length ∧
        lo ≤ pos ∧ pos + (stop - start) ≤ hi
  | w => lo ≤ pos ∧ pos + (w.bytes values).length ≤ hi

instance (values : List (List UInt8)) (i size lo hi pos : Nat) :
    ∀ w : BufferWrite, Decidable (w.Confined values i size lo hi pos)
  | next _ | prev _ => inferInstanceAs (Decidable (_ ≤ _))
  | writeFrom .. => inferInstanceAs (Decidable (_ ∧ _))
  | writeU8 _ | writeU8s .. | write _ | writeHtonU16 _ | writeHtonU32 _ => inferInstanceAs (Decidable (_ ∧ _))

def ConfinedAll (values : List (List UInt8)) (i size lo hi : Nat) : Nat → List BufferWrite → Prop
  | _, [] => True
  | pos, w :: ws => w.Confined values i size lo hi pos ∧ ConfinedAll values i size lo hi (w.moved values pos) ws

instance ConfinedAll.instDecidable (values : List (List UInt8)) (i size lo hi : Nat) :
    ∀ (pos : Nat) (ws : List BufferWrite), Decidable (ConfinedAll values i size lo hi pos ws)
  | _, [] => .isTrue trivial
  | pos, w :: ws =>
      have := ConfinedAll.instDecidable values i size lo hi (w.moved values pos) ws
      inferInstanceAs (Decidable (_ ∧ _))

/-- A write from another buffer finds its target and, where assertions are compiled, does not meet its
own data. -/
def Aimed (env : BufferEnv) (bufs : List Buffer) (aimed inPlace : Prop) (b : Buffer) : BufferWrite → Prop
  | writeFrom j start stop =>
      (aimed ∨ start = stop) ∧
        (env.asserts → inPlace → ∀ o ∈ bufs[j]?, b.data ≠ o.data)
  | _ => True

instance (env : BufferEnv) (bufs : List Buffer) (aimed inPlace : Prop) [Decidable aimed] [Decidable inPlace]
    (b : Buffer) : ∀ w : BufferWrite, Decidable (w.Aimed env bufs aimed inPlace b)
  | writeFrom .. => inferInstanceAs (Decidable (_ ∧ _))
  | next _ | prev _ | writeU8 _ | writeU8s .. | write _ | writeHtonU16 _ | writeHtonU32 _ => .isTrue trivial

end BufferWrite

namespace Buffer

open BufferHeap

variable {env : BufferEnv} {h h' : BufferHeap} {b b₀ c o : Buffer} {bs bufs : List Buffer} {values : List (List UInt8)}
  {n i lo hi pos : Nat} {w : BufferWrite} {aimed inPlace : Prop}

/-- The buffers that may be written from are those of the program. -/
def Sources (h : BufferHeap) (bs bufs : List Buffer) (values : List (List UInt8)) (i : Nat) : Prop :=
  ∀ j, j ≠ i → j < values.length → ∃ o, bufs[j]? = some o ∧ o ∈ bs ∧ contentsOf h o = values.getD j []

/-- What a write, or several, do to the buffers. -/
structure Wrote (h h' : BufferHeap) (b : Buffer) (bs : List Buffer) (v : List UInt8) : Prop extends
    Joined h h' b bs where
  contents : contentsOf h' b = v

theorem Sources.of_joined (hsrc : Sources h bs bufs values i) (hj : Joined h h' b bs) :
    Sources h' bs bufs values i := fun j hji hj' => by
  obtain ⟨o, ho, hmem, hread⟩ := hsrc j hji hj'
  exact ⟨o, ho, hmem, (hj.others o hmem).trans hread⟩

/-- A write of bytes that the buffer may write to. -/
theorem Written.wrote {vs : List UInt8} (hw : Written h h' b bs pos vs) :
    Wrote h h' b bs (overwrite (contentsOf h b) pos vs) := ⟨⟨hw.sharing, hw.others⟩, hw.contents⟩

/-- One write. -/
theorem Sharing.runWrite (hs : Sharing h (b :: bs)) (hw : Writable b bs lo hi) (hsrc : Sources h bs bufs values i)
    (hzeros : aimed → hi ≤ b.front ∨ b.zeros = 0)
    (hplace : ∀ o ∈ bs, b.data = o.data → inPlace ∧ b₀.data = o.data) (hpos : pos ≤ b.length)
    (hin : w.Confined values i b.length lo hi pos) (haim : w.Aimed env bufs aimed inPlace b₀) :
    ∃ h', w.run env bufs h (b.iteratorAt pos) = some (h', b.iteratorAt (w.moved values pos)) ∧
      Wrote h h' b bs (w.owned values (contentsOf h b) pos) ∧ w.moved values pos ≤ b.length := by
  obtain ⟨d, -, hfits⟩ := hs.exists_fits List.mem_cons_self
  have hle := hw.le_length
  have hsame : Wrote h h b bs (overwrite (contentsOf h b) pos []) := ⟨⟨hs, fun _ _ => rfl⟩, by rw [overwrite_nil]⟩
  cases w with
  | next n =>
      have hin : pos + n ≤ b.length := hin
      exact ⟨h, by rw [BufferWrite.run, hfits.next_eq hin]; rfl, hsame, hin⟩
  | prev n =>
      have hin : n ≤ pos := hin
      exact ⟨h, by rw [BufferWrite.run, hfits.prev_eq hin hpos]; rfl, hsame, Nat.le_trans (Nat.sub_le _ _) hpos⟩
  | writeU8 x =>
      obtain ⟨hlo, hhi⟩ : lo ≤ pos ∧ pos + 1 ≤ hi := hin
      obtain ⟨h', hrun, hwrote⟩ := hs.writeU8 hw hlo hhi x
      exact ⟨h', hrun, hwrote.wrote, Nat.le_trans hhi hle⟩
  | writeU8s x len =>
      obtain ⟨hlo, hhi⟩ := hin
      simp only [BufferWrite.bytes, List.length_replicate] at hhi
      obtain ⟨h', hrun, hwrote⟩ := hs.writeU8s hw hlo hhi x
      refine ⟨h', ?_, hwrote.wrote, ?_⟩
      · simpa only [BufferWrite.run, BufferWrite.moved, BufferWrite.bytes, List.length_replicate] using hrun
      · simpa only [BufferWrite.moved, BufferWrite.bytes, List.length_replicate] using Nat.le_trans hhi hle
  | write bytes =>
      obtain ⟨hlo, hhi⟩ := hin
      obtain ⟨h', hrun, hwrote⟩ := hs.write hw hlo hhi
      exact ⟨h', hrun, hwrote.wrote, Nat.le_trans hhi hle⟩
  | writeHtonU16 x =>
      obtain ⟨hlo, hhi⟩ := hin
      obtain ⟨h', hrun, hwrote⟩ := hs.writeHton hw hlo hhi (List.cons_ne_nil _ _)
      exact ⟨h', hrun, hwrote.wrote, Nat.le_trans hhi hle⟩
  | writeHtonU32 x =>
      obtain ⟨hlo, hhi⟩ := hin
      obtain ⟨h', hrun, hwrote⟩ := hs.writeHton hw hlo hhi (List.cons_ne_nil _ _)
      exact ⟨h', hrun, hwrote.wrote, Nat.le_trans hhi hle⟩
  | writeFrom j start stop =>
      obtain ⟨hji, hj, hstart, hstop, hlo, hhi⟩ := hin
      obtain ⟨haimed, hasserts⟩ := haim
      obtain ⟨o, ho, hmem, hread⟩ := hsrc j hji hj
      obtain ⟨e, -, hfito⟩ := hs.exists_fits (List.mem_cons_of_mem _ hmem)
      rw [← hread, hs.length_contentsOf (List.mem_cons_of_mem _ hmem)] at hstop
      obtain ⟨h', hrun, hwrote⟩ := hs.writeRange env hw hlo hmem _ _ hstart hstop hhi
        (haimed.elim (fun ha => (hzeros ha).elim Or.inl fun hz => Or.inr (Or.inl hz)) fun heq => Or.inr (Or.inr heq))
        fun ha heq => hasserts ha (hplace o hmem heq).1 o ho (hplace o hmem heq).2
      have hlen : (slice (contentsOf h o) start (stop - start)).length = stop - start :=
        length_slice (by rw [hs.length_contentsOf (List.mem_cons_of_mem _ hmem)]; omega)
      rw [hread] at hlen hwrote
      have hmoved : (BufferWrite.writeFrom j start stop).moved values pos = pos + (stop - start) :=
        congrArg (pos + ·) hlen
      rw [hmoved]
      refine ⟨h', ?_, hwrote.wrote, Nat.le_trans hhi hle⟩
      rw [BufferWrite.run, ho]
      change (b.iteratorAt pos).writeRange env h (o.first.next start) (o.first.next stop) = _
      rw [first_eq, hfito.next_eq (show 0 + start ≤ o.length by omega),
        hfito.next_eq (show 0 + stop ≤ o.length by omega), Nat.zero_add, Nat.zero_add, hrun]

/-- All writes, in their order. -/
theorem Sharing.runWrites {ws : List BufferWrite} (pos : Nat) (hs : Sharing h (b :: bs)) (hw : Writable b bs lo hi)
    (hsrc : Sources h bs bufs values i) (hzeros : aimed → hi ≤ b.front ∨ b.zeros = 0)
    (hplace : ∀ o ∈ bs, b.data = o.data → inPlace ∧ b₀.data = o.data) (hpos : pos ≤ b.length)
    (hin : BufferWrite.ConfinedAll values i b.length lo hi pos ws)
    (haim : ∀ w ∈ ws, w.Aimed env bufs aimed inPlace b₀) :
    ∃ h', BufferWrite.runAll env bufs h (b.iteratorAt pos) ws = some h' ∧
      Wrote h h' b bs (BufferWrite.ownedAll values (contentsOf h b) pos ws) := by
  induction ws generalizing h pos with
  | nil => exact ⟨h, rfl, ⟨hs, fun _ _ => rfl⟩, rfl⟩
  | cons w ws ih =>
      obtain ⟨h₁, hrun, hwrote, hpos₁⟩ := hs.runWrite hw hsrc hzeros hplace hpos hin.1 (haim w List.mem_cons_self)
      obtain ⟨h₂, hruns, hwrotes⟩ := ih _ hwrote.sharing (hsrc.of_joined hwrote.toJoined) hpos₁ hin.2
        fun w hw => haim w (List.mem_cons_of_mem _ hw)
      refine ⟨h₂, ?_, ⟨hwrotes.sharing, fun c hc => (hwrotes.others c hc).trans (hwrote.others c hc)⟩, ?_⟩
      · rw [BufferWrite.runAll, hrun]
        exact hruns
      · rw [hwrotes.contents, hwrote.contents, BufferWrite.ownedAll]

theorem Sharing.createFragment {start length : Nat} (hs : Sharing h bs) (ho : o ∈ bs)
    (hin : start + length ≤ (contentsOf h o).length) :
    Joined h (Buffer.createFragment h o start length).1 (Buffer.createFragment h o start length).2 bs ∧
      contentsOf (Buffer.createFragment h o start length).1 (Buffer.createFragment h o start length).2 =
        slice (contentsOf h o) start length := by
  obtain ⟨hjoined, hread⟩ := hs.copy ho
  rw [hs.length_contentsOf ho] at hin
  obtain ⟨d, hd, hfits⟩ := hjoined.sharing.exists_fits List.mem_cons_self
  obtain ⟨e, he, hfito⟩ := hs.exists_fits ho
  obtain ⟨hlength, hreal, hzas, hzae, hstop⟩ := hfito.sizes
  have hsmall := hfito.small
  have hstart : (Buffer.copy h o).2.start + start < 2 ^ 32 := by
    change o.start + start < 2 ^ 32
    omega
  have hleft := hfits.removeAtStart hstart
  have hnarrow := (hleft.fits hfits).removeAtEnd (n := sub32 o.getSize (add32 start length))
  have hcut : sub32 o.getSize (add32 start length) = o.length - (start + length) := by
    rw [hfito.getSize_eq, add32_eq (by omega), sub32_eq hin (by omega)]
  have hdata : ((Buffer.copy h o).2.removeAtStart start).data = (Buffer.copy h o).2.data := hleft.data
  have hrest := hfits.contents_removeAtStart hstart
  rw [← contentsOf_eq hd, hread] at hrest
  have hlen := (hleft.fits hfits).length_contents
  rw [hrest, List.length_drop, hs.length_contentsOf ho] at hlen
  refine ⟨⟨(hjoined.sharing.narrow hleft).narrow hnarrow, hjoined.others⟩, ?_⟩
  have hval : (Buffer.createFragment h o start length).1.pool.val? (Buffer.createFragment h o start length).2.data =
      some d := by
    rw [Buffer.createFragment, hnarrow.data, hdata, hd]
  rw [contentsOf_eq hval, Buffer.createFragment, (hleft.fits hfits).contents_removeAtEnd, hrest, hcut, ← hlen, slice]
  congr 1
  omega

end Buffer

/-! ## The programs -/

/-- `values` are the byte strings of the model in which each buffer owns its own. -/
structure BufferRun where
  heap : BufferHeap
  bufs : List Buffer
  values : List (List UInt8)
  broken : Bool
  deriving DecidableEq, Repr

namespace BufferRun

open Buffer

/-- The buffers after an operation; `none` where memory outside of a block is touched or an assertion fails. -/
def apply (env : BufferEnv) (h : BufferHeap) (bufs : List Buffer) : BufferOp → Option (BufferHeap × List Buffer)
  | .construct zeroSize => do
    let (h, b) ← construct env h zeroSize
    some (h, b :: bufs)
  | .copy j => do
    let o ← bufs[j]?
    let (h, b) := copy h o
    some (h, b :: bufs)
  | .assign i j => do
    let b ← bufs[i]?
    let o ← bufs[j]?
    let (h, b) := assign h b o
    some (h, bufs.set i b)
  | .destroy i => do
    let b ← bufs[i]?
    some (destroy h b, bufs.eraseIdx i)
  | .addAtStart i n ws => do
    let b ← bufs[i]?
    let (h, b) ← addAtStart env h b n
    let h ← BufferWrite.runAll env bufs h b.first ws
    some (h, bufs.set i b)
  | .addAtEnd i n ws => do
    let b ← bufs[i]?
    let (h, b) ← addAtEnd env h b n
    let h ← BufferWrite.runAll env bufs h b.last ws
    some (h, bufs.set i b)
  | .append i j => do
    let b ← bufs[i]?
    let o ← bufs[j]?
    let (h, b) ← append env h b o
    some (h, bufs.set i b)
  | .removeAtStart i n => do
    let b ← bufs[i]?
    some (h, bufs.set i (b.removeAtStart n))
  | .removeAtEnd i n => do
    let b ← bufs[i]?
    some (h, bufs.set i (b.removeAtEnd n))
  | .createFragment j start length => do
    let o ← bufs[j]?
    let (h, b) := createFragment h o start length
    some (h, b :: bufs)

/-- The same on byte strings, where `new` are the bytes that are there before they are written. -/
def owned (new : List UInt8) (values : List (List UInt8)) : BufferOp → List (List UInt8)
  | .construct zeroSize => List.replicate zeroSize 0 :: values
  | .copy j => values.getD j [] :: values
  | .assign i j => values.set i (values.getD j [])
  | .destroy i => values.eraseIdx i
  | .addAtStart i _ ws => values.set i (BufferWrite.ownedAll values (new ++ values.getD i []) 0 ws)
  | .addAtEnd i _ ws =>
      let v := values.getD i [] ++ new
      values.set i (BufferWrite.ownedAll values v v.length ws)
  | .append i j => values.set i (values.getD i [] ++ values.getD j [])
  | .removeAtStart i n => values.set i ((values.getD i []).drop n)
  | .removeAtEnd i n => values.set i ((values.getD i []).take ((values.getD i []).length - n))
  | .createFragment j start length => slice (values.getD j []) start length :: values

/-- What the added bytes hold before they are written. -/
def newBytes (env : BufferEnv) (h : BufferHeap) (bufs : List Buffer) : BufferOp → List UInt8
  | .addAtStart i n _ =>
      match bufs[i]?.bind fun b => addAtStart env h b n with
      | some (h, b) => ((readable h b).take n).map (·.getD 0)
      | none => []
  | .addAtEnd i n _ =>
      match bufs[i]?.bind fun b => addAtEnd env h b n with
      | some (h, b) => ((readable h b).drop (b.getSize - n)).map (·.getD 0)
      | none => []
  | _ => []

def step (env : BufferEnv) (s : BufferRun) (op : BufferOp) : BufferRun :=
  match apply env s.heap s.bufs op with
  | some (h, bufs) => ⟨h, bufs, owned (newBytes env s.heap s.bufs op) s.values op, s.broken⟩
  | none => { s with broken := true }

/-- The operation names buffers that are there, its numbers are of type `uint32_t`, and its writes are
confined to the bytes just added. -/
def Asked (s : BufferRun) : BufferOp → Prop
  | .construct zeroSize => zeroSize < 2 ^ 32
  | .copy j => j < s.values.length
  | .assign i j => i < s.values.length ∧ j < s.values.length
  | .destroy i => i < s.values.length
  | .addAtStart i n ws => i < s.values.length ∧ n < 2 ^ 32 ∧
      BufferWrite.ConfinedAll s.values i ((s.values.getD i []).length + n) 0 n 0 ws
  | .addAtEnd i n ws => i < s.values.length ∧ n < 2 ^ 32 ∧
      BufferWrite.ConfinedAll s.values i ((s.values.getD i []).length + n) (s.values.getD i []).length
        ((s.values.getD i []).length + n) ((s.values.getD i []).length + n) ws
  | .append i j => i < s.values.length ∧ j < s.values.length ∧ i ≠ j
  | .removeAtStart i n | .removeAtEnd i n => i < s.values.length ∧ n < 2 ^ 32
  | .createFragment j start length => j < s.values.length ∧ start + length ≤ (s.values.getD j []).length

instance (s : BufferRun) : ∀ op : BufferOp, Decidable (s.Asked op)
  | .construct _ | .copy _ | .destroy _ => inferInstanceAs (Decidable (_ < _))
  | .assign .. | .addAtStart .. | .addAtEnd .. | .append .. | .removeAtStart .. | .removeAtEnd ..
  | .createFragment .. => inferInstanceAs (Decidable (_ ∧ _))

/-- No sum of sizes wraps, and every write from another buffer finds its target. -/
def Fits (env : BufferEnv) (s : BufferRun) : BufferOp → Prop
  | .construct zeroSize => firstStart env s.heap + zeroSize < 2 ^ 32
  | .addAtStart i n ws => ∀ b ∈ s.bufs[i]?, StartFits s.heap b n ∧
      ∀ w ∈ ws, w.Aimed env s.bufs True (RoomAtStart s.heap b n) b
  | .addAtEnd i n ws => ∀ b ∈ s.bufs[i]?, EndFits s.heap b n ∧
      ∀ w ∈ ws, w.Aimed env s.bufs (b.zeros = 0) (RoomAtEnd s.heap b n) b
  | .append i j => ∀ b ∈ s.bufs[i]?, ∀ o ∈ s.bufs[j]?, AppendFits env s.heap b o
  | .removeAtStart i n => ∀ b ∈ s.bufs[i]?, b.start + n < 2 ^ 32
  | _ => True

instance (env : BufferEnv) (s : BufferRun) : ∀ op : BufferOp, Decidable (s.Fits env op)
  | .construct _ => inferInstanceAs (Decidable (_ < _))
  | .addAtStart i n ws => inferInstanceAs (Decidable (∀ b ∈ s.bufs[i]?, StartFits s.heap b n ∧
      ∀ w ∈ ws, w.Aimed env s.bufs True (RoomAtStart s.heap b n) b))
  | .addAtEnd i n ws => inferInstanceAs (Decidable (∀ b ∈ s.bufs[i]?, EndFits s.heap b n ∧
      ∀ w ∈ ws, w.Aimed env s.bufs (b.zeros = 0) (RoomAtEnd s.heap b n) b))
  | .append i j => inferInstanceAs (Decidable (∀ b ∈ s.bufs[i]?, ∀ o ∈ s.bufs[j]?, AppendFits env s.heap b o))
  | .removeAtStart i n => inferInstanceAs (Decidable (∀ b ∈ s.bufs[i]?, b.start + n < 2 ^ 32))
  | .copy _ | .assign .. | .destroy _ | .removeAtEnd .. | .createFragment .. => .isTrue trivial

/-! ## What holds in every state -/

/-- The buffers share their data well, and read what the model reads. -/
structure Right (s : BufferRun) : Prop where
  sharing : Sharing s.heap s.bufs
  values : s.values = s.bufs.map (contentsOf s.heap)
  unbroken : s.broken = false

variable {env : BufferEnv} {s : BufferRun} {op : BufferOp} {h : BufferHeap} {b b' o : Buffer} {i j : Nat}

theorem map_set_of_kept {f g : α → β} {l : List α} {a : α} (hkept : ∀ c ∈ l.eraseIdx i, g c = f c) :
    (l.set i a).map g = (l.map f).set i (g a) := by
  induction l generalizing i with
  | nil => rfl
  | cons x l ih =>
      cases i with
      | zero =>
          rw [List.eraseIdx_cons_zero] at hkept
          simp only [List.set_cons_zero, List.map_cons, List.map_congr_left hkept]
      | succ i =>
          rw [List.eraseIdx_cons_succ] at hkept
          simp only [List.set_cons_succ, List.map_cons, hkept x List.mem_cons_self,
            ih fun c hc => hkept c (List.mem_cons_of_mem _ hc)]

theorem Right.getD_values (hr : s.Right) (hb : s.bufs[i]? = some b) : s.values.getD i [] = contentsOf s.heap b := by
  rw [hr.values, List.getD_eq_getElem?_getD, List.getElem?_map, hb]
  rfl

theorem Right.exists_buf (hr : s.Right) (hi : i < s.values.length) : ∃ b, s.bufs[i]? = some b := by
  rw [hr.values, List.length_map] at hi
  exact ⟨_, List.getElem?_eq_getElem hi⟩

theorem Right.focus (hr : s.Right) (hb : s.bufs[i]? = some b) : Sharing s.heap (b :: s.bufs.eraseIdx i) := by
  obtain ⟨hi, rfl⟩ := List.getElem?_eq_some_iff.mp hb
  exact hr.sharing.perm (List.getElem_cons_eraseIdx_perm hi).symm

theorem mem_others (hb : s.bufs[j]? = some o) (hji : j ≠ i) : o ∈ s.bufs.eraseIdx i :=
  List.mem_eraseIdx_iff_getElem?.mpr ⟨j, hji, hb⟩

theorem Right.sources (hr : s.Right) : Sources s.heap (s.bufs.eraseIdx i) s.bufs s.values i := fun _ hji hj => by
  obtain ⟨o, ho⟩ := hr.exists_buf hj
  exact ⟨o, ho, mem_others ho hji, (hr.getD_values ho).symm⟩

theorem Right.pushed {v : List UInt8} (hr : s.Right) (hj : Joined s.heap h b s.bufs) (hv : contentsOf h b = v) :
    Right ⟨h, b :: s.bufs, v :: s.values, s.broken⟩ := by
  refine ⟨hj.sharing, ?_, hr.unbroken⟩
  rw [List.map_cons, hv, hr.values, List.map_congr_left hj.others]

theorem Right.replaced {v : List UInt8} (hr : s.Right) (hi : i < s.values.length)
    (hj : Joined s.heap h b (s.bufs.eraseIdx i)) (hv : contentsOf h b = v) :
    Right ⟨h, s.bufs.set i b, s.values.set i v, s.broken⟩ := by
  rw [hr.values, List.length_map] at hi
  refine ⟨hj.sharing.perm (List.set_perm_cons_eraseIdx hi b).symm, ?_, hr.unbroken⟩
  rw [map_set_of_kept hj.others, hv, hr.values]

theorem step_eq (h : BufferHeap) (bufs : List Buffer) (happly : apply env s.heap s.bufs op = some (h, bufs)) :
    step env s op = ⟨h, bufs, owned (newBytes env s.heap s.bufs op) s.values op, s.broken⟩ := by
  rw [step, happly]

/-- Bytes in front, and the writes to them. -/
theorem Right.addAtStart {n : Nat} {ws : List BufferWrite} (hr : s.Right) (hask : s.Asked (.addAtStart i n ws))
    (hfit : s.Fits env (.addAtStart i n ws)) : (step env s (.addAtStart i n ws)).Right := by
  obtain ⟨hi, -, hconfined⟩ := hask
  obtain ⟨b, hb⟩ := hr.exists_buf hi
  obtain ⟨hstart, haim⟩ := hfit b hb
  have hs := hr.focus hb
  obtain ⟨h₁, b₁, hadd, hadded⟩ := hs.addAtStart env hstart
  obtain ⟨new, hnew, hcontents⟩ := hadded.contents
  have hread := hr.getD_values hb
  have hlen := hs.length_contentsOf List.mem_cons_self
  have hlen₁ := hadded.sharing.length_contentsOf List.mem_cons_self
  rw [hcontents, List.length_append, hnew, hlen] at hlen₁
  have hnewBytes : newBytes env s.heap s.bufs (.addAtStart i n ws) = new := by
    simp only [newBytes, hb, Option.bind_some, hadd]
    rw [hadded.sharing.readable_eq List.mem_cons_self, hcontents, ← List.map_take, List.take_left' hnew, List.map_map]
    exact List.map_id _
  have hzeros : True → n ≤ b₁.front ∨ b₁.zeros = 0 := fun _ => by
    rcases hadded.writable.apart with hfront | hback
    · exact Or.inl hfront
    · exact Or.inr (by omega)
  have hplace : ∀ o ∈ s.bufs.eraseIdx i, b₁.data = o.data → RoomAtStart s.heap b n ∧ b.data = o.data :=
    fun o ho heq => by
      rcases hadded.data with ⟨hroom, hdata⟩ | hfresh
      · exact ⟨hroom, hdata ▸ heq⟩
      · exact absurd (heq ▸ List.mem_map_of_mem ho) hfresh
  have hjoined : Joined s.heap h₁ b₁ (s.bufs.eraseIdx i) := ⟨hadded.sharing, hadded.others⟩
  obtain ⟨h₂, hrun, hwrote⟩ := hadded.sharing.runWrites 0 hadded.writable (hr.sources.of_joined hjoined) hzeros
    hplace (Nat.zero_le _) (by rw [← hlen₁, ← hlen, Nat.add_comm, ← hread]; exact hconfined) haim
  rw [step_eq h₂ (s.bufs.set i b₁)]
  · refine hr.replaced hi ⟨hwrote.sharing, fun c hc => (hwrote.others c hc).trans (hadded.others c hc)⟩ ?_
    rw [hwrote.contents, hcontents, hnewBytes, hread]
  · simp only [apply, hb, Option.bind_eq_bind, Option.bind_some, hadd, first_eq, hrun]

/-- Bytes behind, and the writes to them. -/
theorem Right.addAtEnd {n : Nat} {ws : List BufferWrite} (hr : s.Right) (hask : s.Asked (.addAtEnd i n ws))
    (hfit : s.Fits env (.addAtEnd i n ws)) : (step env s (.addAtEnd i n ws)).Right := by
  obtain ⟨hi, -, hconfined⟩ := hask
  obtain ⟨b, hb⟩ := hr.exists_buf hi
  obtain ⟨hend, haim⟩ := hfit b hb
  have hs := hr.focus hb
  obtain ⟨h₁, b₁, hadd, hadded⟩ := hs.addAtEnd env hend
  obtain ⟨new, hnew, hcontents⟩ := hadded.contents
  have hread := hr.getD_values hb
  have hlen := hs.length_contentsOf List.mem_cons_self
  obtain ⟨d₁, -, hfits₁⟩ := hadded.sharing.exists_fits List.mem_cons_self
  have hlen₁ := hadded.sharing.length_contentsOf List.mem_cons_self
  rw [hcontents, List.length_append, hnew, hlen] at hlen₁
  have hnewBytes : newBytes env s.heap s.bufs (.addAtEnd i n ws) = new := by
    simp only [newBytes, hb, Option.bind_some, hadd]
    rw [hadded.sharing.readable_eq List.mem_cons_self, hcontents, hfits₁.getSize_eq, ← hlen₁, Nat.add_sub_cancel,
      ← List.map_drop, List.drop_left' hlen, List.map_map]
    exact List.map_id _
  have hplace : ∀ o ∈ s.bufs.eraseIdx i, b₁.data = o.data → RoomAtEnd s.heap b n ∧ b.data = o.data :=
    fun o ho heq => by
      rcases hadded.data with ⟨hroom, hdata⟩ | hfresh
      · exact ⟨hroom, hdata ▸ heq⟩
      · exact absurd (heq ▸ List.mem_map_of_mem ho) hfresh
  have hjoined : Joined s.heap h₁ b₁ (s.bufs.eraseIdx i) := ⟨hadded.sharing, hadded.others⟩
  obtain ⟨h₂, hrun, hwrote⟩ := hadded.sharing.runWrites b₁.length hadded.writable
    (hr.sources.of_joined hjoined) (fun hz => Or.inr (hadded.zeros.trans hz)) hplace (Nat.le_refl _)
    (by rw [← hlen₁, ← hlen, ← hread]; exact hconfined) haim
  rw [step_eq h₂ (s.bufs.set i b₁)]
  · refine hr.replaced hi ⟨hwrote.sharing, fun c hc => (hwrote.others c hc).trans (hadded.others c hc)⟩ ?_
    simp only [hwrote.contents, hcontents, hnewBytes, hread, List.length_append, hnew, hlen, hlen₁]
  · simp only [apply, hb, Option.bind_eq_bind, Option.bind_some, hadd, hfits₁.last_eq, hrun]

/-- Every operation that fits keeps the buffers right. -/
theorem Right.step (hr : s.Right) (hask : s.Asked op) (hfit : s.Fits env op) : (BufferRun.step env s op).Right := by
  cases op with
  | construct zeroSize =>
      obtain ⟨h, b, hconstruct, hjoined, hcontents, -⟩ := hr.sharing.construct env hfit
      rw [step_eq h (b :: s.bufs) (by rw [apply, hconstruct]; rfl)]
      exact hr.pushed hjoined hcontents
  | copy j =>
      obtain ⟨o, ho⟩ := hr.exists_buf hask
      obtain ⟨hjoined, hcontents⟩ := hr.sharing.copy (List.mem_of_getElem? ho)
      rw [step_eq _ _ (by rw [apply, ho]; rfl)]
      exact hr.pushed hjoined (hcontents.trans (hr.getD_values ho).symm)
  | assign i j =>
      obtain ⟨b, hb⟩ := hr.exists_buf hask.1
      obtain ⟨o, ho⟩ := hr.exists_buf hask.2
      rw [step_eq _ _ (by rw [apply, hb, ho]; rfl)]
      by_cases hij : j = i
      · subst hij
        obtain rfl : b = o := Option.some.inj (hb ▸ ho)
        obtain ⟨hs, hsame⟩ := (hr.focus hb).of_pool (Buffer.assign s.heap b b).1 (by rw [assign, if_pos rfl])
        exact hr.replaced hask.1 ⟨hs, fun c _ => hsame c⟩ ((hsame b).trans (hr.getD_values hb).symm)
      · obtain ⟨hjoined, hcontents⟩ := (hr.focus hb).assign (mem_others ho hij)
        exact hr.replaced hask.1 hjoined (hcontents.trans (hr.getD_values ho).symm)
  | destroy i =>
      obtain ⟨b, hb⟩ := hr.exists_buf hask
      obtain ⟨hs, hkept⟩ := (hr.focus hb).destroy
      rw [step_eq _ _ (by rw [apply, hb]; rfl)]
      refine ⟨hs, ?_, hr.unbroken⟩
      rw [owned, hr.values, List.eraseIdx_map]
      exact (List.map_congr_left hkept).symm
  | addAtStart i n ws => exact hr.addAtStart hask hfit
  | addAtEnd i n ws => exact hr.addAtEnd hask hfit
  | append i j =>
      obtain ⟨hi, hj, hij⟩ := hask
      obtain ⟨b, hb⟩ := hr.exists_buf hi
      obtain ⟨o, ho⟩ := hr.exists_buf hj
      obtain ⟨h', b', happend, happended⟩ :=
        (hr.focus hb).append env (mem_others ho (Ne.symm hij)) (hfit b hb o ho)
      rw [step_eq h' (s.bufs.set i b')
        (by simp only [apply, hb, ho, Option.bind_eq_bind, Option.bind_some, happend])]
      refine hr.replaced hi happended.toJoined ?_
      rw [happended.contents, hr.getD_values hb, hr.getD_values ho]
  | removeAtStart i n =>
      obtain ⟨hi, -⟩ := hask
      obtain ⟨b, hb⟩ := hr.exists_buf hi
      have hs := hr.focus hb
      obtain ⟨d, hd, hfits⟩ := hs.exists_fits List.mem_cons_self
      have hnarrow := hfits.removeAtStart (hfit b hb)
      rw [step_eq _ _ (by rw [apply, hb]; rfl)]
      refine hr.replaced hi ⟨hs.narrow hnarrow, fun _ _ => rfl⟩ ?_
      rw [contentsOf_eq (d := d) (hnarrow.data ▸ hd), hfits.contents_removeAtStart (hfit b hb), hr.getD_values hb,
        contentsOf_eq hd]
  | removeAtEnd i n =>
      obtain ⟨hi, -⟩ := hask
      obtain ⟨b, hb⟩ := hr.exists_buf hi
      have hs := hr.focus hb
      obtain ⟨d, hd, hfits⟩ := hs.exists_fits List.mem_cons_self
      have hnarrow := hfits.removeAtEnd (n := n)
      rw [step_eq _ _ (by rw [apply, hb]; rfl)]
      refine hr.replaced hi ⟨hs.narrow hnarrow, fun _ _ => rfl⟩ ?_
      rw [contentsOf_eq (d := d) (hnarrow.data ▸ hd), hfits.contents_removeAtEnd, hr.getD_values hb,
        contentsOf_eq hd, hfits.length_contents]
  | createFragment j start length =>
      obtain ⟨hj, hin⟩ := hask
      obtain ⟨o, ho⟩ := hr.exists_buf hj
      rw [hr.getD_values ho] at hin
      obtain ⟨hjoined, hcontents⟩ := hr.sharing.createFragment (List.mem_of_getElem? ho) hin
      rw [step_eq _ _ (by rw [apply, ho]; rfl)]
      refine hr.pushed hjoined (hcontents.trans ?_)
      rw [hr.getD_values ho]

/-! ## Value semantics -/

def init : BufferRun := ⟨⟨⟨[], []⟩, 0, 0⟩, [], [], false⟩

theorem init_right : init.Right :=
  ⟨⟨⟨fun _ => rfl, fun _ h => (by cases h), List.nodup_nil⟩, fun _ _ h => (by cases h),
    fun _ h => (by cases h), fun _ h => (by cases h)⟩, rfl, rfl⟩

/-- Every buffer reads its own byte string, and its bounds lie in the dirty area and in the storage. -/
def Valued (s : BufferRun) : Prop :=
  s.broken = false ∧ s.bufs.map (readable s.heap) = s.values.map (·.map some) ∧
    ∀ b ∈ s.bufs, b.CheckInternalState s.heap

instance (s : BufferRun) : Decidable s.Valued := inferInstanceAs (Decidable (_ ∧ _))

theorem Right.valued (hr : s.Right) : s.Valued := by
  refine ⟨hr.unbroken, ?_, fun b hb => hr.sharing.checkInternalState hb⟩
  rw [hr.values, List.map_map]
  exact List.map_congr_left fun b hb => hr.sharing.readable_eq hb

/-- As long as every operation fits, each buffer is a byte string of its own. -/
theorem buffers_are_values_when (env : BufferEnv) {tr : List (BufferRun × BufferOp)}
    (hrun : Transition.Run (step env) Asked init tr s) (hfits : ∀ p ∈ tr, p.1.Fits env p.2) :
    (∀ p ∈ tr, p.1.Valued) ∧ s.Valued := by
  obtain ⟨hall, hlast⟩ := hrun.kept init_right (fun s op hr hask hfit => Right.step hr hask hfit) hfits
  exact ⟨fun p hp => (hall p hp).valued, hlast.valued⟩

def zeroedEnv : BufferEnv := ⟨fun _ _ => 0, false⟩

/-- Two buffers that share their data, and are changed. -/
def sharedOps : List BufferOp :=
  [.construct 3, .addAtStart 0 2 [.writeHtonU16 258], .copy 0, .addAtEnd 1 1 [.prev 1, .writeU8 9], .removeAtStart 0 4,
    .createFragment 1 1 2]

theorem buffers_are_values_when_shared :
    ((∀ p ∈ Transition.trace (step zeroedEnv) init sharedOps, p.1.Valued) ∧
      (sharedOps.foldl (step zeroedEnv) init).Valued) ∧
    (sharedOps.foldl (step zeroedEnv) init).values = [[2, 0], [0], [1, 2, 0, 0, 0, 9]] :=
  ⟨buffers_are_values_when zeroedEnv
      (Transition.run_of_passes (step zeroedEnv) Asked init sharedOps (by decide +kernel)) (by decide +kernel),
    by decide +kernel⟩

/-- `RemoveAtStart` of more than there is wraps, and bytes that were removed are back. -/
def wrappedOps : List BufferOp :=
  [.construct 0, .addAtStart 0 10 [], .removeAtStart 0 6, .removeAtStart 0 (2 ^ 32 - 5)]

theorem not_buffers_are_values :
    ¬∀ (env : BufferEnv) (tr : List (BufferRun × BufferOp)) (s : BufferRun),
      Transition.Run (step env) Asked init tr s → (∀ p ∈ tr, p.1.Valued) ∧ s.Valued := fun hall =>
  absurd
    (hall zeroedEnv _ _
      (Transition.run_of_passes (step zeroedEnv) Asked init wrappedOps (by decide +kernel))).2
    (by decide +kernel)

/-! ## Concatenation -/

/-- `AddAtEnd` of a buffer puts its bytes behind, and the fast path does what the copy does. -/
theorem append_concatenates_when (env : BufferEnv) {tr : List (BufferRun × BufferOp)}
    (hrun : Transition.Run (step env) Asked init tr s) (hfits : ∀ p ∈ tr, p.1.Fits env p.2) (hij : i ≠ j)
    (hb : s.bufs[i]? = some b) (ho : s.bufs[j]? = some o) (hfit : AppendFits env s.heap b o) :
    ∃ h' b', Buffer.append env s.heap b o = some (h', b') ∧
      readable h' b' = readable s.heap b ++ readable s.heap o ∧
      (∀ k c, k ≠ i → s.bufs[k]? = some c → readable h' c = readable s.heap c) ∧
      (CopyFits env s.heap b o → ∃ h'' b'', Buffer.copyAtEnd env s.heap b o = some (h'', b'') ∧
        readable h'' b'' = readable h' b') := by
  have hr := (hrun.kept init_right (fun s op hr hask hfit => Right.step hr hask hfit) hfits).2
  have hs := hr.focus hb
  have hmem : o ∈ s.bufs.eraseIdx i := mem_others ho (Ne.symm hij)
  obtain ⟨h', b', happend, happended⟩ := hs.append env hmem hfit
  have hread : readable h' b' = readable s.heap b ++ readable s.heap o := by
    rw [happended.sharing.readable_eq List.mem_cons_self, happended.contents, List.map_append,
      hs.readable_eq List.mem_cons_self, hs.readable_eq (List.mem_cons_of_mem _ hmem)]
  refine ⟨h', b', happend, hread, fun k c hk hc => ?_, fun hcopy => ?_⟩
  · have hother : c ∈ s.bufs.eraseIdx i := mem_others hc hk
    rw [happended.sharing.readable_eq (List.mem_cons_of_mem _ hother), happended.others c hother,
      hs.readable_eq (List.mem_cons_of_mem _ hother)]
  · obtain ⟨h'', b'', hcopied, hcopy⟩ := hs.copyAtEnd env hmem hcopy
    refine ⟨h'', b'', hcopied, ?_⟩
    rw [hcopy.sharing.readable_eq List.mem_cons_self, happended.sharing.readable_eq List.mem_cons_self, hcopy.contents,
      happended.contents]

/-- Two buffers of zeros; the first has storage that was used before. -/
def meetingOps : List BufferOp :=
  [.construct 0, .addAtEnd 0 100 [], .destroy 0, .construct 5, .construct 3]

theorem append_concatenates_when_meeting :
    ∃ h' b', Buffer.append zeroedEnv (meetingOps.foldl (step zeroedEnv) init).heap ⟨1, 0, 0, 5, 0, 5⟩
        ⟨0, 0, 0, 3, 0, 3⟩ = some (h', b') ∧ readable h' b' = List.replicate 8 (some 0) := by
  obtain ⟨h', b', happend, hread, -⟩ := append_concatenates_when zeroedEnv
    (Transition.run_of_passes (step zeroedEnv) Asked init meetingOps (by decide +kernel)) (by decide +kernel)
    (i := 1) (j := 0) (b := ⟨1, 0, 0, 5, 0, 5⟩) (o := ⟨0, 0, 0, 3, 0, 3⟩) (by decide) (by decide +kernel)
    (by decide +kernel) (by decide +kernel)
  exact ⟨h', b', happend, hread.trans (by decide +kernel)⟩

/-- The same, and two bytes behind the zeros of the second. -/
def trailingOps : List BufferOp := meetingOps ++ [.addAtEnd 0 2 [.prev 2, .writeU8 7, .writeU8 8]]

/-- The two bytes are written behind their place, and zeros are read where they should be. -/
theorem not_append_concatenates :
    ¬∀ (env : BufferEnv) (tr : List (BufferRun × BufferOp)) (s : BufferRun) (i j : Nat) (b o : Buffer),
      Transition.Run (step env) Asked init tr s → (∀ p ∈ tr, p.1.Fits env p.2) → i ≠ j → s.bufs[i]? = some b →
      s.bufs[j]? = some o → ∃ r ∈ Buffer.append env s.heap b o,
        readable r.1 r.2 = readable s.heap b ++ readable s.heap o := fun hall => by
  obtain ⟨r, happend, hread⟩ := hall zeroedEnv _ _ 1 0 ⟨1, 0, 0, 5, 0, 5⟩ ⟨2, 0, 0, 3, 0, 5⟩
    (Transition.run_of_passes (step zeroedEnv) Asked init trailingOps (by decide +kernel)) (by decide +kernel)
    (by decide) (by decide +kernel) (by decide +kernel)
  have hwrong : ∀ r ∈ Buffer.append zeroedEnv (trailingOps.foldl (step zeroedEnv) init).heap ⟨1, 0, 0, 5, 0, 5⟩
      ⟨2, 0, 0, 3, 0, 5⟩, readable r.1 r.2 ≠ readable (trailingOps.foldl (step zeroedEnv) init).heap ⟨1, 0, 0, 5, 0, 5⟩ ++
        readable (trailingOps.foldl (step zeroedEnv) init).heap ⟨2, 0, 0, 3, 0, 5⟩ := by
    decide +kernel
  exact hwrong r happend hread

end BufferRun

end Ns3Raft.Net
