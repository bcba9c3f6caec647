import Ns3Raft.Service.Cursor

/-! # Reading and writing one thing after another

A sequence of calls on one buffer as a program that throws and keeps the buffer. What it
reads are the bytes behind the cursor, what it writes goes behind those in front of it,
and both compose.
-/

namespace Ns3Raft.Service

open Store Block

abbrev BufferM (α : Type) := ExceptT String (StateM Buffer) α

namespace BufferM

def getInt : BufferM Int32 := fun b => b.getInt

def getUlong : BufferM UInt64 := fun b => b.getUlong

def getByte : BufferM UInt8 := fun b => b.getByte

def getStr : BufferM (Option Bytes) := fun b => let (r, b') := b.getStr; (.ok r, b')

def putInt (val : Int32) : BufferM Unit := fun b => b.putInt val

def putUlong (val : UInt64) : BufferM Unit := fun b => b.putUlong val

def putByte (byte : UInt8) : BufferM Unit := fun b => b.putByte byte

def putStr (str : Bytes) : BufferM Unit := fun b => b.putStr str

def putBuffer (src : Buffer) : BufferM Unit := fun b => b.putBuffer src

/-- A new buffer of the size, filled by the calls and with the cursor back at 0. -/
def build (heap : Nat → UInt8) (size : Nat) (puts : BufferM Unit) : Except String Buffer :=
  match Buffer.allocate heap size with
  | .error e => .error e
  | .ok b =>
      match puts b with
      | (.error e, _) => .error e
      | (.ok (), b') => .ok (b'.setPos 0)

variable {α β : Type}

theorem bind_ok {x : BufferM α} {f : α → BufferM β} {b b' : Buffer} {v : α} (h : x b = (.ok v, b')) :
    (x >>= f) b = f v b' := by
  simp only [bind, ExceptT.bind, ExceptT.mk, StateT.bind, h]
  rfl

theorem bind_error {x : BufferM α} {f : α → BufferM β} {b b' : Buffer} {e : String}
    (h : x b = (.error e, b')) : (x >>= f) b = (.error e, b') := by
  simp only [bind, ExceptT.bind, ExceptT.mk, StateT.bind, h]
  rfl

theorem pure_ok (v : α) (b : Buffer) : (pure v : BufferM α) b = (.ok v, b) := rfl

/-! ## What a program reads -/

/-- When the bytes come next, the program gives the value and goes to their end. -/
def Reads (x : BufferM α) (bs : Bytes) (v : α) : Prop :=
  ∀ b : Buffer, bs <+: b.data → x b = (.ok v, b.setPos (b.pos + bs.length))

theorem le_of_prefix (b : Buffer) (bs : Bytes) (h : bs <+: b.data) : b.pos + bs.length ≤ b.size := by
  have hle := h.length_le
  have hpos : b.pos ≤ b.size := b.pos_le
  rw [b.data_length, Buffer.remaining] at hle
  omega

/-- What comes after the bytes. -/
theorem data_setPos {b : Buffer} {bs rest : Bytes} (h : b.data = bs ++ rest) :
    (b.setPos (b.pos + bs.length)).data = rest := by
  have hle := le_of_prefix b bs (h ▸ List.prefix_append bs rest)
  simp only [Buffer.setPos, Buffer.data, Nat.min_eq_left hle]
  rw [← List.drop_drop]
  exact (congrArg (List.drop bs.length) h).trans (List.drop_left' rfl)

theorem setPos_setPos {b : Buffer} {m n : Nat} (h : b.pos + m ≤ b.size) :
    (b.setPos (b.pos + m)).setPos ((b.setPos (b.pos + m)).pos + n) = b.setPos (b.pos + (m + n)) := by
  refine Buffer.ext rfl ?_
  simp only [Buffer.setPos, Buffer.size] at h ⊢
  rw [Nat.min_eq_left h, Nat.add_assoc]

namespace Reads

variable {x : BufferM α} {f : α → BufferM β} {bs bs' : Bytes} {v : α} {w : β}

theorem pure (v : α) : Reads (Pure.pure v) [] v := by
  intro b _
  have hself : b.setPos (b.pos + 0) = b := Buffer.ext rfl (Nat.min_eq_left b.pos_le)
  rw [pure_ok, List.length_nil, hself]

theorem bind (hx : Reads x bs v) (hf : Reads (f v) bs' w) : Reads (x >>= f) (bs ++ bs') w := by
  rintro b ⟨rest, hrest⟩
  rw [List.append_assoc] at hrest
  have hnext := data_setPos hrest.symm
  have hle := le_of_prefix b bs (hrest ▸ List.prefix_append _ _)
  rw [bind_ok (hx b ⟨bs' ++ rest, hrest⟩), hf _ (hnext ▸ List.prefix_append _ _)]
  rw [setPos_setPos hle, List.length_append]

/-- Nothing is read after it. -/
theorem last (hx : Reads x bs v) (hf : Reads (f v) [] w) : Reads (x >>= f) bs w := by
  have h := hx.bind hf
  rwa [List.append_nil] at h

/-- What it leaves for the next program. -/
theorem run {b : Buffer} {rest : Bytes} (hx : Reads x bs v) (h : b.data = bs ++ rest) :
    ∃ b', x b = (.ok v, b') ∧ b'.bytes = b.bytes ∧ b'.data = rest :=
  ⟨_, hx b ⟨rest, h.symm⟩, rfl, data_setPos h⟩

/-! ### The calls -/

/-- The shape of the calls that read a fixed number of bytes. -/
theorem of_next {text : String} {s : Bytes} {g : Bytes → α}
    (hx : ∀ b : Buffer, x b = ((b.next text s.length).1.map g, (b.next text s.length).2)) :
    Reads x s (g s) := by
  rintro b ⟨rest, hrest⟩
  have hle := le_of_prefix b s ⟨rest, hrest⟩
  have hn : s.length ≤ b.remaining := by
    rw [Buffer.remaining]
    omega
  rw [hx, Buffer.next, dif_pos hn, ← hrest, List.take_left' rfl]
  exact congrArg (Prod.mk _) (Buffer.ext rfl (Nat.min_eq_left hle).symm)

theorem getUlong (v : UInt64) : Reads getUlong (putBytes szUlong v.toNat) v := by
  have hread := of_next (x := BufferM.getUlong) (s := putBytes szUlong v.toNat)
    (g := fun bs => UInt64.ofNat (getBytes bs)) fun b => by rw [putBytes_length]; rfl
  have hval : getBytes (putBytes szUlong v.toNat) = v.toNat :=
    getBytes_putBytes (by simpa [szUlong] using v.toNat_lt)
  rwa [hval, UInt64.ofNat_toNat] at hread

theorem getInt (v : Int32) : Reads getInt (putBytes szInt v.toUInt32.toNat) v := by
  have hread := of_next (x := BufferM.getInt) (s := putBytes szInt v.toUInt32.toNat)
    (g := fun bs => Int32.ofNat (getBytes bs)) fun b => by rw [putBytes_length]; rfl
  have hval : getBytes (putBytes szInt v.toUInt32.toNat) = v.toUInt32.toNat :=
    getBytes_putBytes (by simpa [szInt] using v.toUInt32.toNat_lt)
  have hback : Int32.ofNat v.toUInt32.toNat = v := calc
    Int32.ofNat v.toUInt32.toNat = (UInt32.ofNat v.toUInt32.toNat).toInt32 := rfl
    _ = v := by rw [UInt32.ofNat_toNat, Int32.toInt32_toUInt32]
  rwa [hval, hback] at hread

theorem getByte (v : UInt8) : Reads getByte [v] v :=
  of_next (x := BufferM.getByte) (s := [v]) (g := fun bs => bs.headD 0) fun _ => rfl

/-- A string is read back if it is not empty and has no zero byte. -/
theorem getStr {str : Bytes} (hne : str ≠ []) (hnul : 0 ∉ str) :
    Reads getStr (str ++ [0]) (some str) := by
  rintro b ⟨rest, hrest⟩
  have hle := le_of_prefix b (str ++ [0]) ⟨rest, hrest⟩
  have htake : b.data.takeWhile (· ≠ 0) = str := by
    have hall : ∀ c ∈ str, decide (c ≠ 0) = true := fun c hc =>
      decide_eq_true (ne_of_mem_of_not_mem hc hnul)
    rw [← hrest, List.append_assoc, List.takeWhile_append_of_pos hall, List.singleton_append,
      List.takeWhile_cons_of_neg (by simp), List.append_nil]
  rw [List.length_append, List.length_singleton] at hle ⊢
  have hcond : str.length + 1 ≤ b.remaining ∧ str ≠ [] := by
    refine ⟨?_, hne⟩
    rw [Buffer.remaining]
    omega
  simp only [BufferM.getStr, Buffer.getStr, htake, dif_pos hcond]
  exact congrArg (Prod.mk _) (Buffer.ext rfl (Nat.min_eq_left hle).symm)

end Reads

/-- The program reads `n` bytes, whatever they are, and throws if there are fewer. -/
structure Needs (x : BufferM α) (n : Nat) : Prop where
  short : ∀ b : Buffer, b.remaining < n → ∃ e b', x b = (.error e, b')
  enough : ∀ b : Buffer, n ≤ b.remaining → ∃ v b', x b = (.ok v, b') ∧ b'.bytes = b.bytes ∧ b'.pos = b.pos + n

namespace Needs

variable {x : BufferM α} {f : α → BufferM β} {n m : Nat}

theorem pure (v : α) : Needs (Pure.pure v) 0 :=
  ⟨fun _ h => absurd h (Nat.not_lt_zero _), fun b _ => ⟨v, b, rfl, rfl, rfl⟩⟩

theorem bind (hx : Needs x n) (hf : ∀ v, Needs (f v) m) : Needs (x >>= f) (n + m) := by
  have hthen (b : Buffer) (h : n ≤ b.remaining) : ∃ v b₁, (x >>= f) b = f v b₁ ∧ b₁.bytes = b.bytes ∧
      b₁.pos = b.pos + n ∧ b₁.remaining = b.remaining - n := by
    obtain ⟨v, b₁, hb₁, hbytes, hpos⟩ := hx.enough b h
    refine ⟨v, b₁, bind_ok hb₁, hbytes, hpos, ?_⟩
    rw [Buffer.remaining, Buffer.remaining, Buffer.size, Buffer.size, hbytes, hpos]
    omega
  constructor
  · intro b h
    by_cases hn : n ≤ b.remaining
    · obtain ⟨v, b₁, heq, -, -, hleft⟩ := hthen b hn
      rw [heq]
      exact (hf v).short b₁ (by omega)
    · obtain ⟨e, b', hb'⟩ := hx.short b (Nat.not_le.mp hn)
      exact ⟨e, b', bind_error hb'⟩
  · intro b h
    obtain ⟨v, b₁, heq, hbytes, hpos, hleft⟩ := hthen b (by omega)
    obtain ⟨w, b₂, hb₂, hbytes₂, hpos₂⟩ := (hf v).enough b₁ (by omega)
    exact ⟨w, b₂, heq.trans hb₂, hbytes₂.trans hbytes, by omega⟩

/-- The shape of the calls that read a fixed number of bytes. -/
theorem of_next {text : String} {g : Bytes → α}
    (hx : ∀ b : Buffer, x b = ((b.next text n).1.map g, (b.next text n).2)) : Needs x n := by
  constructor
  · intro b h
    rw [hx, Buffer.next, dif_neg (Nat.not_le.mpr h)]
    exact ⟨_, _, rfl⟩
  · intro b h
    rw [hx, Buffer.next, dif_pos h]
    exact ⟨_, _, rfl, rfl, rfl⟩

theorem getUlong : Needs getUlong szUlong := of_next fun _ => rfl

theorem getInt : Needs getInt szInt := of_next fun _ => rfl

theorem getByte : Needs getByte szByte := of_next fun _ => rfl

end Needs

/-! ## What a program writes -/

/-- With room enough, the program leaves the bytes behind those written before. -/
def Writes (x : BufferM Unit) (bs : Bytes) : Prop :=
  ∀ b : Buffer, bs.length ≤ b.remaining → ∃ b', x b = (.ok (), b') ∧ b'.size = b.size ∧
    b'.bytes.take b'.pos = b.bytes.take b.pos ++ bs

namespace Writes

variable {x y : BufferM Unit} {bs bs' : Bytes}

theorem bind (hx : Writes x bs) (hy : Writes y bs') : Writes (x >>= fun _ => y) (bs ++ bs') := by
  intro b hroom
  rw [List.length_append] at hroom
  obtain ⟨b₁, hb₁, hsize₁, hbytes₁⟩ := hx b (by omega)
  have hpos : b₁.pos = b.pos + bs.length := by
    have hlen := congrArg List.length hbytes₁
    rwa [List.length_append, List.length_take_of_le b₁.pos_le, List.length_take_of_le b.pos_le] at hlen
  have hroom' : bs'.length ≤ b₁.remaining := by
    simp only [Buffer.remaining] at hroom ⊢
    omega
  obtain ⟨b₂, hb₂, hsize₂, hbytes₂⟩ := hy b₁ hroom'
  refine ⟨b₂, (bind_ok hb₁).trans hb₂, hsize₂.trans hsize₁, ?_⟩
  rw [hbytes₂, hbytes₁, List.append_assoc]

theorem pure : Writes (Pure.pure ()) [] := by
  intro b _
  refine ⟨b, pure_ok () b, rfl, ?_⟩
  rw [List.append_nil]

theorem of_fill {text : String} (hx : ∀ b : Buffer, x b = b.fill text bs) : Writes x bs := by
  intro b hroom
  obtain ⟨b', hfill, hsize, hpos, hbytes⟩ := b.fill_of_le (t := text) hroom
  refine ⟨b', (hx b).trans hfill, hsize, ?_⟩
  rw [hbytes, hpos, List.take_left']
  rw [List.length_append, List.length_take_of_le b.pos_le]

theorem putUlong (v : UInt64) : Writes (putUlong v) (putBytes szUlong v.toNat) := of_fill fun _ => rfl

theorem putInt (v : Int32) : Writes (putInt v) (putBytes szInt v.toUInt32.toNat) := of_fill fun _ => rfl

theorem putByte (v : UInt8) : Writes (putByte v) [v] := of_fill fun _ => rfl

theorem putStr (str : Bytes) : Writes (putStr str) (str ++ [0]) := of_fill fun _ => rfl

theorem putBuffer (src : Buffer) : Writes (putBuffer src) src.data := of_fill fun _ => rfl

theorem forM {α : Type} {x : α → BufferM Unit} {f : α → Bytes} {as : List α}
    (h : ∀ a ∈ as, Writes (x a) (f a)) : Writes (as.forM x) (as.flatMap f) := by
  induction as with
  | nil => exact Writes.pure
  | cons a as ih =>
      have hcons : (a :: as).forM x = x a >>= fun _ => as.forM x := rfl
      rw [hcons, List.flatMap_cons]
      exact (h a (by simp)).bind (ih fun a' ha => h a' (by simp [ha]))

/-- A buffer of the size of what is written into it holds exactly that. -/
theorem build_eq {heap : Nat → UInt8} {size : Nat} (h : Writes x bs) (hsize : size = bs.length)
    (hlt : bs.length < 0x80000000) : build heap size x = .ok ⟨bs, 0, hlt, Nat.zero_le _⟩ := by
  subst hsize
  obtain ⟨b, hb, hcells, hpos⟩ := allocate_of_lt (m := heap) hlt
  have hsize : b.size = bs.length := by rw [Buffer.size, hcells, Memory.read_length]
  have hroom : bs.length ≤ b.remaining := by
    rw [Buffer.remaining]
    omega
  obtain ⟨b', hb', hsize', hbytes⟩ := h b hroom
  rw [hpos, List.take_zero, List.nil_append] at hbytes
  -- the cursor is at the end of the buffer
  have hlen : b'.bytes.length ≤ b'.pos := by
    have hle := congrArg List.length hbytes
    rw [List.length_take] at hle
    simp only [Buffer.size] at hsize hsize'
    omega
  rw [List.take_of_length_le hlen] at hbytes
  simp only [build, hb, hb']
  exact congrArg _ (Buffer.ext hbytes (Nat.zero_min _))

end Writes

theorem build_of_le {heap : Nat → UInt8} {size : Nat} {x : BufferM Unit} (h : 0x80000000 ≤ size) :
    build heap size x = .error "size exceed the max size that cornrestone::buffer could support" := by
  unfold build Buffer.allocate Buffer.alloc
  rw [dif_neg (Nat.not_lt.mpr h)]

end BufferM

end Ns3Raft.Service
