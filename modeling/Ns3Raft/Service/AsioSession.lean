import Ns3Raft.Service.Snapshots

/-! # Requests in binary

The `rpc_session` of the asio service reads a header of 45 bytes and as many bytes of log
data as the header announces, and decodes the entries one after another. The size of each
payload comes from the data. The client encodes the entries in the same format.
-/

namespace Ns3Raft.Service.Asio

open Memory Store

/-! ## The client -/

open BufferM Binary in
/-- The buffer of one entry in `asio_rpc_client::send`. -/
def encodeEntry (heap : Nat → UInt8) (e : LogEntry) : Except String Buffer :=
  build heap (8 + 1 + 4 + e.buff.size) do
    putUlong e.term
    putByte e.valueType
    putInt (Int32.ofNat e.buff.size)
    putBuffer (e.buff.setPos 0)

/-- The log data behind the header of a request. -/
def encodeEntries (heap : Nat → UInt8) (es : List Binary.LogEntry) : Except String Bytes := do
  let logEntryBufs ← es.mapM (encodeEntry heap)
  return logEntryBufs.flatMap Buffer.data

/-! ## The session -/

abbrev BlockM (α : Type) := ExceptT String (StateM Block) α

namespace BlockM

def getInt : BlockM Int32 := fun p => p.getInt

def getUlong : BlockM UInt64 := fun p => p.getUlong

def getByte : BlockM UInt8 := fun p => p.getByte

def setPos (q : Nat) : BlockM Unit := fun p => (.ok (), p.setPos q)

end BlockM

def rpcReqHeaderSize : Nat := 3 * 4 + 8 * 4 + 1

structure Header where
  type : UInt8
  src : Int32
  dst : Int32
  term : UInt64
  lastTerm : UInt64
  lastIdx : UInt64
  commitIdx : UInt64
  dataSize : Int32
  deriving DecidableEq, Repr

structure Entry where
  term : UInt64
  valType : UInt8
  buf : Block

structure Request where
  header : Header
  logEntries : List Entry

open BlockM in
/-- `read_complete` up to the test for log data. -/
def readHeader : BlockM Header := do
  setPos 0
  let t ← getByte
  let src ← getInt
  let dst ← getInt
  let term ← getUlong
  let lastTerm ← getUlong
  let lastIdx ← getUlong
  let commitIdx ← getUlong
  let dataSize ← getInt
  return ⟨t, src, dst, term, lastTerm, lastIdx, commitIdx, dataSize⟩

open BlockM in
/-- The three fields in front of a payload. -/
def readEntryHead : BlockM (UInt64 × UInt8 × Int32) := do
  let term ← getUlong
  let valType ← getByte
  let valSize ← getInt
  return (term, valType, valSize)

/-- A cast of an `int32` to `size_t`. -/
def sizeT (v : Int32) : Nat := (v.toInt % 2 ^ 64).toNat

/-- The payload of an entry is copied from these addresses of the block of the log data. -/
structure Copied where
  address : Nat
  length : Nat
  deriving DecidableEq, Repr

/-- One round of the loop: what it gives or throws, the payload it copied, and the block. -/
def readEntry (heap : Block) (p : Block) : Except String Entry × List Copied × Block :=
  match readEntryHead p with
  | (.error e, p) => (.error e, [], p)
  | (.ok (term, valType, valSize), p) =>
      match Block.alloc heap (sizeT valSize) with
      | .error e => (.error e, [], p)
      | .ok buf =>
          let (dst, p') := p.getInto buf
          (.ok ⟨term, valType, dst⟩, [⟨p.data, buf.avail⟩], p')

/-- The loop over the log data, `none` when the fuel is used up. -/
def readEntries (heap : Block) : Nat → Block → Option (Except String (List Entry) × List Copied)
  | 0, _ => none
  | fuel + 1, p =>
      if p.size > p.pos then
        match readEntry heap p with
        | (.error e, copied, _) => some (.error e, copied)
        | (.ok entry, copied, p') =>
            match readEntries heap fuel p' with
            | none => none
            | some (r, copied') => some (r.map (entry :: ·), copied ++ copied')
      else some (.ok [], [])

/-- `read_complete` up to the call of the handler; a thrown exception stops the session. -/
def readComplete (heap : Block) (fuel : Nat) (header logData : Block) :
    Option (Except String Request × List Copied) :=
  match readHeader header with
  | (.error e, _) => some (.error e, [])
  | (.ok h, _) =>
      if 0 < h.dataSize then
        (readEntries heap fuel (logData.setPos 0)).map fun (r, copied) => (r.map (⟨h, ·⟩), copied)
      else some (.ok ⟨h, []⟩, [])

/-! ## The same on arrays -/

/-- The program on blocks does what the one on arrays does. -/
def Follows {α : Type} (x : BlockM α) (y : BufferM α) : Prop :=
  ∀ p b, Holds p b → Agree (x p) (y b)

namespace Follows

variable {α β : Type} {x : BlockM α} {y : BufferM α} {f : α → BlockM β} {g : α → BufferM β}

theorem pure (v : α) : Follows (Pure.pure v) (Pure.pure v) := fun _ _ h => ⟨rfl, h⟩

theorem bind (hx : Follows x y) (hf : ∀ v, Follows (f v) (g v)) : Follows (x >>= f) (y >>= g) := by
  intro p b h
  obtain ⟨hret, hkept⟩ := hx p b h
  simp only [Bind.bind, ExceptT.bind, ExceptT.mk, StateT.bind]
  generalize x p = xp at hret hkept
  generalize y b = yb at hret hkept
  obtain ⟨r, p'⟩ := xp
  obtain ⟨r', b'⟩ := yb
  obtain rfl : r = r' := hret
  cases r with
  | error e => exact ⟨rfl, hkept⟩
  | ok v => exact hf v p' b' hkept

end Follows

open BufferM in
def headerOf : BufferM Header := do
  let t ← getByte
  let src ← getInt
  let dst ← getInt
  let term ← getUlong
  let lastTerm ← getUlong
  let lastIdx ← getUlong
  let commitIdx ← getUlong
  let dataSize ← getInt
  return ⟨t, src, dst, term, lastTerm, lastIdx, commitIdx, dataSize⟩

open BufferM in
def entryHeadOf : BufferM (UInt64 × UInt8 × Int32) := do
  let term ← getUlong
  let valType ← getByte
  let valSize ← getInt
  return (term, valType, valSize)

theorem follows_getInt : Follows BlockM.getInt BufferM.getInt := fun _ _ h => h.getInt

theorem follows_getUlong : Follows BlockM.getUlong BufferM.getUlong := fun _ _ h => h.getUlong

theorem follows_getByte : Follows BlockM.getByte BufferM.getByte := fun _ _ h => h.getByte

theorem follows_entryHead : Follows readEntryHead entryHeadOf :=
  follows_getUlong.bind fun _ => follows_getByte.bind fun _ => follows_getInt.bind fun _ => .pure _

theorem follows_header {p : Block} {b : Buffer} (h : Holds p b) :
    Agree (readHeader p) (headerOf (b.setPos 0)) :=
  (follows_getByte.bind fun _ => follows_getInt.bind fun _ => follows_getInt.bind fun _ =>
    follows_getUlong.bind fun _ => follows_getUlong.bind fun _ => follows_getUlong.bind fun _ =>
    follows_getUlong.bind fun _ => follows_getInt.bind fun _ => .pure _) (p.setPos 0) (b.setPos 0) (h.setPos 0)

/-! ## One entry -/

/-- The three fields as bytes. -/
def headBytes (term : UInt64) (valType : UInt8) (valSize : Int32) : Bytes :=
  putBytes szUlong term.toNat ++ ([valType] ++ putBytes Block.szInt valSize.toUInt32.toNat)

theorem headBytes_length (term : UInt64) (valType : UInt8) (valSize : Int32) :
    (headBytes term valType valSize).length = 13 := by
  simp [headBytes, szUlong, Block.szInt]

open BufferM in
theorem reads_entryHead (term : UInt64) (valType : UInt8) (valSize : Int32) :
    Reads entryHeadOf (headBytes term valType valSize) (term, valType, valSize) :=
  (Reads.getUlong term).bind ((Reads.getByte valType).bind ((Reads.getInt valSize).last (Reads.pure _)))

open BufferM in
theorem needs_entryHead : Needs entryHeadOf 13 :=
  Needs.getUlong.bind fun _ => Needs.getByte.bind fun _ => Needs.getInt.bind fun _ => .pure _

/-- Bytes enough are the fields of a head and a rest. -/
theorem exists_headBytes {data : Bytes} (h : 13 ≤ data.length) :
    ∃ term valType valSize rest, data = headBytes term valType valSize ++ rest := by
  obtain ⟨first, next, rfl, hfirst⟩ : ∃ first next, data = first ++ next ∧ first.length = szUlong :=
    ⟨data.take 8, data.drop 8, (List.take_append_drop 8 data).symm, List.length_take_of_le (by omega)⟩
  rw [List.length_append, hfirst, szUlong] at h
  obtain ⟨valType, last, rfl⟩ := List.exists_cons_of_length_pos (l := next) (by omega)
  rw [List.length_cons] at h
  have hlen : (last.take 4).length = Block.szInt := List.length_take_of_le (by omega)
  have hterm : putBytes szUlong (UInt64.ofNat (getBytes first)).toNat = first := by
    have hlt := getBytes_lt first
    rw [hfirst] at hlt
    rw [UInt64.toNat_ofNat_of_lt' hlt, ← hfirst, putBytes_getBytes]
  have hsize : putBytes Block.szInt (Int32.ofNat (getBytes (last.take 4))).toUInt32.toNat = last.take 4 := by
    have hlt := getBytes_lt (last.take 4)
    rw [hlen] at hlt
    rw [Int32.toUInt32_ofNat', UInt32.toNat_ofNat_of_lt' hlt, ← hlen, putBytes_getBytes]
  refine ⟨UInt64.ofNat (getBytes first), valType, Int32.ofNat (getBytes (last.take 4)), last.drop 4, ?_⟩
  rw [headBytes, hsize, hterm]
  simp

/-- A size that is not negative is the length it says; a negative one is more than a buffer takes. -/
theorem sizeT_of_nonneg {v : Int32} (h : 0 ≤ v.toInt) :
    sizeT v = v.toInt.toNat ∧ v.toInt.toNat < 0x80000000 ∧ Int32.ofNat v.toInt.toNat = v := by
  have hlt := v.toInt_lt
  refine ⟨?_, by omega, ?_⟩
  · unfold sizeT
    omega
  · rw [← Int32.toInt_inj, Int32.toInt_ofNat_of_lt (by omega)]
    omega

theorem sizeT_of_neg {v : Int32} (h : v.toInt < 0) : 0x80000000 ≤ sizeT v := by
  have hle := v.le_toInt
  unfold sizeT
  omega

variable {m : Block} {p : Block} {b : Buffer} {term : UInt64} {valType : UInt8} {valSize : Int32}
  {payload rest : Bytes}

/-- Fewer bytes than a head has. -/
theorem readEntry_short (h : Holds p b) (hshort : b.data.length < 13) :
    ∃ e p', readEntry m p = (.error e, [], p') := by
  obtain ⟨e, b', hb'⟩ := needs_entryHead.short b (by rwa [← b.data_length])
  obtain ⟨hret, -⟩ := follows_entryHead p b h
  rw [hb'] at hret
  have hhead : readEntryHead p = (.error e, (readEntryHead p).2) := Prod.ext hret rfl
  rw [readEntry, hhead]
  exact ⟨e, _, rfl⟩

/-- The head, read, and what it leaves. -/
theorem readEntryHead_eq (h : Holds p b) (hdata : b.data = headBytes term valType valSize ++ rest) :
    ∃ p' b', readEntryHead p = (.ok (term, valType, valSize), p') ∧ Holds p' b' ∧ b'.bytes = b.bytes ∧
      b'.data = rest := by
  obtain ⟨b', hb', hbytes, hrest⟩ := (reads_entryHead term valType valSize).run hdata
  obtain ⟨hret, hkept⟩ := follows_entryHead p b h
  rw [hb'] at hret hkept
  exact ⟨_, b', Prod.ext hret rfl, hkept, hbytes, hrest⟩

theorem readEntry_negative (h : Holds p b) (hdata : b.data = headBytes term valType valSize ++ rest)
    (hneg : valSize.toInt < 0) : ∃ e p', readEntry m p = (.error e, [], p') := by
  obtain ⟨p', b', hhead, -⟩ := readEntryHead_eq h hdata
  obtain ⟨e, halloc, -⟩ := alloc_of_le (m := m) (sizeT_of_neg hneg)
  rw [readEntry, hhead]
  simp only [halloc]
  exact ⟨e, p', rfl⟩

/-- What `alloc` gives for the payload, and where the payload is copied from. -/
theorem readEntry_payload (h : Holds p b) (hdata : b.data = headBytes term valType valSize ++ rest)
    (hnonneg : 0 ≤ valSize.toInt) :
    ∃ p' b' q dst, Holds p' b' ∧ b'.bytes = b.bytes ∧ b'.data = rest ∧ Holds q dst ∧ dst.pos = 0 ∧
      dst.size = valSize.toInt.toNat ∧
      readEntry m p = (.ok ⟨term, valType, (p'.getInto q).1⟩, [⟨p'.data, dst.size⟩], (p'.getInto q).2) := by
  obtain ⟨p', b', hhead, hkept, hbytes, hrest⟩ := readEntryHead_eq h hdata
  obtain ⟨hsize, hlt, -⟩ := sizeT_of_nonneg hnonneg
  obtain ⟨q, dst, halloc, hallocate, hq, hdst⟩ := alloc_of_lt (m := m) (hsize ▸ hlt)
  obtain ⟨dst', hallocate', -, hpos⟩ := allocate_of_lt (m := m) (hsize ▸ hlt)
  obtain rfl : dst = dst' := Except.ok.inj (hallocate.symm.trans hallocate')
  have havail : q.avail = dst.size := by rw [hq.avail_eq, Buffer.remaining, hpos, Nat.sub_zero]
  refine ⟨p', b', q, dst, hkept, hbytes, hrest, hq, hpos, hdst.trans hsize, ?_⟩
  rw [readEntry, hhead]
  simp only [halloc, havail]

/-- Where the bytes of a block end. -/
def dataEnd (b : Buffer) : Nat := Block.headerSize b.size + b.size

/-- A payload that is there is read, and the rest stays. -/
theorem readEntry_fits (h : Holds p b)
    (hdata : b.data = headBytes term valType valSize ++ (payload ++ rest))
    (hlen : (payload.length : Int) = valSize.toInt) :
    ∃ q dst copied p' b', readEntry m p = (.ok ⟨term, valType, q⟩, [copied], p') ∧ Holds q dst ∧
      dst.bytes = payload ∧ copied.address + copied.length ≤ dataEnd b ∧
      Holds p' b' ∧ b'.bytes = b.bytes ∧ b'.data = rest := by
  obtain ⟨p₁, b₁, q, dst, hp₁, hbytes₁, hdata₁, hq, hpos, hsize, hread⟩ :=
    readEntry_payload (m := m) h hdata (by omega)
  have hremaining : dst.remaining = payload.length := by rw [Buffer.remaining, hpos, hsize]; omega
  have hroom : b₁.remaining = payload.length + rest.length := by
    rw [← b₁.data_length, hdata₁, List.length_append]
  have hfit : dst.remaining ≤ b₁.remaining := by omega
  obtain ⟨-, hfilled, hmoved⟩ := hp₁.getInto hq hfit
  have hnext : b₁.data.take dst.remaining = payload := by
    rw [hdata₁, hremaining, List.take_left' rfl]
  simp only [Buffer.getInto, dif_pos hfit] at hfilled hmoved
  refine ⟨_, _, _, _, _, hread, hfilled, ?_, ?_, hmoved, hbytes₁, ?_⟩
  · simp only [Buffer.refill, hpos, List.take_zero, List.nil_append]
    exact hnext
  · have hle : b₁.pos ≤ b₁.size := b₁.pos_le
    have hsame : b₁.size = b.size := congrArg List.length hbytes₁
    rw [Buffer.remaining] at hroom
    rw [hp₁.data_eq, dataEnd, hsame]
    dsimp only
    omega
  · have hdrop : (b₁.advance dst.remaining hfit).data = b₁.data.drop dst.remaining := by
      simp only [Buffer.data, Buffer.advance, List.drop_drop]
    rw [hdrop, hdata₁, hremaining, List.drop_left' rfl]

/-- A payload that is announced longer than it can be is read from behind the end. -/
theorem readEntry_over (h : Holds p b) (hdata : b.data = headBytes term valType valSize ++ rest)
    (hlen : (rest.length : Int) < valSize.toInt) :
    ∃ e copied p', readEntry m p = (.ok e, [copied], p') ∧ dataEnd b < copied.address + copied.length := by
  obtain ⟨p₁, b₁, q, dst, hp₁, hbytes₁, hdata₁, hq, hpos, hsize, hread⟩ :=
    readEntry_payload (m := m) h hdata (by omega)
  refine ⟨_, _, _, hread, ?_⟩
  have hleft : b₁.size - b₁.pos = rest.length := by
    have hlength := b₁.data_length
    rw [hdata₁, Buffer.remaining] at hlength
    exact hlength.symm
  have hsame : b₁.size = b.size := congrArg List.length hbytes₁
  have hle : b₁.pos ≤ b₁.size := b₁.pos_le
  rw [hp₁.data_eq, hsize, dataEnd, hsame]
  dsimp only
  omega

/-! ## The client's bytes -/

open BufferM Binary in
theorem encodeEntry_gives (e : LogEntry) :
    Gives (encodeEntry m e) (headBytes e.term e.valueType (Int32.ofNat e.buff.size) ++ e.buff.bytes) := by
  have hdata : (e.buff.setPos 0).data = e.buff.bytes := data_of_pos rfl (Nat.zero_min _)
  refine Gives.of_writes ?_ ?_
  · have hwrites := (Writes.putUlong e.term).bind ((Writes.putByte e.valueType).bind
      ((Writes.putInt (Int32.ofNat e.buff.size)).bind (Writes.putBuffer (e.buff.setPos 0))))
    simpa only [headBytes, hdata, List.append_assoc] using hwrites
  · rw [List.length_append, headBytes_length]
    rfl

/-! ## The loop -/

/-- A decoded entry is one that the client encodes. -/
structure EntryHolds (e : Entry) (l : Binary.LogEntry) : Prop where
  term : e.term = l.term
  valType : e.valType = l.valueType
  buf : Holds e.buf l.buff

/-- Log data in which every payload that is announced is there: they end, break off in a head or
announce a negative size, or go on with a head, its payload and more such data. -/
inductive Contained : Bytes → Prop where
  | nil : Contained []
  | short {data : Bytes} (h : data.length < 13) : Contained data
  | negative {term : UInt64} {valType : UInt8} {valSize : Int32} {rest : Bytes} (h : valSize.toInt < 0) :
      Contained (headBytes term valType valSize ++ rest)
  | entry {term : UInt64} {valType : UInt8} {valSize : Int32} {payload rest : Bytes}
      (h : (payload.length : Int) = valSize.toInt) (hrest : Contained rest) :
      Contained (headBytes term valType valSize ++ (payload ++ rest))

/-- The entries are the data: the client encodes them to the same bytes. -/
def Tiles (entries : List Entry) (data : Bytes) : Prop :=
  ∃ es, List.Forall₂ EntryHolds entries es ∧ ∀ m, encodeEntries m es = .ok data

theorem tiles_cons {entry : Entry} {l : Binary.LogEntry} {entries : List Entry} {data : Bytes}
    (h : EntryHolds entry l) (hrest : Tiles entries data)
    (hlt : 13 + l.buff.size < 0x80000000) :
    Tiles (entry :: entries) (headBytes l.term l.valueType (Int32.ofNat l.buff.size) ++ (l.buff.bytes ++ data)) := by
  obtain ⟨es, hes, hencode⟩ := hrest
  refine ⟨l :: es, .cons h hes, fun m => ?_⟩
  have hlen : (headBytes l.term l.valueType (Int32.ofNat l.buff.size) ++ l.buff.bytes).length < 0x80000000 := by
    rwa [List.length_append, headBytes_length]
  have hrec := hencode m
  unfold encodeEntries at hrec ⊢
  rw [List.mapM_cons, (encodeEntry_gives l).1 hlen]
  cases hbufs : es.mapM (encodeEntry m) with
  | error e =>
      rw [hbufs] at hrec
      cases hrec
  | ok bufs =>
      rw [hbufs] at hrec
      have hflat : bufs.flatMap Buffer.data = data := Except.ok.inj hrec
      change Except.ok (List.flatMap Buffer.data (_ :: bufs)) = _
      rw [List.flatMap_cons, hflat, ← List.append_assoc]
      rfl

/-- No payload was copied from behind the end of the buffer, and what was returned are the data. -/
def Inside (b : Buffer) (data : Bytes) (out : Except String (List Entry) × List Copied) : Prop :=
  (∀ c ∈ out.2, c.address + c.length ≤ dataEnd b) ∧ ∀ entries, out.1 = .ok entries → Tiles entries data

theorem Inside.of_error {data : Bytes} {e : String} : Inside b data (.error e, []) :=
  ⟨fun c hc => (nomatch hc), fun _ h => nomatch h⟩

theorem Inside.of_end : Inside b [] (.ok [], []) := by
  refine ⟨fun c hc => (nomatch hc), fun entries heq => ?_⟩
  obtain rfl := Except.ok.inj heq
  exact ⟨[], .nil, fun _ => rfl⟩

theorem size_gt_pos_iff (h : Holds p b) : p.size > p.pos ↔ b.data ≠ [] := by
  have hlen := b.data_length
  rw [Buffer.remaining] at hlen
  rw [h.size_eq, h.pos_eq, ne_eq, ← List.length_eq_zero_iff, hlen]
  omega

theorem dataEnd_congr {b' : Buffer} (h : b'.bytes = b.bytes) : dataEnd b' = dataEnd b := by
  rw [dataEnd, dataEnd, Buffer.size, Buffer.size, h]

theorem readEntries_end (h : Holds p b) (hnil : b.data = []) (fuel : Nat) :
    readEntries m (fuel + 1) p = some (.ok [], []) := by
  rw [readEntries, if_neg (by rw [size_gt_pos_iff h, hnil]; simp)]

theorem readEntries_throws {fuel : Nat} {e : String} {copied : List Copied} {p' : Block} (h : Holds p b)
    (hne : b.data ≠ []) (hread : readEntry m p = (.error e, copied, p')) :
    readEntries m (fuel + 1) p = some (.error e, copied) := by
  rw [readEntries, if_pos ((size_gt_pos_iff h).mpr hne), hread]

theorem readEntries_goes {fuel : Nat} {entry : Entry} {copied : List Copied} {p' : Block} (h : Holds p b)
    (hne : b.data ≠ []) (hread : readEntry m p = (.ok entry, copied, p')) :
    readEntries m (fuel + 1) p =
      (readEntries m fuel p').map fun out => (out.1.map (entry :: ·), copied ++ out.2) := by
  rw [readEntries, if_pos ((size_gt_pos_iff h).mpr hne), hread]
  cases hrest : readEntries m fuel p' with
  | none => simp only [hrest, Option.map_none]
  | some out => simp only [hrest, Option.map_some]

theorem headBytes_append_ne_nil (x : Bytes) : headBytes term valType valSize ++ x ≠ [] := by
  intro h
  have hlen := congrArg List.length h
  rw [List.length_append, headBytes_length] at hlen
  simp at hlen

theorem readEntries_of_contained {data : Bytes} (hc : Contained data) {fuel : Nat} (h : Holds p b)
    (hdata : b.data = data) (hfuel : data.length < fuel) :
    ∃ out, readEntries m fuel p = some out ∧ Inside b data out := by
  obtain ⟨fuel, rfl⟩ := Nat.exists_eq_succ_of_ne_zero (Nat.ne_zero_of_lt hfuel)
  induction hc generalizing p b fuel with
  | nil => exact ⟨_, readEntries_end h hdata fuel, .of_end⟩
  | @short data hshort =>
      by_cases hnil : data = []
      · subst hnil
        exact ⟨_, readEntries_end h hdata fuel, .of_end⟩
      · obtain ⟨e, p', hread⟩ := readEntry_short (m := m) h (hdata ▸ hshort)
        exact ⟨_, readEntries_throws h (hdata ▸ hnil) hread, .of_error⟩
  | negative hneg =>
      obtain ⟨e, p', hread⟩ := readEntry_negative (m := m) h hdata hneg
      exact ⟨_, readEntries_throws h (hdata ▸ headBytes_append_ne_nil _) hread, .of_error⟩
  | @entry term valType valSize payload rest hlen hrest ih =>
      obtain ⟨q, dst, copied, p', b', hread, hq, hpayload, hinside, hp', hbytes, hdata'⟩ :=
        readEntry_fits (m := m) h hdata hlen
      rw [List.length_append, List.length_append, headBytes_length] at hfuel
      obtain ⟨fuel, rfl⟩ : ∃ fuel', fuel = fuel' + 1 := Nat.exists_eq_succ_of_ne_zero (by omega)
      obtain ⟨out, hout, hcopied, htiles⟩ := ih hp' hdata' fuel (by omega)
      let entry : Entry := ⟨term, valType, q⟩
      refine ⟨(out.1.map (entry :: ·), [copied] ++ out.2), ?_, ?_, ?_⟩
      · rw [readEntries_goes h (hdata ▸ headBytes_append_ne_nil _) hread, hout, Option.map_some]
      · intro c hc
        rcases List.mem_append.mp hc with hc | hc
        · rw [List.mem_singleton.mp hc]
          exact hinside
        · rw [← dataEnd_congr hbytes]
          exact hcopied c hc
      · intro entries heq
        obtain ⟨more, hmore, rfl⟩ : ∃ more, out.1 = .ok more ∧ entry :: more = entries := by
          cases hr : out.1 with
          | error e =>
              rw [hr] at heq
              cases heq
          | ok more =>
              rw [hr] at heq
              exact ⟨more, rfl, Except.ok.inj heq⟩
        have hsize : dst.size = valSize.toInt.toNat := by
          rw [Buffer.size, hpayload]
          omega
        have hval : Int32.ofNat dst.size = valSize := by
          rw [hsize]
          exact (sizeT_of_nonneg (by omega)).2.2
        have hroom : 13 + dst.size < 0x80000000 := by
          have hlt : b.size < 0x80000000 := b.size_lt
          have hle := b.data_length
          rw [hdata, List.length_append, List.length_append, headBytes_length, Buffer.remaining] at hle
          omega
        have hentry : EntryHolds entry ⟨term, valType, dst⟩ := ⟨rfl, rfl, hq⟩
        have htile := tiles_cons hentry (htiles more hmore) hroom
        rwa [hval, hpayload] at htile

theorem copied_over {fuel : Nat} {out : Except String (List Entry) × List Copied} (h : Holds p b)
    (hdata : b.data = headBytes term valType valSize ++ rest) (hlen : (rest.length : Int) < valSize.toInt)
    (hread : readEntries m fuel p = some out) : ∃ c ∈ out.2, dataEnd b < c.address + c.length := by
  cases fuel with
  | zero => cases hread
  | succ fuel =>
      obtain ⟨e, copied, p', hentry, hout⟩ := readEntry_over (m := m) h hdata hlen
      rw [readEntries_goes h (hdata ▸ headBytes_append_ne_nil rest) hentry] at hread
      obtain ⟨out', -, rfl⟩ := Option.map_eq_some_iff.mp hread
      exact ⟨copied, by simp, hout⟩

theorem contained_of_inside {fuel : Nat} {out : Except String (List Entry) × List Copied} (h : Holds p b)
    (hread : readEntries m fuel p = some out) (hinside : ∀ c ∈ out.2, c.address + c.length ≤ dataEnd b) :
    Contained b.data := by
  induction fuel generalizing p b out with
  | zero => cases hread
  | succ fuel ih =>
      by_cases hshort : b.data.length < 13
      · exact .short hshort
      obtain ⟨term, valType, valSize, rest, hdata⟩ := exists_headBytes (Nat.not_lt.mp hshort)
      have hne : b.data ≠ [] := hdata ▸ headBytes_append_ne_nil rest
      by_cases hneg : valSize.toInt < 0
      · rw [hdata]
        exact .negative hneg
      by_cases hover : (rest.length : Int) < valSize.toInt
      · obtain ⟨c, hc, hlt⟩ := copied_over h hdata hover hread
        exact absurd (hinside c hc) (Nat.not_le.mpr hlt)
      · obtain ⟨payload, rest', rfl, hlen⟩ : ∃ payload rest', rest = payload ++ rest' ∧
            (payload.length : Int) = valSize.toInt := by
          refine ⟨rest.take valSize.toInt.toNat, rest.drop valSize.toInt.toNat,
            (List.take_append_drop _ _).symm, ?_⟩
          rw [List.length_take]
          omega
        obtain ⟨q, dst, copied, p', b', hentry, -, -, -, hp', hbytes, hdata'⟩ :=
          readEntry_fits (m := m) h hdata hlen
        rw [readEntries_goes h hne hentry] at hread
        obtain ⟨out', hout', rfl⟩ := Option.map_eq_some_iff.mp hread
        rw [hdata]
        refine .entry hlen (hdata' ▸ ih hp' hout' fun c hc => ?_)
        rw [dataEnd_congr hbytes]
        exact hinside c (by simp [hc])

/-! ## The whole request -/

/-- The `int` at the end of a header, as `start` reads it. -/
def announced (header : Block) : Except String Int32 := (header.setPos (rpcReqHeaderSize - 4)).getInt.1

/-- What a session has read: a header, and log data of the size it announces. -/
structure Received (header logData : Block) (hb lb : Buffer) : Prop where
  holdsHeader : Holds header hb
  header_size : hb.size = rpcReqHeaderSize
  holdsData : Holds logData lb
  announces : ∃ dataSize, announced header = .ok dataSize ∧ dataSize.toInt = lb.size
  pos : 0 < lb.size
  le : lb.size ≤ 0x1000000

open BufferM in
/-- All of a header but its last field. -/
def headerFrontOf : BufferM Header := do
  let t ← getByte
  let src ← getInt
  let dst ← getInt
  let term ← getUlong
  let lastTerm ← getUlong
  let lastIdx ← getUlong
  let commitIdx ← getUlong
  return ⟨t, src, dst, term, lastTerm, lastIdx, commitIdx, 0⟩

open BufferM in
theorem headerOf_eq :
    headerOf = headerFrontOf >>= fun h => getInt >>= fun dataSize => pure { h with dataSize := dataSize } := by
  simp only [headerOf, headerFrontOf, bind_assoc, pure_bind]

open BufferM in
theorem needs_headerFront : Needs headerFrontOf 41 :=
  Needs.getByte.bind fun _ => Needs.getInt.bind fun _ => Needs.getInt.bind fun _ => Needs.getUlong.bind fun _ =>
    Needs.getUlong.bind fun _ => Needs.getUlong.bind fun _ => Needs.getUlong.bind fun _ => .pure _

variable {header logData : Block} {hb lb : Buffer}

/-- The header is complete, and its last field is the size. -/
theorem readHeader_ok (r : Received header logData hb lb) :
    ∃ h p', readHeader header = (.ok h, p') ∧ 0 < h.dataSize := by
  obtain ⟨dataSize, hann, hsize⟩ := r.announces
  have hlen : hb.size = 45 := r.header_size
  have hroom : 41 ≤ (hb.setPos 0).remaining := by
    simp only [Buffer.remaining, Buffer.setPos, Buffer.size] at hlen ⊢
    omega
  obtain ⟨h, b₁, hfront, hbytes, hpos⟩ := needs_headerFront.enough (hb.setPos 0) hroom
  -- the cursor is where `start` puts it
  have hthere : b₁ = hb.setPos (rpcReqHeaderSize - 4) := by
    refine Buffer.ext hbytes ?_
    rw [hpos]
    simp only [Buffer.setPos, hlen, rpcReqHeaderSize]
    rfl
  have hint : BufferM.getInt b₁ = (.ok dataSize, (BufferM.getInt b₁).2) := by
    refine Prod.ext ?_ rfl
    rw [hthere]
    exact ((r.holdsHeader.setPos _).getInt.1).symm.trans hann
  obtain ⟨hret, -⟩ := follows_header r.holdsHeader
  rw [headerOf_eq, BufferM.bind_ok hfront, BufferM.bind_ok hint, BufferM.pure_ok] at hret
  refine ⟨{ h with dataSize := dataSize }, _, Prod.ext hret rfl, ?_⟩
  have hzero : (0 : Int32).toInt = 0 := rfl
  have hsome := r.pos
  rw [Int32.lt_iff_toInt_lt, hzero, hsize]
  omega

/-- The decoding ends, copies no payload from behind the end of the log data, and throws or
returns entries that are the log data. -/
def StaysInside (heap header logData : Block) (lb : Buffer) : Prop :=
  ∃ fuel out, readComplete heap fuel header logData = some out ∧
    (∀ c ∈ out.2, c.address + c.length ≤ dataEnd lb) ∧
    ∀ req, out.1 = .ok req → Tiles req.logEntries lb.bytes

theorem readComplete_eq (r : Received header logData hb lb) :
    ∃ h, ∀ fuel, readComplete m fuel header logData =
      (readEntries m fuel (logData.setPos 0)).map fun out => (out.1.map (⟨h, ·⟩), out.2) := by
  obtain ⟨h, p', hheader, hpos⟩ := readHeader_ok r
  refine ⟨h, fun fuel => ?_⟩
  rw [readComplete, hheader]
  exact if_pos hpos

/-- Exactly the messages that have every payload they announce are decoded inside. -/
theorem staysInside_iff (r : Received header logData hb lb) :
    StaysInside m header logData lb ↔ Contained lb.bytes := by
  obtain ⟨h, hread⟩ := readComplete_eq (m := m) r
  have hholds := r.holdsData.setPos 0
  have hdata : (lb.setPos 0).data = lb.bytes := Binary.data_of_pos rfl (Nat.zero_min _)
  constructor
  · rintro ⟨fuel, out, hout, hinside, -⟩
    rw [hread] at hout
    obtain ⟨out', hout', rfl⟩ := Option.map_eq_some_iff.mp hout
    have hcontained := contained_of_inside hholds hout' hinside
    rwa [hdata] at hcontained
  · intro hc
    obtain ⟨out, hout, hinside, htiles⟩ :=
      readEntries_of_contained (m := m) hc hholds hdata (Nat.lt_succ_self _)
    refine ⟨_, (out.1.map (⟨h, ·⟩), out.2), by rw [hread, hout, Option.map_some], hinside, fun req hreq => ?_⟩
    cases hr : out.1 with
    | error e =>
        rw [hr] at hreq
        cases hreq
    | ok entries =>
        rw [hr] at hreq
        obtain rfl := Except.ok.inj hreq
        exact htiles entries hr

/-- The bytes of a message in a new block. -/
def arrived (bytes : Bytes) : Block := Block.initSBlock (fun i => (bytes[i - 4]?).getD 0) bytes.length

theorem holds_arrived {bytes : Bytes} (h : bytes.length < 0x8000) :
    Holds (arrived bytes) ⟨bytes, 0, by omega, Nat.zero_le _⟩ := by
  refine ⟨Block.packed_initSBlock h, ?_⟩
  have hsize : Block.headerSize bytes.length = 4 := if_pos h
  simp only [Buffer.size, hsize, arrived, Block.initSBlock, Block.setUshort]
  rw [read_write_of_disjoint _ (by simp), read_write_of_disjoint _ (by simp)]
  apply List.ext_getElem (read_length _ _ _)
  intro i hi hi'
  simp [Memory.read, hi']

/-- A header that announces `n` bytes. -/
def headerBytes (n : UInt8) : Bytes := List.replicate 41 0 ++ [n, 0, 0, 0]

theorem received_of_length {n : UInt8} {bytes : Bytes} (hn : bytes.length = n.toNat) (hpos : 0 < bytes.length)
    (hann : announced (arrived (headerBytes n)) = .ok (Int32.ofNat n.toNat)) :
    Received (arrived (headerBytes n)) (arrived bytes) ⟨headerBytes n, 0, by simp [headerBytes], Nat.zero_le _⟩
      ⟨bytes, 0, by have := n.toNat_lt; omega, Nat.zero_le _⟩ := by
  have hlt := n.toNat_lt
  have hle : bytes.length ≤ 0x1000000 := by omega
  refine ⟨holds_arrived (by simp [headerBytes]), by simp [Buffer.size, headerBytes, rpcReqHeaderSize],
    holds_arrived (by omega), ⟨_, hann, ?_⟩, hpos, hle⟩
  rw [Int32.toInt_ofNat_of_lt (by omega), Buffer.size, hn]

/-- A payload of two bytes. -/
def stated : Bytes := headBytes 1 1 2 ++ ([7, 7] ++ [])

theorem staysInside_stated :
    StaysInside (fun _ => 0) (arrived (headerBytes 15)) (arrived stated) ⟨stated, 0, by decide, by decide⟩ :=
  (staysInside_iff (received_of_length rfl (by decide) rfl)).mpr
    (.entry (by decide) .nil)

/-- A payload of five bytes is announced and two are there. -/
def overstated : Bytes := headBytes 1 1 5 ++ [7, 7]

theorem not_staysInside_overstated :
    ¬ StaysInside (fun _ => 0) (arrived (headerBytes 15)) (arrived overstated)
      ⟨overstated, 0, by decide, by decide⟩ := by
  rintro ⟨fuel, out, hout, hinside, -⟩
  have hreceived : Received (arrived (headerBytes 15)) (arrived overstated)
      ⟨headerBytes 15, 0, by decide, by decide⟩ ⟨overstated, 0, by decide, by decide⟩ :=
    received_of_length rfl (by decide) rfl
  obtain ⟨h, hread⟩ := readComplete_eq (m := fun _ => 0) hreceived
  rw [hread] at hout
  obtain ⟨out', hout', rfl⟩ := Option.map_eq_some_iff.mp hout
  obtain ⟨c, hc, hlt⟩ := copied_over (hreceived.holdsData.setPos 0) rfl (by decide) hout'
  exact absurd (hinside c hc) (Nat.not_le.mpr hlt)

end Ns3Raft.Service.Asio
