import Ns3Raft.Service.Codec

/-! # Snapshot requests and log entries as bytes

`serialize` and `deserialize` of a `snapshot_sync_req`, with its snapshot, configuration and
servers, and of a `log_entry`. None of the pieces has a length in front: a string ends with
a zero byte, the servers are counted, and the data go on to the end of the buffer.
-/

namespace Ns3Raft.Service.Binary

open Store Block BufferM

structure SrvConfig where
  id : Int32
  endpoint : Bytes
  deriving DecidableEq, Repr

structure ClusterConfig where
  logIdx : UInt64
  prevLogIdx : UInt64
  servers : List SrvConfig
  deriving DecidableEq, Repr

structure Snapshot where
  lastLogIdx : UInt64
  lastLogTerm : UInt64
  size : UInt64
  lastConfig : ClusterConfig
  deriving DecidableEq, Repr

structure SnapshotSyncReq where
  snapshot : Snapshot
  offset : UInt64
  data : Buffer
  done : Bool
  deriving DecidableEq, Repr

structure LogEntry where
  term : UInt64
  valueType : UInt8
  buff : Buffer
  deriving DecidableEq, Repr

variable (heap : Nat → UInt8)

namespace SrvConfig

def serialize (c : SrvConfig) : Except String Buffer :=
  build heap (szInt + c.endpoint.length + 1) do
    putInt c.id
    putStr c.endpoint

/-- A null pointer is no string. -/
def deserialize : BufferM SrvConfig := do
  let id ← getInt
  let endpoint ← getStr
  match endpoint with
  | some endpoint => pure ⟨id, endpoint⟩
  | none => throw "basic_string: construction from null is not valid"

end SrvConfig

namespace ClusterConfig

def serialize (c : ClusterConfig) : Except String Buffer := do
  let srvBuffs ← c.servers.mapM (SrvConfig.serialize heap)
  let sz := 2 * szUlong + szInt + (srvBuffs.map Buffer.size).sum
  build heap sz do
    putUlong c.logIdx
    putUlong c.prevLogIdx
    putInt (Int32.ofNat c.servers.length)
    srvBuffs.forM putBuffer

def readServers : Nat → BufferM (List SrvConfig)
  | 0 => pure []
  | cnt + 1 => do
      let srv ← SrvConfig.deserialize
      let rest ← readServers cnt
      pure (srv :: rest)

def deserialize : BufferM ClusterConfig := do
  let logIdx ← getUlong
  let prevLogIdx ← getUlong
  let cnt ← getInt
  -- a count that is not positive reads no server
  let servers ← readServers cnt.toInt.toNat
  pure ⟨logIdx, prevLogIdx, servers⟩

end ClusterConfig

namespace Snapshot

def serialize (s : Snapshot) : Except String Buffer := do
  let confBuf ← s.lastConfig.serialize heap
  build heap (confBuf.size + szUlong * 3) do
    putUlong s.lastLogIdx
    putUlong s.lastLogTerm
    putUlong s.size
    putBuffer confBuf

def deserialize : BufferM Snapshot := do
  let lastLogIdx ← getUlong
  let lastLogTerm ← getUlong
  let size ← getUlong
  let conf ← ClusterConfig.deserialize
  pure ⟨lastLogIdx, lastLogTerm, size, conf⟩

end Snapshot

namespace SnapshotSyncReq

def serialize (r : SnapshotSyncReq) : Except String Buffer := do
  let snpBuf ← r.snapshot.serialize heap
  build heap (snpBuf.size + szUlong + szByte + (r.data.size - r.data.pos)) do
    putBuffer snpBuf
    putUlong r.offset
    putByte (if r.done then 1 else 0)
    putBuffer r.data

/-- The data are copied to a buffer of their own; the cursor stays in front of them. -/
def getData : BufferM Buffer := fun buf =>
  if buf.pos < buf.size then
    ((Buffer.allocate heap (buf.size - buf.pos)).map (·.memcpy buf.data), buf)
  else (Buffer.allocate heap 0, buf)

def deserialize : BufferM SnapshotSyncReq := do
  let snp ← Snapshot.deserialize
  let offset ← getUlong
  let done ← getByte
  let data ← getData heap
  pure ⟨snp, offset, data, done = 1⟩

end SnapshotSyncReq

namespace LogEntry

/-- The cursor of the payload is put to 0 and stays there. -/
def serialize (e : LogEntry) : Except String Buffer × LogEntry :=
  let e := { e with buff := e.buff.setPos 0 }
  (build heap (szUlong + szByte + e.buff.size) do
    putUlong e.term
    putByte e.valueType
    putBuffer e.buff, e)

/-- `buffer::copy`, which leaves the cursor of what it copies. -/
def copy : BufferM Buffer := fun buf => (build heap (buf.size - buf.pos) (putBuffer buf), buf)

def deserialize : BufferM LogEntry := do
  let term ← getUlong
  let t ← getByte
  let data ← copy heap
  pure ⟨term, t, data⟩

end LogEntry

/-! ## The formats -/

def SrvConfig.bytes (c : SrvConfig) : Bytes :=
  putBytes szInt c.id.toUInt32.toNat ++ (c.endpoint ++ [0])

def ClusterConfig.bytes (c : ClusterConfig) : Bytes :=
  putBytes szUlong c.logIdx.toNat ++ (putBytes szUlong c.prevLogIdx.toNat ++
    (putBytes szInt (Int32.ofNat c.servers.length).toUInt32.toNat ++ c.servers.flatMap SrvConfig.bytes))

def Snapshot.bytes (s : Snapshot) : Bytes :=
  putBytes szUlong s.lastLogIdx.toNat ++ (putBytes szUlong s.lastLogTerm.toNat ++
    (putBytes szUlong s.size.toNat ++ s.lastConfig.bytes))

def SnapshotSyncReq.bytes (r : SnapshotSyncReq) : Bytes :=
  r.snapshot.bytes ++ (putBytes szUlong r.offset.toNat ++ ([if r.done then 1 else 0] ++ r.data.data))

def LogEntry.bytes (e : LogEntry) : Bytes :=
  putBytes szUlong e.term.toNat ++ ([e.valueType] ++ e.buff.bytes)

/-! ## Writing -/

/-- The serialization gives a buffer with the bytes and the cursor at 0, or throws for want
of a buffer that large. -/
def Gives (x : Except String Buffer) (bs : Bytes) : Prop :=
  (∀ h : bs.length < 0x80000000, x = .ok ⟨bs, 0, h, Nat.zero_le _⟩) ∧
    (0x80000000 ≤ bs.length → ∃ e, x = .error e)

variable {m : Nat → UInt8} {size : Nat} {x : BufferM Unit} {bs : Bytes}

theorem Gives.of_writes (h : Writes x bs) (hsize : size = bs.length) : Gives (build m size x) bs :=
  ⟨fun hlt => h.build_eq hsize hlt, fun hle => ⟨_, build_of_le (hsize ▸ hle)⟩⟩

/-- One serialization inside another. -/
theorem Gives.bind {y : Except String Buffer} {f : Buffer → Except String Buffer} {inner : Bytes}
    (hy : Gives y inner) (hle : inner.length ≤ bs.length)
    (hf : ∀ b : Buffer, b.bytes = inner → b.pos = 0 → Gives (f b) bs) : Gives (y >>= f) bs := by
  by_cases hlt : inner.length < 0x80000000
  · rw [hy.1 hlt]
    exact hf _ rfl rfl
  · obtain ⟨e, he⟩ := hy.2 (Nat.not_lt.mp hlt)
    rw [he]
    exact ⟨fun h => absurd (Nat.lt_of_le_of_lt hle h) hlt, fun _ => ⟨e, rfl⟩⟩

theorem data_of_pos {b : Buffer} {bs : Bytes} (hbytes : b.bytes = bs) (hpos : b.pos = 0) : b.data = bs := by
  rw [Buffer.data, hpos, hbytes, List.drop_zero]

theorem SrvConfig.serialize_gives (c : SrvConfig) : Gives (c.serialize m) c.bytes :=
  .of_writes ((Writes.putInt _).bind (Writes.putStr _)) (by
    simp [SrvConfig.bytes]
    omega)

/-- All the servers in buffers of their own, unless one is too large. -/
theorem mapM_serialize (servers : List SrvConfig) :
    (∃ bufs, servers.mapM (SrvConfig.serialize m) = .ok bufs ∧
      bufs.map Buffer.data = servers.map SrvConfig.bytes ∧
      bufs.map Buffer.size = servers.map (·.bytes.length)) ∨
    ∃ e, servers.mapM (SrvConfig.serialize m) = .error e ∧
      0x80000000 ≤ (servers.flatMap SrvConfig.bytes).length := by
  induction servers with
  | nil => exact .inl ⟨[], rfl, rfl, rfl⟩
  | cons c servers ih =>
      have hlen : ((c :: servers).flatMap SrvConfig.bytes).length =
          c.bytes.length + (servers.flatMap SrvConfig.bytes).length := by simp
      rw [List.mapM_cons, hlen]
      by_cases hlt : c.bytes.length < 0x80000000
      · rw [c.serialize_gives.1 hlt]
        rcases ih with ⟨bufs, hbufs, hdata, hsize⟩ | ⟨e, he, hle⟩
        · refine .inl ⟨_ :: bufs, by rw [hbufs]; rfl, ?_, ?_⟩
          · rw [List.map_cons, hdata]
            rfl
          · rw [List.map_cons, hsize]
            rfl
        · exact .inr ⟨e, by rw [he]; rfl, by omega⟩
      · obtain ⟨e, he⟩ := (c.serialize_gives (m := m)).2 (Nat.not_lt.mp hlt)
        exact .inr ⟨e, by rw [he]; rfl, by omega⟩

theorem ClusterConfig.serialize_gives (c : ClusterConfig) : Gives (c.serialize m) c.bytes := by
  have hlen : (c.servers.flatMap SrvConfig.bytes).length ≤ c.bytes.length := by
    simp only [bytes, List.length_append]
    omega
  unfold serialize
  rcases mapM_serialize (m := m) c.servers with ⟨bufs, hbufs, hdata, hsize⟩ | ⟨e, he, hle⟩
  · have hservers : bufs.flatMap Buffer.data = c.servers.flatMap SrvConfig.bytes := by
      rw [List.flatMap_def, hdata, ← List.flatMap_def]
    rw [hbufs]
    refine Gives.of_writes ?_ ?_
    · refine (Writes.putUlong _).bind ((Writes.putUlong _).bind ((Writes.putInt _).bind ?_))
      rw [← hservers]
      exact Writes.forM fun b _ => Writes.putBuffer b
    · rw [hsize]
      simp only [bytes, List.length_append, putBytes_length, List.length_flatMap]
      omega
  · rw [he]
    exact ⟨fun h => absurd hle (by omega), fun _ => ⟨e, rfl⟩⟩

theorem Snapshot.serialize_gives (s : Snapshot) : Gives (s.serialize m) s.bytes := by
  refine s.lastConfig.serialize_gives.bind ?_ fun b hbytes hpos => Gives.of_writes ?_ ?_
  · simp only [bytes, List.length_append]
    omega
  · rw [bytes, ← data_of_pos hbytes hpos]
    exact (Writes.putUlong _).bind ((Writes.putUlong _).bind ((Writes.putUlong _).bind (Writes.putBuffer _)))
  · simp only [bytes, List.length_append, putBytes_length, Buffer.size, hbytes]
    omega

theorem SnapshotSyncReq.serialize_gives (r : SnapshotSyncReq) : Gives (r.serialize m) r.bytes := by
  refine r.snapshot.serialize_gives.bind ?_ fun b hbytes hpos => Gives.of_writes ?_ ?_
  · simp only [bytes, List.length_append]
    omega
  · rw [bytes, ← data_of_pos hbytes hpos]
    exact (Writes.putBuffer _).bind ((Writes.putUlong _).bind ((Writes.putByte _).bind (Writes.putBuffer _)))
  · simp only [bytes, List.length_append, putBytes_length, r.data.data_length, Buffer.size, hbytes,
      List.length_singleton, szByte, Buffer.remaining]
    omega

theorem LogEntry.serialize_gives (e : LogEntry) : Gives (e.serialize m).1 e.bytes := by
  have hdata : (e.buff.setPos 0).data = e.buff.bytes := data_of_pos rfl (Nat.zero_min _)
  refine Gives.of_writes ?_ ?_
  · rw [bytes, ← hdata]
    exact (Writes.putUlong _).bind ((Writes.putByte _).bind (Writes.putBuffer _))
  · simp only [bytes, List.length_append, putBytes_length, List.length_singleton, szByte, Buffer.size,
      Buffer.setPos]
    omega

/-! ## Reading -/

/-- An endpoint that a C string can carry. -/
def SrvConfig.Named (c : SrvConfig) : Prop := c.endpoint ≠ [] ∧ 0 ∉ c.endpoint

theorem SrvConfig.reads {c : SrvConfig} (h : c.Named) : Reads deserialize c.bytes c := by
  refine (Reads.getInt c.id).bind ?_
  exact (Reads.getStr h.1 h.2).last (Reads.pure c)

theorem ClusterConfig.reads_servers {servers : List SrvConfig} (h : ∀ c ∈ servers, c.Named) :
    Reads (readServers servers.length) (servers.flatMap SrvConfig.bytes) servers := by
  induction servers with
  | nil => exact Reads.pure []
  | cons c servers ih =>
      refine (SrvConfig.reads (h c (by simp))).bind ?_
      exact (ih fun c' hc => h c' (by simp [hc])).last (Reads.pure _)

theorem ClusterConfig.reads {c : ClusterConfig} (h : ∀ s ∈ c.servers, s.Named)
    (hlt : c.bytes.length < 0x80000000) : Reads deserialize c.bytes c := by
  -- a server has a byte at least, so that their number is one of 31 bits
  have hmany : ∀ servers : List SrvConfig,
      servers.length ≤ (servers.flatMap SrvConfig.bytes).length := by
    intro servers
    induction servers with
    | nil => exact Nat.le_refl _
    | cons s servers ih =>
        simp only [List.flatMap_cons, List.length_append, List.length_cons, SrvConfig.bytes,
          List.length_nil] at ih ⊢
        omega
  have hcnt : (Int32.ofNat c.servers.length).toInt.toNat = c.servers.length := by
    have hle := hmany c.servers
    simp only [bytes, List.length_append] at hlt
    rw [Int32.toInt_ofNat_of_lt (by omega), Int.toNat_natCast]
  refine (Reads.getUlong _).bind ((Reads.getUlong _).bind ((Reads.getInt _).bind ?_))
  rw [hcnt]
  exact (reads_servers h).last (Reads.pure c)

theorem Snapshot.reads {s : Snapshot} (h : ∀ c ∈ s.lastConfig.servers, c.Named)
    (hlt : s.bytes.length < 0x80000000) : Reads deserialize s.bytes s := by
  have hconf : s.lastConfig.bytes.length < 0x80000000 := by
    simp only [bytes, List.length_append] at hlt
    omega
  refine (Reads.getUlong _).bind ((Reads.getUlong _).bind ((Reads.getUlong _).bind ?_))
  exact (ClusterConfig.reads h hconf).last (Reads.pure s)

/-! ## Round trips -/

theorem length_data_lt (b : Buffer) : b.data.length < 0x80000000 := by
  have hlt := b.size_lt
  simp only [Buffer.data, List.length_drop]
  omega

/-- What follows the cursor, in a buffer of its own. -/
def rest (b : Buffer) : Buffer := ⟨b.data, 0, length_data_lt b, Nat.zero_le _⟩

theorem rest_congr {b b' : Buffer} (h : b.data = b'.data) : rest b = rest b' := Buffer.ext h rfl

theorem LogEntry.copy_eq (buf : Buffer) : copy m buf = (.ok (rest buf), buf) := by
  have hlt : buf.data.length < 0x80000000 := (rest buf).size_lt
  rw [copy, (Writes.putBuffer buf).build_eq (by rw [buf.data_length, Buffer.remaining]) hlt]
  rfl

theorem SnapshotSyncReq.getData_eq (buf : Buffer) : getData m buf = (.ok (rest buf), buf) := by
  unfold getData
  by_cases hpos : buf.pos < buf.size
  · have hlt : buf.size - buf.pos < 0x80000000 := by
      have hsize : buf.size < 0x80000000 := buf.size_lt
      omega
    obtain ⟨b, hb, hcells, hzero⟩ := allocate_of_lt (m := m) hlt
    have hlen : b.bytes.length = buf.data.length := by
      rw [hcells, Memory.read_length, buf.data_length, Buffer.remaining]
    have hcopied : b.memcpy buf.data = rest buf := by
      refine Buffer.ext ?_ hzero
      simp only [Buffer.memcpy, hzero, Buffer.remaining, Buffer.size, rest]
      rw [List.take_zero, List.nil_append, List.take_of_length_le (by omega),
        List.drop_of_length_le (by omega), List.append_nil]
    rw [if_pos hpos, hb, Except.map, hcopied]
  · have hnil : buf.data = [] := List.drop_of_length_le (Nat.not_lt.mp hpos)
    obtain ⟨b, hb, hcells, hzero⟩ := allocate_of_lt (m := m) (Nat.zero_lt_succ _ : 0 < 0x80000000)
    have hempty : b = rest buf := Buffer.ext (hcells.trans hnil.symm) hzero
    rw [if_neg hpos, hb, hempty]

variable (heap' : Nat → UInt8)

/-- A request that fits into a buffer is read back as it was, up to the cursor of its data.
The data are copied: they are still in front of the cursor. -/
structure SnapshotSyncReq.RoundTrip (r : SnapshotSyncReq) : Prop where
  tooLarge : 0x80000000 ≤ r.bytes.length → ∃ e, r.serialize heap = .error e
  readBack : r.bytes.length < 0x80000000 → ∃ buf buf', r.serialize heap = .ok buf ∧ buf.bytes = r.bytes ∧
    deserialize heap' buf = (.ok { r with data := rest r.data }, buf') ∧
    buf'.bytes = buf.bytes ∧ buf'.data = r.data.data

/-- The same for an entry, wherever the cursor of its payload was. -/
structure LogEntry.RoundTrip (e : LogEntry) : Prop where
  tooLarge : 0x80000000 ≤ e.bytes.length → ∃ err, (e.serialize heap).1 = .error err
  readBack : e.bytes.length < 0x80000000 → ∃ buf buf', (e.serialize heap).1 = .ok buf ∧ buf.bytes = e.bytes ∧
    deserialize heap' buf = (.ok { e with buff := e.buff.setPos 0 }, buf') ∧
    buf'.bytes = buf.bytes ∧ buf'.data = e.buff.bytes
  anyCursor : ∀ q, ({ e with buff := e.buff.setPos q } : LogEntry).serialize heap = e.serialize heap

theorem SnapshotSyncReq.roundTrip {r : SnapshotSyncReq} (h : ∀ c ∈ r.snapshot.lastConfig.servers, c.Named) :
    r.RoundTrip heap heap' := by
  refine ⟨r.serialize_gives.2, fun hlt => ?_⟩
  have hsnp : r.snapshot.bytes.length < 0x80000000 := by
    simp only [bytes, List.length_append] at hlt
    omega
  have hdone : decide ((if r.done then 1 else 0 : UInt8) = 1) = r.done := by
    cases r.done <;> rfl
  obtain ⟨buf, hbuf, hbytes, hdata⟩ : ∃ buf, r.serialize heap = .ok buf ∧ buf.bytes = r.bytes ∧
      buf.data = r.bytes := ⟨_, r.serialize_gives.1 hlt, rfl, rfl⟩
  rw [bytes] at hdata
  obtain ⟨b₁, hread₁, hsame₁, hdata₁⟩ := (Snapshot.reads h hsnp).run hdata
  obtain ⟨b₂, hread₂, hsame₂, hdata₂⟩ := (Reads.getUlong r.offset).run hdata₁
  obtain ⟨b₃, hread₃, hsame₃, hdata₃⟩ := (Reads.getByte _).run hdata₂
  refine ⟨buf, b₃, hbuf, hbytes, ?_, hsame₃.trans (hsame₂.trans hsame₁), hdata₃⟩
  unfold deserialize
  rw [bind_ok hread₁, bind_ok hread₂, bind_ok hread₃, bind_ok (getData_eq b₃), pure_ok,
    rest_congr hdata₃, hdone]

theorem LogEntry.roundTrip (e : LogEntry) : e.RoundTrip heap heap' := by
  have hcursor (q : Nat) : (e.buff.setPos q).setPos 0 = e.buff.setPos 0 :=
    Buffer.ext rfl ((Nat.zero_min _).trans (Nat.zero_min _).symm)
  refine ⟨e.serialize_gives.2, fun hlt => ?_, fun q => by simp only [serialize, hcursor q]⟩
  have hrest : rest (e.buff.setPos 0) = e.buff.setPos 0 :=
    Buffer.ext (data_of_pos rfl (Nat.zero_min _)) (Nat.zero_min _).symm
  have hpayload : (e.buff.setPos 0).data = e.buff.bytes := data_of_pos rfl (Nat.zero_min _)
  obtain ⟨buf, hbuf, hbytes, hdata⟩ : ∃ buf, (e.serialize heap).1 = .ok buf ∧ buf.bytes = e.bytes ∧
      buf.data = e.bytes := ⟨_, e.serialize_gives.1 hlt, rfl, rfl⟩
  rw [bytes] at hdata
  obtain ⟨b₁, hread₁, hsame₁, hdata₁⟩ := (Reads.getUlong e.term).run hdata
  obtain ⟨b₂, hread₂, hsame₂, hdata₂⟩ := (Reads.getByte _).run hdata₁
  refine ⟨buf, b₂, hbuf, hbytes, ?_, hsame₂.trans hsame₁, hdata₂⟩
  unfold deserialize
  rw [bind_ok hread₁, bind_ok hread₂, bind_ok (copy_eq b₂), pure_ok,
    rest_congr (hdata₂.trans hpayload.symm), hrest]

theorem round_trips (heap heap' : Nat → UInt8) :
    (∀ r : SnapshotSyncReq, (∀ c ∈ r.snapshot.lastConfig.servers, c.Named) → r.RoundTrip heap heap') ∧
      ∀ e : LogEntry, e.RoundTrip heap heap' :=
  ⟨fun _ h => SnapshotSyncReq.roundTrip heap heap' h, LogEntry.roundTrip heap heap'⟩

/-- Two servers, and data behind the cursor. -/
def twoServers : SnapshotSyncReq :=
  ⟨⟨7, 2, 100, ⟨5, 0, [⟨1, [97]⟩, ⟨-2, [98, 99]⟩]⟩⟩, 50, ⟨[1, 2, 3], 1, by decide, by decide⟩, true⟩

theorem twoServers_named : ∀ c ∈ twoServers.snapshot.lastConfig.servers, c.Named := by
  intro c hc
  simp only [twoServers, List.mem_cons, List.not_mem_nil, or_false] at hc
  rcases hc with rfl | rfl
  · exact ⟨by decide, by decide⟩
  · exact ⟨by decide, by decide⟩

theorem round_trips_twoServers :
    twoServers.RoundTrip (fun _ => 0) (fun _ => 1) ∧
      (⟨3, 1, twoServers.data⟩ : LogEntry).RoundTrip (fun _ => 0) (fun _ => 1) := by
  obtain ⟨hreqs, hentries⟩ := round_trips (fun _ => 0) (fun _ => 1)
  exact ⟨hreqs twoServers twoServers_named, hentries _⟩

/-- The data in front of the cursor are not sent, those behind it are not passed by the cursor
of the decoder, and the largest data do not fit. -/
theorem not_consumed :
    (∃ buf r buf', twoServers.serialize (fun _ => 0) = .ok buf ∧
      SnapshotSyncReq.deserialize (fun _ => 0) buf = (.ok r, buf') ∧ buf'.pos < buf'.size ∧
      r.data.bytes ≠ twoServers.data.bytes) ∧
    (∃ buf e buf', ((⟨3, 1, twoServers.data⟩ : LogEntry).serialize fun _ => 0).1 = .ok buf ∧
      LogEntry.deserialize (fun _ => 0) buf = (.ok e, buf') ∧ buf'.pos < buf'.size) ∧
    ∃ (data : Buffer) (e : String), data.size = 0x7fffffff ∧
      ({ twoServers with data := data } : SnapshotSyncReq).serialize (fun _ => 0) = .error e := by
  have hinside {b : Buffer} (h : b.data ≠ []) : b.pos < b.size := by
    by_contra hle
    exact h (List.drop_of_length_le (Nat.not_lt.mp hle))
  refine ⟨?_, ?_, ?_⟩
  · obtain ⟨buf, buf', hbuf, -, hread, -, hdata⟩ :=
      (SnapshotSyncReq.roundTrip (fun _ => 0) (fun _ => 0) twoServers_named).readBack (by decide)
    exact ⟨buf, _, buf', hbuf, hread, hinside (by rw [hdata]; decide), by decide⟩
  · obtain ⟨buf, buf', hbuf, -, hread, -, hdata⟩ :=
      (LogEntry.roundTrip (fun _ => 0) (fun _ => 0) ⟨3, 1, twoServers.data⟩).readBack
        (by decide)
    exact ⟨buf, _, buf', hbuf, hread, hinside (by rw [hdata]; decide)⟩
  · obtain ⟨n, hn⟩ : ∃ n, n = 0x7fffffff := ⟨_, rfl⟩
    let data : Buffer := ⟨List.replicate n 0, 0, by rw [List.length_replicate]; omega, Nat.zero_le _⟩
    have hsize : data.size = n := List.length_replicate
    have hlarge : 0x80000000 ≤ ({ twoServers with data := data } : SnapshotSyncReq).bytes.length := by
      have hrest : data.data.length = n := by rw [data.data_length, Buffer.remaining, hsize, Nat.sub_zero]
      simp only [SnapshotSyncReq.bytes, List.length_append, List.length_singleton, hrest]
      omega
    obtain ⟨e, he⟩ := (SnapshotSyncReq.serialize_gives (m := fun _ => 0) _).2 hlarge
    exact ⟨data, e, hsize.trans hn, he⟩

end Ns3Raft.Service.Binary
