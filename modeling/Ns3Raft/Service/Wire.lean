import Ns3Raft.Lib.Framing
import Ns3Raft.Raft.Types
import Ns3Raft.Service.Base64
import Mathlib.Data.List.TakeWhile
import Mathlib.Data.Countable.Basic
import Mathlib.Logic.Equiv.List
import Mathlib.Logic.Function.Basic
import Mathlib.Tactic.DeriveCountable

/-! # Messages on the wire

What `ns3_rpc_client` and `rpc_session` write on a connection and read from it: a
JSON document and a delimiter for every message, with the payload of a log entry
in base64. The JSON library is a parameter.
-/

namespace Ns3Raft.Service

open Framing Raft

/-! ## Buffers -/

/-- `cornerstone::buffer`, whose size has 31 bits. -/
@[ext]
structure Buffer where
  bytes : Bytes
  pos : Nat
  size_lt : bytes.length < 0x80000000
  pos_le : pos ≤ bytes.length
  deriving DecidableEq, Repr

namespace Buffer

def size (b : Buffer) : Nat := b.bytes.length

/-- What `data ()` points to. -/
def data (b : Buffer) : Bytes := b.bytes.drop b.pos

/-- `heap` is what `new char[]` holds; `none` is the exception. -/
def alloc (heap : Nat → UInt8) (size : Nat) : Option Buffer :=
  if h : size < 0x80000000 then
    some ⟨(List.range size).map heap, 0, by simpa using h, Nat.zero_le _⟩
  else none

def setPos (b : Buffer) (p : Nat) : Buffer :=
  ⟨b.bytes, min p b.size, b.size_lt, Nat.min_le_right _ _⟩

def put (b : Buffer) (byte : UInt8) : Option Buffer :=
  if h : b.size - b.pos < 1 then none
  else
    some ⟨b.bytes.set b.pos byte, b.pos + 1, by simpa using b.size_lt, by
      have hlt : b.pos < b.bytes.length := Nat.lt_of_not_le fun hle => h (by simp [size]; omega)
      simpa using Nat.succ_le_of_lt hlt⟩

def putAll (b : Buffer) (bytes : Bytes) : Option Buffer := bytes.foldlM put b

theorem putAll_spec (b : Buffer) (bytes : Bytes) (h : b.pos + bytes.length ≤ b.size) :
    ∃ b', b.putAll bytes = some b' ∧ b'.pos = b.pos + bytes.length ∧
      b'.bytes = b.bytes.take b.pos ++ bytes ++ b.bytes.drop (b.pos + bytes.length) := by
  induction bytes generalizing b with
  | nil => exact ⟨b, by simp [putAll], by simp, by simp⟩
  | cons byte bytes ih =>
      simp only [List.length_cons] at h
      have hlt : b.pos < b.bytes.length := by
        simp only [size] at h
        omega
      have hroom : ¬ b.size - b.pos < 1 := by omega
      let next : Buffer := ⟨b.bytes.set b.pos byte, b.pos + 1, by simpa using b.size_lt,
        by simpa using Nat.succ_le_of_lt hlt⟩
      have hput : b.put byte = some next := dif_neg hroom
      obtain ⟨b', hb', hpos, hbytes⟩ := ih next (by simp [next, size] at h ⊢; omega)
      refine ⟨b', ?_, ?_, ?_⟩
      · simpa [putAll, hput] using hb'
      · simp only [hpos, next, List.length_cons]
        omega
      · have htake : (b.bytes.set b.pos byte).take (b.pos + 1) = b.bytes.take b.pos ++ [byte] := by
          rw [List.take_set, List.take_add_one, List.getElem?_eq_getElem hlt, List.set_append]
          simp [Nat.min_eq_left (Nat.le_of_lt hlt)]
        have hdrop : (b.bytes.set b.pos byte).drop (b.pos + 1 + bytes.length) =
            b.bytes.drop (b.pos + (bytes.length + 1)) := by
          rw [List.drop_set_of_lt (by omega)]
          congr 1
          omega
        rw [hbytes]
        simp only [next, htake, hdrop, List.length_cons]
        simp

/-- A buffer of the right size takes exactly the bytes. -/
theorem alloc_putAll (heap : Nat → UInt8) (bytes : Bytes) (h : bytes.length < 0x80000000) :
    ((alloc heap bytes.length).bind (·.putAll bytes)).map (·.setPos 0) =
      some ⟨bytes, 0, h, Nat.zero_le _⟩ := by
  obtain ⟨b', hb', -, hbytes⟩ := putAll_spec
    ⟨(List.range bytes.length).map heap, 0, by simpa using h, Nat.zero_le _⟩ bytes (by simp [size])
  have hbytes : b'.bytes = bytes := by
    rw [hbytes, List.drop_of_length_le (by simp)]
    simp
  simp [alloc, h, hb', setPos, hbytes]

end Buffer

/-! ## Messages -/

inductive LogValType where
  | appLog | conf | clusterServer | logPack | snpSyncReq
  deriving DecidableEq, Repr

structure WireEntry where
  term : UInt64
  valType : LogValType
  buf : Buffer
  deriving DecidableEq, Repr

structure WireReq where
  term : UInt64
  type : MsgType
  src : Int32
  dst : Int32
  lastLogTerm : UInt64
  lastLogIdx : UInt64
  commitIdx : UInt64
  logEntries : List WireEntry
  deriving DecidableEq, Repr

structure WireResp where
  term : UInt64
  type : MsgType
  src : Int32
  dst : Int32
  nextIdx : UInt64
  accepted : Bool
  deriving DecidableEq, Repr

/-- The numbers of `log_val_type`. -/
def LogValType.toInt : LogValType → Int32
  | .appLog => 1 | .conf => 2 | .clusterServer => 3 | .logPack => 4 | .snpSyncReq => 5

def LogValType.ofInt (n : Int32) : Option LogValType :=
  [.appLog, .conf, .clusterServer, .logPack, .snpSyncReq].find? (·.toInt = n)

/-- The numbers of `msg_type`. -/
def msgTypeToInt : MsgType → Int32
  | .voteRequest => 1 | .voteResponse => 2 | .appendEntriesRequest => 3 | .appendEntriesResponse => 4
  | .clientRequest => 5 | .addServerRequest => 6 | .addServerResponse => 7 | .removeServerRequest => 8
  | .removeServerResponse => 9 | .syncLogRequest => 10 | .syncLogResponse => 11
  | .joinClusterRequest => 12 | .joinClusterResponse => 13 | .leaveClusterRequest => 14
  | .leaveClusterResponse => 15 | .installSnapshotRequest => 16 | .installSnapshotResponse => 17
  | .prevoteRequest => 18 | .prevoteResponse => 19

def msgTypeOfInt (n : Int32) : Option MsgType :=
  [.voteRequest, .voteResponse, .appendEntriesRequest, .appendEntriesResponse, .clientRequest,
    .addServerRequest, .addServerResponse, .removeServerRequest, .removeServerResponse,
    .syncLogRequest, .syncLogResponse, .joinClusterRequest, .joinClusterResponse,
    .leaveClusterRequest, .leaveClusterResponse, .installSnapshotRequest,
    .installSnapshotResponse, .prevoteRequest, .prevoteResponse].find? (msgTypeToInt · = n)

@[simp] theorem LogValType.ofInt_toInt (t : LogValType) : LogValType.ofInt t.toInt = some t := by
  cases t <;> rfl

@[simp] theorem msgTypeOfInt_toInt (t : MsgType) : msgTypeOfInt (msgTypeToInt t) = some t := by
  cases t <;> rfl

/-! ## Documents -/

/-- The values that a member of an object has in these documents. -/
inductive Scalar where
  | num (n : Int)
  | str (s : Bytes)
  | bool (b : Bool)
  deriving DecidableEq, Repr

inductive Field where
  | scalar (v : Scalar)
  | array (objects : List (List (String × Scalar)))
  deriving DecidableEq, Repr

abbrev Document := List (String × Field)

namespace Scalar

/-- `GetInt` and the other accessors assert the kind and the range of the value. -/
def getInt : Scalar → Option Int32
  | .num n => if -2 ^ 31 ≤ n ∧ n < 2 ^ 31 then some (Int32.ofInt n) else none
  | _ => none

def getUint64 : Scalar → Option UInt64
  | .num n => if 0 ≤ n ∧ n < 2 ^ 64 then some (UInt64.ofNat n.toNat) else none
  | _ => none

def getString : Scalar → Option Bytes
  | .str s => some s
  | _ => none

def getBool : Scalar → Option Bool
  | .bool b => some b
  | _ => none

def setInt (n : Int32) : Scalar := .num n.toInt

def setUint64 (n : UInt64) : Scalar := .num n.toNat

@[simp] theorem getInt_setInt (n : Int32) : (setInt n).getInt = some n := by
  simp only [setInt, getInt, if_pos (And.intro n.le_toInt n.toInt_lt), Int32.ofInt_toInt]

@[simp] theorem getUint64_setUint64 (n : UInt64) : (setUint64 n).getUint64 = some n := by
  have hlt : (n.toNat : Int) < 2 ^ 64 := by exact_mod_cast n.toNat_lt
  simp only [setUint64, getUint64, if_pos (And.intro (Int.natCast_nonneg n.toNat) hlt),
    Int.toNat_natCast, UInt64.ofNat_toNat]

end Scalar

def Document.get (d : Document) (name : String) : Option Scalar :=
  match d.lookup name with
  | some (.scalar v) => some v
  | _ => none

/-- The bytes of a C string. -/
def cStr (bytes : Bytes) : Bytes := bytes.takeWhile (· ≠ 0)

theorem cStr_of_no_nul {bytes : Bytes} (h : (0 : UInt8) ∉ bytes) : cStr bytes = bytes := by
  refine List.takeWhile_eq_self_iff.mpr fun b hb => ?_
  have hne : b ≠ 0 := fun heq => h (heq ▸ hb)
  simpa using hne

/-! ## Reading and writing -/

/-- `'#'` -/
def delimiter : UInt8 := 35

/-- `rapidjson`: `parse` gives the document when it is an object. -/
structure Json where
  write : Document → Bytes
  parse : Bytes → Option Document

/-- What the library does with the documents that are built here. The text of an object closes
with its last byte. -/
structure Json.Faithful (J : Json) (built : Document → Prop) : Prop where
  no_delimiter : ∀ d, built d → delimiter ∉ J.write d
  no_nul : ∀ d, built d → (0 : UInt8) ∉ J.write d
  parse_write : ∀ d, built d → J.parse (J.write d) = some d
  parse_truncated : ∀ d, built d → ∀ n < (J.write d).length, J.parse ((J.write d).take n) = none

/-- `Socket::Send`, whose size is a `uint32_t`. -/
def socketSend (buf : Bytes) : Bytes := buf.take (buf.length % 2 ^ 32)

def sendDocument (J : Json) (d : Document) : Bytes :=
  socketSend (J.write d) ++ socketSend [delimiter]

/-- The address that a packet comes from. -/
inductive Address where
  | inet (ip : UInt32) (port : UInt16)
  | other (tag : Nat)
  deriving DecidableEq, Repr

def Address.isInet : Address → Bool
  | .inet .. => true
  | .other _ => false

section
variable {σ : Type*} (J : Json) (complete : σ → Document → Option σ)

/-- One text between delimiters. -/
def readFrame (s : σ) (parsedPacket : Bytes) : Option σ :=
  match J.parse (cStr parsedPacket) with
  | none => some s
  | some d => complete s d

/-- The loop over `totalReceivedData`; it leaves what follows the last delimiter. -/
def readLoop (s : σ) (total : Bytes) : Option (σ × Bytes) :=
  match h : total.findIdx? (· = delimiter) with
  | none => some (s, total)
  | some pos => (readFrame J complete s (total.take pos)).bind fun s => readLoop s (total.drop (pos + 1))
termination_by total.length
decreasing_by
  obtain ⟨hpos, -⟩ := List.findIdx?_eq_some_iff_getElem.mp h
  simp only [List.length_drop]
  omega

/-- `HandleRead`, over the packets that `RecvFrom` returns. -/
def handleRead (s : σ) (bufferedData : Address → Bytes) :
    List (Address × Bytes) → Option (σ × (Address → Bytes))
  | [] => some (s, bufferedData)
  | (source, packet) :: packets =>
      if packet.length = 0 then some (s, bufferedData)
      else if source.isInet then
        (readLoop J complete s (bufferedData source ++ cStr packet)).bind fun (s, total) =>
          handleRead s (Function.update bufferedData source total) packets
      else handleRead s bufferedData packets

theorem readLoop_eq (s : σ) (total : Bytes) :
    readLoop J complete s total =
      ((cut delimiter total).1.foldlM (readFrame J complete) s).map (·, (cut delimiter total).2) := by
  induction hlen : total.length using Nat.strong_induction_on generalizing s total with
  | _ n ih =>
      subst hlen
      rw [readLoop]
      split
      · next h =>
          have hnot : delimiter ∉ total := fun hmem => by
            simpa using List.findIdx?_eq_none_iff.mp h delimiter hmem
          simp [cut_of_not_mem hnot]
      · next pos h =>
          obtain ⟨hpos, hat, hbefore⟩ := List.findIdx?_eq_some_iff_getElem.mp h
          have hat : total[pos] = delimiter := by simpa using hat
          have hnot : delimiter ∉ total.take pos := by
            intro hmem
            obtain ⟨i, hi, heq⟩ := List.mem_take_iff_getElem.mp hmem
            exact absurd (decide_eq_true heq) (by simpa using hbefore i (by omega))
          have hsplit : total = total.take pos ++ delimiter :: total.drop (pos + 1) := by
            rw [← hat, List.getElem_cons_drop, List.take_append_drop]
          have hcut : cut delimiter total =
              (total.take pos :: (cut delimiter (total.drop (pos + 1))).1,
                (cut delimiter (total.drop (pos + 1))).2) := by
            conv_lhs => rw [hsplit]
            exact cut_cons_frame hnot
          rw [hcut, List.foldlM_cons, Option.bind_eq_bind, Option.map_bind]
          congr 1
          funext s
          exact ih _ (by simp only [List.length_drop]; omega) s _ rfl

/-- A call reads on where the call before it ended. -/
theorem handleRead_append (s : σ) (bufferedData : Address → Bytes) {packets : List (Address × Bytes)}
    (hsize : ∀ p ∈ packets, p.2 ≠ []) (packets' : List (Address × Bytes)) :
    handleRead J complete s bufferedData (packets ++ packets') =
      (handleRead J complete s bufferedData packets).bind fun p =>
        handleRead J complete p.1 p.2 packets' := by
  induction packets generalizing s bufferedData with
  | nil => rfl
  | cons p packets ih =>
      have hp : ¬ p.2.length = 0 := by simpa using hsize p (by simp)
      have hthen := fun s bufferedData => ih s bufferedData fun q hq => hsize q (by simp [hq])
      rw [List.cons_append, handleRead, handleRead, if_neg hp, if_neg hp]
      split
      · rw [Option.bind_assoc]
        congr 1
        funext r
        exact hthen ..
      · exact hthen ..

/-- The packets of one connection are read as their concatenation. -/
theorem handleRead_eq {ip : UInt32} {port : UInt16} (packets : List Bytes)
    (hsize : ∀ p ∈ packets, p ≠ []) (hnul : ∀ p ∈ packets, (0 : UInt8) ∉ p) (s : σ)
    (bufferedData : Address → Bytes) (hbuf : delimiter ∉ bufferedData (.inet ip port)) :
    handleRead J complete s bufferedData (packets.map (Address.inet ip port, ·)) =
      ((cut delimiter (bufferedData (.inet ip port) ++ packets.flatten)).1.foldlM
        (readFrame J complete) s).map
          (·, Function.update bufferedData (.inet ip port)
            (cut delimiter (bufferedData (.inet ip port) ++ packets.flatten)).2) := by
  induction packets generalizing s bufferedData with
  | nil => simp [handleRead, cut_of_not_mem hbuf]
  | cons p packets ih =>
      have hp := hsize p (by simp)
      have hp0 := hnul p (by simp)
      have hrest : delimiter ∉ (cut delimiter (bufferedData (.inet ip port) ++ p)).2 := (cut_spec _).2.2
      have hthen := fun s total => ih (fun q hq => hsize q (by simp [hq])) (fun q hq => hnul q (by simp [hq])) s
        (Function.update bufferedData (.inet ip port) total)
      simp only [Function.update_self, Function.update_idem] at hthen
      rw [List.map_cons, handleRead, if_neg (by simpa using hp), if_pos (by rfl), cStr_of_no_nul hp0,
        readLoop_eq, List.flatten_cons, ← List.append_assoc,
        cut_append (bufferedData (.inet ip port) ++ p) packets.flatten]
      rw [List.foldlM_append, Option.bind_eq_bind, Option.map_bind, Option.bind_map]
      congr 1
      funext s
      exact hthen s _ hrest

end

/-! ## A library that knows one text

It writes one document as JSON does and every other one by a number.
-/

instance countableUInt8 : Countable UInt8 :=
  Function.Injective.countable (f := UInt8.toNat) fun _ _ h => UInt8.toNat_inj.mp h

instance countableChar : Countable Char :=
  Function.Injective.countable (f := Char.toNat) fun _ _ h => Char.toNat_inj.mp h

instance countableString : Countable String :=
  Function.Injective.countable (f := String.toList) fun _ _ h => String.toList_inj.mp h

deriving instance Countable for Scalar

deriving instance Countable for Field

noncomputable def numberedText (d : Document) : Bytes :=
  1 :: List.replicate ((exists_injective_nat Document).choose d) 2 ++ [1]

theorem numberedText_eq (d : Document) :
    ∃ k, numberedText d = 1 :: List.replicate k 2 ++ [1] := ⟨_, rfl⟩

theorem numberedText_injective : Function.Injective numberedText := by
  intro d d' h
  have hlen := congrArg List.length h
  simp only [numberedText, List.length_append, List.length_cons, List.length_replicate] at hlen
  exact (exists_injective_nat Document).choose_spec (by omega)

theorem numberedText_not_mem {d : Document} {b : UInt8} (h1 : b ≠ 1) (h2 : b ≠ 2) :
    b ∉ numberedText d := by
  simp [numberedText, List.mem_replicate, h1, h2]

/-- The last byte of a numbered text is not inside another one. -/
theorem numberedText_ne_take {d d' : Document} {n : Nat} (hn : n < (numberedText d).length) :
    numberedText d' ≠ (numberedText d).take n := by
  obtain ⟨k, hk⟩ := numberedText_eq d
  obtain ⟨k', hk'⟩ := numberedText_eq d'
  rw [hk] at hn ⊢
  rw [hk']
  intro h
  have hlen := congrArg List.length h
  simp only [List.length_append, List.length_cons, List.length_replicate, List.length_nil,
    List.length_take] at hlen hn
  have hat := congrArg (·[k' + 1]?) h
  have hlt : k' < k := by omega
  simp only [List.cons_append, List.getElem?_cons_succ, List.getElem?_take_of_lt (by omega : k' + 1 < n)] at hat
  rw [List.getElem?_append_right (by simp), List.getElem?_append_left (by simpa using hlt)] at hat
  simp [hlt] at hat

open Classical in
noncomputable def tableJson (d₀ : Document) (text₀ : Bytes) : Json where
  write d := if d = d₀ then text₀ else numberedText d
  parse text :=
    if text = text₀ then some d₀
    else if h : ∃ d, numberedText d = text then some h.choose
    else none

/-- A character of one byte that is neither the delimiter nor the end of a C string. -/
def carried (c : Char) : Bool := Nat.ble 1 c.val.toNat && !Nat.beq c.val.toNat 35 && Nat.ble c.val.toNat 255

theorem ne_of_carried {l : List Char} (h : l.all carried = true) :
    ∀ b ∈ l.map Char.toUInt8, b ≠ delimiter ∧ b ≠ 0 := by
  intro b hb
  obtain ⟨c, hc, rfl⟩ := List.mem_map.mp hb
  have hcarried := List.all_eq_true.mp h c hc
  simp only [carried, Bool.and_eq_true, Bool.not_eq_true', Nat.ble_eq] at hcarried
  obtain ⟨⟨hpos, hne⟩, hle⟩ := hcarried
  have hnat : c.toUInt8.toNat = c.val.toNat := Nat.mod_eq_of_lt (by omega)
  constructor
  · intro heq
    rw [heq] at hnat
    exact Nat.ne_of_beq_eq_false hne hnat.symm
  · intro heq
    rw [heq] at hnat
    exact absurd hnat.symm (Nat.ne_of_gt hpos)

section
variable {d₀ : Document} {text₀ : Bytes} (hhead : text₀.head? = some 123)
include hhead

theorem numberedText_ne_known {d : Document} {n : Nat} : numberedText d ≠ text₀.take n := by
  intro h
  have hat := congrArg List.head? h
  cases n with
  | zero => simp [numberedText] at hat
  | succ n =>
      cases text₀ with
      | nil => simp at hhead
      | cons b text =>
          obtain rfl : b = 123 := by simpa using hhead
          simp [numberedText] at hat

theorem tableJson_faithful {built : Document → Prop} (hdelim : delimiter ∉ text₀)
    (hnul : (0 : UInt8) ∉ text₀) : (tableJson d₀ text₀).Faithful built := by
  have hknown : ∀ d, numberedText d ≠ text₀ := fun d h =>
    numberedText_ne_known hhead (h.trans (List.take_length).symm)
  refine ⟨fun d _ => ?_, fun d _ => ?_, fun d _ => ?_, fun d _ n hn => ?_⟩
  · simp only [tableJson]
    split
    · exact hdelim
    · exact numberedText_not_mem (by decide) (by decide)
  · simp only [tableJson]
    split
    · exact hnul
    · exact numberedText_not_mem (by decide) (by decide)
  · by_cases h : d = d₀
    · simp [tableJson, h]
    · have hex : ∃ d', numberedText d' = numberedText d := ⟨d, rfl⟩
      have hparse : (tableJson d₀ text₀).parse (numberedText d) = some hex.choose := by
        simp only [tableJson, if_neg (hknown d)]
        exact dif_pos hex
      rw [show (tableJson d₀ text₀).write d = numberedText d from if_neg h, hparse]
      exact congrArg some (numberedText_injective hex.choose_spec)
  · simp only [tableJson] at hn ⊢
    split at hn
    · next h =>
        rw [if_pos h, if_neg, dif_neg]
        · exact fun ⟨d', heq⟩ => numberedText_ne_known hhead heq
        · intro heq
          have hlen := congrArg List.length heq
          simp only [List.length_take] at hlen
          omega
    · next h =>
        rw [if_neg h, if_neg, dif_neg]
        · exact fun ⟨d', heq⟩ => numberedText_ne_take hn heq
        · intro heq
          have hat := congrArg List.head? heq
          rw [hhead] at hat
          cases n with
          | zero => simp at hat
          | succ n => simp [numberedText] at hat

end

end Ns3Raft.Service
