import Ns3Raft.Service.Wire

/-! # Requests on a connection

`ns3_rpc_client::send` writes a request and `rpc_session::HandleRead` hands it to
`process_req`. The request arrives as it was sent, however the stream is cut, when
its text has a length that `Send` can be told and its payloads are short enough
for the decoder's index.
-/

namespace Ns3Raft.Service

open Framing Raft

/-! ## The client's side -/

namespace WireReq

/-- `send` moves every buffer to its start. -/
def rewind (req : WireReq) : WireReq :=
  { req with logEntries := req.logEntries.map fun e => { e with buf := e.buf.setPos 0 } }

def entryObject (e : WireEntry) : List (String × Scalar) :=
  [("term", .setUint64 e.term),
   ("val_type", .setInt e.valType.toInt),
   ("val_size", .setInt (Int32.ofNat e.buf.size)),
   ("data", .str (base64Encode e.buf.data))]

def document (req : WireReq) : Document :=
  [("msg_type", .scalar (.setInt (msgTypeToInt req.type))),
   ("src", .scalar (.setInt req.src)),
   ("dst", .scalar (.setInt req.dst)),
   ("term", .scalar (.setUint64 req.term)),
   ("last_log_term", .scalar (.setUint64 req.lastLogTerm)),
   ("last_log_idx", .scalar (.setUint64 req.lastLogIdx)),
   ("commit_idx", .scalar (.setUint64 req.commitIdx)),
   ("log_data", .array (req.rewind.logEntries.map entryObject))]

/-- What `send` gives to the socket. -/
def send (J : Json) (req : WireReq) : Bytes := sendDocument J req.document

/-- The request fits the widths of `Send` and of the decoder. -/
def Fits (J : Json) (req : WireReq) : Prop :=
  (J.write req.document).length < 2 ^ 32 ∧ ∀ e ∈ req.logEntries, e.buf.size < payloadLimit

end WireReq

/-! ## The server's side -/

/-- `(size_t)val_size` -/
def sizeT (n : Int32) : Nat := (n.toInt % 2 ^ 64).toNat

def readEntry (heap : Nat → UInt8) (o : List (String × Scalar)) : Option WireEntry := do
  let term ← (← o.lookup "term").getUint64
  let valType ← LogValType.ofInt (← (← o.lookup "val_type").getInt)
  let valSize ← (← o.lookup "val_size").getInt
  let s ← (← o.lookup "data").getString
  let decoded ← base64Decode (cStr s)
  let buf ← Buffer.alloc heap (sizeT valSize)
  let buf ← buf.putAll decoded
  some ⟨term, valType, buf.setPos 0⟩

/-- The request that `read_complete` builds; a member that is not there, or not of its kind, is
an assertion of the library. -/
def readRequest (heap : Nat → UInt8) (d : Document) : Option WireReq := do
  let type ← msgTypeOfInt (← (← d.get "msg_type").getInt)
  let src ← (← d.get "src").getInt
  let dst ← (← d.get "dst").getInt
  let term ← (← d.get "term").getUint64
  let lastLogTerm ← (← d.get "last_log_term").getUint64
  let lastLogIdx ← (← d.get "last_log_idx").getUint64
  let commitIdx ← (← d.get "commit_idx").getUint64
  let logEntries ←
    match ← d.lookup "log_data" with
    | .array objects => objects.mapM (readEntry heap)
    | .scalar _ => some []
  some ⟨term, type, src, dst, lastLogTerm, lastLogIdx, commitIdx, logEntries⟩

/-- `received` are the requests that `process_req` was called with. -/
structure RpcSession where
  received : List WireReq
  bufferedData : Address → Bytes

namespace RpcSession

def new : RpcSession := ⟨[], fun _ => []⟩

def readComplete (heap : Nat → UInt8) (received : List WireReq) (d : Document) :
    Option (List WireReq) :=
  (readRequest heap d).map fun req => received ++ [req]

def handleRead (J : Json) (heap : Nat → UInt8) (s : RpcSession) (packets : List (Address × Bytes)) :
    Option RpcSession :=
  (Service.handleRead J (readComplete heap) s.received s.bufferedData packets).map fun p => ⟨p.1, p.2⟩

/-- The session after its callback has run once for each batch of packets. -/
def receive (J : Json) (heap : Nat → UInt8) (source : Address) (s : RpcSession)
    (batches : List (List Bytes)) : Option RpcSession :=
  batches.foldlM (fun s packets => s.handleRead J heap (packets.map (source, ·))) s

end RpcSession

/-! ## One request -/

theorem sizeT_ofNat {n : Nat} (h : n < 0x80000000) : sizeT (Int32.ofNat n) = n := by
  have hint : (Int32.ofNat n).toInt = n := Int32.toInt_ofNat_of_lt h
  simp only [sizeT, hint]
  omega

/-- What is read from an object with the members of an entry. -/
theorem readEntry_of_members {heap : Nat → UInt8} {o : List (String × Scalar)} {term : UInt64}
    {valType : LogValType} {valSize : Int32} {s : Bytes}
    (hterm : o.lookup "term" = some (.setUint64 term))
    (htype : o.lookup "val_type" = some (.setInt valType.toInt))
    (hsize : o.lookup "val_size" = some (.setInt valSize))
    (hdata : o.lookup "data" = some (.str s)) :
    readEntry heap o =
      (base64Decode (cStr s)).bind fun decoded =>
        (Buffer.alloc heap (sizeT valSize)).bind fun buf =>
          (buf.putAll decoded).bind fun buf => some ⟨term, valType, buf.setPos 0⟩ := by
  simp -implicitDefEqProofs only [readEntry, hterm, htype, hsize, hdata, Option.bind_eq_bind, Option.bind_some,
    Scalar.getUint64_setUint64, Scalar.getInt_setInt, LogValType.ofInt_toInt, Scalar.getString]

theorem readEntry_entryObject (heap : Nat → UInt8) (e : WireEntry) :
    readEntry heap (WireReq.entryObject { e with buf := e.buf.setPos 0 }) =
      if e.buf.size < payloadLimit then some { e with buf := e.buf.setPos 0 } else none := by
  have hdata : (e.buf.setPos 0).data = e.buf.bytes := by simp [Buffer.setPos, Buffer.data]
  have hsize : sizeT (Int32.ofNat (e.buf.setPos 0).size) = e.buf.bytes.length :=
    sizeT_ofNat e.buf.size_lt
  have hput := Buffer.alloc_putAll heap e.buf.bytes e.buf.size_lt
  have hstart : e.buf.setPos 0 = ⟨e.buf.bytes, 0, e.buf.size_lt, Nat.zero_le _⟩ := by
    simp [Buffer.setPos]
  rw [readEntry_of_members rfl rfl rfl rfl, hdata, hsize, cStr_of_no_nul (base64Encode_no_nul _),
    base64Decode_base64Encode, show e.buf.size = e.buf.bytes.length from rfl]
  split
  · rw [← hstart] at hput
    cases halloc : Buffer.alloc heap e.buf.bytes.length with
    | none => simp [halloc] at hput
    | some buf =>
        cases hall : buf.putAll e.buf.bytes with
        | none => simp [halloc, hall] at hput
        | some buf' =>
            simp only [halloc, hall, Option.bind_some, Option.map_some, Option.some.injEq] at hput
            simp [hall, hput]
  · rfl

theorem mapM_readEntry (heap : Nat → UInt8) (entries : List WireEntry) :
    (entries.map fun e => WireReq.entryObject { e with buf := e.buf.setPos 0 }).mapM (readEntry heap) =
      if ∀ e ∈ entries, e.buf.size < payloadLimit then
        some (entries.map fun e => { e with buf := e.buf.setPos 0 })
      else none := by
  induction entries with
  | nil => rfl
  | cons e entries ih =>
      rw [List.map_cons, List.mapM_cons, readEntry_entryObject, ih]
      by_cases h : e.buf.size < payloadLimit
      · by_cases hall : ∀ e ∈ entries, e.buf.size < payloadLimit
        · rw [if_pos h, if_pos hall, if_pos (by simpa [h] using hall)]
          rfl
        · rw [if_pos h, if_neg hall, if_neg (by simpa [h] using hall)]
          rfl
      · have hnot : ¬ ∀ e' ∈ e :: entries, e'.buf.size < payloadLimit := fun hall =>
          h (hall e (List.mem_cons_self ..))
        rw [if_neg h, if_neg hnot]
        rfl

theorem readRequest_document (heap : Nat → UInt8) (req : WireReq) :
    readRequest heap req.document =
      if ∀ e ∈ req.logEntries, e.buf.size < payloadLimit then some req.rewind else none := by
  have htype : req.document.get "msg_type" = some (.setInt (msgTypeToInt req.type)) := rfl
  have hsrc : req.document.get "src" = some (.setInt req.src) := rfl
  have hdst : req.document.get "dst" = some (.setInt req.dst) := rfl
  have hterm : req.document.get "term" = some (.setUint64 req.term) := rfl
  have hlastTerm : req.document.get "last_log_term" = some (.setUint64 req.lastLogTerm) := rfl
  have hlastIdx : req.document.get "last_log_idx" = some (.setUint64 req.lastLogIdx) := rfl
  have hcommit : req.document.get "commit_idx" = some (.setUint64 req.commitIdx) := rfl
  have hdata : req.document.lookup "log_data" =
      some (.array (req.rewind.logEntries.map WireReq.entryObject)) := rfl
  have hobjects : req.rewind.logEntries.map WireReq.entryObject =
      req.logEntries.map fun e => WireReq.entryObject { e with buf := e.buf.setPos 0 } := by
    simp [WireReq.rewind, Function.comp_def]
  simp -implicitDefEqProofs only [readRequest, htype, hsrc, hdst, hterm, hlastTerm, hlastIdx, hcommit, hdata, hobjects,
    Option.bind_eq_bind, Option.bind_some, Scalar.getUint64_setUint64, Scalar.getInt_setInt,
    msgTypeOfInt_toInt, mapM_readEntry]
  split
  · rfl
  · rfl

/-! ## The frames of a stream of requests -/

namespace WireReq

/-- The text that is sent, without its delimiter. -/
def frame (J : Json) (req : WireReq) : Bytes := socketSend (J.write req.document)

theorem flatMap_send (J : Json) (reqs : List WireReq) :
    reqs.flatMap (send J) = join delimiter (reqs.map (frame J)) := by
  induction reqs with
  | nil => rfl
  | cons req reqs ih =>
      have hdelim : socketSend [delimiter] = [delimiter] := by decide
      rw [List.flatMap_cons, ih, List.map_cons, join_cons, send, sendDocument, hdelim]
      simp [frame]

end WireReq

section
variable {J : Json} (hJ : J.Faithful fun d => ∃ req : WireReq, d = req.document)
include hJ

theorem frame_no_delimiter (req : WireReq) : delimiter ∉ req.frame J := fun hmem =>
  hJ.no_delimiter _ ⟨req, rfl⟩ (List.mem_of_mem_take hmem)

theorem frame_no_nul (req : WireReq) : (0 : UInt8) ∉ req.frame J := fun hmem =>
  hJ.no_nul _ ⟨req, rfl⟩ (List.mem_of_mem_take hmem)

/-- A text that is cut short is dropped; a payload that is too long ends the server. -/
theorem readFrame_frame (heap : Nat → UInt8) (received : List WireReq) (req : WireReq) :
    readFrame J (RpcSession.readComplete heap) received (req.frame J) =
      if (J.write req.document).length < 2 ^ 32 then
        if ∀ e ∈ req.logEntries, e.buf.size < payloadLimit then some (received ++ [req.rewind]) else none
      else some received := by
  rw [readFrame, cStr_of_no_nul (frame_no_nul hJ req)]
  by_cases h : (J.write req.document).length < 2 ^ 32
  · have hwhole : req.frame J = J.write req.document := by
      rw [WireReq.frame, socketSend, Nat.mod_eq_of_lt h, List.take_length]
    rw [hwhole, hJ.parse_write _ ⟨req, rfl⟩, if_pos h]
    simp only [RpcSession.readComplete, readRequest_document]
    split
    · rfl
    · rfl
  · have hlt : (J.write req.document).length % 2 ^ 32 < (J.write req.document).length := by omega
    rw [WireReq.frame, socketSend, hJ.parse_truncated _ ⟨req, rfl⟩ _ hlt, if_neg h]

/-- At most one request comes of each text. -/
theorem readFrames_length (heap : Nat → UInt8) {received received' : List WireReq} (reqs : List WireReq)
    (h : (reqs.map (·.frame J)).foldlM (readFrame J (RpcSession.readComplete heap)) received =
      some received') : received'.length ≤ received.length + reqs.length := by
  induction reqs generalizing received with
  | nil =>
      obtain rfl : received = received' := by simpa using h
      simp
  | cons req reqs ih =>
      rw [List.map_cons, List.foldlM_cons, readFrame_frame hJ] at h
      split at h
      · split at h
        · have := ih h
          simp at this ⊢
          omega
        · cases h
      · have := ih h
        simp only [List.length_cons]
        omega

/-- The requests are read as they were sent exactly when all of them fit. -/
theorem readFrames_eq_iff (heap : Nat → UInt8) (received : List WireReq) (reqs : List WireReq) :
    (reqs.map (·.frame J)).foldlM (readFrame J (RpcSession.readComplete heap)) received =
      some (received ++ reqs.map (·.rewind)) ↔ ∀ req ∈ reqs, req.Fits J := by
  induction reqs generalizing received with
  | nil => simp
  | cons req reqs ih =>
      have hcons : (∀ r ∈ req :: reqs, r.Fits J) ↔ req.Fits J ∧ ∀ r ∈ reqs, r.Fits J := by simp
      rw [List.map_cons, List.foldlM_cons, readFrame_frame hJ, hcons]
      by_cases htext : (J.write req.document).length < 2 ^ 32
      · by_cases hsize : ∀ e ∈ req.logEntries, e.buf.size < payloadLimit
        · have hfits : req.Fits J := ⟨htext, hsize⟩
          have hthen := ih (received ++ [req.rewind])
          rw [List.append_assoc, List.singleton_append] at hthen
          rw [if_pos htext, if_pos hsize, Option.bind_eq_bind, Option.bind_some, List.map_cons, hthen]
          simp [hfits]
        · rw [if_pos htext, if_neg hsize, Option.bind_eq_bind, Option.bind_none]
          exact iff_of_false (by simp) fun h => hsize h.1.2
      · rw [if_neg htext, Option.bind_eq_bind, Option.bind_some]
        refine iff_of_false (fun h => ?_) fun h => htext h.1.1
        have hlen := readFrames_length hJ heap reqs h
        simp only [List.length_append, List.length_map, List.length_cons] at hlen
        omega

end

/-! ## The session -/

namespace RpcSession

/-- The packets of all batches are read as one list. -/
theorem receive_eq {J : Json} {heap : Nat → UInt8} {source : Address} (s : RpcSession)
    (batches : List (List Bytes)) (hne : ∀ packets ∈ batches, ∀ p ∈ packets, p ≠ []) :
    s.receive J heap source batches = s.handleRead J heap (batches.flatten.map (source, ·)) := by
  induction batches generalizing s with
  | nil => rfl
  | cons packets batches ih =>
      have hpackets : ∀ p ∈ packets.map (source, ·), p.2 ≠ [] := by
        simpa using hne packets (by simp)
      have hthen := fun s => ih s fun ps hps => hne ps (by simp [hps])
      have hsplit : s.handleRead J heap (packets.map (source, ·) ++ batches.flatten.map (source, ·)) =
          (s.handleRead J heap (packets.map (source, ·))).bind fun s =>
            s.handleRead J heap (batches.flatten.map (source, ·)) := by
        simp only [handleRead, handleRead_append _ _ _ _ hpackets, Option.bind_map, Option.map_bind]
        rfl
      rw [List.flatten_cons, List.map_append, hsplit, receive, List.foldlM_cons, Option.bind_eq_bind]
      congr 1
      funext s
      exact hthen s

/-- However a stream of requests is cut, its frames are read one after the other. -/
theorem receive_stream {J : Json} (hJ : J.Faithful fun d => ∃ req : WireReq, d = req.document)
    (heap : Nat → UInt8) (ip : UInt32) (port : UInt16) (reqs : List WireReq) (batches : List (List Bytes))
    (hne : ∀ packets ∈ batches, ∀ p ∈ packets, p ≠ [])
    (hstream : batches.flatten.flatten = reqs.flatMap (WireReq.send J)) :
    new.receive J heap (.inet ip port) batches =
      ((reqs.map (·.frame J)).foldlM (readFrame J (readComplete heap)) []).map (⟨·, fun _ => []⟩) := by
  have hframes : ∀ f ∈ reqs.map (WireReq.frame J), delimiter ∉ f ∧ (0 : UInt8) ∉ f := by
    intro f hf
    obtain ⟨req, -, rfl⟩ := List.mem_map.mp hf
    exact ⟨frame_no_delimiter hJ req, frame_no_nul hJ req⟩
  have hjoin : batches.flatten.flatten = join delimiter (reqs.map (WireReq.frame J)) ++ [] := by
    rw [hstream, WireReq.flatMap_send, List.append_nil]
  have hsize : ∀ p ∈ batches.flatten, p ≠ [] := by
    intro p hp
    obtain ⟨packets, hpackets, hp⟩ := List.mem_flatten.mp hp
    exact hne packets hpackets p hp
  have hnul : ∀ p ∈ batches.flatten, (0 : UInt8) ∉ p := by
    intro p hp h0
    have hmem : (0 : UInt8) ∈ batches.flatten.flatten := List.mem_flatten.mpr ⟨p, hp, h0⟩
    rw [hjoin, List.append_nil, join, List.mem_flatMap] at hmem
    obtain ⟨f, hf, hmem⟩ := hmem
    rcases List.mem_append.mp hmem with hmem | hmem
    · exact (hframes f hf).2 hmem
    · exact absurd hmem (by decide)
  have hcut : cut delimiter ([] ++ batches.flatten.flatten) = (reqs.map (WireReq.frame J), []) := by
    rw [List.nil_append, hjoin]
    exact cut_join_append (fun f hf => (hframes f hf).1) (by simp)
  have hempty : Function.update (fun _ : Address => ([] : Bytes)) (.inet ip port) [] = fun _ => [] :=
    Function.update_eq_self (.inet ip port) fun _ : Address => ([] : Bytes)
  rw [receive_eq _ _ hne, handleRead, new, handleRead_eq J _ _ hsize hnul _ _ (by simp), hcut, hempty,
    Option.map_map]
  rfl

/-- The server gets every request once, in order and as it was sent, and has nothing left over,
exactly when every request fits. -/
theorem receives_requests_iff {J : Json} (hJ : J.Faithful fun d => ∃ req : WireReq, d = req.document)
    (heap : Nat → UInt8) (ip : UInt32) (port : UInt16) (reqs : List WireReq) (batches : List (List Bytes))
    (hne : ∀ packets ∈ batches, ∀ p ∈ packets, p ≠ [])
    (hstream : batches.flatten.flatten = reqs.flatMap (WireReq.send J)) :
    new.receive J heap (.inet ip port) batches = some ⟨reqs.map (·.rewind), fun _ => []⟩ ↔
      ∀ req ∈ reqs, req.Fits J := by
  rw [receive_stream hJ heap ip port reqs batches hne hstream, ← readFrames_eq_iff hJ heap [],
    List.nil_append]
  constructor
  · intro h
    obtain ⟨received, hreceived, heq⟩ := Option.map_eq_some_iff.mp h
    have hall : received = reqs.map (·.rewind) := congrArg RpcSession.received heq
    rw [hreceived, hall]
  · intro h
    rw [h]
    rfl

/-! ## A request of each kind -/

def sampleEntry : WireEntry := ⟨3, .appLog, ⟨[35, 0, 255, 7], 1, by decide, by decide⟩⟩

def emptyEntry : WireEntry := ⟨4, .conf, ⟨[], 0, by decide, by decide⟩⟩

def sampleReq : WireReq := ⟨4, .appendEntriesRequest, 1, 2, 3, 9, 8, [sampleEntry, emptyEntry]⟩

def sampleText : Bytes :=
  ("\x7b\"msg_type\":3,\"src\":1,\"dst\":2,\"term\":4,\"last_log_term\":3,\"last_log_idx\":9," ++
    "\"commit_idx\":8,\"log_data\":[\x7b\"term\":3,\"val_type\":1,\"val_size\":4,\"data\":\"IwD/Bw==\"\x7d," ++
    "\x7b\"term\":4,\"val_type\":2,\"val_size\":0,\"data\":\"\"\x7d]\x7d").toList.map Char.toUInt8

theorem textBytes_append (l₁ l₂ l₃ : List Char) :
    (String.ofList l₁ ++ String.ofList l₂ ++ String.ofList l₃).toList.map Char.toUInt8 =
      (l₁ ++ l₂ ++ l₃).map Char.toUInt8 := by
  simp only [String.toList_append, String.toList_ofList]

set_option maxRecDepth 20000 in
theorem sampleText_spec :
    (∀ b ∈ sampleText, b ≠ delimiter ∧ b ≠ 0) ∧ sampleText.head? = some 123 ∧
      sampleText.length = 204 := by
  rw [show sampleText = _ from textBytes_append _ _ _]
  refine ⟨ne_of_carried ?_, ?_, ?_⟩
  all_goals rfl

theorem sample_faithful {built : Document → Prop} :
    (tableJson sampleReq.document sampleText).Faithful built :=
  tableJson_faithful sampleText_spec.2.1 (fun h => (sampleText_spec.1 _ h).1 rfl)
    fun h => (sampleText_spec.1 _ h).2 rfl

/-- Two entries, one of them empty, over packets that cut the text and bring the delimiter alone. -/
theorem receives_requests_iff_sample :
    new.receive (tableJson sampleReq.document sampleText) (fun _ => 0) (.inet 167772161 9000)
        [[sampleText.take 40, sampleText.drop 40], [[delimiter]]] =
      some ⟨[sampleReq.rewind], fun _ => []⟩ := by
  have hwrite : (tableJson sampleReq.document sampleText).write sampleReq.document = sampleText := by
    simp [tableJson]
  have hlen : sampleText.length = 204 := sampleText_spec.2.2
  have hne : ∀ packets ∈ [[sampleText.take 40, sampleText.drop 40], [[delimiter]]],
      ∀ p ∈ packets, p ≠ [] := by
    simp [← List.length_eq_zero_iff, hlen]
  refine (receives_requests_iff sample_faithful _ _ _ [sampleReq] _ hne ?_).mpr ?_
  · have hwhole : socketSend sampleText = sampleText := by
      rw [socketSend, Nat.mod_eq_of_lt (by rw [hlen]; decide), List.take_length]
    rw [List.flatMap_singleton, WireReq.send, sendDocument, hwrite, hwhole]
    simp [socketSend, ← List.append_assoc]
  · simp only [List.mem_singleton, forall_eq, WireReq.Fits, hwrite, hlen]
    exact ⟨by decide, by decide⟩

/-- A payload whose text is longer than an `int` counts. -/
def longEntry : WireEntry := ⟨1, .appLog, ⟨List.replicate 0x60000001 0, 0,
  by rw [List.length_replicate]; decide, Nat.zero_le _⟩⟩

def longReq : WireReq := ⟨1, .appendEntriesRequest, 1, 2, 1, 1, 0, [longEntry]⟩

theorem not_receives_requests :
    ¬ ∀ (J : Json), J.Faithful (fun d => ∃ req : WireReq, d = req.document) →
      ∀ (heap : Nat → UInt8) (ip : UInt32) (port : UInt16) (reqs : List WireReq)
        (batches : List (List Bytes)), (∀ packets ∈ batches, ∀ p ∈ packets, p ≠ []) →
        batches.flatten.flatten = reqs.flatMap (WireReq.send J) →
        new.receive J heap (.inet ip port) batches = some ⟨reqs.map (·.rewind), fun _ => []⟩ := by
  intro hall
  let J := tableJson sampleReq.document sampleText
  have hJ : J.Faithful fun d => ∃ req : WireReq, d = req.document := sample_faithful
  have hne : ∀ packets ∈ [[longReq.send J]], ∀ p ∈ packets, p ≠ [] := by
    simp [WireReq.send, sendDocument, socketSend]
  have hreceive := hall J hJ (fun _ => 0) 0 0 [longReq] [[longReq.send J]] hne (by simp)
  rw [receive_stream hJ _ _ _ [longReq] _ hne (by simp)] at hreceive
  obtain ⟨received, hreceived, heq⟩ := Option.map_eq_some_iff.mp hreceive
  have hreq : received = [] ++ [longReq].map (·.rewind) := congrArg RpcSession.received heq
  rw [hreq, readFrames_eq_iff hJ] at hreceived
  have hsize := (hreceived longReq (List.mem_singleton_self _)).2 longEntry (List.mem_singleton_self _)
  have hlen : longEntry.buf.size = 0x60000001 := List.length_replicate
  rw [hlen] at hsize
  exact absurd hsize (by decide)

end RpcSession

end Ns3Raft.Service
