import Ns3Raft.Lib.Run
import Ns3Raft.Service.Wire

/-! # Responses and their handlers

`ns3_rpc_client` keeps one handler, that of the last `send`, and never clears it.
A response goes to the handler of its own request when no other request is
outstanding, and to a later one otherwise.
-/

namespace Ns3Raft.Service

open Framing Raft Transition

namespace WireResp

def document (resp : WireResp) : Document :=
  [("msg_type", .scalar (.setInt (msgTypeToInt resp.type))),
   ("src", .scalar (.setInt resp.src)),
   ("dst", .scalar (.setInt resp.dst)),
   ("term", .scalar (.setUint64 resp.term)),
   ("next_idx", .scalar (.setUint64 resp.nextIdx)),
   ("accepted", .scalar (.bool resp.accepted))]

/-- What `read_complete` gives to the socket for a response. -/
def send (J : Json) (resp : WireResp) : Bytes := sendDocument J resp.document

end WireResp

/-- The response that `ResponseRead` builds. -/
def readResponse (d : Document) : Option WireResp := do
  let type ← msgTypeOfInt (← (← d.get "msg_type").getInt)
  let src ← (← d.get "src").getInt
  let dst ← (← d.get "dst").getInt
  let term ← (← d.get "term").getUint64
  let nextIdx ← (← d.get "next_idx").getUint64
  let accepted ← (← d.get "accepted").getBool
  some ⟨term, type, src, dst, nextIdx, accepted⟩

/-- Handlers are told apart by the number of their request. `calls` are the handlers that were
called, with their responses. A handler may send in its turn: `inner` says how many requests each
of the next handlers does. -/
structure RpcClient where
  sent : Nat
  handler : Option Nat
  calls : List (Nat × WireResp)
  inner : List Nat
  deriving DecidableEq, Repr

namespace RpcClient

def new : RpcClient := ⟨0, none, [], []⟩

def send (c : RpcClient) : RpcClient := { c with sent := c.sent + 1, handler := some c.sent }

def call (c : RpcClient) (resp : WireResp) : RpcClient :=
  match c.handler with
  | none => c
  | some h =>
      send^[c.inner.headD 0] { c with calls := c.calls ++ [(h, resp)], inner := c.inner.tail }

def responseRead (c : RpcClient) (d : Document) : Option RpcClient := (readResponse d).map c.call

end RpcClient

/-- A client and its connection. `answered` are the responses that the server has written, and
`inFlight` the bytes of them that were not read. -/
structure Connection where
  client : RpcClient
  bufferedData : Address → Bytes
  answered : List WireResp
  inFlight : Bytes

inductive ConnStep where
  | send
  | answer (resp : WireResp)
  | deliver (size : Nat) (inner : List Nat)
  deriving DecidableEq, Repr

namespace Connection

def new : Connection := ⟨.new, fun _ => [], [], []⟩

/-- The address of the server. -/
def server : Address := .inet 167772162 9000

def step (J : Json) (s : Connection) : ConnStep → Connection
  | .send => { s with client := s.client.send }
  | .answer resp =>
      { s with answered := s.answered ++ [resp], inFlight := s.inFlight ++ resp.send J }
  | .deliver size inner =>
      match handleRead J RpcClient.responseRead { s.client with inner := inner } s.bufferedData
          [(server, s.inFlight.take size)] with
      | some (client, bufferedData) =>
          { s with client := client, bufferedData := bufferedData, inFlight := s.inFlight.drop size }
      | none => s

/-- The server answers the requests in order, with texts that `Send` takes whole, and packets are
not empty. -/
def Asked (J : Json) (s : Connection) : ConnStep → Prop
  | .send => True
  | .answer resp => s.answered.length < s.client.sent ∧ (J.write resp.document).length < 2 ^ 32
  | .deliver size _ => 0 < size ∧ size ≤ s.inFlight.length

/-- One request is outstanding when a packet completes a response. -/
def StepFits (s : Connection) : ConnStep → Prop
  | .deliver size _ => delimiter ∈ s.inFlight.take size → s.client.sent = s.client.calls.length + 1
  | _ => True

instance (s : Connection) : ∀ st, Decidable (s.StepFits st)
  | .deliver .. => inferInstanceAs (Decidable (_ → _))
  | .send | .answer _ => .isTrue trivial

end Connection

/-! ## One response -/

theorem readResponse_of_members {d : Document} {resp : WireResp}
    (htype : d.get "msg_type" = some (.setInt (msgTypeToInt resp.type)))
    (hsrc : d.get "src" = some (.setInt resp.src)) (hdst : d.get "dst" = some (.setInt resp.dst))
    (hterm : d.get "term" = some (.setUint64 resp.term))
    (hnext : d.get "next_idx" = some (.setUint64 resp.nextIdx))
    (haccepted : d.get "accepted" = some (.bool resp.accepted)) : readResponse d = some resp := by
  simp -implicitDefEqProofs only [readResponse, htype, hsrc, hdst, hterm, hnext, haccepted,
    Option.bind_eq_bind, Option.bind_some, Scalar.getUint64_setUint64, Scalar.getInt_setInt,
    msgTypeOfInt_toInt, Scalar.getBool]

@[simp] theorem readResponse_document (resp : WireResp) : readResponse resp.document = some resp :=
  readResponse_of_members rfl rfl rfl rfl rfl rfl

namespace RpcClient

@[simp] theorem send_iterate_sent (c : RpcClient) (n : Nat) : (send^[n] c).sent = c.sent + n := by
  induction n generalizing c with
  | zero => rfl
  | succ n ih =>
      rw [Function.iterate_succ_apply, ih]
      simp only [send]
      omega

@[simp] theorem send_iterate_calls (c : RpcClient) (n : Nat) : (send^[n] c).calls = c.calls := by
  induction n generalizing c with
  | zero => rfl
  | succ n ih => rw [Function.iterate_succ_apply, ih, send]

/-- The slot holds the handler of the last request. -/
def Latest (c : RpcClient) : Prop := c.handler = if c.sent = 0 then none else some (c.sent - 1)

theorem latest_send (c : RpcClient) : c.send.Latest := by simp [Latest, send]

theorem Latest.send_iterate {c : RpcClient} (h : c.Latest) (n : Nat) : (send^[n] c).Latest := by
  cases n with
  | zero => exact h
  | succ n =>
      rw [Function.iterate_succ_apply']
      exact latest_send _

theorem Latest.call {c : RpcClient} (h : c.Latest) (resp : WireResp) : (c.call resp).Latest := by
  unfold RpcClient.call
  split
  · exact h
  · next n _ =>
      have hkept : Latest { c with calls := c.calls ++ [(n, resp)], inner := c.inner.tail } := h
      exact hkept.send_iterate _

/-- A handler that is called is the last one that was sent with. -/
theorem Latest.call_calls {c : RpcClient} (h : c.Latest) (hsent : 0 < c.sent) (resp : WireResp) :
    (c.call resp).calls = c.calls ++ [(c.sent - 1, resp)] := by
  have hhandler : c.handler = some (c.sent - 1) := by
    rw [h, if_neg (by omega)]
  simp [RpcClient.call, hhandler]

theorem sent_le_call (c : RpcClient) (resp : WireResp) : c.sent ≤ (c.call resp).sent := by
  unfold call
  split
  · exact Nat.le_refl _
  · simp

end RpcClient

/-! ## The connection -/

namespace Connection

/-- The responses that were not read. -/
def pending (s : Connection) : List WireResp := s.answered.drop s.client.calls.length

def text (J : Json) (resp : WireResp) : Bytes := J.write resp.document

/-- Every response that was read went to the handler of its request, and what is buffered and in
flight are the texts of the others. -/
structure Inv (J : Json) (s : Connection) : Prop where
  latest : s.client.Latest
  answered_le : s.answered.length ≤ s.client.sent
  stream : s.bufferedData server ++ s.inFlight = join delimiter (s.pending.map (text J))
  clean : delimiter ∉ s.bufferedData server
  handlers : s.client.calls.map (·.1) = List.range s.client.calls.length
  responses : s.client.calls.map (·.2) = s.answered.take s.client.calls.length

theorem Inv.new (J : Json) : Inv J new := by
  constructor <;> simp [Connection.new, RpcClient.new, RpcClient.Latest, pending]

theorem Inv.calls_le {J : Json} {s : Connection} (h : Inv J s) : s.client.calls.length ≤ s.answered.length := by
  have hlen := congrArg List.length h.responses
  simp only [List.length_map, List.length_take] at hlen
  omega

theorem Inv.send {J : Json} {s : Connection} (h : Inv J s) : Inv J (s.step J .send) :=
  { h with
    latest := RpcClient.latest_send _
    answered_le := Nat.le_succ_of_le h.answered_le }

theorem send_eq {J : Json} {resp : WireResp} (h : (J.write resp.document).length < 2 ^ 32) :
    resp.send J = text J resp ++ [delimiter] := by
  rw [WireResp.send, sendDocument, socketSend, Nat.mod_eq_of_lt h, List.take_length]
  rfl

theorem Inv.answer {J : Json} {s : Connection} {resp : WireResp} (h : Inv J s)
    (hasked : s.Asked J (.answer resp)) : Inv J (s.step J (.answer resp)) := by
  have hle := h.calls_le
  have hpending : (s.step J (.answer resp)).pending = s.pending ++ [resp] := List.drop_append_of_le_length hle
  refine ⟨h.latest, ?_, ?_, h.clean, h.handlers, ?_⟩
  · have hlt := hasked.1
    simpa [step] using Nat.succ_le_of_lt hlt
  · rw [hpending, List.map_append, join_append, ← h.stream]
    simp [step, send_eq hasked.2]
  · refine h.responses.trans ?_
    exact (List.take_append_of_le_length hle).symm

section
variable {J : Json} (hJ : J.Faithful fun d => ∃ resp : WireResp, d = resp.document)
include hJ

theorem readFrames_text (c : RpcClient) (resps : List WireResp) :
    (resps.map (text J)).foldlM (readFrame J RpcClient.responseRead) c =
      some (resps.foldl RpcClient.call c) := by
  induction resps generalizing c with
  | nil => rfl
  | cons resp resps ih =>
      have hframe : readFrame J RpcClient.responseRead c (text J resp) = some (c.call resp) := by
        rw [readFrame, text, cStr_of_no_nul (hJ.no_nul _ ⟨resp, rfl⟩), hJ.parse_write _ ⟨resp, rfl⟩]
        simp [RpcClient.responseRead]
      rw [List.map_cons, List.foldlM_cons, hframe, Option.bind_eq_bind, Option.bind_some, ih,
        List.foldl_cons]

/-- A packet completes the first of the pending responses, and the client calls a handler for each. -/
theorem deliver_spec {s : Connection} {size : Nat} (inner : List Nat) (h : Inv J s)
    (hasked : s.Asked J (.deliver size inner)) :
    ∃ done todo, s.pending = done ++ todo ∧ (done = [] ↔ delimiter ∉ s.inFlight.take size) ∧
      ∃ rest, delimiter ∉ rest ∧ rest ++ s.inFlight.drop size = join delimiter (todo.map (text J)) ∧
        s.step J (.deliver size inner) =
          { s with
            client := done.foldl RpcClient.call { s.client with inner := inner }
            bufferedData := Function.update s.bufferedData server rest
            inFlight := s.inFlight.drop size } := by
  let packet := s.inFlight.take size
  have hno : ∀ f ∈ s.pending.map (text J), delimiter ∉ f ∧ (0 : UInt8) ∉ f := by
    intro f hf
    obtain ⟨resp, -, rfl⟩ := List.mem_map.mp hf
    exact ⟨hJ.no_delimiter _ ⟨resp, rfl⟩, hJ.no_nul _ ⟨resp, rfl⟩⟩
  have hstream : (s.bufferedData server ++ packet) ++ s.inFlight.drop size =
      join delimiter (s.pending.map (text J)) := by
    rw [List.append_assoc, List.take_append_drop, h.stream]
  have hnul : (0 : UInt8) ∉ packet := by
    intro h0
    have hmem : (0 : UInt8) ∈ join delimiter (s.pending.map (text J)) := by
      rw [← hstream]
      simp [h0]
    obtain ⟨f, hf, hmem⟩ := List.mem_flatMap.mp hmem
    rcases List.mem_append.mp hmem with hmem | hmem
    · exact (hno f hf).2 hmem
    · exact absurd hmem (by decide)
  have hne : packet ≠ [] := by
    obtain ⟨hpos, hle⟩ := hasked
    rw [← List.length_pos_iff, List.length_take]
    omega
  obtain ⟨frames', hframes, hrest⟩ := cut_of_append_eq_join (fun f hf => (hno f hf).1) hstream
  obtain ⟨done, todo, hpending, hdone, htodo⟩ := List.map_eq_append_iff.mp hframes
  have hcut : (cut delimiter (s.bufferedData server ++ [packet].flatten)) =
      (done.map (text J), (cut delimiter (s.bufferedData server ++ packet)).2) := by
    rw [List.flatten_singleton, hdone]
  have hread : handleRead J RpcClient.responseRead { s.client with inner := inner } s.bufferedData
      [(server, packet)] =
        some (done.foldl RpcClient.call { s.client with inner := inner },
          Function.update s.bufferedData server (cut delimiter (s.bufferedData server ++ packet)).2) := by
    have heq := handleRead_eq J RpcClient.responseRead [packet] (by simpa using hne)
      (by simpa using hnul) { s.client with inner := inner } s.bufferedData h.clean
    rw [show Address.inet _ _ = server from rfl, hcut, readFrames_text hJ] at heq
    exact heq
  refine ⟨done, todo, hpending, ?_, _, (cut_spec _).2.2, by rw [hrest, htodo], ?_⟩
  · rw [← List.map_eq_nil_iff (f := text J), hdone, cut_eq_nil_iff]
    simp [packet, h.clean]
  · simp only [step]
    rw [hread]

theorem Inv.deliver {s : Connection} {size : Nat} {inner : List Nat} (h : Inv J s)
    (hasked : s.Asked J (.deliver size inner)) (hfits : s.StepFits (.deliver size inner)) :
    Inv J (s.step J (.deliver size inner)) := by
  obtain ⟨done, todo, hpending, hdone, rest, hclean, hstream, hstep⟩ := deliver_spec hJ inner h hasked
  have hle := h.calls_le
  have hanswered := h.answered_le
  rw [hstep]
  match done with
  | [] =>
      have htodo : todo = s.answered.drop s.client.calls.length := by simpa [pending] using hpending.symm
      exact ⟨h.latest, h.answered_le, by simpa [pending, htodo] using hstream, by simpa using hclean,
        h.handlers, h.responses⟩
  | resp :: done =>
      have hmem : delimiter ∈ s.inFlight.take size := by
        by_contra hnot
        exact absurd (hdone.mpr hnot) (by simp)
      have hone : s.client.sent = s.client.calls.length + 1 := hfits hmem
      have hlen : (resp :: done ++ todo).length = s.answered.length - s.client.calls.length := by
        rw [← hpending, pending, List.length_drop]
      simp only [List.cons_append, List.length_cons, List.length_append] at hlen
      obtain rfl : done = [] := List.eq_nil_of_length_eq_zero (by omega)
      obtain rfl : todo = [] := List.eq_nil_of_length_eq_zero (by omega)
      let asked : RpcClient := { s.client with inner := inner }
      have hlatest : asked.Latest := h.latest
      have hcalls : (asked.call resp).calls = s.client.calls ++ [(s.client.calls.length, resp)] := by
        rw [hlatest.call_calls (by simp [asked, hone])]
        simp [asked, hone]
      have hall : s.answered.length = s.client.calls.length + 1 := by omega
      have hlast : s.answered = s.answered.take s.client.calls.length ++ [resp] := by
        conv_lhs => rw [← List.take_append_drop s.client.calls.length s.answered]
        rw [← pending, hpending]
        simp
      refine ⟨hlatest.call resp, ?_, ?_, by simpa using hclean, ?_, ?_⟩
      · exact Nat.le_trans h.answered_le (asked.sent_le_call resp)
      · have hnone : s.answered.drop (s.client.calls.length + 1) = [] := List.drop_of_length_le (by omega)
        simpa [pending, asked, hcalls, hnone] using hstream
      · simp only [List.foldl_cons, List.foldl_nil]
        rw [hcalls, List.map_append, h.handlers, List.length_append, List.length_singleton,
          List.range_succ]
        rfl
      · simp only [List.foldl_cons, List.foldl_nil]
        rw [hcalls, List.map_append, h.responses, List.length_append, List.length_singleton, ← hall,
          List.take_length]
        exact hlast.symm

end

/-! ## One request and its response -/

end Connection

end Ns3Raft.Service
