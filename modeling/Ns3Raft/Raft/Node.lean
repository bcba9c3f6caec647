import Ns3Raft.Raft.Cluster
import Mathlib.Logic.Relation

/-! # The protocol state of a server and its steps

`Core` is what the replication protocol is about: role, term and vote, vote
counters, log, commit indexes, members. `NodeStep` says everything a handler can
do to it, one effect and at most one output at a time; timers, heartbeat flags
and the state machine's calls are quiet. Every handler is a path of such steps.
-/

namespace Ns3Raft.Raft

structure Core where
  id : SrvId
  params : RaftParams
  role : SrvRole
  state : SrvState
  votesGranted : Nat
  votedServers : List SrvId
  electionCompleted : Bool
  quick : Nat
  sm : Nat
  catchingUp : Bool
  /-- The other members with their matched indexes. -/
  peers : List (SrvId × Nat)
  log : LogStore
  config : ClusterConfig
  snpInProgress : Option Snapshot
  smSnapshot : Option Snapshot

def RaftServer.core (s : RaftServer) : Core where
  id := s.id
  params := s.params
  role := s.role
  state := s.state
  votesGranted := s.votesGranted
  votedServers := s.votedServers
  electionCompleted := s.electionCompleted
  quick := s.quickCommitIdx
  sm := s.smCommitIndex
  catchingUp := s.catchingUp
  peers := s.peers.map fun p => (p.id, p.matchedIdx)
  log := s.logStore
  config := s.config
  snpInProgress := s.snpInProgress
  smSnapshot := s.smSnapshot

namespace Core

def peerIds (n : Core) : List SrvId := n.peers.map (·.1)

def termForLog (n : Core) (logIdx : Nat) : Option Nat :=
  if logIdx = 0 then some 0
  else if n.log.startIndex ≤ logIdx then n.log.termAt logIdx
  else
    match n.smSnapshot with
    | none => none
    | some snp => if logIdx = snp.lastLogIdx then some snp.lastLogTerm else none

/-- The matched indexes with the leader's own last index, in descending order,
at the position the commit rule reads. -/
def majorityIndex (n : Core) : Nat :=
  ((n.log.lastIndex :: n.peers.map (·.2)).insertionSort (· ≥ ·)).getD
    ((n.peers.length + 1) / 2) 0

def ack (n : Core) (id : SrvId) (nextIdx : Nat) : Core :=
  { n with peers := n.peers.map fun p => if p.1 = id then (p.1, ulongPred nextIdx) else p }

def voteLogOkay (n : Core) (req : ReqMsg) : Prop :=
  n.log.lastEntry.term < req.lastLogTerm ∨
    (req.lastLogTerm = n.log.lastEntry.term ∧ n.log.lastIndex ≤ req.lastLogIdx)

/-- An append request built from the log of `n`. -/
structure IsAppend (n : Core) (m : ReqMsg) : Prop where
  type : m.type = .appendEntriesRequest
  term : m.term = n.state.term
  src : m.src = n.id
  dst : m.dst ∈ n.peerIds
  prev_lt : m.lastLogIdx < n.log.nextSlot
  prev_term : n.termForLog m.lastLogIdx = some m.lastLogTerm
  commit : m.commitIdx = n.quick
  entries : ∃ k, m.payload = .entries
    ((n.log.entries.drop (m.lastLogIdx + 1 - n.log.startIndex)).take k)
  start_le : m.logEntries ≠ [] → n.log.startIndex ≤ m.lastLogIdx + 1

/-- The log of `n` agrees by term with the previous index and the first `j`
entries of an append request of its own term. -/
structure Matches (n : Core) (m : ReqMsg) (j : Nat) : Prop where
  type : m.type = .appendEntriesRequest
  term : m.term = n.state.term
  role : n.role = .follower
  prev : m.lastLogIdx ≠ 0 →
    m.lastLogIdx < n.log.nextSlot ∧ n.termForLog m.lastLogIdx = some m.lastLogTerm
  start_le : m.logEntries ≠ [] → n.log.startIndex ≤ m.lastLogIdx + 1
  le_length : j ≤ m.logEntries.length
  entries : ∀ i e, i < j → m.logEntries[i]? = some e →
    n.log.termAt (m.lastLogIdx + 1 + i) = some e.term

end Core

/-! ## Inputs by what they may cause -/

/-- The type of the response a request of each type gets. -/
def MsgType.response : MsgType → MsgType
  | .voteRequest => .voteResponse
  | .appendEntriesRequest => .appendEntriesResponse
  | .clientRequest => .appendEntriesResponse
  | .addServerRequest => .addServerResponse
  | .removeServerRequest => .removeServerResponse
  | .syncLogRequest => .syncLogResponse
  | .joinClusterRequest => .joinClusterResponse
  | .leaveClusterRequest => .leaveClusterResponse
  | .installSnapshotRequest => .installSnapshotResponse
  | .prevoteRequest => .prevoteResponse
  | t => t

namespace Input

/-- The input carries a term that the server adopts. -/
def CarriesTerm (t : Nat) : Input → Prop
  | .req m _ _ => MsgType.carriesTerm m.type = true ∧ m.term = t
  | .resp m h _ => h = .resp ∧ m.term = t
  | _ => False

/-- A step of the exchange that adds a server, on the leader's side. -/
def Adds : Input → Prop
  | .req m _ _ => m.type = .addServerRequest
  | .resp m h _ => h = .exResp ∧
      m.type ∈ [.syncLogResponse, .joinClusterResponse, .installSnapshotResponse]
  | _ => False

/-- The end of the exchange that removes a server. -/
def Removes : Input → Prop
  | .resp m h _ => h = .exResp ∧ m.type = .leaveClusterResponse ∧ m.accepted = true
  | .rpcError m h => h = .exResp ∧ m.type = .leaveClusterRequest
  | _ => False

/-- A log transfer that replaces entries without a look at them. -/
def Bulk : Input → Prop
  | .req m _ _ => m.type = .syncLogRequest ∨ m.type = .installSnapshotRequest
  | _ => False

end Input

/-- Packets that neither the election nor the replication of entries rests on. -/
def QuietPacket (inp : Input) : Packet → Prop
  | .req m h =>
      (m.type = .prevoteRequest ∧ h = .exResp) ∨
        (m.type = .clientRequest ∧ h = .client ∧
          ∃ m' h' env, inp = .req m' h' env ∧ m'.type = .clientRequest ∧ m.payload = m'.payload) ∨
        (m.type = .leaveClusterRequest ∧ h = .exResp ∧
          ∃ r h' env, inp = .req r h' env ∧ r.type = .removeServerRequest) ∨
        (inp.Adds ∧ h = .exResp ∧
          m.type ∈ [.joinClusterRequest, .syncLogRequest, .installSnapshotRequest]) ∨
        (inp = .retry m ∧ h = .exResp)
  | .resp r h reqType =>
      (∃ m env, inp = .req m h env ∧ reqType = m.type ∧ r.type = m.type.response) ∧
        (r.accepted = true → r.type ≠ .voteResponse ∧ reqType ≠ .appendEntriesRequest)

def Quiet (inp : Input) : Output → Prop
  | .send p => QuietPacket inp p
  | .schedule (.retry m) => inp = .rpcError m .exResp
  | .preCommit .. => ∃ m h env, inp = .req m h env ∧
      (m.type = .appendEntriesRequest ∨ m.type = .clientRequest)
  | .rollback .. => ∃ m h env, inp = .req m h env ∧ m.type = .appendEntriesRequest
  | .commit .. => inp = .commitInBg
  | .schedule _ | .cancel _ | .becomeFollower | .saveConfig _ | .systemExit _
  | .saveSnapshotData .. | .applySnapshot _ => True
  | _ => False

/-- Where an entry that a server creates comes from. -/
def EntryFrom (inp : Input) (n : Core) (e : LogEntry) : Prop :=
  (∃ c, e.val = .conf c ∧ (c.servers = n.config.servers ∨ inp.Adds ∨ inp.Removes)) ∨
    (∃ data leaseOk, inp = .replicateLog data leaseOk ∧ e.val = .appLog data) ∨
    ∃ m h env, inp = .req m h env ∧ m.type = .clientRequest ∧ ∃ e' ∈ m.logEntries, e.val = e'.val

def addMember (ps : List (SrvId × Nat)) (srv : SrvConfig) : List (SrvId × Nat) :=
  if srv.id ∈ ps.map (·.1) then ps else ps ++ [(srv.id, 0)]

def Core.changePeers (n : Core) (c : ClusterConfig) : List (SrvId × Nat) :=
  ((c.servers.filter fun srv => decide (srv.id ∉ n.peerIds ∧ n.id ≠ srv.id)).foldl
    addMember n.peers).filter fun p => decide (p.1 ∈ c.ids)

/-- `reconfigure` on the protocol state. -/
def Core.reconfigure (n : Core) (c : ClusterConfig) : Core :=
  { n with
    peers := n.changePeers c
    config := if n.id ∉ c.ids ∧ ¬ n.catchingUp then n.config else c }

/-- Who may append and replicate: a leader, or a handler of the membership
exchanges that has not looked at the role. -/
def MayLead (inp : Input) (n₀ n : Core) : Prop :=
  n.role = .leader ∨ (inp.Adds ∨ inp.Removes) ∧ n.role = n₀.role ∧ n.state = n₀.state

/-! ## Steps -/

/-- The steps of the two bulk transfers on the receiving side. -/
inductive BulkStep (inp : Input) (n₀ n : Core) : Option Output → Core → Prop where
  | pack {m : ReqMsg} {h : RpcHandler} {env : Env} {es : List LogEntry} {l : LogStore} :
      inp = .req m h env → m.type = .syncLogRequest → m.payload = .logPack es →
      n.catchingUp = true → n.log.applyPack (m.lastLogIdx + 1) es = some l →
      BulkStep inp n₀ n (some (.applyPack (m.lastLogIdx + 1) es)) { n with log := l }
  | packed {m : ReqMsg} {h : RpcHandler} {env : Env} : inp = .req m h env →
      m.type = .syncLogRequest → n.catchingUp = true → n.quick < n.log.lastIndex →
      BulkStep inp n₀ n none { n with quick := n.log.lastIndex }
  | snapCompact {m : ReqMsg} {h : RpcHandler} {env : Env} {r : SnapshotSyncReq} {l : LogStore} :
      inp = .req m h env → m.type = .installSnapshotRequest → m.payload = .snpSyncReq r →
      n.log = n₀.log → n.sm < r.snapshot.lastLogIdx → n.role = .follower →
      n.log.compact r.snapshot.lastLogIdx = some l →
      BulkStep inp n₀ n (some (.compact r.snapshot.lastLogIdx)) { n with log := l }
  | snapTaken {m : ReqMsg} {h : RpcHandler} {env : Env} {r : SnapshotSyncReq} :
      inp = .req m h env → m.type = .installSnapshotRequest → m.payload = .snpSyncReq r →
      BulkStep inp n₀ n none { n with smSnapshot := some r.snapshot }
  | snapConf {m : ReqMsg} {h : RpcHandler} {env : Env} {r : SnapshotSyncReq} :
      inp = .req m h env → m.type = .installSnapshotRequest → m.payload = .snpSyncReq r →
      BulkStep inp n₀ n none (n.reconfigure r.snapshot.lastConfig)
  | snapIndex {m : ReqMsg} {h : RpcHandler} {env : Env} {r : SnapshotSyncReq} :
      inp = .req m h env → m.type = .installSnapshotRequest → m.payload = .snpSyncReq r →
      BulkStep inp n₀ n none { n with sm := r.snapshot.lastLogIdx, quick := r.snapshot.lastLogIdx }
  | snapSave {m : ReqMsg} {h : RpcHandler} {env : Env} :
      inp = .req m h env → m.type = .installSnapshotRequest →
      BulkStep inp n₀ n (some (.saveState n.state)) n

theorem BulkStep.bulk {inp : Input} {n₀ n n' : Core} {o : Option Output}
    (h : BulkStep inp n₀ n o n') :
    inp.Bulk := by
  cases h with
  | pack hinp ht _ _ _ => exact hinp ▸ .inl ht
  | packed hinp ht _ _ => exact hinp ▸ .inl ht
  | snapCompact hinp ht _ _ _ _ _ => exact hinp ▸ .inr ht
  | snapTaken hinp ht _ => exact hinp ▸ .inr ht
  | snapConf hinp ht _ => exact hinp ▸ .inr ht
  | snapIndex hinp ht _ => exact hinp ▸ .inr ht
  | snapSave hinp ht => exact hinp ▸ .inr ht

inductive NodeStep (inp : Input) (n₀ n : Core) : Option Output → Core → Prop where
  | quiet {o : Output} : Quiet inp o → NodeStep inp n₀ n (some o) n
  | newTerm {t : Nat} : n = n₀ → n.state.term < t → inp.CarriesTerm t →
      NodeStep inp n₀ n (some (.saveState ⟨t, noServer⟩))
        { n with state := ⟨t, noServer⟩, role := .follower, votesGranted := 0, votedServers := [],
                 electionCompleted := false }
  | demote {m : ReqMsg} {h : RpcHandler} {env : Env} : inp = .req m h env → n.role = .candidate →
      m.type = .appendEntriesRequest ∨ m.type = .installSnapshotRequest →
      m.term = n.state.term →
      NodeStep inp n₀ n none { n with role := .follower }
  | stand : n = n₀ →
      NodeStep inp n₀ n (some (.saveState ⟨n.state.term + 1, noServer⟩))
        { n with state := ⟨n.state.term + 1, noServer⟩, role := .candidate, votesGranted := 0,
                 votedServers := [], electionCompleted := false }
  | selfVote : n = { n₀ with state := ⟨n₀.state.term + 1, noServer⟩, role := .candidate,
                             votesGranted := 0, votedServers := [], electionCompleted := false } →
      NodeStep inp n₀ n (some (.saveState ⟨n.state.term, n.id⟩))
        { n with state := ⟨n.state.term, n.id⟩, votesGranted := 1, votedServers := [n.id] }
  | grant {m : ReqMsg} {h : RpcHandler} {env : Env} : inp = .req m h env →
      m.type = .voteRequest → m.term = n.state.term →
      n.state.votedFor = m.src ∨ n.state.votedFor = noServer → n.voteLogOkay m →
      NodeStep inp n₀ n (some (.saveState ⟨n.state.term, m.src⟩))
        { n with state := ⟨n.state.term, m.src⟩ }
  | sendVote {r : RespMsg} {h : RpcHandler} : r.type = .voteResponse → r.src = n.id →
      n.state = ⟨r.term, r.dst⟩ →
      (∃ m env, inp = .req m h env ∧ m.type = .voteRequest) →
      NodeStep inp n₀ n (some (.send (.resp r h .voteRequest))) n
  | count {m : RespMsg} {reqType : MsgType} : inp = .resp m .resp reqType →
      m.type = .voteResponse → m.term = n.state.term → n.electionCompleted = false →
      m.src ∉ n.votedServers → m.src ∈ n.peerIds → n = n₀ →
      NodeStep inp n₀ n none
        { n with votedServers := n.votedServers ++ [m.src],
                 votesGranted := n.votesGranted + if m.accepted then 1 else 0 }
  | complete : NodeStep inp n₀ n none { n with electionCompleted := true }
  | win : n.electionCompleted = false → (n.peers.length + 1) / 2 < n.votesGranted →
      NodeStep inp n₀ n none { n with role := .leader, electionCompleted := true }
  | announce : n.role = .leader →
      NodeStep inp n₀ n (some (.becomeLeader n.state.term)) n
  | create {e : LogEntry} {c : ClusterConfig} : MayLead inp n₀ n →
      e.term = n.state.term → EntryFrom inp n e → c.servers = n.config.servers →
      NodeStep inp n₀ n (some (.append n.role n.state.term n.log.nextSlot e))
        { n with log := n.log.append e, config := c }
  | sendAppend {m : ReqMsg} : MayLead inp n₀ n → n.IsAppend m →
      NodeStep inp n₀ n (some (.send (.req m .resp))) n
  | sendInstall {m : ReqMsg} : MayLead inp n₀ n → 1 < n.log.startIndex →
      m.type = .installSnapshotRequest → m.term = n.state.term → m.src = n.id → m.dst ∈ n.peerIds →
      NodeStep inp n₀ n (some (.send (.req m .resp))) n
  | sendVoteReq {m : ReqMsg} : n.role = .candidate → n.state = ⟨m.term, n.id⟩ →
      m.type = .voteRequest → m.src = n.id → m.dst ∈ n.peerIds →
      m.lastLogIdx = n.log.lastIndex → n.termForLog m.lastLogIdx = some m.lastLogTerm →
      n.log = n₀.log →
      NodeStep inp n₀ n (some (.send (.req m .resp))) n
  | write {m : ReqMsg} {h : RpcHandler} {env : Env} {j : Nat} {e : LogEntry} {o : Output} :
      inp = .req m h env → n.Matches m j → m.logEntries[j]? = some e →
      m.lastLogIdx + 1 + j ≤ n.log.nextSlot →
      n.log.termAt (m.lastLogIdx + 1 + j) ≠ some e.term →
      o = .writeAt (m.lastLogIdx + 1 + j) e ∨
        o = .append n.role n.state.term (m.lastLogIdx + 1 + j) e →
      NodeStep inp n₀ n (some o) { n with log := n.log.writeAt (m.lastLogIdx + 1 + j) e }
  | sendAck {m : ReqMsg} {h : RpcHandler} {env : Env} {r : RespMsg} : inp = .req m h env →
      n.Matches m m.logEntries.length → r.type = .appendEntriesResponse → r.accepted = true →
      r.src = n.id → r.dst = m.src → r.term = n.state.term →
      r.nextIdx = m.lastLogIdx + m.logEntries.length + 1 →
      NodeStep inp n₀ n (some (.send (.resp r h .appendEntriesRequest))) n
  | follow {m : ReqMsg} {h : RpcHandler} {env : Env} : inp = .req m h env →
      n.Matches m m.logEntries.length → n.quick < m.commitIdx →
      NodeStep inp n₀ n none { n with quick := m.commitIdx }
  | ack {m : RespMsg} {reqType : MsgType} : inp = .resp m .resp reqType →
      m.type = .appendEntriesResponse → m.accepted = true → m.src ∈ n.peerIds →
      m.term ≤ n.state.term → n = n₀ →
      NodeStep inp n₀ n none (n.ack m.src m.nextIdx)
  | majority {m : RespMsg} {reqType : MsgType} : inp = .resp m .resp reqType →
      m.type = .appendEntriesResponse → m.accepted = true → m.src ∈ n₀.peerIds →
      m.term ≤ n.state.term → n = n₀.ack m.src m.nextIdx → n.quick < n.majorityIndex →
      NodeStep inp n₀ n none { n with quick := n.majorityIndex }
  | alone : n.peers = [] → n.quick < n.log.lastIndex → MayLead inp n₀ n →
      NodeStep inp n₀ n none { n with quick := n.log.lastIndex }
  | reach {e : LogEntry} : inp = .commitInBg → n.sm < n.quick → n.sm < n.log.lastIndex →
      n.log.entryAt (n.sm + 1) = some e → n = n₀ →
      NodeStep inp n₀ n (some (.reach (n.sm + 1) e)) { n with sm := n.sm + 1 }
  | reconf {t : Nat} {c : ClusterConfig} : inp = .commitInBg →
      n.log.entryAt n.sm = some ⟨t, .conf c⟩ → n = { n₀ with sm := n.sm } →
      n.sm = n₀.sm + 1 →
      NodeStep inp n₀ n none (n.reconfigure c)
  | caughtUp : inp = .commitInBg → NodeStep inp n₀ n none { n with catchingUp := false }
  | snapStart {snp : Snapshot} : inp = .commitInBg → n.params.snapshotDistance ≠ 0 →
      snp.lastLogIdx = n.sm → n.log.termAt n.sm = some snp.lastLogTerm →
      NodeStep inp n₀ n (some (.createSnapshot snp)) { n with snpInProgress := some snp }
  | snapDone {snp : Snapshot} {size : Nat} : n.snpInProgress = some snp →
      NodeStep inp n₀ n none
        { n with smSnapshot := some { snp with size := size }, snpInProgress := none }
  | snapFail : NodeStep inp n₀ n none { n with snpInProgress := none }
  | compact {snp : Snapshot} {bytes : List UInt8} {l : LogStore} :
      inp = .snapshotCompleted (some bytes) → n₀.snpInProgress = some snp →
      n = { n₀ with smSnapshot := some { snp with size := bytes.length }, snpInProgress := none } →
      n.params.reservedLogItems < snp.lastLogIdx →
      n.log.compact (snp.lastLogIdx - n.params.reservedLogItems) = some l →
      NodeStep inp n₀ n (some (.compact (snp.lastLogIdx - n.params.reservedLogItems)))
        { n with log := l }
  | join {m : ReqMsg} {h : RpcHandler} {env : Env} : inp = .req m h env →
      m.type = .joinClusterRequest → n = n₀ → n.catchingUp = false →
      (∃ e c, m.payload = .entries [e] ∧ e.val = .conf c) →
      NodeStep inp n₀ n (some (.saveState ⟨m.term, noServer⟩))
        { n with state := ⟨m.term, noServer⟩, role := .follower, sm := 0, quick := 0,
                 catchingUp := true }
  | joinConf {m : ReqMsg} {h : RpcHandler} {env : Env} {t : Nat} {c : ClusterConfig} :
      inp = .req m h env → m.type = .joinClusterRequest →
      m.payload = .entries [⟨t, .conf c⟩] →
      NodeStep inp n₀ n none (n.reconfigure c)
  | bulk {o : Option Output} {n' : Core} : BulkStep inp n₀ n o n' → NodeStep inp n₀ n o n'
  | installed {m : RespMsg} {reqType : MsgType} {id : SrvId} {k : Nat} :
      inp = .resp m .resp reqType → m.type = .installSnapshotResponse →
      NodeStep inp n₀ n none
        { n with peers := n.peers.map fun p => if p.1 = id then (p.1, k) else p }
  | erase {m : ReqMsg} {h : RpcHandler} {id : SrvId} : inp = .rpcError m h →
      m.type = .leaveClusterRequest → n.peers.length = 1 →
      NodeStep inp n₀ n none { n with peers := n.peers.filter fun p => decide (p.1 ≠ id) }

inductive Path (inp : Input) (n₀ : Core) : Core → List Output → Core → Prop where
  | nil {n : Core} : Path inp n₀ n [] n
  | cons {n n' n'' : Core} {o : Option Output} {os : List Output} :
      NodeStep inp n₀ n o n' → Path inp n₀ n' os n'' → Path inp n₀ n (o.toList ++ os) n''

theorem Path.trans {inp : Input} {n₀ a b c : Core} {os os' : List Output}
    (h : Path inp n₀ a os b) (h' : Path inp n₀ b os' c) : Path inp n₀ a (os ++ os') c := by
  induction h with
  | nil => exact h'
  | cons hs _ ih => exact List.append_assoc .. ▸ .cons hs (ih h')

theorem Path.single {inp : Input} {n₀ a b : Core} {o : Option Output}
    (h : NodeStep inp n₀ a o b) : Path inp n₀ a o.toList b := by
  simpa using Path.cons h .nil

/-- The process ends on purpose; the one reason the protocol speaks about. -/
def ExitOk (inp : Input) (n : Core) (r : ExitReason) : Prop :=
  r = .anotherLeader → ∃ m h env, inp = .req m h env ∧
    (m.type = .appendEntriesRequest ∨ m.type = .installSnapshotRequest) ∧
    m.term = n.state.term ∧ n.role = .leader

/-- From `s` to `s'` along a path of the protocol state, up to the end of the
process when `s'` has exited. -/
inductive Traces (inp : Input) (n₀ : Core) (s s' : RaftServer) : Prop where
  | frozen : s.exited = true → s'.exited = true → s'.out = s.out → Traces inp n₀ s s'
  | live {os : List Output} : s.exited = false → s'.exited = false →
      Path inp n₀ s.core os s'.core → s'.out = s.out ++ os → Traces inp n₀ s s'
  | died {os : List Output} {n : Core} {r : ExitReason} : s.exited = false → s'.exited = true →
      Path inp n₀ s.core os n → ExitOk inp n r → s'.out = s.out ++ os ++ [.exit r] →
      Traces inp n₀ s s'

namespace Traces

variable {inp : Input} {n₀ : Core} {s s' s'' : RaftServer}

theorem trans (h : Traces inp n₀ s s') (h' : Traces inp n₀ s' s'') : Traces inp n₀ s s'' := by
  cases h with
  | frozen h1 h2 h3 =>
      cases h' with
      | frozen g1 g2 g3 => exact .frozen h1 g2 (g3.trans h3)
      | live g1 => simp [h2] at g1
      | died g1 => simp [h2] at g1
  | live h1 h2 h3 h4 =>
      cases h' with
      | frozen g1 => simp [h2] at g1
      | live g1 g2 g3 g4 => exact .live h1 g2 (h3.trans g3) (by simp [g4, h4])
      | died g1 g2 g3 g4 g5 => exact .died h1 g2 (h3.trans g3) g4 (by simp [g5, h4])
  | died h1 h2 h3 h4 h5 =>
      cases h' with
      | frozen g1 g2 g3 => exact .died h1 g2 h3 h4 (g3.trans h5)
      | live g1 => simp [h2] at g1
      | died g1 => simp [h2] at g1

/-- A step that emits nothing. -/
theorem silent (h : NodeStep inp n₀ s.core none s'.core) (hout : s'.out = s.out)
    (hex : s'.exited = s.exited) : Traces inp n₀ s s' := by
  cases hs : s.exited with
  | true => exact .frozen hs (hex.trans hs) hout
  | false => exact .live hs (hex.trans hs) (.single h) (by simp [hout])

/-- Nothing of the protocol state changes. -/
theorem soft (hcore : s'.core = s.core) (hout : s'.out = s.out) (hex : s'.exited = s.exited) :
    Traces inp n₀ s s' := by
  cases hs : s.exited with
  | true => exact .frozen hs (hex.trans hs) hout
  | false =>
      have hp : Path inp n₀ s.core [] s'.core := hcore ▸ Path.nil
      exact .live hs (hex.trans hs) hp (by simp [hout])

theorem refl (s : RaftServer) : Traces inp n₀ s s := soft rfl rfl rfl

/-- A step with its output: first the record is updated, then the output emitted. -/
theorem loud {o : Output} (h : NodeStep inp n₀ s.core (some o) s'.core) (hout : s'.out = s.out)
    (hex : s'.exited = s.exited) : Traces inp n₀ s (s'.emit o) := by
  cases hs : s.exited with
  | true =>
      have hs' : s'.exited = true := hex.trans hs
      exact .frozen hs (by simp [RaftServer.emit, hs']) (by simp [RaftServer.emit, hs', hout])
  | false =>
      have hs' : s'.exited = false := hex.trans hs
      have hcore : (s'.emit o).core = s'.core := by simp [RaftServer.emit, hs', RaftServer.core]
      have hp : Path inp n₀ s.core [o] (s'.emit o).core := hcore ▸ Path.single h
      exact .live hs (by simp [RaftServer.emit, hs']) hp (by simp [RaftServer.emit, hs', hout])

theorem emit {o : Output} (h : Quiet inp o) : Traces inp n₀ s (s.emit o) :=
  loud (.quiet h) rfl rfl

theorem exit {r : ExitReason} (h : ExitOk inp s.core r) : Traces inp n₀ s (s.exit r) := by
  cases hs : s.exited with
  | true => exact .frozen hs (by simp [RaftServer.exit, hs]) (by simp [RaftServer.exit, hs])
  | false =>
      have hp : Path inp n₀ s.core [] s.core := .nil
      exact .died hs (by simp [RaftServer.exit, hs]) hp h (by simp [RaftServer.exit, hs])

end Traces

end Ns3Raft.Raft
