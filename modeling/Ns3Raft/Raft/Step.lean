import Ns3Raft.Raft.Commit

/-! # One server under its inputs

`processReq`, the two response handlers and everything else that can call into
a server: timers, the background thread, the snapshot callback and the
application. A step starts with an empty `out`.
-/

namespace Ns3Raft.Raft

/-- What a handler asks of the clock and of the state machine. -/
structure Env where
  leaseOk : Bool := true
  applyOk : Bool := true
  deriving DecidableEq, Repr

inductive Input where
  | electionTimeout
  | hbTimeout (peer : SrvId)
  | commitInBg
  | req (m : ReqMsg) (h : RpcHandler) (env : Env)
  | resp (m : RespMsg) (h : RpcHandler) (reqType : MsgType)
  | rpcError (m : ReqMsg) (h : RpcHandler)
  | retry (m : ReqMsg)
  | snapshotCompleted (data : Option (List UInt8))
  | replicateLog (data : List UInt8) (leaseOk : Bool)
  deriving DecidableEq, Repr

/-- What a server finds at its start: its id, the saved state, the log store,
the configuration and what the state machine reports. -/
structure Boot where
  id : SrvId
  params : RaftParams := {}
  state : Option SrvState := none
  logStore : LogStore := .empty
  config : ClusterConfig
  smCommitIndex : Nat := 0
  smSnapshot : Option Snapshot := none
  smSnapshotData : List (Nat × List UInt8) := []

/-- The three requests that carry a term the receiver has to follow. -/
def MsgType.carriesTerm (t : MsgType) : Bool :=
  t = .appendEntriesRequest ∨ t = .voteRequest ∨ t = .installSnapshotRequest

namespace RaftServer

def handleExtendedMsg (s : RaftServer) (req : ReqMsg) (env : Env) : RaftServer × Option RespMsg :=
  match req.type with
  | .addServerRequest => s.handleAddSrvReq req
  | .removeServerRequest => s.handleRmSrvReq req
  | .syncLogRequest => s.handleLogSyncReq req
  | .joinClusterRequest => s.handleJoinClusterReq req
  | .leaveClusterRequest => s.handleLeaveClusterReq req
  | .installSnapshotRequest => s.handleInstallSnapshotReq req env.applyOk
  | .prevoteRequest => s.handlePrevoteReq req
  | _ => (s.exit .unexpectedMessage, none)

def followTerm (s : RaftServer) (req : ReqMsg) : RaftServer :=
  if MsgType.carriesTerm req.type then
    let s := (s.updateTerm req.term).1
    -- a leaving server that still hears from a leader stays up
    if 0 < s.stepsToDown then { s with stepsToDown := 2 } else s
  else s

def processReq (s : RaftServer) (req : ReqMsg) (env : Env) : RaftServer × Option RespMsg :=
  let s := s.followTerm req
  match req.type with
  | .appendEntriesRequest => s.handleAppendEntries req
  | .voteRequest => s.handleVoteReq req
  | .clientRequest => s.handleCliReq req env.leaseOk
  | _ => s.handleExtendedMsg req env

/-- The response goes back over the connection the request came in on. -/
def reply (r : RaftServer × Option RespMsg) (h : RpcHandler) (reqType : MsgType) : RaftServer :=
  match r.2 with
  | none => r.1
  | some resp => r.1.send (.resp resp h reqType)

def handlePeerResp (s : RaftServer) (resp : RespMsg) : RaftServer :=
  if resp.src ∈ s.peerIds then
    let r := s.updateTerm resp.term
    if r.2 then r.1
    else
      match resp.type with
      | .voteResponse => s.handleVotingResp resp
      | .appendEntriesResponse => s.handleAppendEntriesResp resp
      | .installSnapshotResponse => s.handleInstallSnapshotResp resp
      | _ => s.exit .unexpectedMessage
  else s

def handleResp (s : RaftServer) (resp : RespMsg) (h : RpcHandler) : RaftServer :=
  match h with
  | .resp => s.handlePeerResp resp
  | .exResp => s.handleExtResp resp
  | .client => s

def handleRpcError (s : RaftServer) (req : ReqMsg) (h : RpcHandler) : RaftServer :=
  match h with
  | .exResp => s.handleExtRespErr req
  | _ => s

def handle (s : RaftServer) : Input → RaftServer
  | .electionTimeout => s.handleElectionTimeout
  | .hbTimeout id => s.handleHbTimeout id
  | .commitInBg => s.commitInBg
  | .req m h env => reply (s.processReq m env) h m.type
  | .resp m h reqType => (s.handleRpcResult m.src h reqType true).handleResp m h
  | .rpcError m h => (s.handleRpcResult m.dst h m.type false).handleRpcError m h
  | .retry m => s.onRetryableReqErr m
  | .snapshotCompleted data => s.onSnapshotCompleted data
  | .replicateLog data leaseOk => s.replicateLog data leaseOk

def step (s : RaftServer) (inp : Input) : RaftServer := { s with out := [] }.handle inp

/-! ## Start -/

/-- The constructor's scan for a configuration that is not committed yet. -/
def uncommittedConf (l : LogStore) (smCommitIndex : Nat) : Bool :=
  (l.entries.drop (max (smCommitIndex + 1) l.startIndex - l.startIndex)).any (·.isConf)

/-- The constructor. -/
def start (b : Boot) : RaftServer :=
  { id := b.id, params := b.params, leader := noServer, role := .follower,
    state := b.state.getD ⟨0, noServer⟩, votesGranted := 0, votedServers := [],
    electionCompleted := true, quickCommitIdx := b.smCommitIndex,
    smCommitIndex := b.smCommitIndex,
    configChanging := uncommittedConf b.logStore b.smCommitIndex, catchingUp := false,
    stepsToDown := 0, electionTask := true,
    peers := (b.config.servers.filter fun c => decide (c.id ≠ b.id)).map (Peer.new b.params),
    rpcClients := [], logStore := b.logStore, config := b.config, srvToJoin := none,
    confToAdd := none, snpInProgress := none, lastSnapshot := b.smSnapshot,
    smSnapshot := b.smSnapshot, smSnapshotData := b.smSnapshotData, prevoteState := none,
    exited := false, out := [.schedule .election] }

end RaftServer

end Ns3Raft.Raft
