import Ns3Raft.Raft.Replicate

/-! # Membership changes

`reconfigure`, the exchange that adds a server (invite, join, sync, new
configuration) and the one that removes a server (leave, new configuration),
with the retries of both. A joining server sits in `srvToJoin` until its
configuration commits.
-/

namespace Ns3Raft.Raft

/-- Conversion of a 64-bit difference to `int32`. -/
def int32 (x : Int) : Int := x.bmod (2 ^ 32)

def Peer.resumeHbSpeed (params : RaftParams) (p : Peer) : Peer :=
  { p with currentHbInterval := params.heartBeatInterval }

def Peer.slowDownHb (params : RaftParams) (p : Peer) : Peer :=
  let interval := p.currentHbInterval + params.rpcFailureBackoff
  { p with currentHbInterval := min params.maxHbInterval interval }

/-- What `handle_rpc_result` does to the peer object before the handler runs. -/
def Peer.rpcResult (params : RaftParams) (reqType : MsgType) (ok : Bool) (p : Peer) : Peer :=
  let p := if reqType = .appendEntriesRequest ∨ reqType = .installSnapshotRequest then
    { p with busy := false } else p
  if ok then p.resumeHbSpeed params else p.slowDownHb params

namespace RaftServer

/-- A request of the join exchange went out through the peer object of the
joining server, every other one through the peer map. -/
def handleRpcResult (s : RaftServer) (id : SrvId) (h : RpcHandler) (reqType : MsgType)
    (ok : Bool) : RaftServer :=
  if h = .exResp ∧ reqType ∈ [.joinClusterRequest, .syncLogRequest, .installSnapshotRequest] then
    { s with srvToJoin := s.srvToJoin.map fun p =>
        if p.id = id then p.rpcResult s.params reqType ok else p }
  else if h = .client then s
  else s.updatePeer id (Peer.rpcResult s.params reqType ok)

/-! ## Applying a configuration -/

def addPeer (s : RaftServer) (srv : SrvConfig) : RaftServer :=
  let s :=
    if srv.id ∈ s.peerIds then s
    else { s with peers := s.peers ++
      [{ Peer.new s.params srv with nextLogIdx := s.logStore.nextSlot }] }
  if s.role = .leader then
    let s := s.enableHb srv.id
    match s.srvToJoin with
    | none => s
    | some j =>
        if j.id = srv.id then
          { s.updatePeer srv.id (fun p => { p with nextLogIdx := j.nextLogIdx }) with
            srvToJoin := none }
        else s
  else s

def erasePeer (s : RaftServer) (id : SrvId) : RaftServer :=
  if id ∈ s.peerIds then
    { s with peers := s.peers.filter fun p => decide (p.id ≠ id) }.emit (.cancel (.heartbeat id))
  else s

/-- The peers that the new configuration adds come in, those it lacks go. -/
def changePeers (s : RaftServer) (newConfig : ClusterConfig) : RaftServer :=
  let added := newConfig.servers.filter fun c => decide (c.id ∉ s.peerIds ∧ s.id ≠ c.id)
  let removed := s.peerIds.filter fun id => decide (id ∉ newConfig.ids)
  removed.foldl erasePeer (added.foldl addPeer s)

/-- A removed server saves the new configuration and asks the system to exit;
its own `config_` keeps the old value. -/
def reconfigure (s : RaftServer) (newConfig : ClusterConfig) : RaftServer :=
  let s := s.changePeers newConfig
  if s.id ∉ newConfig.ids ∧ ¬ s.catchingUp then
    (s.emit (.saveConfig newConfig)).emit (.systemExit 0)
  else { s with config := newConfig }

/-! ## Adding a server -/

/-- The end of the sync: the configuration with the new server goes into the
log. The new set is derived from `config_`. -/
def appendNewConfig (s : RaftServer) (servers : List SrvConfig) : RaftServer :=
  let config : ClusterConfig := ⟨s.logStore.nextSlot, s.config.logIdx, servers⟩
  ({ s with configChanging := true }.appendLog ⟨s.state.term, .conf config⟩).requestAppendEntries

def syncLogToNewSrv (s : RaftServer) (startIdx : Nat) : RaftServer :=
  match s.srvToJoin with
  | none => s
  | some j =>
      -- only committed logs are synced
      let gap := int32 ((s.quickCommitIdx : Int) - startIdx)
      if gap < s.params.logSyncStopGap then
        s.appendNewConfig (s.config.servers ++ s.confToAdd.toList)
      else if 0 < startIdx ∧ startIdx < s.logStore.startIndex then
        match s.createSyncSnapshotReq j startIdx s.state.term s.quickCommitIdx with
        | .error r => s.exit r
        | .ok (req, j) => { s with srvToJoin := some j }.send (.req req .exResp)
      else
        match s.logStore.pack startIdx (min gap s.params.logSyncBatchSize).toNat with
        | none => s.exit .storeError
        | some es =>
            s.send (.req
              { term := s.state.term, type := .syncLogRequest, src := s.id, dst := j.id,
                lastLogTerm := 0, lastLogIdx := ulongPred startIdx,
                commitIdx := s.quickCommitIdx, payload := .logPack es } .exResp)

def inviteSrvToJoinCluster (s : RaftServer) : RaftServer :=
  match s.srvToJoin with
  | none => s
  | some j =>
      s.send (.req
        { term := s.state.term, type := .joinClusterRequest, src := s.id, dst := j.id,
          lastLogTerm := 0, lastLogIdx := s.logStore.lastIndex,
          commitIdx := s.quickCommitIdx,
          payload := .entries [⟨s.state.term, .conf s.config⟩] } .exResp)

def handleAddSrvReq (s : RaftServer) (req : ReqMsg) : RaftServer × Option RespMsg :=
  let resp : RespMsg :=
    { term := s.state.term, type := .addServerResponse, src := s.id, dst := s.leader }
  match req.payload with
  | .entries [⟨_, .clusterServer srv⟩] =>
      if s.role ≠ .leader then (s, some resp)
      else if srv.id ∈ s.peerIds ∨ s.id = srv.id then (s, some resp)
      else if s.configChanging then (s, some resp)
      else
        let s := { s with confToAdd := some srv, srvToJoin := some (Peer.new s.params srv) }
        (s.inviteSrvToJoinCluster, some (resp.accept s.logStore.nextSlot))
  | _ => (s, some resp)

/-- The term and the vote are set without a look at the present ones. -/
def handleJoinClusterReq (s : RaftServer) (req : ReqMsg) : RaftServer × Option RespMsg :=
  let resp : RespMsg :=
    { term := s.state.term, type := .joinClusterResponse, src := s.id, dst := req.src }
  match req.payload with
  | .entries [⟨_, .conf config⟩] =>
      if s.catchingUp then (s, some resp)
      else
        let s := { s with
          catchingUp := true, role := .follower, leader := req.src,
          smCommitIndex := 0, quickCommitIdx := 0 }
        let s := s.saveState ⟨req.term, noServer⟩
        let s := s.reconfigure config
        (s, some (resp.accept s.logStore.nextSlot))
  | _ => (s, some resp)

def handleLogSyncReq (s : RaftServer) (req : ReqMsg) : RaftServer × Option RespMsg :=
  let resp : RespMsg :=
    { term := s.state.term, type := .syncLogResponse, src := s.id, dst := req.src }
  match req.payload with
  | .logPack es =>
      if ¬ s.catchingUp then (s, some resp)
      else
        match s.logStore.applyPack (req.lastLogIdx + 1) es with
        | none => (s.exit .storeError, none)
        | some l =>
            let s := { s with logStore := l }.emit (.applyPack (req.lastLogIdx + 1) es)
            let s := s.commit s.logStore.lastIndex
            (s, some (resp.accept s.logStore.nextSlot))
  | _ => (s, some resp)

/-! ## Removing a server -/

def handleRmSrvReq (s : RaftServer) (req : ReqMsg) : RaftServer × Option RespMsg :=
  let resp : RespMsg :=
    { term := s.state.term, type := .removeServerResponse, src := s.id, dst := s.leader }
  match req.payload with
  | .entries [⟨_, .serverId srvId⟩] =>
      if s.role ≠ .leader then (s, some resp)
      else if s.configChanging then (s, some resp)
      else if srvId = s.id then (s, some resp)
      else if srvId ∉ s.peerIds then (s, some resp)
      else
        (s.send (.req
          { term := s.state.term, type := .leaveClusterRequest, src := s.id, dst := srvId,
            lastLogTerm := 0, lastLogIdx := s.logStore.lastIndex,
            commitIdx := s.quickCommitIdx, payload := .entries [] } .exResp),
         some (resp.accept s.logStore.nextSlot))
  | _ => (s, some resp)

def handleLeaveClusterReq (s : RaftServer) (req : ReqMsg) : RaftServer × Option RespMsg :=
  let resp : RespMsg :=
    { term := s.state.term, type := .leaveClusterResponse, src := s.id, dst := req.src }
  if s.configChanging then (s, some resp)
  else ({ s with stepsToDown := 2 }, some (resp.accept s.logStore.nextSlot))

/-- No look at the role: the caller may have lost its leadership. -/
def rmSrvFromCluster (s : RaftServer) (srvId : SrvId) : RaftServer :=
  s.appendNewConfig (s.config.servers.filter fun c => decide (c.id ≠ srvId))

/-! ## Responses and errors of both exchanges -/

def handleSnapshotSyncResp (s : RaftServer) (resp : RespMsg) (j : Peer) : RaftServer :=
  match j.snpSyncCtx with
  | none => s.exit .noSnapshotCtx
  | some (snp, _) =>
      let j :=
        if snp.size ≤ resp.nextIdx then
          { j with snpSyncCtx := none, nextLogIdx := snp.lastLogIdx + 1,
                   matchedIdx := snp.lastLogIdx }
        else { j with snpSyncCtx := some (snp, resp.nextIdx) }
      { s with srvToJoin := some j }.syncLogToNewSrv j.nextLogIdx

def handleExtResp (s : RaftServer) (resp : RespMsg) : RaftServer :=
  match resp.type with
  | .syncLogResponse =>
      match s.srvToJoin with
      | none => s
      | some j =>
          let j := { j.resumeHbSpeed s.params with
            nextLogIdx := resp.nextIdx, matchedIdx := ulongPred resp.nextIdx }
          { s with srvToJoin := some j }.syncLogToNewSrv resp.nextIdx
  | .joinClusterResponse =>
      if s.srvToJoin.isSome ∧ resp.accepted = true then s.syncLogToNewSrv resp.nextIdx else s
  | .leaveClusterResponse => if resp.accepted then s.rmSrvFromCluster resp.src else s
  | .installSnapshotResponse =>
      match s.srvToJoin with
      | none => s
      | some j => if resp.accepted then s.handleSnapshotSyncResp resp j else s
  | .prevoteResponse => s.handlePrevoteResp resp
  | _ => s.exit .unexpectedMessage

/-- The peer object whose retry counter an error of the exchange is charged to. -/
def retryPeer (s : RaftServer) (req : ReqMsg) : Option Peer :=
  if req.type = .leaveClusterRequest then s.findPeer req.dst else s.srvToJoin

def setRetryPeer (s : RaftServer) (req : ReqMsg) (p : Peer) : RaftServer :=
  if req.type = .leaveClusterRequest then
    s.updatePeer req.dst fun q => { q with currentHbInterval := p.currentHbInterval }
  else { s with srvToJoin := some p }

def handleExtRespErr (s : RaftServer) (req : ReqMsg) : RaftServer :=
  if req.type ∈ [.syncLogRequest, .joinClusterRequest, .leaveClusterRequest] then
    match s.retryPeer req with
    | none => s
    | some p =>
        if s.params.maxHbInterval ≤ p.currentHbInterval then
          if req.type = .leaveClusterRequest then
            -- with only two servers the peer goes at once
            let s := if s.peers.length = 1 then s.erasePeer p.id else s
            s.rmSrvFromCluster p.id
          else { s with configChanging := false, srvToJoin := none }
        else (s.setRetryPeer req (p.slowDownHb s.params)).emit (.schedule (.retry req))
  else s

/-- `on_retryable_req_err`: the stored request goes out again, unchanged. -/
def onRetryableReqErr (s : RaftServer) (req : ReqMsg) : RaftServer := s.send (.req req .exResp)

end RaftServer

end Ns3Raft.Raft
