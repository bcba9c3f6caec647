import Ns3Raft.Raft.LogStore

/-! # The server record and its sending side

`RaftServer` holds the fields of `raft_server`, the parameters of its context
and what its state machine answers about snapshots. Every operation that the
outside can see appends to `out`; once `exited` is set nothing more is emitted,
since the process is gone. The functions follow the source one by one: timers,
`term_for_log`, the two request builders, `request_append_entries`, `commit`
and the role changes.
-/

namespace Ns3Raft.Raft

structure RaftServer where
  id : SrvId
  params : RaftParams
  leader : SrvId
  role : SrvRole
  state : SrvState
  votesGranted : Nat
  votedServers : List SrvId
  electionCompleted : Bool
  quickCommitIdx : Nat
  smCommitIndex : Nat
  configChanging : Bool
  catchingUp : Bool
  stepsToDown : Nat
  electionTask : Bool
  peers : List Peer
  rpcClients : List SrvId
  logStore : LogStore
  config : ClusterConfig
  srvToJoin : Option Peer
  confToAdd : Option SrvConfig
  snpInProgress : Option Snapshot
  lastSnapshot : Option Snapshot
  smSnapshot : Option Snapshot
  smSnapshotData : List (Nat × List UInt8)
  prevoteState : Option PrevoteState
  exited : Bool
  out : List Output
  deriving DecidableEq, Repr

/-- The peer a request went out to, with the cursors the request was built from. -/
def Peer.sent (q : Peer) (p : Peer) : Peer :=
  { p with nextLogIdx := q.nextLogIdx, snpSyncCtx := q.snpSyncCtx, busy := true }

namespace RaftServer

def emit (s : RaftServer) (o : Output) : RaftServer :=
  if s.exited then s else { s with out := s.out ++ [o] }

def exit (s : RaftServer) (r : ExitReason) : RaftServer :=
  if s.exited then s else { s with out := s.out ++ [.exit r], exited := true }

def send (s : RaftServer) (p : Packet) : RaftServer := s.emit (.send p)

/-- Set the state and save it through the state manager. -/
def saveState (s : RaftServer) (st : SrvState) : RaftServer :=
  { s with state := st }.emit (.saveState st)

def peerIds (s : RaftServer) : List SrvId := s.peers.map (·.id)

def findPeer (s : RaftServer) (id : SrvId) : Option Peer := s.peers.find? (·.id = id)

def updatePeer (s : RaftServer) (id : SrvId) (f : Peer → Peer) : RaftServer :=
  { s with peers := s.peers.map fun p => if p.id = id then f p else p }

/-! ## Timers -/

def restartElectionTimer (s : RaftServer) : RaftServer :=
  if s.catchingUp then s
  else
    let s := if s.electionTask then s.emit (.cancel .election) else { s with electionTask := true }
    s.emit (.schedule .election)

def stopElectionTimer (s : RaftServer) : RaftServer :=
  if s.electionTask then s.emit (.cancel .election) else s

/-! ## Building requests -/

/-- `none` is the `system_exit` branch, or an index the store cannot read. -/
def termForLog (s : RaftServer) (logIdx : Nat) : Option Nat :=
  if logIdx = 0 then some 0
  else if s.logStore.startIndex ≤ logIdx then s.logStore.termAt logIdx
  else
    match s.smSnapshot with
    | none => none
    | some snp => if logIdx = snp.lastLogIdx then some snp.lastLogTerm else none

def defaultSnapshotSyncBlockSize : Nat := 4 * 1024

def snapshotSyncBlockSize (s : RaftServer) : Nat :=
  if s.params.snapshotBlockSize = 0 then defaultSnapshotSyncBlockSize
  else s.params.snapshotBlockSize

/-- The bytes the state machine keeps for a snapshot, from an offset on. -/
def readSnapshotData (s : RaftServer) (snp : Snapshot) (offset n : Nat) : List UInt8 :=
  (((s.smSnapshotData.lookup snp.lastLogIdx).getD []).drop offset).take n

/-- Start over with the last snapshot. -/
def freshSnapshot (s : RaftServer) (p : Peer) (lastLogIdx : Nat) :
    Except ExitReason (Snapshot × Peer) :=
  match s.lastSnapshot with
  | none => .error .noSnapshot
  | some snp =>
      if snp.lastLogIdx < lastLogIdx then .error .noSnapshot
      else if snp.size < 1 then .error .invalidSnapshot
      else .ok (snp, { p with snpSyncCtx := some (snp, 0) })

/-- The snapshot to send to a peer, and the peer with its sync context. -/
def pickSnapshot (s : RaftServer) (p : Peer) (lastLogIdx : Nat) :
    Except ExitReason (Snapshot × Peer) :=
  match p.snpSyncCtx with
  | none => s.freshSnapshot p lastLogIdx
  | some (snp, _) =>
      match s.lastSnapshot with
      | none => .ok (snp, p)
      | some last =>
          if snp.lastLogIdx < last.lastLogIdx then s.freshSnapshot p lastLogIdx else .ok (snp, p)

def createSyncSnapshotReq (s : RaftServer) (p : Peer) (lastLogIdx term commitIdx : Nat) :
    Except ExitReason (ReqMsg × Peer) :=
  match s.pickSnapshot p lastLogIdx with
  | .error r => .error r
  | .ok (snp, p) =>
      let offset := (p.snpSyncCtx.map (·.2)).getD 0
      let blkSz := min s.snapshotSyncBlockSize (snp.size - offset)
      let data := s.readSnapshotData snp offset blkSz
      if data.length < blkSz then .error .shortSnapshotRead
      else
        let done := decide (snp.size ≤ offset + data.length)
        .ok ({ term := term, type := .installSnapshotRequest, src := s.id, dst := p.id,
               lastLogTerm := snp.lastLogTerm, lastLogIdx := snp.lastLogIdx,
               commitIdx := commitIdx,
               payload := .snpSyncReq ⟨snp, offset, data, done⟩ }, p)

/-- The entries an append request carries; nothing is read when the peer is up to date. -/
def entriesFrom (s : RaftServer) (lastLogIdx : Nat) : Option (List LogEntry) :=
  if s.logStore.nextSlot ≤ lastLogIdx + 1 then some []
  else s.logStore.logEntries (lastLogIdx + 1)
    (min s.logStore.nextSlot (lastLogIdx + 1 + s.params.maxAppendSize))

def createAppendEntriesReq (s : RaftServer) (p : Peer) : Except ExitReason (ReqMsg × Peer) :=
  let p := if p.nextLogIdx = 0 then { p with nextLogIdx := s.logStore.nextSlot } else p
  let lastLogIdx := p.nextLogIdx - 1
  if s.logStore.nextSlot ≤ lastLogIdx then .error .peerIndexTooLarge
  -- index start - 1 can still be checked against the last snapshot
  else if 0 < lastLogIdx ∧ lastLogIdx < s.logStore.startIndex - 1 then
    s.createSyncSnapshotReq p lastLogIdx s.state.term s.quickCommitIdx
  else
    match s.termForLog lastLogIdx with
    | none => .error .badLogIdx
    | some lastLogTerm =>
        match s.entriesFrom lastLogIdx with
        | none => .error .storeError
        | some es =>
            .ok ({ term := s.state.term, type := .appendEntriesRequest, src := s.id, dst := p.id,
                   lastLogTerm := lastLogTerm, lastLogIdx := lastLogIdx,
                   commitIdx := s.quickCommitIdx, payload := .entries es }, p)

/-- `request_append_entries(peer&)`: false when the peer is busy. -/
def requestAppendEntriesTo (s : RaftServer) (id : SrvId) : RaftServer × Bool :=
  match s.findPeer id with
  | none => (s, true)
  | some p =>
      if p.busy then (s, false)
      else
        match s.createAppendEntriesReq p with
        | .error r => (s.exit r, true)
        | .ok (req, p') =>
            ((s.updatePeer id (Peer.sent p')).send (.req req .resp), true)

/-! ## Committing -/

/-- A peer that is busy is told about the commit later. -/
def notifyCommit (s : RaftServer) (id : SrvId) : RaftServer :=
  let r := s.requestAppendEntriesTo id
  if r.2 then r.1 else r.1.updatePeer id fun p => { p with pendingCommit := true }

def commit (s : RaftServer) (targetIdx : Nat) : RaftServer :=
  if s.quickCommitIdx < targetIdx then
    let s := { s with quickCommitIdx := targetIdx }
    if s.role = .leader then s.peerIds.foldl notifyCommit s else s
  else s

/-- `request_append_entries()`: a server without peers commits at once. -/
def requestAppendEntries (s : RaftServer) : RaftServer :=
  if s.peers = [] then s.commit s.logStore.lastIndex
  else s.peerIds.foldl (fun s id => (s.requestAppendEntriesTo id).1) s

/-! ## Role changes -/

/-- `log_store_->append` under the server's present role and term. -/
def appendLog (s : RaftServer) (e : LogEntry) : RaftServer :=
  { s with logStore := s.logStore.append e }.emit
    (.append s.role s.state.term s.logStore.nextSlot e)

def enableHb (s : RaftServer) (id : SrvId) : RaftServer :=
  (s.updatePeer id fun p =>
    { p with hbEnabled := true, currentHbInterval := s.params.heartBeatInterval }).emit
    (.schedule (.heartbeat id))

/-- The first leader writes the initial configuration into the log. -/
def logInitialConfig (s : RaftServer) : RaftServer :=
  if s.config.logIdx = 0 then
    let config := s.config.setLogIdx s.logStore.nextSlot
    { s with config := config, configChanging := true }.appendLog ⟨s.state.term, .conf config⟩
  else s

def becomeLeader (s : RaftServer) : RaftServer :=
  let s := s.stopElectionTimer
  let s := { s with
    role := .leader, leader := s.id, srvToJoin := none,
    peers := s.peers.map (Peer.resetForLeader s.logStore.nextSlot) }
  let s := s.peerIds.foldl enableHb s
  let s := s.logInitialConfig
  let s := s.emit (.becomeLeader s.state.term)
  s.requestAppendEntries

def disableHb (s : RaftServer) (id : SrvId) : RaftServer :=
  (s.updatePeer id fun p => { p with hbEnabled := false }).emit (.cancel (.heartbeat id))

def becomeFollower (s : RaftServer) : RaftServer :=
  let s := { s with prevoteState := none }
  let s := s.peerIds.foldl disableHb s
  let s := { s with srvToJoin := none, role := .follower }
  s.restartElectionTimer.emit .becomeFollower

/-- `update_term`: true when the term moved and the server stepped down. -/
def updateTerm (s : RaftServer) (term : Nat) : RaftServer × Bool :=
  if s.state.term < term then
    let s := { s with electionCompleted := false, votesGranted := 0, votedServers := [] }
    ((s.saveState ⟨term, noServer⟩).becomeFollower, true)
  else (s, false)

def sendVoteRequests (s : RaftServer) : RaftServer :=
  match s.termForLog s.logStore.lastIndex with
  | none => s.exit .badLogIdx
  | some lastTerm =>
      s.peerIds.foldl (fun s' id => s'.send (.req
        { term := s.state.term, type := .voteRequest, src := s.id, dst := id,
          lastLogTerm := lastTerm, lastLogIdx := s.logStore.lastIndex,
          commitIdx := s.quickCommitIdx, payload := .entries [] } .resp)) s

def requestVote (s : RaftServer) : RaftServer :=
  let s := s.saveState { s.state with votedFor := s.id }
  let s := { s with votesGranted := s.votesGranted + 1, votedServers := s.votedServers ++ [s.id] }
  -- is this the only server?
  if (s.peers.length + 1) / 2 < s.votesGranted then
    { s with electionCompleted := true }.becomeLeader
  else s.sendVoteRequests

def becomeCandidate (s : RaftServer) : RaftServer :=
  let s := { s with
    prevoteState := none, role := .candidate, votesGranted := 0, votedServers := [],
    electionCompleted := false }
  let s := s.saveState ⟨s.state.term + 1, noServer⟩
  let s := s.requestVote
  if s.role = .leader then s else s.restartElectionTimer

def sendPrevoteRequests (s : RaftServer) : RaftServer :=
  match s.termForLog s.logStore.lastIndex with
  | none => s.exit .badLogIdx
  | some lastTerm =>
      s.peerIds.foldl (fun s' id => s'.send (.req
        { term := s.state.term, type := .prevoteRequest, src := s.id, dst := id,
          lastLogTerm := lastTerm, lastLogIdx := s.logStore.lastIndex,
          commitIdx := s.quickCommitIdx, payload := .entries [] } .exResp)) s

def requestPrevote (s : RaftServer) : RaftServer :=
  if s.peers = [] then s.becomeCandidate
  else
    let pv := s.prevoteState.getD ⟨[], 0⟩
    let pv := { acceptedVotes := pv.acceptedVotes + 1,
                votedServers := if s.id ∈ pv.votedServers then pv.votedServers
                                else pv.votedServers ++ [s.id] }
    { s with prevoteState := some pv }.sendPrevoteRequests

/-! ## Timeouts -/

/-- A server that was asked to leave removes itself after two silent rounds. -/
def leaveCluster (s : RaftServer) : RaftServer :=
  let config := { s.config with servers := s.config.servers.eraseP (·.id = s.id) }
  let s := if s.id ∈ s.config.ids then { s with config := config }.emit (.saveConfig config) else s
  s.exit .removedFromCluster

def handleElectionTimeout (s : RaftServer) : RaftServer :=
  if 0 < s.stepsToDown then
    let s := { s with stepsToDown := s.stepsToDown - 1 }
    if s.stepsToDown = 0 then s.leaveCluster else s.restartElectionTimer
  else if s.catchingUp then s.restartElectionTimer
  else if s.role = .leader then s.exit .leaderElectionTimeout
  else if s.params.prevoteEnabled ∧ s.role = .follower then
    match s.prevoteState with
    | some pv => if pv.votedServers ≠ [] then s else s.requestPrevote
    | none => s.requestPrevote
  else s.becomeCandidate

def handleHbTimeout (s : RaftServer) (id : SrvId) : RaftServer :=
  match s.findPeer id with
  | none => s
  | some p =>
      if s.role = .leader then
        let s := (s.requestAppendEntriesTo id).1
        if p.hbEnabled then s.emit (.schedule (.heartbeat id)) else s
      else s

end RaftServer

end Ns3Raft.Raft
