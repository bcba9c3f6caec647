import Ns3Raft.Raft.Server

/-! # Votes, appends and client requests

The request handlers of the replication protocol and the handlers of their
responses. A request handler returns no response when the process ended.
-/

namespace Ns3Raft.Raft

def Peer.ack (nextIdx : Nat) (p : Peer) : Peer :=
  { p with nextLogIdx := nextIdx, matchedIdx := ulongPred nextIdx }

/-- After a rejection: jump to the peer's own next slot, or step back by one. -/
def Peer.backUp (nextIdx : Nat) (p : Peer) : Peer :=
  { p with nextLogIdx :=
      if 0 < nextIdx ∧ nextIdx < p.nextLogIdx then nextIdx else ulongPred p.nextLogIdx }

namespace RaftServer

/-! ## Append requests -/

/-- First loop: step over the entries the log already holds, by term. -/
def skipOverlap (l : LogStore) : Nat → List LogEntry → Nat × List LogEntry
  | idx, [] => (idx, [])
  | idx, e :: es =>
      if idx < l.nextSlot ∧ l.termAt idx = some e.term then skipOverlap l (idx + 1) es
      else (idx, e :: es)

/-- What happens to the entry that an overwrite replaces. -/
def rollbackAt (s : RaftServer) (idx : Nat) : RaftServer :=
  match s.logStore.entryAt idx with
  | none => s
  | some old =>
      match old.val with
      | .appLog _ => s.emit (.rollback idx old)
      | .conf _ => { s with configChanging := false }
      | _ => s

/-- What happens with an entry that has come into the log at `idx`. -/
def noteReceived (s : RaftServer) (idx : Nat) (e : LogEntry) : RaftServer :=
  match e.val with
  | .appLog _ => s.emit (.preCommit idx e)
  | .conf _ => { s with configChanging := true }
  | _ => s

/-- One round of the overwrite loop. Only the entry at `idx` itself is rolled
back; `write_at` drops the whole suffix. -/
def overwriteAt (s : RaftServer) (idx : Nat) (e : LogEntry) : RaftServer :=
  let s := s.rollbackAt idx
  let s := { s with logStore := s.logStore.writeAt idx e }.emit (.writeAt idx e)
  s.noteReceived idx e

/-- Second loop: overwrite while the index is still inside the log. -/
def overwriteLoop : RaftServer → Nat → List LogEntry → RaftServer × List LogEntry
  | s, _, [] => (s, [])
  | s, idx, e :: es =>
      if idx < s.logStore.nextSlot then overwriteLoop (s.overwriteAt idx e) (idx + 1) es
      else (s, e :: es)

def appendReceived (s : RaftServer) (e : LogEntry) : RaftServer :=
  (s.appendLog e).noteReceived s.logStore.nextSlot e

/-- The three loops of `handle_append_entries`. -/
def writeEntries (s : RaftServer) (idx : Nat) (es : List LogEntry) : RaftServer :=
  let rest := skipOverlap s.logStore idx es
  let r := s.overwriteLoop rest.1 rest.2
  r.2.foldl appendReceived r.1

/-- `none` when the term of the previous index cannot be told. -/
def appendLogOkay (s : RaftServer) (req : ReqMsg) : Option Bool :=
  if req.lastLogIdx = 0 then some true
  else if req.lastLogIdx < s.logStore.nextSlot then
    (s.termForLog req.lastLogIdx).map fun t => decide (req.lastLogTerm = t)
  else some false

def handleAppendEntries (s : RaftServer) (req : ReqMsg) : RaftServer × Option RespMsg :=
  if req.term = s.state.term ∧ s.role = .leader then (s.exit .anotherLeader, none)
  else
    let s :=
      if req.term = s.state.term then
        if s.role = .candidate then s.becomeFollower else s.restartElectionTimer
      else s
    let resp : RespMsg :=
      { term := s.state.term, type := .appendEntriesResponse, src := s.id, dst := req.src,
        nextIdx := s.logStore.nextSlot }
    match s.appendLogOkay req with
    | none => (s.exit .badLogIdx, none)
    | some okay =>
        if req.term < s.state.term ∨ okay = false then (s, some resp)
        else if req.logEntries ≠ [] ∧ req.lastLogIdx + 1 < s.logStore.startIndex then
          (s.exit .storeError, none)
        else
          let s := s.writeEntries (req.lastLogIdx + 1) req.logEntries
          let s := { s with leader := req.src }.commit req.commitIdx
          (s, some (resp.accept (req.lastLogIdx + req.logEntries.length + 1)))

/-! ## Votes -/

/-- The comparison both vote handlers make with the last entry of the store. -/
def voteLogOkay (s : RaftServer) (req : ReqMsg) : Bool :=
  decide (s.logStore.lastEntry.term < req.lastLogTerm) ||
    (decide (req.lastLogTerm = s.logStore.lastEntry.term) &&
      decide (s.logStore.lastIndex ≤ req.lastLogIdx))

def handleVoteReq (s : RaftServer) (req : ReqMsg) : RaftServer × Option RespMsg :=
  let resp : RespMsg :=
    { term := s.state.term, type := .voteResponse, src := s.id, dst := req.src }
  if req.term = s.state.term ∧ s.voteLogOkay req = true ∧
      (s.state.votedFor = req.src ∨ s.state.votedFor = noServer) then
    (s.saveState { s.state with votedFor := req.src }, some (resp.accept s.logStore.nextSlot))
  else (s, some resp)

def handlePrevoteReq (s : RaftServer) (req : ReqMsg) : RaftServer × Option RespMsg :=
  let resp : RespMsg :=
    { term := s.state.term, type := .prevoteResponse, src := s.id, dst := req.src }
  if s.state.term ≤ req.term ∧ s.voteLogOkay req = true ∧
      (s.params.defensivePrevote = true → s.prevoteState.isSome) then
    (s, some (resp.accept s.logStore.nextSlot))
  else (s, some resp)

def countVote (s : RaftServer) (resp : RespMsg) : RaftServer :=
  { s with
    votedServers := s.votedServers ++ [resp.src],
    votesGranted := s.votesGranted + if resp.accepted then 1 else 0 }

/-- Over when everyone has voted, won with more than half of the votes. -/
def closeElection (s : RaftServer) : RaftServer :=
  let s := if s.peers.length + 1 ≤ s.votedServers.length then { s with electionCompleted := true }
           else s
  if (s.peers.length + 1) / 2 < s.votesGranted then { s with electionCompleted := true }.becomeLeader
  else s

def handleVotingResp (s : RaftServer) (resp : RespMsg) : RaftServer :=
  if resp.term ≠ s.state.term then s
  else if s.electionCompleted then s
  else if resp.src ∈ s.votedServers then s
  else (s.countVote resp).closeElection

def PrevoteState.count (pv : PrevoteState) (resp : RespMsg) : PrevoteState :=
  { votedServers := pv.votedServers ++ [resp.src],
    acceptedVotes := pv.acceptedVotes + if resp.accepted then 1 else 0 }

/-- A failed round leaves an empty prevote state behind. -/
def closePrevote (s : RaftServer) (pv : PrevoteState) : RaftServer :=
  let s := { s with prevoteState := some pv }
  if (s.peers.length + 1) / 2 < pv.acceptedVotes then s.becomeCandidate
  else if s.peers.length + 1 ≤ pv.votedServers.length then
    { s with prevoteState := some ⟨[], 0⟩ }.restartElectionTimer
  else s

def handlePrevoteResp (s : RaftServer) (resp : RespMsg) : RaftServer :=
  if resp.term ≠ s.state.term then s
  else
    match s.prevoteState with
    | none => s
    | some pv => if resp.src ∈ pv.votedServers then s else s.closePrevote (PrevoteState.count pv resp)

/-! ## Append responses -/

/-- The element at position `(n + 1) / 2` of the matched indexes, the leader's
own last index among them, in descending order. -/
def majorityIndex (s : RaftServer) : Nat :=
  ((s.logStore.lastIndex :: s.peers.map (·.matchedIdx)).insertionSort (· ≥ ·)).getD
    ((s.peers.length + 1) / 2) 0

def handleAppendEntriesResp (s : RaftServer) (resp : RespMsg) : RaftServer :=
  if resp.src ∈ s.peerIds then
    if resp.accepted then
      let s := s.updatePeer resp.src (Peer.ack resp.nextIdx)
      let s := s.commit s.majorityIndex
      let pending := ((s.findPeer resp.src).map (·.pendingCommit)).getD false
      let s := s.updatePeer resp.src fun p => { p with pendingCommit := false }
      if s.role = .leader ∧ (pending = true ∨ resp.nextIdx < s.logStore.nextSlot) then
        (s.requestAppendEntriesTo resp.src).1
      else s
    else
      let s := s.updatePeer resp.src (Peer.backUp resp.nextIdx)
      if s.role = .leader then (s.requestAppendEntriesTo resp.src).1 else s
  else s

/-! ## Client requests -/

/-- `is_leader()`. `leaseOk` is the outcome of its response-time test, which
depends on the clock and on a cache shared by all servers of the process. -/
def isLeader (s : RaftServer) (leaseOk : Bool) : Bool :=
  decide (s.role = .leader) && (s.peers.isEmpty || leaseOk)

/-- `send_msg_to_leader` for a server that is not the leader itself. -/
def forwardToLeader (s : RaftServer) (req : ReqMsg) : RaftServer :=
  if s.leader = noServer then s
  else if s.leader ∈ s.rpcClients then
    s.send (.req { req with src := s.id, dst := s.leader } .client)
  else if s.leader ∈ s.config.ids then
    { s with rpcClients := s.rpcClients ++ [s.leader] }.send
      (.req { req with src := s.id, dst := s.leader } .client)
  else s

/-- One client entry: the term is forced to the current one. -/
def appendClientEntry (s : RaftServer) (e : LogEntry) : RaftServer :=
  let e := { e with term := s.state.term }
  (s.appendLog e).emit (.preCommit s.logStore.nextSlot e)

def handleCliReq (s : RaftServer) (req : ReqMsg) (leaseOk : Bool) :
    RaftServer × Option RespMsg :=
  let resp (dst : SrvId) : RespMsg :=
    { term := s.state.term, type := .appendEntriesResponse, src := s.id, dst := dst }
  if s.isLeader leaseOk then
    let s := (req.logEntries.foldl appendClientEntry s).requestAppendEntries
    (s, some ((resp s.leader).accept s.logStore.nextSlot))
  else if s.role = .leader ∨ s.id = s.leader then (s, some (resp noServer))
  else (s.forwardToLeader req, some (resp s.leader))

/-- `replicate_log`: the entry enters the log without `pre_commit`. -/
def replicateLog (s : RaftServer) (data : List UInt8) (leaseOk : Bool) : RaftServer :=
  if s.isLeader leaseOk then (s.appendLog ⟨s.state.term, .appLog data⟩).requestAppendEntries
  else s

end RaftServer

end Ns3Raft.Raft
