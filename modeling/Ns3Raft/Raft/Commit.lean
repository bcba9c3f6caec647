import Ns3Raft.Raft.Membership

/-! # Background commit and snapshots

One pass of the loop of `commit_in_bg`, the snapshot it may start, and the
installation of a snapshot on a follower.
-/

namespace Ns3Raft.Raft

def Peer.snapshotDone (snp : Snapshot) (p : Peer) : Peer :=
  { p with nextLogIdx := snp.lastLogIdx + 1, matchedIdx := snp.lastLogIdx, snpSyncCtx := none,
           pendingCommit := false }

namespace RaftServer

/-! ## Taking a snapshot -/

/-- Walk the configuration entries back to the one in force at an index. The
outer `none` is an entry that cannot be read as a configuration. -/
def confInForce (s : RaftServer) (committedIdx : Nat) : Nat → ClusterConfig → Option ClusterConfig
  | 0, _ => none
  | fuel + 1, conf =>
      if committedIdx < conf.logIdx ∧ s.logStore.startIndex ≤ conf.prevLogIdx then
        match (s.logStore.entryAt conf.prevLogIdx).bind (·.conf?) with
        | none => none
        | some prev => confInForce s committedIdx fuel prev
      else some conf

/-- The configuration a snapshot at an index records; `.ok none` when reading
the log throws and the snapshot is given up. -/
def snapshotConfig (s : RaftServer) (committedIdx : Nat) :
    Except ExitReason (Option ClusterConfig) :=
  match s.confInForce committedIdx (s.config.logIdx + 1) s.config with
  | none => .ok none
  | some conf =>
      if committedIdx < conf.logIdx ∧ 0 < conf.prevLogIdx ∧
          conf.prevLogIdx < s.logStore.startIndex then
        match s.lastSnapshot with
        | none => .error .noConfig
        | some snp => .ok (some snp.lastConfig)
      else if committedIdx < conf.logIdx ∧ conf.prevLogIdx = 0 then .error .noConfig
      else .ok (some conf)

def snapshotDue (s : RaftServer) (committedIdx : Nat) : Bool :=
  s.params.snapshotDistance ≠ 0 ∧
    s.params.snapshotDistance ≤ ulongSub committedIdx s.logStore.startIndex ∧
    s.lastSnapshot.all (fun snp =>
      decide (s.params.snapshotDistance ≤ ulongSub committedIdx snp.lastLogIdx)) ∧
    s.snpInProgress.isNone

def snapshotAndCompact (s : RaftServer) (committedIdx : Nat) : RaftServer :=
  if s.snapshotDue committedIdx then
    match s.snapshotConfig committedIdx with
    | .error r => s.exit r
    | .ok none => s
    | .ok (some conf) =>
        match s.logStore.termAt committedIdx with
        | none => s
        | some term =>
            let snp : Snapshot := ⟨committedIdx, term, 0, conf⟩
            { s with snpInProgress := some snp }.emit (.createSnapshot snp)
  else s

/-- `on_snapshot_completed`; `none` when the state machine could not make it.
The state machine keeps the bytes and reports their number as the size. -/
def onSnapshotCompleted (s : RaftServer) (data : Option (List UInt8)) : RaftServer :=
  match s.snpInProgress, data with
  | none, _ => s
  | some _, none => { s with snpInProgress := none }
  | some snp, some bytes =>
      let snp := { snp with size := bytes.length }
      let s := { s with
        lastSnapshot := some snp, smSnapshot := some snp, snpInProgress := none,
        smSnapshotData := (snp.lastLogIdx, bytes) :: s.smSnapshotData }
      if s.params.reservedLogItems < snp.lastLogIdx then
        let idx := snp.lastLogIdx - s.params.reservedLogItems
        match s.logStore.compact idx with
        | none => s.exit .storeError
        | some l => { s with logStore := l }.emit (.compact idx)
      else s

/-! ## Background commit -/

def applyConfig (s : RaftServer) (newConf : ClusterConfig) : RaftServer :=
  let s := { s.emit (.saveConfig newConf) with configChanging := false }
  let s := if s.config.logIdx < newConf.logIdx then s.reconfigure newConf else s
  if s.catchingUp ∧ s.id ∈ newConf.ids then { s with catchingUp := false } else s

def applyEntry (s : RaftServer) (idx : Nat) (e : LogEntry) : RaftServer :=
  match e.val with
  | .appLog _ => s.emit (.commit idx e)
  | .conf c => s.applyConfig c
  | _ => s

/-- One pass of the inner loop of `commit_in_bg`. -/
def commitInBg (s : RaftServer) : RaftServer :=
  if s.smCommitIndex < s.quickCommitIdx ∧ s.smCommitIndex < s.logStore.lastIndex then
    let idx := s.smCommitIndex + 1
    let s := { s with smCommitIndex := idx }
    match s.logStore.entryAt idx with
    | none => s.exit .storeError
    | some e => ((s.emit (.reach idx e)).applyEntry idx e).snapshotAndCompact idx
  else s

/-! ## Installing a snapshot -/

/-- The bytes received so far, cut at the offset of the new block. -/
def saveSnapshotData (s : RaftServer) (r : SnapshotSyncReq) : RaftServer :=
  let old := (s.smSnapshotData.lookup r.snapshot.lastLogIdx).getD []
  { s with smSnapshotData :=
      (r.snapshot.lastLogIdx, old.take r.offset ++ r.data) :: s.smSnapshotData }.emit
    (.saveSnapshotData r.snapshot r.offset r.data)

/-- What follows the configuration of an applied snapshot. -/
def finishSnapshot (s : RaftServer) (snp : Snapshot) : RaftServer :=
  let s := { s.emit (.saveConfig s.config) with
    smCommitIndex := snp.lastLogIdx, quickCommitIdx := snp.lastLogIdx }
  let last : Snapshot := ⟨snp.lastLogIdx, snp.lastLogTerm, snp.size, s.config⟩
  { s.saveState s.state with lastSnapshot := some last }.restartElectionTimer

/-- The state machine has taken the snapshot over. -/
def restoreSnapshot (s : RaftServer) (snp : Snapshot) : RaftServer :=
  let s := { s with smSnapshot := some snp }.emit (.applySnapshot snp)
  (s.reconfigure snp.lastConfig).finishSnapshot snp

def applySnapshot (s : RaftServer) (snp : Snapshot) (applyOk : Bool) : RaftServer :=
  match s.logStore.compact snp.lastLogIdx with
  | none => s.exit .storeError
  | some l =>
      let s := { s with logStore := l }.emit (.compact snp.lastLogIdx)
      let s := s.stopElectionTimer
      if applyOk = false then s.exit .applySnapshotFailed
      else s.restoreSnapshot snp

def handleSnapshotSyncReq (s : RaftServer) (r : SnapshotSyncReq) (applyOk : Bool) : RaftServer :=
  let s := s.saveSnapshotData r
  if r.done then
    if s.role ≠ .follower then s.exit .badRole else s.applySnapshot r.snapshot applyOk
  else s

def handleInstallSnapshotReq (s : RaftServer) (req : ReqMsg) (applyOk : Bool) :
    RaftServer × Option RespMsg :=
  if req.term = s.state.term ∧ ¬ s.catchingUp ∧ s.role = .leader then (s.exit .anotherLeader, none)
  else
    let s :=
      if req.term = s.state.term ∧ ¬ s.catchingUp then
        if s.role = .candidate then s.becomeFollower else s.restartElectionTimer
      else s
    let resp : RespMsg :=
      { term := s.state.term, type := .installSnapshotResponse, src := s.id, dst := req.src }
    if ¬ s.catchingUp ∧ req.term < s.state.term then (s, some resp)
    else
      match req.payload with
      | .snpSyncReq r =>
          if r.snapshot.lastLogIdx ≤ s.smCommitIndex then (s, some resp)
          else (s.handleSnapshotSyncReq r applyOk, some (resp.accept (r.offset + r.data.length)))
      | _ => (s, some resp)

def handleInstallSnapshotResp (s : RaftServer) (resp : RespMsg) : RaftServer :=
  match s.findPeer resp.src with
  | none => s
  | some p =>
      let r : RaftServer × Bool :=
        if resp.accepted then
          match p.snpSyncCtx with
          | none => (s, false)
          | some (snp, _) =>
              if snp.size ≤ resp.nextIdx then
                (s.updatePeer resp.src (Peer.snapshotDone snp),
                  p.pendingCommit || decide (resp.nextIdx < s.logStore.nextSlot))
              else
                (s.updatePeer resp.src fun p => { p with snpSyncCtx := some (snp, resp.nextIdx) },
                  true)
        else (s, true)
      if r.1.role = .leader ∧ r.2 = true then (r.1.requestAppendEntriesTo resp.src).1 else r.1

end RaftServer

end Ns3Raft.Raft
