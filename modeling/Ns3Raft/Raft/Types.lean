import Mathlib.Data.List.Sort
import Mathlib.Data.UInt

/-! # Messages and records of the raft server

The plain data of `raft_server` and its headers. Terms and log indexes are
`ulong`s that only ever grow by one or are copied, so they are natural numbers;
the one place where the code subtracts below zero (`ulongPred`) wraps as the
machine does. Payload buffers are held in their decoded form: a `conf` entry
carries the configuration it serializes.
-/

namespace Ns3Raft.Raft

/-- An `int32` server id. `-1` is the code's own "no server". -/
abbrev SrvId := Int

def noServer : SrvId := -1

/-- `x - 1` on a 64-bit unsigned index. -/
def ulongPred (x : Nat) : Nat := if x = 0 then 2 ^ 64 - 1 else x - 1

/-- `a - b` on 64-bit unsigned indexes. -/
def ulongSub (a b : Nat) : Nat := if b ≤ a then a - b else a + 2 ^ 64 - b

@[simp] theorem ulongPred_succ (n : Nat) : ulongPred (n + 1) = n := by simp [ulongPred]

inductive SrvRole where
  | follower | candidate | leader
  deriving DecidableEq, Repr

inductive MsgType where
  | voteRequest | voteResponse | appendEntriesRequest | appendEntriesResponse
  | clientRequest | addServerRequest | addServerResponse | removeServerRequest
  | removeServerResponse | syncLogRequest | syncLogResponse | joinClusterRequest
  | joinClusterResponse | leaveClusterRequest | leaveClusterResponse
  | installSnapshotRequest | installSnapshotResponse | prevoteRequest | prevoteResponse
  deriving DecidableEq, Repr

structure SrvConfig where
  id : SrvId
  endpoint : String
  deriving DecidableEq, Repr

structure ClusterConfig where
  logIdx : Nat
  prevLogIdx : Nat
  servers : List SrvConfig
  deriving DecidableEq, Repr

namespace ClusterConfig

/-- `set_log_idx` keeps the old index as the previous one. -/
def setLogIdx (c : ClusterConfig) (idx : Nat) : ClusterConfig :=
  { c with prevLogIdx := c.logIdx, logIdx := idx }

def getServer (c : ClusterConfig) (id : SrvId) : Option SrvConfig :=
  c.servers.find? (·.id = id)

def ids (c : ClusterConfig) : List SrvId := c.servers.map (·.id)

@[simp] theorem setLogIdx_servers (c : ClusterConfig) (idx : Nat) :
    (c.setLogIdx idx).servers = c.servers := rfl

@[simp] theorem setLogIdx_ids (c : ClusterConfig) (idx : Nat) :
    (c.setLogIdx idx).ids = c.ids := rfl

end ClusterConfig

/-- The payload of a log entry, by `log_val_type`. A remove-server request also
travels as a `cluster_server` value; its buffer is one `int`. -/
inductive LogVal where
  | appLog (data : List UInt8)
  | conf (config : ClusterConfig)
  | clusterServer (srv : SrvConfig)
  | serverId (id : SrvId)
  deriving DecidableEq, Repr

structure LogEntry where
  term : Nat
  val : LogVal
  deriving DecidableEq, Repr

namespace LogEntry

def isAppLog (e : LogEntry) : Bool := match e.val with | .appLog _ => true | _ => false

def conf? (e : LogEntry) : Option ClusterConfig :=
  match e.val with | .conf c => some c | _ => none

def isConf (e : LogEntry) : Bool := e.conf?.isSome

end LogEntry

structure Snapshot where
  lastLogIdx : Nat
  lastLogTerm : Nat
  size : Nat
  lastConfig : ClusterConfig
  deriving DecidableEq, Repr

structure SnapshotSyncReq where
  snapshot : Snapshot
  offset : Nat
  data : List UInt8
  done : Bool
  deriving DecidableEq, Repr

/-- What `log_entries()` of a request holds: ordinary entries, or the single
`log_pack` or `snp_sync_req` entry of the two bulk transfers. -/
inductive Payload where
  | entries (es : List LogEntry)
  | logPack (es : List LogEntry)
  | snpSyncReq (r : SnapshotSyncReq)
  deriving DecidableEq, Repr

structure ReqMsg where
  term : Nat
  type : MsgType
  src : SrvId
  dst : SrvId
  lastLogTerm : Nat
  lastLogIdx : Nat
  commitIdx : Nat
  payload : Payload
  deriving DecidableEq, Repr

def ReqMsg.logEntries (m : ReqMsg) : List LogEntry :=
  match m.payload with | .entries es => es | _ => []

structure RespMsg where
  term : Nat
  type : MsgType
  src : SrvId
  dst : SrvId
  nextIdx : Nat := 0
  accepted : Bool := false
  deriving DecidableEq, Repr

def RespMsg.accept (r : RespMsg) (nextIdx : Nat) : RespMsg :=
  { r with nextIdx := nextIdx, accepted := true }

/-- Which of the server's two response handlers a request was sent with;
`client` is the handler of `send_msg_to_leader`, which touches no raft state. -/
inductive RpcHandler where
  | resp | exResp | client
  deriving DecidableEq, Repr

/-- A message under way. A response travels with the type of its request and
the handler that was registered for it. -/
inductive Packet where
  | req (m : ReqMsg) (handler : RpcHandler)
  | resp (m : RespMsg) (handler : RpcHandler) (reqType : MsgType)
  deriving DecidableEq, Repr

def Packet.dst : Packet → SrvId
  | .req m _ => m.dst
  | .resp m _ _ => m.dst

structure SrvState where
  term : Nat
  votedFor : SrvId
  deriving DecidableEq, Repr

structure PrevoteState where
  votedServers : List SrvId
  acceptedVotes : Nat
  deriving DecidableEq, Repr

structure Peer where
  config : SrvConfig
  nextLogIdx : Nat
  matchedIdx : Nat
  busy : Bool
  pendingCommit : Bool
  hbEnabled : Bool
  currentHbInterval : Int
  snpSyncCtx : Option (Snapshot × Nat)
  deriving DecidableEq, Repr

def Peer.id (p : Peer) : SrvId := p.config.id

/-- The fields of `raft_params` that the server reads. -/
structure RaftParams where
  electionTimeoutUpperBound : Int := 300
  electionTimeoutLowerBound : Int := 150
  heartBeatInterval : Int := 75
  rpcFailureBackoff : Int := 25
  logSyncBatchSize : Int := 1000
  logSyncStopGap : Int := 10
  snapshotDistance : Nat := 0
  snapshotBlockSize : Nat := 0
  maxAppendSize : Nat := 100
  reservedLogItems : Nat := 10000
  prevoteEnabled : Bool := false
  defensivePrevote : Bool := true
  deriving DecidableEq, Repr

def RaftParams.maxHbInterval (p : RaftParams) : Int :=
  max p.heartBeatInterval (p.electionTimeoutLowerBound - p.heartBeatInterval.tdiv 2)

def Peer.new (params : RaftParams) (srv : SrvConfig) : Peer :=
  { config := srv, nextLogIdx := 0, matchedIdx := 0, busy := false, pendingCommit := false,
    hbEnabled := false, currentHbInterval := params.heartBeatInterval, snpSyncCtx := none }

/-- A new leader aims a peer at its own next slot; `matched_idx` stays. -/
def Peer.resetForLeader (nextSlot : Nat) (p : Peer) : Peer :=
  { p with nextLogIdx := nextSlot, snpSyncCtx := none, busy := false }

inductive Task where
  | election
  | heartbeat (peer : SrvId)
  | retry (req : ReqMsg)
  deriving DecidableEq, Repr

/-- Why the process ended (`system_exit` and `::exit`, or an exception that
leaves a handler). -/
inductive ExitReason where
  | anotherLeader | leaderElectionTimeout | badLogIdx | storeError | peerIndexTooLarge
  | noSnapshot | invalidSnapshot | shortSnapshotRead | noSnapshotCtx | badRole
  | applySnapshotFailed | unexpectedMessage | removedFromCluster | noConfig
  deriving DecidableEq, Repr

/-- What a server does that its surroundings can see: calls on the rpc client,
the state manager, the log store, the state machine, the scheduler and the
event listener. `append` records the role and the term under which the entry
went in; `reach` marks the index that `commit_in_bg` has come to. -/
inductive Output where
  | send (p : Packet)
  | saveState (st : SrvState)
  | saveConfig (c : ClusterConfig)
  | append (role : SrvRole) (term idx : Nat) (e : LogEntry)
  | writeAt (idx : Nat) (e : LogEntry)
  | applyPack (idx : Nat) (es : List LogEntry)
  | compact (idx : Nat)
  | preCommit (idx : Nat) (e : LogEntry)
  | reach (idx : Nat) (e : LogEntry)
  | commit (idx : Nat) (e : LogEntry)
  | rollback (idx : Nat) (e : LogEntry)
  | saveSnapshotData (s : Snapshot) (offset : Nat) (data : List UInt8)
  | applySnapshot (s : Snapshot)
  | createSnapshot (s : Snapshot)
  | becomeLeader (term : Nat)
  | becomeFollower
  | schedule (t : Task)
  | cancel (t : Task)
  | systemExit (code : Int)
  | exit (r : ExitReason)
  deriving DecidableEq, Repr

end Ns3Raft.Raft
