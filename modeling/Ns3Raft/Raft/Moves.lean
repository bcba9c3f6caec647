import Ns3Raft.Raft.Frame
import Ns3Raft.Raft.Node

/-! # The handlers by what they do to the kept fields

`Move` says what a handler can do to the fields that sending leaves alone, one
stretch at a time. A stretch is as long as it takes to leave the timer, the
configuration flag and the leader pointer as the source means them to be.
`s₀` is the server at the beginning of the handler.
-/

namespace Ns3Raft.Raft

namespace RaftServer

/-- A candidate of the next term that has voted for itself. -/
def standing (s : RaftServer) : RaftServer :=
  let s := { s with
    prevoteState := none, role := .candidate, votesGranted := 0, votedServers := [],
    electionCompleted := false }
  let s := s.saveState ⟨s.state.term + 1, noServer⟩
  s.saveState { s.state with votedFor := s.id }

/-- The commit loop has come to the entry `e`. -/
def reached (s : RaftServer) (e : LogEntry) : RaftServer :=
  let idx := s.smCommitIndex + 1
  let s := { s with smCommitIndex := idx }.emit (.reach idx e)
  match e.val with
  | .appLog _ => s.emit (.commit idx e)
  | .conf c =>
      { s with configChanging := false, catchingUp := s.catchingUp && decide (s.id ∉ c.ids) }
  | _ => s

/-- What comes out when the loop reaches an entry. -/
def reachOutputs (idx : Nat) (e : LogEntry) : List Output :=
  .reach idx e :: if e.isAppLog then [.commit idx e] else []

theorem reached_out (s : RaftServer) (e : LogEntry) :
    (s.reached e).out =
        s.out ++ (if s.exited then [] else reachOutputs (s.smCommitIndex + 1) e) ∧
      (s.reached e).exited = s.exited ∧ (s.reached e).smCommitIndex = s.smCommitIndex + 1 := by
  unfold reached reachOutputs LogEntry.isAppLog
  cases hx : s.exited with
  | true => cases e.val <;> simp [emit]
  | false => cases e.val <;> simp [emit]

/-- A configuration clears the flag, and ends the catch-up of a server that is in it. -/
theorem reached_kept (s : RaftServer) (e : LogEntry) :
    (s.reached e).kept = { s.kept with
      smCommitIndex := s.smCommitIndex + 1
      configChanging := s.configChanging && !e.isConf
      catchingUp := s.catchingUp && !(e.conf?.any fun c => decide (s.id ∈ c.ids)) } := by
  unfold reached LogEntry.isConf LogEntry.conf?
  have hemit : ∀ t o, (emit t o).kept = t.kept := emit_kept
  cases e.val with
  | appLog _ => simp [hemit]; rfl
  | conf c =>
      refine (congrArg (fun k : Kept => { k with
        configChanging := false, catchingUp := k.catchingUp && decide (k.id ∉ c.ids) })
        (hemit { s with smCommitIndex := s.smCommitIndex + 1 } _)).trans ?_
      by_cases hc : s.id ∈ c.ids <;> simp [kept, hc]
  | clusterServer _ => simp [hemit]; rfl
  | serverId _ => simp [hemit]; rfl

/-- The state machine has taken a snapshot over, the log ending or going on behind it. -/
def overtaken (s : RaftServer) (snp : Snapshot) (l : LogStore) : RaftServer :=
  { (({ s with logStore := l }.emit (.compact snp.lastLogIdx)).stopElectionTimer).emit
      (.applySnapshot snp) with smCommitIndex := snp.lastLogIdx }

theorem overtaken_kept (s : RaftServer) (snp : Snapshot) (l : LogStore) :
    (s.overtaken snp l).kept =
      { s.kept with logStore := l, smCommitIndex := snp.lastLogIdx } :=
  congrArg (fun k : Kept => { k with smCommitIndex := snp.lastLogIdx })
    ((emit_kept _ _).trans ((stopElectionTimer_kept _).trans (emit_kept _ _)))

/-- The state machine has made the snapshot `snp` and keeps its bytes. -/
def completed (s : RaftServer) (snp : Snapshot) (bytes : List UInt8) : RaftServer :=
  { s with
    lastSnapshot := some { snp with size := bytes.length },
    smSnapshot := some { snp with size := bytes.length }, snpInProgress := none,
    smSnapshotData := (snp.lastLogIdx, bytes) :: s.smSnapshotData }

/-- An append request that `handle_append_entries` accepts. -/
def TakesEntries (s : RaftServer) (m : ReqMsg) : Prop :=
  m.type = .appendEntriesRequest ∧ s.state.term ≤ m.term ∧
    ¬ (m.term = s.state.term ∧ s.role = .leader) ∧ s.appendLogOkay m = some true ∧
    (m.logEntries ≠ [] → s.logStore.startIndex ≤ m.lastLogIdx + 1)

instance (s : RaftServer) (m : ReqMsg) : Decidable (s.TakesEntries m) :=
  inferInstanceAs (Decidable (_ ∧ _))

theorem TakesEntries.prev {s : RaftServer} {m : ReqMsg} (h : s.TakesEntries m) :
    m.lastLogIdx = 0 ∨ m.lastLogIdx < s.logStore.nextSlot := by
  have hok := h.2.2.2.1
  unfold appendLogOkay at hok
  split at hok
  · exact .inl ‹_›
  split at hok
  · exact .inr ‹_›
  · cases hok

/-- The retries of a join or sync request are used up. -/
def GivesUp (s : RaftServer) (m : ReqMsg) : Prop :=
  m.type ∈ [.syncLogRequest, .joinClusterRequest] ∧
    ((s.handleRpcResult m.dst .exResp m.type false).retryPeer m).any fun p =>
      decide ((s.handleRpcResult m.dst .exResp m.type false).params.maxHbInterval ≤
        p.currentHbInterval)

instance (s : RaftServer) (m : ReqMsg) : Decidable (s.GivesUp m) :=
  inferInstanceAs (Decidable (_ ∧ _))

def invited (s : RaftServer) (m : ReqMsg) : RaftServer :=
  { s with
    catchingUp := true, role := .follower, leader := m.src, smCommitIndex := 0,
    quickCommitIdx := 0 }.saveState ⟨m.term, noServer⟩

end RaftServer

namespace Input

/-- The server may win an election on it. -/
def Elects : Input → Prop
  | .electionTimeout => True
  | .resp m h _ => h = .resp ∧ m.type = .voteResponse ∨ h = .exResp ∧ m.type = .prevoteResponse
  | _ => False

/-- The server may log a new configuration on it. -/
def EndsExchange : Input → Prop
  | .resp m h _ => h = .exResp ∧
      (m.type ∈ [.syncLogResponse, .joinClusterResponse, .installSnapshotResponse] ∨
        m.type = .leaveClusterResponse ∧ m.accepted = true)
  | .rpcError m h => h = .exResp ∧ m.type = .leaveClusterRequest
  | _ => False

instance : DecidablePred Elects
  | .electionTimeout => inferInstanceAs (Decidable True)
  | .resp .. => inferInstanceAs (Decidable (_ ∧ _ ∨ _ ∧ _))
  | .hbTimeout _ | .commitInBg | .req .. | .rpcError .. | .retry _ | .snapshotCompleted _
  | .replicateLog .. => inferInstanceAs (Decidable False)

instance : DecidablePred EndsExchange
  | .resp .. => inferInstanceAs (Decidable (_ ∧ _))
  | .rpcError .. => inferInstanceAs (Decidable (_ ∧ _))
  | .electionTimeout | .hbTimeout _ | .commitInBg | .req .. | .retry _ | .snapshotCompleted _
  | .replicateLog .. => inferInstanceAs (Decidable False)

end Input

/-- The fields that the log and the configuration flag depend on. -/
structure Footing where
  logStore : LogStore
  smCommitIndex : Nat
  configChanging : Bool
  config : ClusterConfig
  smSnapshot : Option Snapshot

def Kept.footing (k : Kept) : Footing :=
  ⟨k.logStore, k.smCommitIndex, k.configChanging, k.config, k.smSnapshot⟩

/-- They are as at the beginning. -/
def Untouched (s₀ s : RaftServer) : Prop := s.kept.footing = s₀.kept.footing

theorem Untouched.refl (s : RaftServer) : Untouched s s := rfl

theorem Untouched.sends {s₀ s s' : RaftServer} (hu : Untouched s₀ s) (h : Sends s s') :
    Untouched s₀ s' := (congrArg Kept.footing h.kept).trans hu

inductive Move (inp : Input) (s₀ s : RaftServer) : RaftServer → Prop where
  | sends {s' : RaftServer} : Sends s s' → Move inp s₀ s s'
  | config {c : ClusterConfig} : Move inp s₀ s { s with config := c }
  | again {o : Output} : (∃ m, inp = .retry m ∧ o = .send (.req m .exResp)) ∨
      (∃ m, inp = .rpcError m .exResp ∧ o = .schedule (.retry m)) → Move inp s₀ s (s.emit o)
  | restart : Move inp s₀ s s.restartElectionTimer
  | grant {st : SrvState} : st.term = s.state.term → Move inp s₀ s (s.saveState st)
  | stepDown {t : Nat} : s.state.term < t → inp.CarriesTerm t → Move inp s₀ s (s.updateTerm t).1
  | demote : s.role = .candidate → Move inp s₀ s s.becomeFollower
  | stand {s' : RaftServer} : Sends s.standing s' → Move inp s₀ s s'.restartElectionTimer
  | lead {s₁ s₂ s' : RaftServer} : inp.Elects → s₁ = s ∨ s₁ = s.standing → Sends s₁ s₂ →
      Sends { s₂.stopElectionTimer with role := .leader, leader := s₂.stopElectionTimer.id } s' →
      Untouched s₀ s → Move inp s₀ s s'.logInitialConfig
  | write {m : ReqMsg} {h : RpcHandler} {env : Env} : inp = .req m h env → s₀.TakesEntries m →
      m.term = s.state.term → s.role = .follower → Untouched s₀ s →
      Move inp s₀ s { s.writeEntries (m.lastLogIdx + 1) m.logEntries with leader := m.src }
  | create {e : LogEntry} : s.role = .leader → e.term = s.state.term →
      s.configChanging = s₀.configChanging →
      (∃ data leaseOk, inp = .replicateLog data leaseOk ∧ e.val = .appLog data) ∨
        (∃ m h env, inp = .req m h env ∧ m.type = .clientRequest ∧
          s₀.isLeader env.leaseOk = true ∧ ∃ e' ∈ m.logEntries, e.val = e'.val) →
      Move inp s₀ s (s.appendLog e)
  | newConfig {servers : List SrvConfig} : inp.EndsExchange → Untouched s₀ s →
      Move inp s₀ s ({ s with configChanging := true }.appendLog
        ⟨s.state.term, .conf ⟨s.logStore.nextSlot, s.config.logIdx, servers⟩⟩)
  | giveUp {m : ReqMsg} : inp = .rpcError m .exResp → s₀.GivesUp m → Untouched s₀ s →
      Move inp s₀ s { s with configChanging := false }
  | pack {m : ReqMsg} {h : RpcHandler} {env : Env} {es : List LogEntry} {l : LogStore} :
      inp = .req m h env → m.type = .syncLogRequest → m.payload = .logPack es →
      s.catchingUp = true → s.logStore.applyPack (m.lastLogIdx + 1) es = some l → s = s₀ →
      Move inp s₀ s ({ s with logStore := l }.emit (.applyPack (m.lastLogIdx + 1) es))
  | join {m : ReqMsg} {h : RpcHandler} {env : Env} {t : Nat} {c : ClusterConfig} :
      inp = .req m h env → m.type = .joinClusterRequest → m.payload = .entries [⟨t, .conf c⟩] →
      s.catchingUp = false → s = s₀ → Move inp s₀ s (s.invited m)
  | reach {e : LogEntry} {s' : RaftServer} : inp = .commitInBg → s = s₀ →
      s.smCommitIndex < s.quickCommitIdx → s.smCommitIndex < s.logStore.lastIndex →
      s.logStore.entryAt (s.smCommitIndex + 1) = some e → Sends (s.reached e) s' →
      Move inp s₀ s s'
  | lost {r : ExitReason} : inp = .commitInBg →
      Move inp s₀ s ({ s with smCommitIndex := s.smCommitIndex + 1 }.exit r)
  | complete {bytes : List UInt8} {snp : Snapshot} : inp = .snapshotCompleted (some bytes) →
      s₀.snpInProgress = some snp → s = s₀ → Move inp s₀ s (s.completed snp bytes)
  | compact {bytes : List UInt8} {snp : Snapshot} {l : LogStore} :
      inp = .snapshotCompleted (some bytes) → s₀.snpInProgress = some snp →
      s = s₀.completed snp bytes →
      s.logStore.compact (snp.lastLogIdx - s₀.params.reservedLogItems) = some l →
      Move inp s₀ s ({ s with logStore := l }.emit
        (.compact (snp.lastLogIdx - s₀.params.reservedLogItems)))
  | receive {m : ReqMsg} {h : RpcHandler} {env : Env} {r : SnapshotSyncReq} : inp = .req m h env →
      m.type = .installSnapshotRequest → m.payload = .snpSyncReq r → Untouched s₀ s →
      Move inp s₀ s (s.saveSnapshotData r)
  | install {m : ReqMsg} {h : RpcHandler} {env : Env} {r : SnapshotSyncReq} {l : LogStore}
      {c c' : ClusterConfig} {s₁ s₂ : RaftServer} : inp = .req m h env →
      m.type = .installSnapshotRequest → m.payload = .snpSyncReq r → r.done = true →
      m.term ≤ s.state.term → s.smCommitIndex < r.snapshot.lastLogIdx → s.role = .follower →
      Untouched s₀ s → s.logStore.compact r.snapshot.lastLogIdx = some l →
      Sends { s.overtaken r.snapshot l with config := c, smSnapshot := some r.snapshot } s₁ →
      Sends { s₁.saveState s₁.state with
        lastSnapshot := some { r.snapshot with lastConfig := c' } } s₂ →
      Move inp s₀ s s₂.restartElectionTimer
  | halt {l : LogStore} {idx : Nat} {r : ExitReason} :
      Move inp s₀ s ((({ s with logStore := l }.emit (.compact idx)).stopElectionTimer).exit r)

abbrev Moves (inp : Input) (s₀ : RaftServer) : RaftServer → RaftServer → Prop :=
  Relation.ReflTransGen (Move inp s₀)

theorem Sends.moves {inp : Input} {s₀ s s' : RaftServer} (h : Sends s s') : Moves inp s₀ s s' :=
  .single (.sends h)

theorem Move.moves {inp : Input} {s₀ s s' : RaftServer} (h : Move inp s₀ s s') :
    Moves inp s₀ s s' := .single h

end Ns3Raft.Raft
