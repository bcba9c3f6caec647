import Ns3Raft.Raft.Paths.Sending

/-! # Role changes, elections and timeouts follow the protocol steps -/

namespace Ns3Raft.Raft

namespace RaftServer

variable {inp : Input} {n₀ : Core} {s : RaftServer}

/-! ## Becoming leader -/

@[simp] theorem saveState_core (s : RaftServer) (st : SrvState) :
    (s.saveState st).core = { s.core with state := st } := emit_core _ _

theorem appendLog_core (s : RaftServer) (e : LogEntry) :
    (s.appendLog e).core = { s.core with log := s.logStore.append e } := emit_core _ _

theorem appendLog_traces {e : LogEntry} {c : ClusterConfig} (hl : MayLead inp n₀ s.core)
    (hterm : e.term = s.state.term) (hfrom : EntryFrom inp s.core e)
    (hc : c.servers = s.config.servers) :
    Traces inp n₀ s ({ s with config := c }.appendLog e) :=
  .loud (.create hl hterm hfrom hc) rfl rfl

@[simp] theorem enableHb_core (s : RaftServer) (id : SrvId) : (s.enableHb id).core = s.core := by
  unfold enableHb
  rw [emit_core]
  refine updatePeer_core s id ?_
  exact fun p => ⟨rfl, rfl⟩

theorem enableHb_traces (id : SrvId) : Traces inp n₀ s (s.enableHb id) := by
  unfold enableHb
  refine Traces.trans (.updatePeer id ?_) (.scheduleHb id)
  exact fun p => ⟨rfl, rfl⟩

theorem logInitialConfig_core (s : RaftServer) :
    s.logInitialConfig.core.role = s.role ∧ s.logInitialConfig.core.state = s.state := by
  unfold logInitialConfig
  split
  · dsimp only
    rw [appendLog_core]
    exact ⟨rfl, rfl⟩
  · exact ⟨rfl, rfl⟩

theorem logInitialConfig_traces (hr : s.role = .leader) :
    Traces inp n₀ s s.logInitialConfig := by
  unfold logInitialConfig
  split
  · have hsoft : Traces inp n₀ s { s with configChanging := true } := .soft rfl rfl rfl
    refine hsoft.trans (appendLog_traces (.inl hr) rfl (.inl ⟨_, rfl, .inl ?_⟩) ?_) <;> rfl
  · exact .refl s

/-- The reset of the peers on winning, with the role already set. -/
theorem becomeLeader_traces (hr : s.role = .leader) : Traces inp n₀ s s.becomeLeader := by
  unfold becomeLeader
  refine stopElectionTimer_traces.trans ?_
  have hstop := stopElectionTimer_core s
  have hrole : s.stopElectionTimer.role = .leader := (congrArg Core.role hstop).trans hr
  generalize s.stopElectionTimer = s₁ at hrole
  dsimp only
  have hcore : { s₁ with
      role := .leader, leader := s₁.id, srvToJoin := none,
      peers := s₁.peers.map (Peer.resetForLeader s₁.logStore.nextSlot) }.core = s₁.core := by
    simp [core, hrole, Function.comp_def, Peer.resetForLeader, Peer.id]
  refine Traces.trans (.soft hcore rfl rfl) ?_
  generalize { s₁ with
      role := .leader, leader := s₁.id, srvToJoin := none,
      peers := s₁.peers.map (Peer.resetForLeader s₁.logStore.nextSlot) } = s₂ at hcore
  have henable : Traces inp n₀ s₂ (s₂.peerIds.foldl enableHb s₂) :=
    .foldl enableHb_core (fun _ id _ => enableHb_traces id) _ rfl
  refine henable.trans ?_
  have hfold := foldl_core enableHb_core s₂.peerIds s₂
  generalize s₂.peerIds.foldl enableHb s₂ = s₃ at hfold
  have hrole₃ : s₃.role = .leader :=
    (congrArg Core.role hfold).trans ((congrArg Core.role hcore).trans hrole)
  refine (logInitialConfig_traces hrole₃).trans ?_
  have hrole₄ : s₃.logInitialConfig.role = .leader := (logInitialConfig_core s₃).1.trans hrole₃
  refine Traces.trans (.loud (.announce hrole₄) rfl rfl) ?_
  exact requestAppendEntries_traces (.inl (by simpa using hrole₄))

/-- `becomeLeader` does not look at the role it is called in. -/
theorem becomeLeader_role (s : RaftServer) (r : SrvRole) :
    { s with role := r }.becomeLeader = s.becomeLeader := by
  have hstop : { s with role := r }.stopElectionTimer = { s.stopElectionTimer with role := r } := by
    unfold stopElectionTimer emit
    split
    · split <;> rfl
    · rfl
  unfold becomeLeader
  rw [hstop]

theorem becomeLeader_traces_of_win (hc : s.electionCompleted = false)
    (hv : (s.peers.length + 1) / 2 < s.votesGranted) :
    Traces inp n₀ s { s with electionCompleted := true }.becomeLeader := by
  have hwin : Traces inp n₀ s { s with electionCompleted := true, role := .leader } := by
    refine .silent (.win hc ?_) rfl rfl
    simpa [core] using hv
  have hrole := becomeLeader_role { s with electionCompleted := true } .leader
  exact hrole ▸ hwin.trans (becomeLeader_traces rfl)

/-! ## Stepping down -/

@[simp] theorem disableHb_core (s : RaftServer) (id : SrvId) : (s.disableHb id).core = s.core := by
  unfold disableHb
  rw [emit_core]
  refine updatePeer_core s id ?_
  exact fun p => ⟨rfl, rfl⟩

theorem disableHb_traces (id : SrvId) : Traces inp n₀ s (s.disableHb id) := by
  unfold disableHb
  refine Traces.trans (.updatePeer id ?_) (.cancel _)
  exact fun p => ⟨rfl, rfl⟩

theorem disableHb_foldl_role (l : List SrvId) (s : RaftServer) (r : SrvRole) :
    l.foldl disableHb { s with role := r } = { l.foldl disableHb s with role := r } := by
  induction l generalizing s with
  | nil => rfl
  | cons id l ih =>
      have hone : { s with role := r }.disableHb id = { s.disableHb id with role := r } := by
        unfold disableHb updatePeer emit
        split <;> rfl
      simp only [List.foldl_cons, hone, ih]

/-- `becomeFollower` does not look at the role it is called in. -/
theorem becomeFollower_role (s : RaftServer) (r : SrvRole) :
    { s with role := r }.becomeFollower = s.becomeFollower := by
  have hfold := disableHb_foldl_role s.peerIds { s with prevoteState := none } r
  have h := congrArg (fun x : RaftServer =>
    ({ x with srvToJoin := none, role := .follower } : RaftServer).restartElectionTimer.emit
      .becomeFollower) hfold
  exact h

theorem becomeFollower_core (s : RaftServer) :
    s.becomeFollower.core = { s.core with role := .follower } := by
  rw [← becomeFollower_role s .follower]
  unfold becomeFollower
  simp only [emit_core, restartElectionTimer_core]
  have hfold := foldl_core disableHb_core
    { s with role := .follower, prevoteState := none }.peerIds
    { s with role := .follower, prevoteState := none }
  generalize List.foldl disableHb _ _ = s₁ at hfold
  calc ({ s₁ with srvToJoin := none, role := .follower } : RaftServer).core
      = { s₁.core with role := .follower } := rfl
    _ = { s.core with role := .follower } := by rw [hfold]; rfl

theorem becomeFollower_traces (hr : s.role = .follower) :
    Traces inp n₀ s s.becomeFollower := by
  unfold becomeFollower
  have hsoft : Traces inp n₀ s { s with prevoteState := none } := .soft rfl rfl rfl
  refine hsoft.trans ?_
  dsimp only
  have hdisable : Traces inp n₀ { s with prevoteState := none }
      ({ s with prevoteState := none }.peerIds.foldl disableHb { s with prevoteState := none }) :=
    .foldl disableHb_core (fun _ id _ => disableHb_traces id) _ rfl
  refine hdisable.trans ?_
  have hfold := foldl_core disableHb_core { s with prevoteState := none }.peerIds
    { s with prevoteState := none }
  generalize List.foldl disableHb _ _ = s₁ at hfold
  have hrole : s₁.role = .follower := (congrArg Core.role hfold).trans hr
  have hcore : ({ s₁ with srvToJoin := none, role := .follower } : RaftServer).core = s₁.core := by
    simp [core, hrole]
  refine Traces.trans (.soft hcore rfl rfl) ?_
  exact restartElectionTimer_traces.trans (.emit (o := .becomeFollower) trivial)

/-- A candidate hears from the leader of its own term. -/
theorem becomeFollower_traces_of_candidate {m : ReqMsg} {h : RpcHandler} {env : Env}
    (hinp : inp = .req m h env) (hr : s.role = .candidate)
    (htype : m.type = .appendEntriesRequest ∨ m.type = .installSnapshotRequest)
    (hterm : m.term = s.state.term) : Traces inp n₀ s s.becomeFollower := by
  have hdemote : Traces inp n₀ s { s with role := .follower } :=
    .silent (.demote hinp hr htype hterm) rfl rfl
  exact becomeFollower_role s .follower ▸ hdemote.trans (becomeFollower_traces rfl)

theorem updateTerm_core (s : RaftServer) (t : Nat) :
    (s.updateTerm t).1.core = s.core ∧ t ≤ s.state.term ∧ (s.updateTerm t).2 = false ∨
      s.state.term < t ∧ (s.updateTerm t).2 = true ∧
        (s.updateTerm t).1.core =
          { s.core with
            state := ⟨t, noServer⟩, role := .follower, votesGranted := 0, votedServers := [],
            electionCompleted := false } := by
  unfold updateTerm
  split
  · rename_i h
    refine .inr ⟨h, rfl, ?_⟩
    simp only [becomeFollower_core, saveState_core]
    rfl
  · rename_i h
    exact .inl ⟨rfl, by omega, rfl⟩

/-- The role change of `update_term` moved to the front. -/
theorem updateTerm_eq {t : Nat} (h : s.state.term < t) :
    (s.updateTerm t).1 = ({ s with
      electionCompleted := false, votesGranted := 0, votedServers := [],
      state := ⟨t, noServer⟩, role := .follower }.emit (.saveState ⟨t, noServer⟩)).becomeFollower := by
  unfold updateTerm
  rw [if_pos h]
  dsimp only
  rw [← becomeFollower_role _ .follower]
  congr 1
  unfold saveState emit
  split <;> rfl

theorem updateTerm_traces {t : Nat} (hn : s.core = n₀) (ht : inp.CarriesTerm t) :
    Traces inp n₀ s (s.updateTerm t).1 := by
  by_cases h : s.state.term < t
  · rw [updateTerm_eq h]
    have hnew : Traces inp n₀ s ({ s with
        electionCompleted := false, votesGranted := 0, votedServers := [],
        state := ⟨t, noServer⟩, role := .follower }.emit (.saveState ⟨t, noServer⟩)) :=
      .loud (.newTerm hn h ht) rfl rfl
    exact hnew.trans (becomeFollower_traces (congrArg Core.role (emit_core _ _)))
  · unfold updateTerm
    rw [if_neg h]
    exact .refl s

/-! ## Standing for election -/

theorem sendVoteRequests_traces (hr : s.role = .candidate)
    (hst : s.state = ⟨s.state.term, s.id⟩) (hlog : s.logStore = n₀.log) :
    Traces inp n₀ s s.sendVoteRequests := by
  unfold sendVoteRequests
  split
  · exact .exit (exitOk_of_ne (by decide))
  · rename_i t ht
    have hone : ∀ l : List SrvId, (∀ id ∈ l, id ∈ s.peerIds) → ∀ s' : RaftServer,
        s'.core = s.core → Traces inp n₀ s' (l.foldl (fun s' id => s'.send (.req
          { term := s.state.term, type := .voteRequest, src := s.id, dst := id,
            lastLogTerm := t, lastLogIdx := s.logStore.lastIndex,
            commitIdx := s.quickCommitIdx, payload := .entries [] } .resp)) s') := by
      intro l
      induction l with
      | nil => exact fun _ s' _ => .refl s'
      | cons id l ih =>
          intro hl s' hs'
          refine Traces.trans (.loud (.sendVoteReq ?_ ?_ rfl ?_ ?_ ?_ ?_ ?_) rfl rfl)
            (ih (fun i hi => hl i (List.mem_cons_of_mem _ hi)) _ ((send_core _ _).trans hs'))
          all_goals rw [hs']
          · exact hr
          · exact hst
          · rfl
          · simpa using hl id List.mem_cons_self
          · rfl
          · exact ht
          · exact hlog
    exact hone _ (fun _ h => h) s rfl

/-- A candidate that has voted for itself. -/
def votedSelf (s : RaftServer) : RaftServer :=
  { s with
    state := { s.state with votedFor := s.id }, votesGranted := s.votesGranted + 1,
    votedServers := s.votedServers ++ [s.id] }.emit (.saveState { s.state with votedFor := s.id })

theorem requestVote_eq (s : RaftServer) :
    s.requestVote =
      if (s.votedSelf.peers.length + 1) / 2 < s.votedSelf.votesGranted then
        { s.votedSelf with electionCompleted := true }.becomeLeader
      else s.votedSelf.sendVoteRequests := by
  unfold requestVote votedSelf saveState emit
  by_cases h : s.exited <;> simp [h]

theorem votedSelf_core (s : RaftServer) :
    s.votedSelf.core = { s.core with
      state := { s.state with votedFor := s.id }, votesGranted := s.votesGranted + 1,
      votedServers := s.votedServers ++ [s.id] } := emit_core _ _

theorem votedSelf_traces (hn : s.core = { n₀ with
      state := ⟨n₀.state.term + 1, noServer⟩, role := .candidate, votesGranted := 0,
      votedServers := [], electionCompleted := false }) :
    Traces inp n₀ s s.votedSelf := by
  have hg : s.votesGranted = 0 := congrArg Core.votesGranted hn
  have hv : s.votedServers = [] := congrArg Core.votedServers hn
  refine .loud ?_ rfl rfl
  have h : NodeStep inp n₀ s.core _ _ := .selfVote hn
  simpa [core, hg, hv] using h

theorem requestVote_traces (hn : s.core = { n₀ with
      state := ⟨n₀.state.term + 1, noServer⟩, role := .candidate, votesGranted := 0,
      votedServers := [], electionCompleted := false }) :
    Traces inp n₀ s s.requestVote := by
  rw [requestVote_eq]
  refine (votedSelf_traces hn).trans ?_
  have hcore := votedSelf_core s
  rw [hn] at hcore
  generalize s.votedSelf = s₁ at hcore
  split
  · rename_i hmaj
    exact becomeLeader_traces_of_win (congrArg Core.electionCompleted hcore) hmaj
  · have hstate : s₁.state = { s.state with votedFor := s.id } := congrArg Core.state hcore
    have hid : s₁.id = s.id := (congrArg Core.id hcore).trans (congrArg Core.id hn).symm
    refine sendVoteRequests_traces (congrArg Core.role hcore) ?_ (congrArg Core.log hcore)
    rw [hstate, hid]

theorem becomeCandidate_traces (hn : s.core = n₀) : Traces inp n₀ s s.becomeCandidate := by
  unfold becomeCandidate
  have hstand : Traces inp n₀ s ({ s with
      prevoteState := none, role := .candidate, votesGranted := 0, votedServers := [],
      electionCompleted := false }.saveState ⟨s.state.term + 1, noServer⟩) :=
    .loud (.stand hn) rfl rfl
  refine hstand.trans ?_
  refine Traces.trans (requestVote_traces ?_) ?_
  · rw [saveState_core, ← hn]
    rfl
  · dsimp only
    split
    · exact .refl _
    · exact restartElectionTimer_traces

/-! ## Prevotes -/

theorem sendPrevoteRequests_traces : Traces inp n₀ s s.sendPrevoteRequests := by
  unfold sendPrevoteRequests
  split
  · exact .exit (exitOk_of_ne (by decide))
  · refine .foldl (fun s' id => send_core s' _) (fun s' id _ => ?_) _ rfl
    exact .emit (o := .send _) (.inl ⟨rfl, rfl⟩)

theorem setPrevoteState_traces (pv : Option PrevoteState) :
    Traces inp n₀ s { s with prevoteState := pv } := .soft rfl rfl rfl

theorem requestPrevote_traces (hn : s.core = n₀) : Traces inp n₀ s s.requestPrevote := by
  unfold requestPrevote
  split
  · exact becomeCandidate_traces hn
  · exact (setPrevoteState_traces _).trans sendPrevoteRequests_traces

/-! ## Timeouts -/

theorem leaveCluster_traces : Traces inp n₀ s s.leaveCluster := by
  have hok : ExitOk inp s.core .removedFromCluster := exitOk_of_ne (by decide)
  unfold leaveCluster
  dsimp only
  split
  · cases hs : s.exited with
    | true => exact .frozen hs (by simp [emit, exit]) (by simp [emit, exit])
    | false =>
        have hp : Path inp n₀ s.core [.saveConfig { s.config with
            servers := s.config.servers.eraseP (·.id = s.id) }] s.core :=
          .single (.quiet (o := .saveConfig _) trivial)
        exact .died hs (by simp [emit, exit]) hp hok (by simp [emit, exit])
  · exact .exit hok

theorem handleElectionTimeout_traces (hn : s.core = n₀) :
    Traces inp n₀ s s.handleElectionTimeout := by
  unfold handleElectionTimeout
  split
  · have hsoft : Traces inp n₀ s { s with stepsToDown := s.stepsToDown - 1 } := .soft rfl rfl rfl
    refine hsoft.trans ?_
    dsimp only
    split
    · exact leaveCluster_traces
    · exact restartElectionTimer_traces
  split
  · exact restartElectionTimer_traces
  split
  · exact .exit (exitOk_of_ne (by decide))
  split
  · split
    · split
      · exact .refl s
      · exact requestPrevote_traces hn
    · exact requestPrevote_traces hn
  · exact becomeCandidate_traces hn

theorem handleHbTimeout_traces (id : SrvId) : Traces inp n₀ s (s.handleHbTimeout id) := by
  unfold handleHbTimeout
  split
  · exact .refl s
  split
  · rename_i p _ hr
    refine (requestAppendEntriesTo_traces id (.inl hr)).trans ?_
    dsimp only
    split
    · exact .scheduleHb id
    · exact .refl _
  · exact .refl s

end RaftServer

end Ns3Raft.Raft
