import Ns3Raft.Raft.Moves

/-! # Every handler is a chain of moves -/

namespace Ns3Raft.Raft

namespace RaftServer

variable {inp : Input} {s₀ s s' : RaftServer}

/-! ## Primitives -/

theorem standing_kept (s : RaftServer) :
    s.standing.kept = { s.kept with role := .candidate, state := ⟨s.state.term + 1, s.id⟩ } := by
  unfold standing
  dsimp only
  rw [saveState_kept, saveState_kept]
  have hstate : ({ s with
      prevoteState := none, role := .candidate, votesGranted := 0, votedServers := [],
      electionCompleted := false }.saveState ⟨s.state.term + 1, noServer⟩).state =
        ⟨s.state.term + 1, noServer⟩ := congrArg Kept.state (saveState_kept _ _)
  have hid : ({ s with
      prevoteState := none, role := .candidate, votesGranted := 0, votedServers := [],
      electionCompleted := false }.saveState ⟨s.state.term + 1, noServer⟩).id = s.id :=
    congrArg Kept.id (saveState_kept _ _)
  rw [hstate, hid]
  rfl

/-! ## Role changes -/

theorem becomeLeader_moves {s₁ s₂ : RaftServer} (hel : inp.Elects) (h₁ : s₁ = s ∨ s₁ = s.standing)
    (h₂ : Sends s₁ s₂) (hu : Untouched s₀ s) : Moves inp s₀ s s₂.becomeLeader := by
  unfold becomeLeader
  dsimp only
  obtain ⟨s₃, hs₃⟩ : ∃ s₃, { s₂.stopElectionTimer with
      role := .leader, leader := s₂.stopElectionTimer.id, srvToJoin := none,
      peers := s₂.stopElectionTimer.peers.map
        (Peer.resetForLeader s₂.stopElectionTimer.logStore.nextSlot) } = s₃ := ⟨_, rfl⟩
  have hset : Sends { s₂.stopElectionTimer with
      role := .leader, leader := s₂.stopElectionTimer.id } s₃ := by
    refine hs₃ ▸ .ofPeers rfl rfl rfl fun p hp snp hs => ?_
    simp only [Option.toList_none, List.append_nil] at hp
    obtain ⟨q, -, rfl⟩ := List.mem_map.mp hp
    cases hs
  rw [hs₃]
  refine .tail (Move.lead hel h₁ h₂ (hset.trans (.foldl enableHb_sends s₃.peerIds s₃)) hu).moves ?_
  exact .sends ((emit_sends _ rfl).trans (requestAppendEntries_sends _))

theorem becomeLeader_isLeader (s : RaftServer) : s.becomeLeader.role = .leader := by
  unfold becomeLeader
  dsimp only
  rw [(requestAppendEntries_sends _).role, (emit_sends _ rfl).role, logInitialConfig_role,
    (Sends.foldl enableHb_sends _ _).role]

theorem updateTerm_moves {t : Nat} (hc : inp.CarriesTerm t) :
    Moves inp s₀ s (s.updateTerm t).1 := by
  by_cases h : s.state.term < t
  · exact (Move.stepDown h hc).moves
  · have hsame : (s.updateTerm t).1 = s := by
      unfold updateTerm
      rw [if_neg h]
    rw [hsame]

theorem becomeCandidate_moves (hel : inp.Elects) (hu : Untouched s₀ s) : Moves inp s₀ s s.becomeCandidate := by
  have hthen : ∀ s₁ : RaftServer, Sends s.standing s₁ → Moves inp s₀ s
      (if (if (s₁.peers.length + 1) / 2 < s₁.votesGranted then
          { s₁ with electionCompleted := true }.becomeLeader
        else s₁.sendVoteRequests).role = .leader then
        if (s₁.peers.length + 1) / 2 < s₁.votesGranted then
          { s₁ with electionCompleted := true }.becomeLeader
        else s₁.sendVoteRequests
      else (if (s₁.peers.length + 1) / 2 < s₁.votesGranted then
          { s₁ with electionCompleted := true }.becomeLeader
        else s₁.sendVoteRequests).restartElectionTimer) := by
    intro s₁ h₁
    by_cases hwin : (s₁.peers.length + 1) / 2 < s₁.votesGranted
    · have hdone : Sends s₁ { s₁ with electionCompleted := true } := .soft rfl rfl rfl fun _ h => h
      rw [if_pos hwin, if_pos (becomeLeader_isLeader _)]
      exact becomeLeader_moves hel (.inr rfl) (h₁.trans hdone) hu
    · have hsends := h₁.trans (sendVoteRequests_sends s₁)
      have hrole : s₁.sendVoteRequests.role ≠ .leader := by
        rw [hsends.role, show s.standing.role = .candidate from congrArg Kept.role (standing_kept s)]
        decide
      rw [if_neg hwin, if_neg hrole]
      exact (Move.stand hsends).moves
  exact hthen { s.standing with
    votesGranted := s.standing.votesGranted + 1,
    votedServers := s.standing.votedServers ++ [s.standing.id] } (.soft rfl rfl rfl fun _ h => h)

theorem requestPrevote_sends (hpeers : s.peers ≠ []) : Sends s s.requestPrevote := by
  unfold requestPrevote
  rw [if_neg hpeers]
  dsimp only
  refine Sends.trans ?_ (sendPrevoteRequests_sends _)
  exact .soft rfl rfl rfl fun _ h => h

theorem requestPrevote_moves (hel : inp.Elects) (hu : Untouched s₀ s) : Moves inp s₀ s s.requestPrevote := by
  by_cases hpeers : s.peers = []
  · unfold requestPrevote
    rw [if_pos hpeers]
    exact becomeCandidate_moves hel hu
  · exact (requestPrevote_sends hpeers).moves

theorem leaveCluster_moves : Moves inp s₀ s s.leaveCluster := by
  unfold leaveCluster
  dsimp only
  split
  · exact .tail (Move.config).moves (.sends ((emit_sends _ rfl).trans (exit_sends _ _)))
  · exact (exit_sends s _).moves

theorem handleElectionTimeout_moves (hel : inp.Elects) (hu : Untouched s₀ s) :
    Moves inp s₀ s s.handleElectionTimeout := by
  unfold handleElectionTimeout
  split
  · have hsoft : Sends s { s with stepsToDown := s.stepsToDown - 1 } := .soft rfl rfl rfl fun _ h => h
    dsimp only
    split
    · exact hsoft.moves.trans leaveCluster_moves
    · exact hsoft.moves.tail .restart
  split
  · exact Move.restart.moves
  split
  · exact (exit_sends s _).moves
  split
  · split
    · split
      · exact .refl
      · exact requestPrevote_moves hel hu
    · exact requestPrevote_moves hel hu
  · exact becomeCandidate_moves hel hu

/-! ## Append requests and votes -/

/-- The beginning of the two handlers that a leader's requests reach. -/
theorem hear_kept (s : RaftServer) (c : Prop) [Decidable c] (hrole : c → s.role ≠ .leader) :
    ∃ b r, (if c then
        if s.role = .candidate then s.becomeFollower else s.restartElectionTimer
      else s).kept = { s.kept with role := r, electionTask := b } ∧ (c → r = .follower) := by
  split
  · rename_i hc
    split
    · obtain ⟨b, hb⟩ := becomeFollower_kept s
      exact ⟨b, .follower, hb, fun _ => rfl⟩
    · rename_i hcand
      obtain ⟨b, hb⟩ := restartElectionTimer_kept s
      have hf : s.role = .follower := by
        cases hr : s.role with
        | follower => rfl
        | candidate => exact absurd hr hcand
        | leader => exact absurd hr (hrole hc)
      exact ⟨b, s.role, hb, fun _ => hf⟩
  · rename_i hc
    exact ⟨s.electionTask, s.role, rfl, fun h => absurd h hc⟩

theorem hear_moves (inp : Input) (s₀ s : RaftServer) (c : Prop) [Decidable c] :
    Moves inp s₀ s (if c then
        if s.role = .candidate then s.becomeFollower else s.restartElectionTimer
      else s) := by
  split
  · split
    · rename_i hc
      exact (Move.demote hc).moves
    · exact Move.restart.moves
  · exact .refl

theorem appendLogOkay_of_kept (hlog : s.logStore = s₀.logStore)
    (hsnp : s.smSnapshot = s₀.smSnapshot) (m : ReqMsg) :
    s.appendLogOkay m = s₀.appendLogOkay m := by
  unfold appendLogOkay termForLog
  rw [hlog, hsnp]

theorem handleAppendEntries_moves {m : ReqMsg} {h : RpcHandler} {env : Env}
    (hinp : inp = .req m h env) (ht : m.type = .appendEntriesRequest) (hu : Untouched s₀ s)
    (hge : s₀.state.term ≤ s.state.term) (hle : m.term ≤ s.state.term)
    (hlead : m.term = s₀.state.term → s₀.role = .leader → s.role = .leader ∧ m.term = s.state.term) :
    Moves inp s₀ s (s.handleAppendEntries m).1 := by
  unfold handleAppendEntries
  split
  · exact (exit_sends s _).moves
  rename_i hno
  have hhear := hear_moves inp s₀ s (m.term = s.state.term)
  obtain ⟨b, r, hkept, hrole⟩ := hear_kept s (m.term = s.state.term) fun h1 h2 => hno ⟨h1, h2⟩
  dsimp only
  generalize (if m.term = s.state.term then
      if s.role = .candidate then s.becomeFollower else s.restartElectionTimer
    else s) = s₁ at hhear hkept
  have hstate : s₁.state = s.state := congrArg Kept.state hkept
  have hu₁ : Untouched s₀ s₁ := (congrArg Kept.footing hkept).trans hu
  cases hok : s₁.appendLogOkay m with
  | none => exact hhear.trans (exit_sends s₁ _).moves
  | some okay =>
      dsimp only
      split
      · exact hhear
      rename_i hacc
      rw [not_or, Bool.not_eq_false] at hacc
      split
      · exact hhear.trans (exit_sends s₁ _).moves
      rename_i hstart
      have hterm : m.term = s₁.state.term := by
        rw [hstate] at hacc ⊢
        exact Nat.le_antisymm hle (by omega)
      have hfollower : s₁.role = .follower :=
        (congrArg Kept.role hkept).trans (hrole (by rw [hterm, hstate]))
      have hlog : s₁.logStore = s₀.logStore := congrArg Footing.logStore hu₁
      have htakes : s₀.TakesEntries m := by
        refine ⟨ht, by rw [hterm, hstate]; exact hge, fun h => ?_, ?_, fun hne => ?_⟩
        · obtain ⟨h1, h2⟩ := hlead h.1 h.2
          exact hno ⟨h2, h1⟩
        · rw [← appendLogOkay_of_kept hlog (congrArg Footing.smSnapshot hu₁), hok, hacc.2]
        · by_contra hlt
          exact hstart ⟨hne, by rw [hlog]; omega⟩
      have hwrite : Move inp s₀ s₁ _ := .write hinp htakes hterm hfollower hu₁
      exact (hhear.tail hwrite).trans (commit_sends _ _).moves

theorem handleVoteReq_moves (m : ReqMsg) : Moves inp s₀ s (s.handleVoteReq m).1 := by
  unfold handleVoteReq
  dsimp only
  split
  · exact Move.moves (.grant rfl)
  · exact .refl

theorem handlePrevoteReq_fst (s : RaftServer) (m : ReqMsg) : (s.handlePrevoteReq m).1 = s := by
  unfold handlePrevoteReq
  dsimp only
  split <;> rfl

theorem closeElection_moves (hel : inp.Elects) (hu : Untouched s₀ s) : Moves inp s₀ s s.closeElection := by
  unfold closeElection
  dsimp only
  have hthen : ∀ s₁ : RaftServer, Sends s s₁ → Moves inp s₀ s
      (if (s₁.peers.length + 1) / 2 < s₁.votesGranted then
        { s₁ with electionCompleted := true }.becomeLeader else s₁) := by
    intro s₁ h₁
    split
    · have hsoft : Sends s₁ { s₁ with electionCompleted := true } := .soft rfl rfl rfl fun _ h => h
      exact becomeLeader_moves hel (.inl rfl) (h₁.trans hsoft) hu
    · exact h₁.moves
  apply hthen
  split
  · exact .soft rfl rfl rfl fun _ h => h
  · exact .refl s

theorem handleVotingResp_moves (m : RespMsg) (hel : inp.Elects) (hu : Untouched s₀ s) :
    Moves inp s₀ s (s.handleVotingResp m) := by
  unfold handleVotingResp
  split
  · exact .refl
  split
  · exact .refl
  split
  · exact .refl
  · have hsoft : Sends s (s.countVote m) := .soft rfl rfl rfl fun _ h => h
    exact hsoft.moves.trans (closeElection_moves hel hu)

theorem closePrevote_moves (pv : PrevoteState) (hel : inp.Elects) (hu : Untouched s₀ s) :
    Moves inp s₀ s (s.closePrevote pv) := by
  have hsoft : Sends s { s with prevoteState := some pv } := .soft rfl rfl rfl fun _ h => h
  unfold closePrevote
  dsimp only
  split
  · exact hsoft.moves.trans (becomeCandidate_moves hel hu)
  split
  · have hempty : Sends s { s with prevoteState := some ⟨[], 0⟩ } := .soft rfl rfl rfl fun _ h => h
    exact hempty.moves.tail .restart
  · exact hsoft.moves

theorem handlePrevoteResp_moves (m : RespMsg) (hel : inp.Elects) (hu : Untouched s₀ s) :
    Moves inp s₀ s (s.handlePrevoteResp m) := by
  unfold handlePrevoteResp
  split
  · exact .refl
  split
  · exact .refl
  split
  · exact .refl
  · exact closePrevote_moves _ hel hu

/-! ## Client requests -/

theorem appendClientEntry_kept (s : RaftServer) (e : LogEntry) :
    (s.appendClientEntry e).kept =
      { s.kept with logStore := s.logStore.append { e with term := s.state.term } } :=
  (emit_kept _ _).trans (appendLog_kept _ _)

theorem handleCliReq_moves {m : ReqMsg} {h : RpcHandler} {env : Env}
    (hinp : inp = .req m h env) (ht : m.type = .clientRequest) (hs : s = s₀) :
    Moves inp s₀ s (s.handleCliReq m env.leaseOk).1 := by
  unfold handleCliReq
  dsimp only
  split
  · rename_i hl
    have hrole : s.role = .leader := by
      simp only [isLeader, Bool.and_eq_true, decide_eq_true_eq] at hl
      exact hl.1
    have hfold : ∀ (es : List LogEntry) (s : RaftServer), (∀ e ∈ es, e ∈ m.logEntries) →
        s.role = .leader → s.configChanging = s₀.configChanging →
        Moves inp s₀ s (es.foldl appendClientEntry s) := by
      intro es
      induction es with
      | nil => exact fun _ _ _ _ => .refl
      | cons e es ih =>
          intro s hes hrole hflag
          have hcreate : Move inp s₀ s (s.appendLog { e with term := s.state.term }) :=
            .create hrole rfl hflag (.inr ⟨m, h, env, hinp, ht, hs ▸ hl, e, hes e (by simp), rfl⟩)
          have hone : Moves inp s₀ s (s.appendClientEntry e) :=
            hcreate.moves.tail (.sends (emit_sends _ rfl))
          have hkept := appendClientEntry_kept s e
          exact hone.trans (ih _ (fun e' he' => hes e' (List.mem_cons_of_mem _ he'))
            ((congrArg Kept.role hkept).trans hrole)
            ((congrArg Kept.configChanging hkept).trans hflag))
    exact (hfold _ s (fun _ he => he) hrole (hs ▸ rfl)).trans (requestAppendEntries_sends _).moves
  split
  · exact .refl
  · exact (forwardToLeader_sends s ht).moves

theorem replicateLog_moves {data : List UInt8} {leaseOk : Bool}
    (hinp : inp = .replicateLog data leaseOk) : Moves inp s s (s.replicateLog data leaseOk) := by
  unfold replicateLog
  split
  · rename_i hl
    have hrole : s.role = .leader := by
      simp only [isLeader, Bool.and_eq_true, decide_eq_true_eq] at hl
      exact hl.1
    exact .tail (Move.create hrole rfl rfl (.inl ⟨data, leaseOk, hinp, rfl⟩)).moves
      (.sends (requestAppendEntries_sends _))
  · exact .refl

/-! ## Membership changes -/

theorem appendNewConfig_moves (servers : List SrvConfig) (hend : inp.EndsExchange)
    (hu : Untouched s₀ s) : Moves inp s₀ s (s.appendNewConfig servers) :=
  .tail (Move.newConfig hend hu).moves (.sends (requestAppendEntries_sends _))

theorem syncLogToNewSrv_moves (idx : Nat) (hend : inp.EndsExchange) (hu : Untouched s₀ s) :
    Moves inp s₀ s (s.syncLogToNewSrv idx) := by
  unfold syncLogToNewSrv
  split
  · exact .refl
  rename_i j hj
  dsimp only
  split
  · exact appendNewConfig_moves _ hend hu
  split
  · split
    · exact (exit_sends s _).moves
    · rename_i req j' hreq
      obtain ⟨⟨ht, hterm, hpay⟩, hj'⟩ :=
        createSyncSnapshotReq_knows (fun _ hs => knows_of_srvToJoin hj hs) hreq
      have hvouch : s.Vouches (.send (.req req .exResp)) := by
        refine ⟨hterm, by rw [ht]; rfl, fun h => ?_, fun h => ?_, fun _ => hpay⟩
        · exact nomatch ht.symm.trans h
        · exact nomatch ht.symm.trans h
      have hset := srvToJoin_sends s j' hj'
      exact Sends.moves ⟨hset.toOutputs.trans (.emit _ (.inr hvouch)),
        (emit_kept _ _).trans hset.kept,
        fun snp hs => hset.known snp ((emit_knows _ _ snp).mp hs)⟩
  · split
    · exact (exit_sends s _).moves
    · rename_i es hes
      refine Sends.moves (emit_sends_of s (.inr ⟨rfl, rfl, nofun, fun _ => ?_, nofun⟩))
      unfold LogStore.pack at hes
      split at hes
      · cases hes
      · cases hes
        exact ⟨_, _, rfl⟩

/-- After `reconfigure` only the configuration may have changed. -/
theorem reconfigure_sends (s : RaftServer) (c : ClusterConfig) :
    Sends { s with config := if s.id ∉ c.ids ∧ ¬ s.catchingUp then s.config else c }
      (s.reconfigure c) := by
  have hpeers := changePeers_sends s c
  unfold reconfigure
  dsimp only
  by_cases hc : s.id ∉ c.ids ∧ ¬ s.catchingUp
  · have hc' : (s.changePeers c).id ∉ c.ids ∧ ¬ (s.changePeers c).catchingUp := by
      rw [hpeers.id, hpeers.catchingUp]
      exact hc
    rw [if_pos hc, if_pos hc']
    exact hpeers.trans ((emit_sends _ rfl).trans (emit_sends _ rfl))
  · have hc' : ¬ ((s.changePeers c).id ∉ c.ids ∧ ¬ (s.changePeers c).catchingUp) := by
      rw [hpeers.id, hpeers.catchingUp]
      exact hc
    rw [if_neg hc, if_neg hc']
    exact ⟨⟨hpeers.out, hpeers.exited⟩,
      congrArg (fun k : Kept => { k with config := c }) hpeers.kept, hpeers.known⟩

theorem reconfigure_moves (c : ClusterConfig) : Moves inp s₀ s (s.reconfigure c) :=
  .tail Move.config.moves (.sends (reconfigure_sends s c))

theorem handleJoinClusterReq_moves {m : ReqMsg} {h : RpcHandler} {env : Env}
    (hinp : inp = .req m h env) (ht : m.type = .joinClusterRequest) (hs : s = s₀) :
    Moves inp s₀ s (s.handleJoinClusterReq m).1 := by
  unfold handleJoinClusterReq
  dsimp only
  split
  · rename_i t c hpay
    split
    · exact .refl
    · rename_i hcu
      have hjoin : Move inp s₀ s (s.invited m) := .join hinp ht hpay (by simpa using hcu) hs
      exact hjoin.moves.trans (reconfigure_moves c)
  · exact .refl

theorem handleLogSyncReq_moves {m : ReqMsg} {h : RpcHandler} {env : Env}
    (hinp : inp = .req m h env) (ht : m.type = .syncLogRequest) (hs : s = s₀) :
    Moves inp s₀ s (s.handleLogSyncReq m).1 := by
  unfold handleLogSyncReq
  dsimp only
  split
  · rename_i es hpay
    split
    · exact .refl
    rename_i hcu
    split
    · exact (exit_sends s _).moves
    · rename_i l hl
      have hpack : Move inp s₀ s _ := .pack hinp ht hpay (by simpa using hcu) hl hs
      exact hpack.moves.trans (commit_sends _ _).moves
  · exact .refl

theorem handleLeaveClusterReq_moves (m : ReqMsg) :
    Moves inp s₀ s (s.handleLeaveClusterReq m).1 := by
  unfold handleLeaveClusterReq
  dsimp only
  split
  · exact .refl
  · have hsoft : Sends s { s with stepsToDown := 2 } := .soft rfl rfl rfl fun _ h => h
    exact hsoft.moves

theorem rmSrvFromCluster_moves (id : SrvId) (hend : inp.EndsExchange) (hu : Untouched s₀ s) :
    Moves inp s₀ s (s.rmSrvFromCluster id) := appendNewConfig_moves _ hend hu

theorem handleSnapshotSyncResp_moves (m : RespMsg) {j : Peer} (hj : s.srvToJoin = some j)
    (hend : inp.EndsExchange) (hu : Untouched s₀ s) :
    Moves inp s₀ s (s.handleSnapshotSyncResp m j) := by
  have hthen : ∀ j' : Peer, (∀ snp, j'.snpSyncCtx.map (·.1) = some snp → s.Knows snp) →
      Moves inp s₀ s ({ s with srvToJoin := some j' }.syncLogToNewSrv j'.nextLogIdx) := by
    intro j' hj'
    have hset := srvToJoin_sends s j' hj'
    exact hset.moves.trans (syncLogToNewSrv_moves _ hend (hu.sends hset))
  unfold handleSnapshotSyncResp
  split
  · exact (exit_sends s _).moves
  · rename_i snp off hctx
    refine hthen _ fun snp' hs => ?_
    split at hs
    · cases hs
    · refine knows_of_srvToJoin hj ?_
      rw [hctx]
      exact hs

theorem handleExtResp_moves {m : RespMsg} {reqType : MsgType}
    (hinp : inp = .resp m .exResp reqType) (hu : Untouched s₀ s) :
    Moves inp s₀ s (s.handleExtResp m) := by
  have hend : m.type ∈ [.syncLogResponse, .joinClusterResponse, .installSnapshotResponse] →
      inp.EndsExchange := fun ht => hinp ▸ ⟨rfl, .inl ht⟩
  unfold handleExtResp
  split
  · rename_i ht
    split
    · exact .refl
    · rename_i j hj
      have hset := srvToJoin_sends s { j.resumeHbSpeed s.params with
        nextLogIdx := m.nextIdx, matchedIdx := ulongPred m.nextIdx }
        fun snp hs => knows_of_srvToJoin hj hs
      exact hset.moves.trans (syncLogToNewSrv_moves _ (hend (by simp [ht])) (hu.sends hset))
  · rename_i ht
    split
    · exact syncLogToNewSrv_moves _ (hend (by simp [ht])) hu
    · exact .refl
  · rename_i ht
    split
    · rename_i hacc
      exact rmSrvFromCluster_moves _ (hinp ▸ ⟨rfl, .inr ⟨ht, hacc⟩⟩) hu
    · exact .refl
  · rename_i ht
    split
    · exact .refl
    rename_i hj
    split
    · exact handleSnapshotSyncResp_moves _ hj (hend (by simp [ht])) hu
    · exact .refl
  · rename_i ht
    exact handlePrevoteResp_moves m (hinp ▸ .inr ⟨rfl, ht⟩) hu
  · exact (exit_sends s _).moves

theorem handleExtRespErr_moves {m : ReqMsg} (hinp : inp = .rpcError m .exResp)
    (hs : s = s₀.handleRpcResult m.dst .exResp m.type false) (hu : Untouched s₀ s) :
    Moves inp s₀ s (s.handleExtRespErr m) := by
  unfold handleExtRespErr
  split
  · rename_i hmem
    split
    · exact .refl
    rename_i p hp
    split
    · rename_i hmax
      split
      · rename_i ht
        have hend : inp.EndsExchange := hinp ▸ ⟨rfl, ht⟩
        dsimp only
        split
        · have herase := erasePeer_sends s p.id
          exact herase.moves.trans (rmSrvFromCluster_moves _ hend (hu.sends herase))
        · exact rmSrvFromCluster_moves _ hend hu
      · rename_i ht
        have hgives : s₀.GivesUp m := by
          refine ⟨?_, ?_⟩
          · simp only [List.mem_cons, List.not_mem_nil, or_false] at hmem ⊢
            tauto
          · rw [← hs, hp]
            exact decide_eq_true hmax
        have hgive : Move inp s₀ s _ := .giveUp hinp hgives hu
        refine hgive.moves.tail (.sends (.ofPeers rfl rfl rfl fun q hq snp hq' => ?_))
        exact knows_of_mem (s := s) (by simpa using hq) hq'
    · have hset := setRetryPeer_sends (q := p.slowDownHb s.params) hp rfl
      exact hset.moves.tail (.again (.inr ⟨m, hinp, rfl⟩))
  · exact .refl

end RaftServer

end Ns3Raft.Raft
