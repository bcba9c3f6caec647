import Ns3Raft.Raft.Paths.Replicate

/-! # The message handlers follow the protocol steps -/

namespace Ns3Raft.Raft

namespace RaftServer

variable {inp : Input} {n₀ : Core} {s : RaftServer}

/-! ## Requests -/

/-- A response that grants nothing. -/
theorem reply_quiet {m : ReqMsg} {h : RpcHandler} {env : Env} {r : RespMsg}
    (hinp : inp = .req m h env) (htype : r.type = m.type.response)
    (hacc : r.accepted = true → r.type ≠ .voteResponse ∧ m.type ≠ .appendEntriesRequest) :
    Traces inp n₀ s (s.send (.resp r h m.type)) :=
  .emit (o := .send _) ⟨⟨m, env, hinp, rfl, htype⟩, hacc⟩

/-- A response of a request type that neither votes nor replicates. -/
theorem reply_other {m : ReqMsg} {h : RpcHandler} {env : Env} {r : RespMsg} {t : MsgType}
    (hinp : inp = .req m h env) (htype : m.type = t) (hr : r.type = t.response)
    (ht : t ≠ .appendEntriesRequest ∧ t.response ≠ .voteResponse) :
    Traces inp n₀ s (s.send (.resp r h m.type)) :=
  reply_quiet hinp (htype ▸ hr) fun _ => ⟨hr ▸ ht.2, htype ▸ ht.1⟩

theorem setLeader_traces (id : SrvId) : Traces inp n₀ s { s with leader := id } :=
  .soft rfl rfl rfl

/-- The role and the timer after an append or snapshot request of the present term. -/
def noteLeader (s : RaftServer) : RaftServer :=
  if s.role = .candidate then s.becomeFollower else s.restartElectionTimer

theorem noteLeader_core (hr : s.role ≠ .leader) :
    s.noteLeader.core = { s.core with role := .follower } := by
  unfold noteLeader
  split
  · exact becomeFollower_core s
  · rename_i h
    have hrole : s.role = .follower := by
      cases hs : s.role <;> simp_all
    rw [restartElectionTimer_core]
    simp [core, hrole]

theorem noteLeader_traces {m : ReqMsg} {h : RpcHandler} {env : Env} (hinp : inp = .req m h env)
    (htype : m.type = .appendEntriesRequest ∨ m.type = .installSnapshotRequest)
    (hterm : m.term = s.state.term) : Traces inp n₀ s s.noteLeader := by
  unfold noteLeader
  split
  · rename_i hr
    exact becomeFollower_traces_of_candidate hinp hr htype hterm
  · exact restartElectionTimer_traces

theorem appendLogOkay_true {req : ReqMsg} (h : s.appendLogOkay req = some true) :
    req.lastLogIdx ≠ 0 →
      req.lastLogIdx < s.logStore.nextSlot ∧ s.termForLog req.lastLogIdx = some req.lastLogTerm := by
  intro hp
  unfold appendLogOkay at h
  rw [if_neg hp] at h
  split at h
  · rename_i hlt
    refine ⟨hlt, ?_⟩
    cases ht : s.termForLog req.lastLogIdx with
    | none => simp [ht] at h
    | some t =>
        rw [ht] at h
        simpa using (by simpa using h : req.lastLogTerm = t).symm
  · cases h

theorem handleAppendEntries_traces {m : ReqMsg} {h : RpcHandler} {env : Env}
    (hinp : inp = .req m h env) (htype : m.type = .appendEntriesRequest)
    (hle : m.term ≤ s.state.term) :
    Traces inp n₀ s (reply (s.handleAppendEntries m) h m.type) := by
  unfold handleAppendEntries
  split
  · rename_i hl
    exact .exit fun _ => ⟨m, h, env, hinp, .inl htype, hl.1, hl.2⟩
  rename_i hnl
  obtain ⟨s₁, hs₁, hcore, htr⟩ : ∃ s₁ : RaftServer,
      (if m.term = s.state.term then
        if s.role = .candidate then s.becomeFollower else s.restartElectionTimer
      else s) = s₁ ∧
      s₁.core = (if m.term = s.state.term then { s.core with role := .follower } else s.core) ∧
      Traces inp n₀ s s₁ := by
    refine ⟨_, rfl, ?_⟩
    split
    · rename_i ht
      exact ⟨noteLeader_core fun hr => hnl ⟨ht, hr⟩, noteLeader_traces hinp (.inl htype) ht⟩
    · exact ⟨rfl, .refl s⟩
  dsimp only
  rw [hs₁]
  refine htr.trans ?_
  have hstate : s₁.state = s.state := by
    refine (congrArg Core.state hcore).trans ?_
    split <;> rfl
  split
  · exact .exit (exitOk_of_ne (by decide))
  rename_i okay hokay
  split
  · refine reply_quiet hinp ?_ ?_
    · rw [htype]
      rfl
    · exact fun h => by simp at h
  rename_i hok
  split
  · exact .exit (exitOk_of_ne (by decide))
  rename_i hstart
  -- from here on the request is of the present term and its previous index matches
  have hterm : m.term = s₁.state.term := by
    have := fun h => hok (.inl h)
    rw [hstate] at *
    omega
  have hrole : s₁.role = .follower := by
    refine (congrArg Core.role hcore).trans ?_
    rw [if_pos (hterm.trans (by rw [hstate]))]
  have hokay' : s₁.appendLogOkay m = some true := by
    cases okay with
    | true => exact hokay
    | false => exact absurd (.inr rfl) hok
  have hm : s₁.core.Matches m 0 :=
    { type := htype, term := hterm, role := hrole, prev := appendLogOkay_true hokay'
      start_le := fun hne => by
        have : ¬ m.lastLogIdx + 1 < s₁.logStore.startIndex := fun h => hstart ⟨hne, h⟩
        simp only [core_log]
        omega
      le_length := Nat.zero_le _
      entries := fun i e hi => absurd hi (Nat.not_lt_zero i) }
  have hprev : m.lastLogIdx + 1 ≤ s₁.logStore.nextSlot := by
    by_cases hz : m.lastLogIdx = 0
    · have := s₁.logStore.nextSlot_pos
      omega
    · exact (appendLogOkay_true hokay' hz).1
  obtain ⟨hwrite, hm', l, hl⟩ := writeEntries_traces n₀ hinp hm hprev
  refine hwrite.trans ?_
  generalize s₁.writeEntries (m.lastLogIdx + 1) m.logEntries = s₂ at hm' hl
  refine (setLeader_traces m.src).trans ?_
  refine Traces.trans (commit_traces fun hk => .follow hinp hm' hk) ?_
  have hcommit := commit_core { s₂ with leader := m.src } m.commitIdx
  generalize ({ s₂ with leader := m.src } : RaftServer).commit m.commitIdx = s₃ at hcommit
  have hm₃ : s₃.core.Matches m m.logEntries.length := by
    rw [hcommit]
    exact { hm' with }
  have hid : s₁.id = s₃.core.id := by
    rw [hcommit]
    exact (congrArg Core.id hl).symm
  rw [htype]
  refine .loud (.sendAck hinp hm₃ rfl rfl hid rfl ?_ rfl) rfl rfl
  exact hterm.symm.trans hm₃.term

theorem handleVoteReq_traces {m : ReqMsg} {h : RpcHandler} {env : Env}
    (hinp : inp = .req m h env) (htype : m.type = .voteRequest) :
    Traces inp n₀ s (reply (s.handleVoteReq m) h m.type) := by
  unfold handleVoteReq
  dsimp only
  split
  · rename_i hg
    obtain ⟨hterm, hlog, hfor⟩ := hg
    have hgrant : Traces inp n₀ s (s.saveState { s.state with votedFor := m.src }) := by
      refine .loud (.grant hinp htype hterm hfor ?_) rfl rfl
      simpa [voteLogOkay, Core.voteLogOkay] using hlog
    refine hgrant.trans ?_
    have hcore := saveState_core s { s.state with votedFor := m.src }
    generalize s.saveState { s.state with votedFor := m.src } = s₁ at hcore
    rw [htype]
    refine .loud (.sendVote rfl (congrArg Core.id hcore).symm (congrArg Core.state hcore)
      ⟨m, env, hinp, htype⟩) rfl rfl
  · refine reply_quiet hinp ?_ fun h => by simp at h
    rw [htype]
    rfl

theorem handlePrevoteReq_traces {m : ReqMsg} {h : RpcHandler} {env : Env}
    (hinp : inp = .req m h env) (htype : m.type = .prevoteRequest) :
    Traces inp n₀ s (reply (s.handlePrevoteReq m) h m.type) := by
  unfold handlePrevoteReq
  dsimp only
  split
  · exact reply_other hinp htype rfl (by decide)
  · exact reply_other hinp htype rfl (by decide)

/-! ## Responses -/

theorem closeElection_traces (hc : s.electionCompleted = false) :
    Traces inp n₀ s s.closeElection := by
  unfold closeElection
  dsimp only
  split
  · -- everyone has voted; with a majority the election is won all the same
    split
    · rename_i hmaj
      exact becomeLeader_traces_of_win hc hmaj
    · exact .silent .complete rfl rfl
  · split
    · rename_i hmaj
      exact becomeLeader_traces_of_win hc hmaj
    · exact .refl s

theorem handleVotingResp_traces {m : RespMsg} {reqType : MsgType}
    (hinp : inp = .resp m .resp reqType) (htype : m.type = .voteResponse)
    (hmem : m.src ∈ s.peerIds) (hn : s.core = n₀) : Traces inp n₀ s (s.handleVotingResp m) := by
  unfold handleVotingResp
  split
  · exact .refl s
  rename_i hterm
  split
  · exact .refl s
  rename_i hcompl
  split
  · exact .refl s
  rename_i hvoted
  have hcompl' : s.electionCompleted = false := by simpa using hcompl
  have hcount : Traces inp n₀ s (s.countVote m) := by
    refine .silent (.count hinp htype ?_ hcompl' hvoted ?_ hn) rfl rfl
    · simpa using hterm
    · simpa using hmem
  exact hcount.trans (closeElection_traces hcompl')

theorem closePrevote_traces (pv : PrevoteState) (hn : s.core = n₀) :
    Traces inp n₀ s (s.closePrevote pv) := by
  have hset : Traces inp n₀ s { s with prevoteState := some pv } := setPrevoteState_traces _
  unfold closePrevote
  refine hset.trans ?_
  dsimp only
  split
  · exact becomeCandidate_traces hn
  split
  · exact (setPrevoteState_traces _).trans restartElectionTimer_traces
  · exact .refl _

theorem handlePrevoteResp_traces {m : RespMsg} (hn : s.core = n₀) :
    Traces inp n₀ s (s.handlePrevoteResp m) := by
  unfold handlePrevoteResp
  split
  · exact .refl s
  split
  · exact .refl s
  split
  · exact .refl s
  · exact closePrevote_traces _ hn

theorem updatePeer_ack_core (s : RaftServer) (id : SrvId) (nextIdx : Nat) :
    (s.updatePeer id (Peer.ack nextIdx)).core = s.core.ack id nextIdx := by
  have hpeers : (s.updatePeer id (Peer.ack nextIdx)).core.peers = (s.core.ack id nextIdx).peers := by
    simp only [core, updatePeer, Core.ack, List.map_map]
    refine List.map_congr_left fun p _ => ?_
    by_cases h : p.id = id
    · simp only [Peer.ack, Peer.id, Function.comp_apply] at *
      simp [h]
    · simp [h]
  have hrest : (s.updatePeer id (Peer.ack nextIdx)).core =
      { s.core with peers := (s.updatePeer id (Peer.ack nextIdx)).core.peers } := rfl
  rw [hrest, hpeers]
  rfl

theorem handleAppendEntriesResp_traces {m : RespMsg} {reqType : MsgType}
    (hinp : inp = .resp m .resp reqType) (htype : m.type = .appendEntriesResponse)
    (hterm : m.term ≤ s.state.term) (hn : s.core = n₀) :
    Traces inp n₀ s (s.handleAppendEntriesResp m) := by
  unfold handleAppendEntriesResp
  split
  swap
  · exact .refl s
  rename_i hmem
  split
  · rename_i hacc
    have hcore := updatePeer_ack_core s m.src m.nextIdx
    have hack : Traces inp n₀ s (s.updatePeer m.src (Peer.ack m.nextIdx)) := by
      refine .silent ?_ rfl rfl
      rw [hcore]
      exact .ack hinp htype hacc (by simpa using hmem) hterm hn
    refine hack.trans ?_
    generalize s.updatePeer m.src (Peer.ack m.nextIdx) = s₁ at hcore
    have hmaj : Traces inp n₀ s₁ (s₁.commit s₁.majorityIndex) := by
      refine commit_traces fun hk => ?_
      rw [← core_majorityIndex] at hk ⊢
      exact .majority hinp htype hacc (by rw [← hn]; simpa using hmem)
        (hterm.trans_eq (congrArg (·.state.term) hcore).symm) (by rw [hcore, hn]) hk
    refine hmaj.trans ?_
    have hclear : ∀ p : Peer, ({ p with pendingCommit := false } : Peer).id = p.id ∧
        ({ p with pendingCommit := false } : Peer).matchedIdx = p.matchedIdx :=
      fun p => ⟨rfl, rfl⟩
    refine Traces.trans (.updatePeer m.src hclear) ?_
    dsimp only
    split
    · rename_i hl
      exact requestAppendEntriesTo_traces m.src (.inl hl.1)
    · exact .refl _
  · have hback : ∀ p : Peer, (Peer.backUp m.nextIdx p).id = p.id ∧
        (Peer.backUp m.nextIdx p).matchedIdx = p.matchedIdx := fun p => ⟨rfl, rfl⟩
    refine Traces.trans (.updatePeer m.src hback) ?_
    dsimp only
    split
    · rename_i hl
      exact requestAppendEntriesTo_traces m.src (.inl hl)
    · exact .refl _

theorem updatePeer_snapshotDone_core (s : RaftServer) (id : SrvId) (snp : Snapshot) :
    (s.updatePeer id (Peer.snapshotDone snp)).core = { s.core with
      peers := s.core.peers.map fun p => if p.1 = id then (p.1, snp.lastLogIdx) else p } := by
  have hpeers : (s.updatePeer id (Peer.snapshotDone snp)).core.peers =
      s.core.peers.map fun p => if p.1 = id then (p.1, snp.lastLogIdx) else p := by
    simp only [core, updatePeer, List.map_map]
    refine List.map_congr_left fun p _ => ?_
    by_cases h : p.id = id
    · simp only [Peer.snapshotDone, Peer.id, Function.comp_apply] at *
      simp [h]
    · simp [h]
  have hrest : (s.updatePeer id (Peer.snapshotDone snp)).core =
      { s.core with peers := (s.updatePeer id (Peer.snapshotDone snp)).core.peers } := rfl
  rw [hrest, hpeers]

theorem handleInstallSnapshotResp_traces {m : RespMsg} {reqType : MsgType}
    (hinp : inp = .resp m .resp reqType) (htype : m.type = .installSnapshotResponse) :
    Traces inp n₀ s (s.handleInstallSnapshotResp m) := by
  unfold handleInstallSnapshotResp
  split
  · exact .refl s
  rename_i p hp
  have hgo : ∀ r : RaftServer × Bool, Traces inp n₀ s r.1 → Traces inp n₀ s
      (if r.1.role = .leader ∧ r.2 = true then (r.1.requestAppendEntriesTo m.src).1 else r.1) := by
    intro r hr
    split
    · rename_i hl
      exact hr.trans (requestAppendEntriesTo_traces m.src (.inl hl.1))
    · exact hr
  refine hgo _ ?_
  split
  · split
    · exact .refl s
    · rename_i snp off _
      split
      · refine .silent ?_ rfl rfl
        dsimp only
        rw [updatePeer_snapshotDone_core]
        exact .installed hinp htype
      · have hctx : ∀ p : Peer, ({ p with snpSyncCtx := some (snp, m.nextIdx) } : Peer).id = p.id ∧
            ({ p with snpSyncCtx := some (snp, m.nextIdx) } : Peer).matchedIdx = p.matchedIdx :=
          fun p => ⟨rfl, rfl⟩
        exact .updatePeer m.src hctx
  · exact .refl s

/-! ## Client requests -/

theorem forwardToLeader_traces {m : ReqMsg} {h : RpcHandler} {env : Env}
    (hinp : inp = .req m h env) (htype : m.type = .clientRequest) :
    Traces inp n₀ s (s.forwardToLeader m) := by
  have hsend : ∀ s' : RaftServer, Traces inp n₀ s'
      (s'.send (.req { m with src := s.id, dst := s.leader } .client)) :=
    fun s' => .emit (o := .send _) (.inr (.inl ⟨htype, rfl, m, h, env, hinp, htype, rfl⟩))
  unfold forwardToLeader
  split
  · exact .refl s
  split
  · exact hsend s
  split
  · have hsoft : Traces inp n₀ s { s with rpcClients := s.rpcClients ++ [s.leader] } :=
      .soft rfl rfl rfl
    exact hsoft.trans (hsend _)
  · exact .refl s

theorem appendClientEntry_core (s : RaftServer) (e : LogEntry) :
    (s.appendClientEntry e).core =
      { s.core with log := s.logStore.append { e with term := s.state.term } } :=
  (emit_core _ _).trans (appendLog_core s _)

theorem appendClientEntry_traces {m : ReqMsg} {h : RpcHandler} {env : Env} {e : LogEntry}
    (hinp : inp = .req m h env) (htype : m.type = .clientRequest) (he : e ∈ m.logEntries)
    (hr : s.role = .leader) : Traces inp n₀ s (s.appendClientEntry e) := by
  have happ : Traces inp n₀ s (s.appendLog { e with term := s.state.term }) :=
    appendLog_traces (c := s.config) (.inl hr) rfl
      (.inr (.inr ⟨m, h, env, hinp, htype, e, he, rfl⟩)) rfl
  exact happ.trans (.emit (o := .preCommit _ _) ⟨m, h, env, hinp, .inr htype⟩)

theorem appendClientEntry_foldl (n₀ : Core) {m : ReqMsg} {h : RpcHandler} {env : Env}
    (hinp : inp = .req m h env) (htype : m.type = .clientRequest) (es : List LogEntry) :
    ∀ s : RaftServer, (∀ e ∈ es, e ∈ m.logEntries) → s.role = .leader →
      Traces inp n₀ s (es.foldl appendClientEntry s) ∧
        (es.foldl appendClientEntry s).role = .leader := by
  induction es with
  | nil => exact fun s _ hr => ⟨.refl s, hr⟩
  | cons e es ih =>
      intro s hes hr
      have hr' : (s.appendClientEntry e).role = .leader :=
        (congrArg Core.role (appendClientEntry_core s e)).trans hr
      obtain ⟨htr, hend⟩ := ih _ (fun x hx => hes x (List.mem_cons_of_mem _ hx)) hr'
      exact ⟨(appendClientEntry_traces hinp htype (hes e List.mem_cons_self) hr).trans htr, hend⟩

theorem isLeader_role {leaseOk : Bool} (h : s.isLeader leaseOk = true) : s.role = .leader := by
  simp only [isLeader, Bool.and_eq_true, decide_eq_true_eq] at h
  exact h.1

theorem handleCliReq_traces {m : ReqMsg} {h : RpcHandler} {env : Env} {leaseOk : Bool}
    (hinp : inp = .req m h env) (htype : m.type = .clientRequest) :
    Traces inp n₀ s (reply (s.handleCliReq m leaseOk) h m.type) := by
  unfold handleCliReq
  dsimp only
  split
  · rename_i hl
    obtain ⟨htr, hend⟩ := appendClientEntry_foldl n₀ hinp htype m.logEntries s
      (fun _ h => h) (isLeader_role hl)
    refine htr.trans ((requestAppendEntries_traces (.inl hend)).trans ?_)
    exact reply_other hinp htype rfl (by decide)
  split
  · exact reply_other hinp htype rfl (by decide)
  · exact (forwardToLeader_traces hinp htype).trans (reply_other hinp htype rfl (by decide))

theorem replicateLog_traces {data : List UInt8} {leaseOk : Bool}
    (hinp : inp = .replicateLog data leaseOk) : Traces inp n₀ s (s.replicateLog data leaseOk) := by
  unfold replicateLog
  split
  · rename_i hl
    have hr := isLeader_role hl
    refine Traces.trans (appendLog_traces (c := s.config) (.inl hr) rfl
      (.inr (.inl ⟨data, leaseOk, hinp, rfl⟩)) rfl) (requestAppendEntries_traces (.inl ?_))
    exact (congrArg Core.role (appendLog_core s _)).trans hr
  · exact .refl s

end RaftServer

end Ns3Raft.Raft
