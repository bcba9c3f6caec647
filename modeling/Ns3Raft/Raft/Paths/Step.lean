import Ns3Raft.Raft.Paths.Membership

/-! # A whole step follows the protocol steps

Background commit, snapshots, and the dispatch over the inputs.
-/

namespace Ns3Raft.Raft

namespace RaftServer

variable {inp : Input} {n₀ : Core} {s : RaftServer}

/-! ## Background commit -/

theorem snapshotConfig_error {idx : Nat} {r : ExitReason} (h : s.snapshotConfig idx = .error r) :
    r ≠ .anotherLeader := by
  unfold snapshotConfig at h
  split at h
  · cases h
  split at h
  · split at h
    · cases h
      decide
    · cases h
  split at h
  · cases h
    decide
  · cases h

theorem snapshotAndCompact_traces {idx : Nat} (hinp : inp = .commitInBg)
    (hidx : s.smCommitIndex = idx) : Traces inp n₀ s (s.snapshotAndCompact idx) := by
  subst hidx
  unfold snapshotAndCompact
  split
  swap
  · exact .refl s
  rename_i hdue
  have hdist : s.params.snapshotDistance ≠ 0 := by
    simp only [snapshotDue, decide_eq_true_eq] at hdue
    simpa using hdue.1
  split
  · rename_i r hr
    exact .exit (exitOk_of_ne (snapshotConfig_error hr))
  · exact .refl s
  split
  · exact .refl s
  · rename_i t ht
    exact .loud (.snapStart hinp hdist rfl ht) rfl rfl

theorem applyConfig_traces {t : Nat} {c : ClusterConfig} (hinp : inp = .commitInBg)
    (hentry : s.logStore.entryAt s.smCommitIndex = some ⟨t, .conf c⟩)
    (hn : s.core = { n₀ with sm := s.smCommitIndex }) (hsm : s.smCommitIndex = n₀.sm + 1) :
    Traces inp n₀ s (s.applyConfig c) := by
  have hsave : Traces inp n₀ s (s.emit (.saveConfig c)) := .emit trivial
  have hcore := emit_core s (.saveConfig c)
  unfold applyConfig
  refine hsave.trans ?_
  generalize s.emit (.saveConfig c) = s₁ at hcore
  have hsoft : Traces inp n₀ s₁ { s₁ with configChanging := false } := .soft rfl rfl rfl
  refine hsoft.trans ?_
  have hsm₁ : s₁.smCommitIndex = s.smCommitIndex := congrArg Core.sm hcore
  have hlog₁ : s₁.logStore = s.logStore := congrArg Core.log hcore
  have hn₁ : s₁.core = { n₀ with sm := s₁.smCommitIndex } := by
    rw [hcore, hn, hsm₁]
  obtain ⟨s₂, hs₂, htr⟩ : ∃ s₂ : RaftServer,
      (if s₁.config.logIdx < c.logIdx then { s₁ with configChanging := false }.reconfigure c
      else { s₁ with configChanging := false }) = s₂ ∧
      Traces inp n₀ { s₁ with configChanging := false } s₂ := by
    refine ⟨_, rfl, ?_⟩
    split
    · refine reconfigure_traces (.reconf (t := t) hinp ?_ hn₁ (hsm₁.trans hsm))
      exact (congrArg₂ LogStore.entryAt hlog₁ hsm₁).trans hentry
    · exact .refl _
  dsimp only
  rw [hs₂]
  refine htr.trans ?_
  split
  · exact .silent (.caughtUp hinp) rfl rfl
  · exact .refl s₂

theorem applyConfig_core (s : RaftServer) (c : ClusterConfig) :
    (s.applyConfig c).smCommitIndex = s.smCommitIndex := by
  have hcore := emit_core s (.saveConfig c)
  unfold applyConfig
  generalize s.emit (.saveConfig c) = s₁ at hcore
  have hsm₁ : s₁.smCommitIndex = s.smCommitIndex := congrArg Core.sm hcore
  obtain ⟨s₂, hs₂, hsm₂⟩ : ∃ s₂ : RaftServer,
      (if s₁.config.logIdx < c.logIdx then { s₁ with configChanging := false }.reconfigure c
      else { s₁ with configChanging := false }) = s₂ ∧ s₂.smCommitIndex = s.smCommitIndex := by
    refine ⟨_, rfl, ?_⟩
    split
    · exact (congrArg Core.sm (reconfigure_core _ c)).trans hsm₁
    · exact hsm₁
  dsimp only
  rw [hs₂]
  split
  · exact hsm₂
  · exact hsm₂

theorem applyEntry_sm (s : RaftServer) (idx : Nat) (e : LogEntry) :
    (s.applyEntry idx e).smCommitIndex = s.smCommitIndex := by
  unfold applyEntry
  split
  · exact congrArg Core.sm (emit_core _ _)
  · exact applyConfig_core s _
  · rfl

theorem commitInBg_traces (hinp : inp = .commitInBg) (hn : s.core = n₀) :
    Traces inp n₀ s s.commitInBg := by
  unfold commitInBg
  split
  swap
  · exact .refl s
  rename_i hlt
  dsimp only
  split
  · -- the process ends while the index has already moved
    have hok : ExitOk inp s.core .storeError := exitOk_of_ne (by decide)
    cases hs : s.exited with
    | true => exact .frozen hs (by simp [exit]) (by simp [exit])
    | false =>
        have hp : Path inp n₀ s.core [] s.core := .nil
        exact .died hs (by simp [exit]) hp hok (by simp [exit])
  rename_i e he
  have hreach : Traces inp n₀ s
      ({ s with smCommitIndex := s.smCommitIndex + 1 }.emit (.reach (s.smCommitIndex + 1) e)) :=
    .loud (.reach hinp hlt.1 hlt.2 he hn) rfl rfl
  refine hreach.trans ?_
  have hcore := emit_core { s with smCommitIndex := s.smCommitIndex + 1 }
    (.reach (s.smCommitIndex + 1) e)
  generalize RaftServer.emit _ _ = s₁ at hcore
  have hsm₁ : s₁.smCommitIndex = s.smCommitIndex + 1 := congrArg Core.sm hcore
  have happly : Traces inp n₀ s₁ (s₁.applyEntry (s.smCommitIndex + 1) e) := by
    unfold applyEntry
    split
    · exact .emit (o := .commit _ _) hinp
    · rename_i c hc
      have hlog : s₁.logStore = s.logStore := congrArg Core.log hcore
      refine applyConfig_traces (t := e.term) hinp ?_ ?_ ?_
      · rw [hlog, hsm₁, ← hc]
        exact he
      · rw [hcore, ← hn, hsm₁]
        rfl
      · rw [hsm₁, ← hn]
        rfl
    · exact .refl s₁
  refine happly.trans ?_
  exact snapshotAndCompact_traces hinp ((applyEntry_sm s₁ _ e).trans hsm₁)

/-! ## Snapshots -/

theorem onSnapshotCompleted_traces {data : Option (List UInt8)}
    (hinp : inp = .snapshotCompleted data) (hn : s.core = n₀) :
    Traces inp n₀ s (s.onSnapshotCompleted data) := by
  unfold onSnapshotCompleted
  split
  · exact .refl s
  · exact .silent .snapFail rfl rfl
  · rename_i snp bytes hsnp
    have hdone : Traces inp n₀ s { s with
        lastSnapshot := some { snp with size := bytes.length },
        smSnapshot := some { snp with size := bytes.length }, snpInProgress := none,
        smSnapshotData := (snp.lastLogIdx, bytes) :: s.smSnapshotData } :=
      .silent (.snapDone hsnp) rfl rfl
    dsimp only
    split
    · rename_i hres
      split
      · exact hdone.trans (.exit (exitOk_of_ne (by decide)))
      · rename_i l hl
        subst hn
        exact hdone.trans (.loud (.compact hinp hsnp rfl hres hl) rfl rfl)
    · exact hdone

@[simp] theorem saveSnapshotData_core (s : RaftServer) (r : SnapshotSyncReq) :
    (s.saveSnapshotData r).core = s.core := by
  unfold saveSnapshotData
  exact emit_core _ _

theorem saveSnapshotData_traces (r : SnapshotSyncReq) :
    Traces inp n₀ s (s.saveSnapshotData r) := by
  unfold saveSnapshotData
  have hsoft : Traces inp n₀ s { s with smSnapshotData :=
      (r.snapshot.lastLogIdx, ((s.smSnapshotData.lookup r.snapshot.lastLogIdx).getD []).take
        r.offset ++ r.data) :: s.smSnapshotData } := .soft rfl rfl rfl
  exact hsoft.trans (.emit (o := .saveSnapshotData _ _ _) trivial)

section Install

variable {m : ReqMsg} {h : RpcHandler} {env : Env} {r : SnapshotSyncReq}
  (hinp : inp = .req m h env) (htype : m.type = .installSnapshotRequest)
  (hpay : m.payload = .snpSyncReq r)
include hinp htype hpay

theorem finishSnapshot_traces : Traces inp n₀ s (s.finishSnapshot r.snapshot) := by
  have hsave : Traces inp n₀ s (s.emit (.saveConfig s.config)) := .emit trivial
  unfold finishSnapshot
  refine hsave.trans ?_
  generalize s.emit (.saveConfig s.config) = s₁
  have hidx : Traces inp n₀ s₁ { s₁ with
      smCommitIndex := r.snapshot.lastLogIdx, quickCommitIdx := r.snapshot.lastLogIdx } :=
    .silent (.bulk (.snapIndex hinp htype hpay)) rfl rfl
  refine hidx.trans ?_
  generalize ({ s₁ with
    smCommitIndex := r.snapshot.lastLogIdx, quickCommitIdx := r.snapshot.lastLogIdx } :
      RaftServer) = s₂
  have hstate : Traces inp n₀ s₂ (s₂.saveState s₂.state) :=
    .loud (.bulk (.snapSave hinp htype)) rfl rfl
  refine hstate.trans ?_
  have hlast : Traces inp n₀ (s₂.saveState s₂.state) { s₂.saveState s₂.state with
      lastSnapshot := some ⟨r.snapshot.lastLogIdx, r.snapshot.lastLogTerm, r.snapshot.size,
        s₂.config⟩ } :=
    .soft rfl rfl rfl
  exact hlast.trans restartElectionTimer_traces

theorem restoreSnapshot_traces : Traces inp n₀ s (s.restoreSnapshot r.snapshot) := by
  have hset : Traces inp n₀ s { s with smSnapshot := some r.snapshot } :=
    .silent (.bulk (.snapTaken hinp htype hpay)) rfl rfl
  unfold restoreSnapshot
  refine hset.trans (Traces.trans (.emit (o := .applySnapshot r.snapshot) trivial) ?_)
  exact (reconfigure_traces (.bulk (.snapConf hinp htype hpay))).trans
    (finishSnapshot_traces hinp htype hpay)

theorem applySnapshot_traces (applyOk : Bool) (hlog : s.logStore = n₀.log)
    (hsm : s.smCommitIndex < r.snapshot.lastLogIdx) (hrole : s.role = .follower) :
    Traces inp n₀ s (s.applySnapshot r.snapshot applyOk) := by
  unfold applySnapshot
  split
  · exact .exit (exitOk_of_ne (by decide))
  rename_i l hl
  have hcompact : Traces inp n₀ s
      ({ s with logStore := l }.emit (.compact r.snapshot.lastLogIdx)) :=
    .loud (.bulk (.snapCompact hinp htype hpay hlog hsm hrole hl)) rfl rfl
  refine hcompact.trans (stopElectionTimer_traces.trans ?_)
  dsimp only
  split
  · exact .exit (r := .applySnapshotFailed) (exitOk_of_ne (by decide))
  · exact restoreSnapshot_traces hinp htype hpay

end Install

theorem handleInstallSnapshotReq_traces {m : ReqMsg} {h : RpcHandler} {env : Env} (applyOk : Bool)
    (hinp : inp = .req m h env) (htype : m.type = .installSnapshotRequest)
    (hlog : s.logStore = n₀.log) :
    Traces inp n₀ s (reply (s.handleInstallSnapshotReq m applyOk) h m.type) := by
  unfold handleInstallSnapshotReq
  split
  · rename_i hl
    exact .exit fun _ => ⟨m, h, env, hinp, .inr htype, hl.1, hl.2.2⟩
  obtain ⟨s₁, hs₁, hlog₁, htr⟩ : ∃ s₁ : RaftServer,
      (if m.term = s.state.term ∧ ¬ s.catchingUp = true then
        if s.role = .candidate then s.becomeFollower else s.restartElectionTimer
      else s) = s₁ ∧ s₁.logStore = n₀.log ∧ Traces inp n₀ s s₁ := by
    refine ⟨_, rfl, ?_⟩
    split
    · rename_i ht
      refine ⟨?_, noteLeader_traces hinp (.inr htype) ht.1⟩
      split
      · exact (congrArg Core.log (becomeFollower_core s)).trans hlog
      · exact (congrArg Core.log (restartElectionTimer_core s)).trans hlog
    · exact ⟨hlog, .refl s⟩
  dsimp only
  rw [hs₁]
  refine htr.trans ?_
  split
  · exact reply_other hinp htype rfl (by decide)
  split
  · rename_i r hpay
    split
    · exact reply_other hinp htype rfl (by decide)
    · rename_i hsm
      refine Traces.trans ?_ (reply_other hinp htype rfl (by decide))
      have hcore := saveSnapshotData_core s₁ r
      unfold handleSnapshotSyncReq
      refine (saveSnapshotData_traces r).trans ?_
      generalize s₁.saveSnapshotData r = s₂ at hcore
      dsimp only
      split
      · split
        · exact .exit (exitOk_of_ne (by decide))
        · rename_i hrole
          refine applySnapshot_traces hinp htype hpay applyOk ?_ ?_ ?_
          · exact (congrArg Core.log hcore).trans hlog₁
          · exact (congrArg Core.sm hcore).trans_lt (Nat.lt_of_not_le hsm)
          · exact Classical.not_not.mp hrole
      · exact .refl _
  · exact reply_other hinp htype rfl (by decide)

/-! ## Dispatch -/

theorem handleExtendedMsg_traces {m : ReqMsg} {h : RpcHandler} {env : Env}
    (hinp : inp = .req m h env) (hn : m.type = .joinClusterRequest → s.core = n₀)
    (hlog : s.logStore = n₀.log) :
    Traces inp n₀ s (reply (s.handleExtendedMsg m env) h m.type) := by
  unfold handleExtendedMsg
  split
  · rename_i ht
    exact handleAddSrvReq_traces hinp ht
  · rename_i ht
    exact handleRmSrvReq_traces hinp ht
  · rename_i ht
    exact handleLogSyncReq_traces hinp ht
  · rename_i ht
    exact handleJoinClusterReq_traces hinp ht (hn ht)
  · rename_i ht
    exact handleLeaveClusterReq_traces hinp ht
  · rename_i ht
    exact handleInstallSnapshotReq_traces env.applyOk hinp ht hlog
  · rename_i ht
    exact handlePrevoteReq_traces hinp ht
  · exact .exit (exitOk_of_ne (by decide))

theorem followTerm_traces {m : ReqMsg} (hn : s.core = n₀)
    (ht : MsgType.carriesTerm m.type = true → inp.CarriesTerm m.term) :
    Traces inp n₀ s (s.followTerm m) := by
  unfold followTerm
  split
  · rename_i hc
    refine (updateTerm_traces hn (ht hc)).trans ?_
    dsimp only
    split
    · exact .soft rfl rfl rfl
    · exact .refl _
  · exact .refl s

theorem followTerm_log (s : RaftServer) (m : ReqMsg) :
    (s.followTerm m).logStore = s.logStore := by
  have hup : (s.updateTerm m.term).1.logStore = s.logStore := by
    rcases updateTerm_core s m.term with ⟨h, -⟩ | ⟨-, -, h⟩
    · exact congrArg Core.log h
    · exact congrArg Core.log h
  unfold followTerm
  split
  · dsimp only
    split
    · exact hup
    · exact hup
  · rfl

theorem followTerm_le {m : ReqMsg} (hc : MsgType.carriesTerm m.type = true) :
    m.term ≤ (s.followTerm m).state.term := by
  have hle : m.term ≤ (s.updateTerm m.term).1.state.term := by
    rcases updateTerm_core s m.term with ⟨h1, h2, -⟩ | ⟨-, -, h3⟩
    · exact h2.trans_eq (congrArg (·.state.term) h1).symm
    · exact (congrArg (·.state.term) h3).ge
  unfold followTerm
  rw [if_pos hc]
  dsimp only
  split
  · exact hle
  · exact hle

theorem processReq_traces {m : ReqMsg} {h : RpcHandler} {env : Env}
    (hinp : inp = .req m h env) (hn : s.core = n₀) :
    Traces inp n₀ s (reply (s.processReq m env) h m.type) := by
  unfold processReq
  have hcarry : MsgType.carriesTerm m.type = true → inp.CarriesTerm m.term :=
    fun hc => hinp ▸ ⟨hc, rfl⟩
  refine (followTerm_traces hn hcarry).trans ?_
  dsimp only
  split
  · rename_i ht
    exact handleAppendEntries_traces hinp ht (followTerm_le (by rw [ht]; rfl))
  · rename_i ht
    exact handleVoteReq_traces hinp ht
  · rename_i ht
    exact handleCliReq_traces hinp ht
  · refine handleExtendedMsg_traces hinp (fun ht => ?_)
      ((followTerm_log s m).trans (congrArg Core.log hn))
    have hsame : s.followTerm m = s := by
      unfold followTerm
      rw [if_neg (by rw [ht]; decide)]
    rw [hsame, hn]

theorem handlePeerResp_traces {m : RespMsg} {reqType : MsgType}
    (hinp : inp = .resp m .resp reqType) (hn : s.core = n₀) :
    Traces inp n₀ s (s.handlePeerResp m) := by
  unfold handlePeerResp
  split
  swap
  · exact .refl s
  rename_i hmem
  have ht : inp.CarriesTerm m.term := hinp ▸ ⟨rfl, rfl⟩
  dsimp only
  split
  · exact updateTerm_traces hn ht
  rename_i hold
  have hle : m.term ≤ s.state.term := by
    rcases updateTerm_core s m.term with ⟨-, h2, -⟩ | ⟨-, h2, -⟩
    · exact h2
    · exact absurd h2 hold
  split
  · rename_i htype
    exact handleVotingResp_traces hinp htype hmem hn
  · rename_i htype
    exact handleAppendEntriesResp_traces hinp htype hle hn
  · rename_i htype
    exact handleInstallSnapshotResp_traces hinp htype
  · exact .exit (exitOk_of_ne (by decide))

/-- Every step of a server is a path of protocol steps. -/
theorem handle_traces (s : RaftServer) (inp : Input) : Traces inp s.core s (s.handle inp) := by
  cases inp with
  | electionTimeout => exact handleElectionTimeout_traces rfl
  | hbTimeout id => exact handleHbTimeout_traces id
  | commitInBg => exact commitInBg_traces rfl rfl
  | req m h env => exact processReq_traces rfl rfl
  | resp m h reqType =>
      have hcore := handleRpcResult_core s m.src h reqType true
      refine (handleRpcResult_traces m.src h reqType true).trans ?_
      cases h with
      | resp => exact handlePeerResp_traces rfl hcore
      | exResp => exact handleExtResp_traces rfl hcore
      | client => exact .refl _
  | rpcError m h =>
      have hcore := handleRpcResult_core s m.dst h m.type false
      refine (handleRpcResult_traces m.dst h m.type false).trans ?_
      cases h with
      | resp => exact .refl _
      | exResp => exact handleExtRespErr_traces rfl hcore
      | client => exact .refl _
  | retry m => exact .emit (o := .send _) (.inr (.inr (.inr (.inr ⟨rfl, rfl⟩))))
  | snapshotCompleted data => exact onSnapshotCompleted_traces rfl rfl
  | replicateLog data leaseOk => exact replicateLog_traces rfl

end RaftServer

end Ns3Raft.Raft
