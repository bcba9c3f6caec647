import Ns3Raft.Raft.Handled
import Ns3Raft.Raft.Paths.Step

/-! # A step is a chain of moves

Background commits, snapshots, and the dispatch of the inputs.
-/

namespace Ns3Raft.Raft

namespace RaftServer

variable {inp : Input} {s₀ s s' : RaftServer}

/-! ## Background commit -/

theorem snapshotAndCompact_sends (s : RaftServer) (idx : Nat) :
    Sends s (s.snapshotAndCompact idx) := by
  unfold snapshotAndCompact
  split
  · split
    · exact exit_sends s _
    · exact .refl s
    · split
      · exact .refl s
      · rename_i conf _ _ term _
        have hsoft : Sends s { s with snpInProgress := some ⟨idx, term, 0, conf⟩ } :=
          .soft rfl rfl rfl fun _ h => h
        exact hsoft.trans (emit_sends _ rfl)
  · exact .refl s

/-- Nothing but sending, and a new configuration. -/
def Reconfigures (s s' : RaftServer) : Prop := Sends s { s' with config := s.config }

theorem Reconfigures.trans (h : Reconfigures s s') {t : RaftServer} (h' : Sends s' t) :
    Reconfigures s t := by
  have hset : Sends { s' with config := s.config } { t with config := s.config } :=
    ⟨⟨h'.out, h'.exited⟩, congrArg (fun k : Kept => { k with config := s.config }) h'.kept,
      h'.known⟩
  exact Sends.trans h hset

theorem reconfigure_reconfigures (s : RaftServer) (c : ClusterConfig) :
    Reconfigures s (s.reconfigure c) := by
  have h := reconfigure_sends s c
  exact ⟨⟨h.out, h.exited⟩, congrArg (fun k : Kept => { k with config := s.config }) h.kept,
    h.known⟩

theorem Reconfigures.moves (h : Reconfigures s s') : Moves inp s₀ s s' :=
  .tail (Sends.moves h) (.config (c := s'.config))

/-- What applying a configuration does to the flags. -/
theorem applyConfig_reconfigures (s : RaftServer) (c : ClusterConfig) :
    Reconfigures { s with
      configChanging := false, catchingUp := s.catchingUp && decide (s.id ∉ c.ids) }
      (s.applyConfig c) := by
  have hsave := emit_sends s (o := .saveConfig c) rfl
  have h₁ : Sends { s with configChanging := false }
      { s.emit (.saveConfig c) with configChanging := false } :=
    ⟨⟨hsave.out, hsave.exited⟩,
      congrArg (fun k : Kept => { k with configChanging := false }) hsave.kept, hsave.known⟩
  have hthen : ∀ s₂ : RaftServer,
      Reconfigures { s.emit (.saveConfig c) with configChanging := false } s₂ →
      Reconfigures { s with
        configChanging := false, catchingUp := s.catchingUp && decide (s.id ∉ c.ids) }
        (if s₂.catchingUp ∧ s₂.id ∈ c.ids then { s₂ with catchingUp := false } else s₂) := by
    intro s₂ h₂
    have h : Sends _ { s₂ with config := s.config } :=
      hsave.config ▸ h₁.trans h₂
    have hid : s₂.id = s.id := h.id
    have hcatch : s₂.catchingUp = s.catchingUp := h.catchingUp
    have hlast : ∀ b, (s.catchingUp && decide (s.id ∉ c.ids)) = b → Reconfigures { s with
        configChanging := false, catchingUp := s.catchingUp && decide (s.id ∉ c.ids) }
        { s₂ with catchingUp := b } := by
      rintro b rfl
      exact ⟨⟨h.out, h.exited⟩,
        congrArg (fun k : Kept => { k with
          catchingUp := s.catchingUp && decide (s.id ∉ c.ids) }) h.kept, h.known⟩
    split
    · rename_i hc
      exact hlast false (by simp [← hid, hc.2])
    · rename_i hc
      refine hlast s₂.catchingUp ?_
      rw [hcatch, hid] at hc
      rw [hcatch]
      cases hcu : s.catchingUp with
      | false => rfl
      | true => simpa [hcu] using hc
  unfold applyConfig
  refine hthen _ ?_
  dsimp only
  split
  · exact reconfigure_reconfigures _ c
  · exact Sends.refl _

/-- One pass of the background loop comes to the next entry. -/
theorem commitInBg_reconfigures {e : LogEntry} (hquick : s.smCommitIndex < s.quickCommitIdx)
    (hlast : s.smCommitIndex < s.logStore.lastIndex)
    (he : s.logStore.entryAt (s.smCommitIndex + 1) = some e) :
    Reconfigures (s.reached e) s.commitInBg := by
  unfold commitInBg
  rw [if_pos ⟨hquick, hlast⟩]
  dsimp only
  rw [he]
  refine Reconfigures.trans ?_ (snapshotAndCompact_sends _ _)
  unfold applyEntry reached
  cases e.val with
  | appLog data => exact Sends.refl _
  | conf c => exact applyConfig_reconfigures _ c
  | clusterServer srv => exact Sends.refl _
  | serverId id => exact Sends.refl _

theorem commitInBg_moves (hinp : inp = .commitInBg) : Moves inp s s s.commitInBg := by
  by_cases hdue : s.smCommitIndex < s.quickCommitIdx ∧ s.smCommitIndex < s.logStore.lastIndex
  · cases he : s.logStore.entryAt (s.smCommitIndex + 1) with
    | none =>
        unfold commitInBg
        rw [if_pos hdue]
        dsimp only
        rw [he]
        exact (Move.lost hinp).moves
    | some e =>
        have hreach := commitInBg_reconfigures hdue.1 hdue.2 he
        exact .tail (Move.reach hinp rfl hdue.1 hdue.2 he hreach).moves
          (.config (c := s.commitInBg.config))
  · unfold commitInBg
    rw [if_neg hdue]

/-! ## Snapshots -/

theorem onSnapshotCompleted_moves {data : Option (List UInt8)}
    (hinp : inp = .snapshotCompleted data) : Moves inp s s (s.onSnapshotCompleted data) := by
  unfold onSnapshotCompleted
  split
  · exact .refl
  · have hsoft : Sends s { s with snpInProgress := none } := .soft rfl rfl rfl fun _ h => h
    exact hsoft.moves
  · rename_i snp bytes hsnp
    have hmade : Move inp s s (s.completed snp bytes) := .complete hinp hsnp rfl
    dsimp only
    split
    · split
      · exact hmade.moves.tail (.sends (exit_sends _ _))
      · rename_i l hl
        exact hmade.moves.tail (.compact hinp hsnp rfl hl)
    · exact hmade.moves

theorem saveSnapshotData_kept (s : RaftServer) (r : SnapshotSyncReq) :
    (s.saveSnapshotData r).kept = { s.kept with smSnapshotData :=
      (r.snapshot.lastLogIdx, ((s.smSnapshotData.lookup r.snapshot.lastLogIdx).getD []).take
        r.offset ++ r.data) :: s.smSnapshotData } := emit_kept _ _

/-- After the new configuration only the indexes, the state and the timer are set. -/
theorem finishSnapshot_eq {s s' : RaftServer} (snp : Snapshot) (h : Sends s s') :
    ∃ c s₁ s₂, Sends { s with smCommitIndex := snp.lastLogIdx } s₁ ∧
      Sends { s₁.saveState s₁.state with lastSnapshot := some { snp with lastConfig := c } } s₂ ∧
        s'.finishSnapshot snp = s₂.restartElectionTimer := by
  have hsave := h.trans (emit_sends s' (o := .saveConfig s'.config) rfl)
  refine ⟨(s'.emit (.saveConfig s'.config)).config,
    { s'.emit (.saveConfig s'.config) with
      smCommitIndex := snp.lastLogIdx, quickCommitIdx := snp.lastLogIdx }, _, ?_, .refl _, rfl⟩
  exact ⟨⟨hsave.out, hsave.exited⟩,
    congrArg (fun k : Kept => { k with smCommitIndex := snp.lastLogIdx }) hsave.kept,
    hsave.known⟩

theorem restoreSnapshot_eq (s : RaftServer) (snp : Snapshot) :
    ∃ c c' s₁ s₂, Sends { s.emit (.applySnapshot snp) with
        smCommitIndex := snp.lastLogIdx, config := c, smSnapshot := some snp } s₁ ∧
      Sends { s₁.saveState s₁.state with lastSnapshot := some { snp with lastConfig := c' } } s₂ ∧
        s.restoreSnapshot snp = s₂.restartElectionTimer := by
  unfold restoreSnapshot
  obtain ⟨c, hc⟩ : ∃ c, Sends
      { { s with smSnapshot := some snp }.emit (.applySnapshot snp) with config := c }
      (({ s with smSnapshot := some snp }.emit (.applySnapshot snp)).reconfigure snp.lastConfig) :=
    ⟨_, reconfigure_sends _ _⟩
  obtain ⟨c', s₁, s₂, h₁, h₂, heq⟩ := finishSnapshot_eq snp hc
  refine ⟨c, c', s₁, s₂, Sends.trans ?_ h₁, h₂, heq⟩
  unfold emit
  dsimp only
  split
  · exact .soft rfl rfl rfl fun _ h => h
  · exact .soft rfl rfl rfl fun _ h => h

theorem applySnapshot_moves {m : ReqMsg} {h : RpcHandler} {env : Env} {r : SnapshotSyncReq}
    {applyOk : Bool} (hinp : inp = .req m h env) (ht : m.type = .installSnapshotRequest)
    (hpay : m.payload = .snpSyncReq r) (hdone : r.done = true) (hterm : m.term ≤ s.state.term)
    (habove : s.smCommitIndex < r.snapshot.lastLogIdx) (hrole : s.role = .follower)
    (hu : Untouched s₀ s) :
    Moves inp s₀ s (s.applySnapshot r.snapshot applyOk) := by
  unfold applySnapshot
  split
  · exact (exit_sends s _).moves
  rename_i l hl
  dsimp only
  split
  · exact Move.halt.moves
  obtain ⟨c, c', s₁, s₂, h₁, h₂, heq⟩ := restoreSnapshot_eq
    ({ s with logStore := l }.emit (.compact r.snapshot.lastLogIdx)).stopElectionTimer r.snapshot
  rw [heq]
  exact (Move.install hinp ht hpay hdone hterm habove hrole hu hl h₁ h₂).moves

theorem handleInstallSnapshotReq_moves {m : ReqMsg} {h : RpcHandler} {env : Env} {applyOk : Bool}
    (hinp : inp = .req m h env) (ht : m.type = .installSnapshotRequest) (hu : Untouched s₀ s)
    (hle : m.term ≤ s.state.term) :
    Moves inp s₀ s (s.handleInstallSnapshotReq m applyOk).1 := by
  unfold handleInstallSnapshotReq
  split
  · exact (exit_sends s _).moves
  rename_i hno
  have hhear := hear_moves inp s₀ s (m.term = s.state.term ∧ ¬ s.catchingUp)
  obtain ⟨b, r, hkept, -⟩ := hear_kept s (m.term = s.state.term ∧ ¬ s.catchingUp)
    fun h1 h2 => hno ⟨h1.1, h1.2, h2⟩
  dsimp only
  generalize (if m.term = s.state.term ∧ ¬ s.catchingUp then
      if s.role = .candidate then s.becomeFollower else s.restartElectionTimer
    else s) = s₁ at hhear hkept
  have hu₁ : Untouched s₀ s₁ := (congrArg Kept.footing hkept).trans hu
  refine hhear.trans ?_
  split
  · exact .refl
  split
  · rename_i r hpay
    split
    · exact .refl
    rename_i habove
    have hreceive : Move inp s₀ s₁ (s₁.saveSnapshotData r) := .receive hinp ht hpay hu₁
    have hsaved := saveSnapshotData_kept s₁ r
    have hu₂ : Untouched s₀ (s₁.saveSnapshotData r) := (congrArg Kept.footing hsaved).trans hu₁
    refine hreceive.moves.trans ?_
    unfold handleSnapshotSyncReq
    dsimp only
    split
    · rename_i hdone
      split
      · exact (exit_sends _ _).moves
      · rename_i hrole
        have hstate : (s₁.saveSnapshotData r).state = s.state :=
          (congrArg Kept.state hsaved).trans (congrArg Kept.state hkept)
        have hsm : (s₁.saveSnapshotData r).smCommitIndex = s₁.smCommitIndex :=
          congrArg Kept.smCommitIndex hsaved
        refine applySnapshot_moves hinp ht hpay hdone (by rw [hstate]; exact hle) ?_
          (by simpa using hrole) hu₂
        rw [hsm]
        omega
    · exact .refl
  · exact .refl

/-! ## Dispatch -/

theorem updateTerm_untouched (hu : Untouched s₀ s) (t : Nat) :
    Untouched s₀ (s.updateTerm t).1 := by
  obtain ⟨b, r, st, hkept⟩ := updateTerm_kept s t
  exact (congrArg Kept.footing hkept).trans hu

theorem followTerm_moves {m : ReqMsg}
    (hc : MsgType.carriesTerm m.type = true → inp.CarriesTerm m.term) :
    Moves inp s₀ s (s.followTerm m) := by
  unfold followTerm
  split
  · rename_i hcarry
    refine (updateTerm_moves (hc hcarry)).trans ?_
    dsimp only
    split
    · exact Sends.moves (.soft rfl rfl rfl fun _ h => h)
    · exact .refl
  · exact .refl

theorem followTerm_untouched (hu : Untouched s₀ s) (m : ReqMsg) :
    Untouched s₀ (s.followTerm m) := by
  have hterm := updateTerm_untouched hu m.term
  unfold followTerm
  split
  · dsimp only
    split
    · exact hterm
    · exact hterm
  · exact hu

/-- A request of no later term leaves the server where it is. -/
theorem followTerm_of_le {m : ReqMsg} (hc : MsgType.carriesTerm m.type = true)
    (hle : m.term ≤ s.state.term) :
    s.followTerm m = if 0 < s.stepsToDown then { s with stepsToDown := 2 } else s := by
  unfold followTerm updateTerm
  rw [if_pos hc, if_neg (Nat.not_lt.mpr hle)]

theorem followTerm_ge (s : RaftServer) (m : ReqMsg) :
    s.state.term ≤ (s.followTerm m).state.term := by
  by_cases hc : MsgType.carriesTerm m.type = true
  · rcases Nat.le_total m.term s.state.term with hle | hle
    · rw [followTerm_of_le hc hle]
      split <;> exact le_rfl
    · exact hle.trans (followTerm_le hc)
  · unfold followTerm
    rw [if_neg hc]

theorem handleExtendedMsg_moves {m : ReqMsg} {h : RpcHandler} {env : Env}
    (hinp : inp = .req m h env) (hu : Untouched s₀ s)
    (hle : MsgType.carriesTerm m.type = true → m.term ≤ s.state.term)
    (hs : MsgType.carriesTerm m.type = false → s = s₀) :
    Moves inp s₀ s (s.handleExtendedMsg m env).1 := by
  unfold handleExtendedMsg
  split
  · exact (handleAddSrvReq_sends s m).moves
  · exact (handleRmSrvReq_sends s m).moves
  · rename_i ht
    exact handleLogSyncReq_moves hinp ht (hs (by rw [ht]; rfl))
  · rename_i ht
    exact handleJoinClusterReq_moves hinp ht (hs (by rw [ht]; rfl))
  · exact handleLeaveClusterReq_moves m
  · rename_i ht
    exact handleInstallSnapshotReq_moves hinp ht hu (hle (by rw [ht]; rfl))
  · rw [handlePrevoteReq_fst]
  · exact (exit_sends s _).moves

theorem processReq_moves {m : ReqMsg} {h : RpcHandler} {env : Env} (hinp : inp = .req m h env) :
    Moves inp s s (s.processReq m env).1 := by
  have hfollow : Moves inp s s (s.followTerm m) := followTerm_moves fun hc => hinp ▸ ⟨hc, rfl⟩
  have hu := followTerm_untouched (Untouched.refl s) m
  unfold processReq
  dsimp only
  refine hfollow.trans ?_
  split
  · rename_i ht
    have hc : MsgType.carriesTerm m.type = true := by rw [ht]; rfl
    refine handleAppendEntries_moves hinp ht hu (followTerm_ge s m) (followTerm_le hc) ?_
    intro heq hlead
    rw [followTerm_of_le hc heq.le]
    split <;> exact ⟨hlead, heq⟩
  · exact handleVoteReq_moves m
  · rename_i ht
    have hsame : s.followTerm m = s := by
      unfold followTerm
      rw [if_neg (by rw [ht]; decide)]
    rw [hsame]
    exact handleCliReq_moves hinp ht rfl
  · refine handleExtendedMsg_moves hinp hu followTerm_le fun hc => ?_
    unfold followTerm
    rw [if_neg (by simp [hc])]

theorem handlePeerResp_moves {m : RespMsg} {reqType : MsgType}
    (hinp : inp = .resp m .resp reqType) (hu : Untouched s₀ s) :
    Moves inp s₀ s (s.handlePeerResp m) := by
  unfold handlePeerResp
  split
  · have hterm : Moves inp s₀ s (s.updateTerm m.term).1 := updateTerm_moves (hinp ▸ ⟨rfl, rfl⟩)
    dsimp only
    split
    · exact hterm
    · split
      · rename_i ht
        exact handleVotingResp_moves m (hinp ▸ .inl ⟨rfl, ht⟩) hu
      · exact (handleAppendEntriesResp_sends s m).moves
      · exact (handleInstallSnapshotResp_sends s m).moves
      · exact (exit_sends s _).moves
  · exact .refl

theorem handle_moves (s : RaftServer) (inp : Input) : Moves inp s s (s.handle inp) := by
  have hresult : ∀ id h t ok, Untouched s (s.handleRpcResult id h t ok) := fun id h t ok =>
    (Untouched.refl s).sends (handleRpcResult_sends s id h t ok)
  cases hinp : inp with
  | electionTimeout => exact handleElectionTimeout_moves trivial (.refl s)
  | hbTimeout id => exact (handleHbTimeout_sends s id).moves
  | commitInBg => exact commitInBg_moves rfl
  | req m h env => exact (processReq_moves rfl).tail (.sends (reply_sends _ _ _))
  | resp m h reqType =>
      refine (handleRpcResult_sends s m.src h reqType true).moves.trans ?_
      cases h with
      | resp => exact handlePeerResp_moves rfl (hresult _ _ _ _)
      | exResp => exact handleExtResp_moves rfl (hresult _ _ _ _)
      | client => exact .refl
  | rpcError m h =>
      refine (handleRpcResult_sends s m.dst h m.type false).moves.trans ?_
      cases h with
      | exResp => exact handleExtRespErr_moves rfl rfl (hresult _ _ _ _)
      | resp => exact .refl
      | client => exact .refl
  | retry m => exact (Move.again (.inl ⟨m, rfl, rfl⟩)).moves
  | snapshotCompleted data => exact onSnapshotCompleted_moves rfl
  | replicateLog data leaseOk => exact replicateLog_moves rfl

theorem step_moves (s : RaftServer) (inp : Input) :
    Moves inp { s with out := [] } { s with out := [] } (s.step inp) := handle_moves _ inp

end RaftServer

/-- A process that is gone lets nothing out. -/
theorem Move.emits {inp : Input} {s₀ s s' : RaftServer} (h : Move inp s₀ s s') :
    Outputs (fun _ => True) s s' := by
  have hsave : ∀ (t : RaftServer) (st : SrvState), Outputs (fun _ => True) t (t.saveState st) :=
    fun t _ => RaftServer.saveState_outputs t trivial
  have hrestart : ∀ t : RaftServer, Outputs (fun _ => True) t t.restartElectionTimer :=
    fun t => RaftServer.restartElectionTimer_outputs t trivial trivial
  have hstop : ∀ t : RaftServer, Outputs (fun _ => True) t t.stopElectionTimer :=
    fun t => RaftServer.stopElectionTimer_outputs t trivial
  have hsends : ∀ {t t' : RaftServer}, Sends t t' → Outputs (fun _ => True) t t' :=
    fun h => h.toOutputs.mono fun _ _ => trivial
  have hset : ∀ {t t' : RaftServer}, t'.out = t.out → t'.exited = t.exited →
      Outputs (fun _ => True) t t' := Outputs.soft
  have hafter : ∀ {t t' t'' : RaftServer}, Outputs (fun _ => True) t' t'' → t'.out = t.out →
      t'.exited = t.exited → Outputs (fun _ => True) t t'' := fun h ho hx => (hset ho hx).trans h
  have hstand : Outputs (fun _ => True) s s.standing := by
    unfold RaftServer.standing
    refine Outputs.trans ?_ (hsave _ _)
    exact hafter (hsave _ _) rfl rfl
  have hcut : ∀ (l : LogStore) (idx : Nat), Outputs (fun _ => True) s
      ({ s with logStore := l }.emit (.compact idx)).stopElectionTimer := by
    intro l idx
    refine Outputs.trans ?_ (hstop _)
    exact hafter (.emit _ trivial) rfl rfl
  cases h with
  | sends h => exact hsends h
  | config => exact hset rfl rfl
  | again _ => exact .emit s trivial
  | restart => exact hrestart s
  | grant _ => exact hsave s _
  | stepDown _ _ =>
      exact RaftServer.updateTerm_outputs s _ (fun _ _ => trivial) trivial trivial
        fun _ => trivial
  | demote _ =>
      exact RaftServer.becomeFollower_outputs s (fun _ _ => trivial) trivial trivial
  | stand h => exact (hstand.trans (hsends h)).trans (hrestart _)
  | @lead s₁ s₂ s' _ h₁ h₂ h₃ _ =>
      have hfirst : Outputs (fun _ => True) s s₁ := by
        rcases h₁ with rfl | rfl
        · exact hset rfl rfl
        · exact hstand
      have hled : Outputs (fun _ => True) s₂.stopElectionTimer
          { s₂.stopElectionTimer with role := .leader, leader := s₂.stopElectionTimer.id } :=
        hset rfl rfl
      exact ((((hfirst.trans (hsends h₂)).trans (hstop s₂)).trans hled).trans (hsends h₃)).trans
        (RaftServer.logInitialConfig_outputs s' fun _ _ _ _ => trivial)
  | @write m _ _ _ _ _ _ _ =>
      have hwrite := RaftServer.writeEntries_outputs (P := fun _ => True) s (m.lastLogIdx + 1)
        m.logEntries ⟨fun _ _ => trivial, fun _ _ => trivial, fun _ _ => trivial,
          fun _ _ _ _ => trivial⟩
      exact hwrite.trans (hset rfl rfl)
  | create _ _ _ _ => exact RaftServer.appendLog_outputs s trivial
  | newConfig _ _ => exact hafter (RaftServer.appendLog_outputs _ trivial) rfl rfl
  | giveUp _ _ _ => exact hset rfl rfl
  | pack _ _ _ _ _ _ => exact hafter (.emit _ trivial) rfl rfl
  | join _ _ _ _ _ =>
      unfold RaftServer.invited
      exact hafter (hsave _ _) rfl rfl
  | @reach e _ _ _ _ _ _ h =>
      obtain ⟨hout, hx, -⟩ := RaftServer.reached_out s e
      refine Outputs.trans ⟨⟨_, hout, fun _ _ => trivial, fun hs => if_pos hs⟩, fun hs => ?_⟩
        (hsends h)
      exact hx.trans hs
  | lost _ => exact hafter (.exit _ trivial) rfl rfl
  | complete _ _ _ => exact hset rfl rfl
  | compact _ _ _ _ => exact hafter (.emit _ trivial) rfl rfl
  | receive _ _ _ _ => exact RaftServer.saveSnapshotData_outputs s _ trivial
  | @install _ _ _ r l c _ s₁ s₂ _ _ _ _ _ _ _ _ _ h₁ h₂ =>
      have hover : Outputs (fun _ => True) s
          { s.overtaken r.snapshot l with config := c, smSnapshot := some r.snapshot } :=
        ((hcut l r.snapshot.lastLogIdx).trans (.emit _ trivial)).trans (hset rfl rfl)
      have hsaved := (hover.trans (hsends h₁)).trans (hsave s₁ s₁.state)
      exact (hsaved.trans (hafter (hsends h₂) rfl rfl)).trans (hrestart s₂)
  | @halt l idx r => exact (hcut l idx).trans (.exit _ trivial)

/-- A process that is gone stays gone. -/
theorem Move.exited {inp : Input} {s₀ s s' : RaftServer} (h : Move inp s₀ s s')
    (hx : s.exited = true) : s'.exited = true := h.emits.exited hx

end Ns3Raft.Raft
