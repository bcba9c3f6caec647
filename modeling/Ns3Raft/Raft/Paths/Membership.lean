import Ns3Raft.Raft.Paths.Handlers

/-! # Membership changes, commits and snapshots follow the protocol steps -/

namespace Ns3Raft.Raft

/-- From `s` to `s'` only quiet outputs went out. -/
structure Emits (inp : Input) (s s' : RaftServer) : Prop where
  exited : s'.exited = s.exited
  frozen : s.exited = true → s'.out = s.out
  out : ∃ os, s'.out = s.out ++ os ∧ ∀ o ∈ os, Quiet inp o

namespace Emits

variable {inp : Input} {s s' s'' : RaftServer}

theorem silent (hex : s'.exited = s.exited) (hout : s'.out = s.out) : Emits inp s s' :=
  ⟨hex, fun _ => hout, [], by simp [hout], by simp⟩

theorem refl (s : RaftServer) : Emits inp s s := silent rfl rfl

theorem trans (h : Emits inp s s') (h' : Emits inp s' s'') : Emits inp s s'' := by
  obtain ⟨os, h1, h2⟩ := h.out
  obtain ⟨os', h3, h4⟩ := h'.out
  refine ⟨h'.exited.trans h.exited, fun hs => ?_, os ++ os', by simp [h3, h1], ?_⟩
  · rw [h'.frozen (h.exited.trans hs), h.frozen hs]
  · intro o ho
    rcases List.mem_append.mp ho with ho | ho
    · exact h2 o ho
    · exact h4 o ho

theorem emit {o : Output} (h : Quiet inp o) : Emits inp s (s.emit o) := by
  cases hs : s.exited with
  | true => exact .silent (by simp [RaftServer.emit, hs]) (by simp [RaftServer.emit, hs])
  | false =>
      refine ⟨by simp [RaftServer.emit, hs], fun h => by simp [hs] at h, [o], ?_, ?_⟩
      · simp [RaftServer.emit, hs]
      · simpa using h

theorem foldl {α : Type} {f : RaftServer → α → RaftServer} (h : ∀ s a, Emits inp s (f s a))
    (l : List α) (s : RaftServer) : Emits inp s (l.foldl f s) := by
  induction l generalizing s with
  | nil => exact refl s
  | cons a l ih => exact (h s a).trans (ih _)

end Emits

theorem Path.quiet {inp : Input} {n₀ n : Core} {os : List Output} (h : ∀ o ∈ os, Quiet inp o) :
    Path inp n₀ n os n := by
  induction os with
  | nil => exact .nil
  | cons o os ih =>
      exact .cons (.quiet (h o List.mem_cons_self))
        (ih fun o ho => h o (List.mem_cons_of_mem _ ho))

/-- One silent step of the protocol state among quiet outputs. -/
theorem Traces.among {inp : Input} {n₀ : Core} {s s' : RaftServer}
    (h : NodeStep inp n₀ s.core none s'.core) (he : Emits inp s s') : Traces inp n₀ s s' := by
  cases hs : s.exited with
  | true => exact .frozen hs (he.exited.trans hs) (he.frozen hs)
  | false =>
      obtain ⟨os, h1, h2⟩ := he.out
      exact .live hs (he.exited.trans hs) ((Path.single h).trans (.quiet h2)) (by simp [h1])

namespace RaftServer

variable {inp : Input} {n₀ : Core} {s : RaftServer}

/-! ## Applying a configuration -/

theorem addPeer_core (s : RaftServer) (srv : SrvConfig) :
    (s.addPeer srv).core = { s.core with
      peers := addMember s.core.peers srv } := by
  have hids : s.core.peers.map (·.1) = s.peerIds := core_peerIds s
  obtain ⟨s₁, hs₁, hcore⟩ : ∃ s₁ : RaftServer,
      (if srv.id ∈ s.peerIds then s
      else { s with peers := s.peers ++
        [{ Peer.new s.params srv with nextLogIdx := s.logStore.nextSlot }] }) = s₁ ∧
      s₁.core = { s.core with
        peers := if srv.id ∈ s.peerIds then s.core.peers
                 else s.core.peers ++ [(srv.id, 0)] } := by
    refine ⟨_, rfl, ?_⟩
    split
    · rfl
    · simp [core, Peer.new, Peer.id]
  unfold addPeer
  rw [hs₁, addMember, hids, ← hcore]
  dsimp only
  split
  · split
    · exact enableHb_core s₁ srv.id
    · rename_i j _
      split
      · have haim : ∀ p : Peer, ({ p with nextLogIdx := j.nextLogIdx } : Peer).id = p.id ∧
            ({ p with nextLogIdx := j.nextLogIdx } : Peer).matchedIdx = p.matchedIdx :=
          fun p => ⟨rfl, rfl⟩
        exact (updatePeer_core _ srv.id haim).trans (enableHb_core s₁ srv.id)
      · exact enableHb_core s₁ srv.id
  · rfl

theorem updatePeer_emits (id : SrvId) (f : Peer → Peer) : Emits inp s (s.updatePeer id f) :=
  .silent rfl rfl

theorem enableHb_emits (id : SrvId) : Emits inp s (s.enableHb id) :=
  (updatePeer_emits id _).trans (.emit (o := .schedule _) trivial)

theorem addPeer_emits (srv : SrvConfig) : Emits inp s (s.addPeer srv) := by
  obtain ⟨s₁, hs₁, hem⟩ : ∃ s₁ : RaftServer,
      (if srv.id ∈ s.peerIds then s
      else { s with peers := s.peers ++
        [{ Peer.new s.params srv with nextLogIdx := s.logStore.nextSlot }] }) = s₁ ∧
      Emits inp s s₁ := by
    refine ⟨_, rfl, ?_⟩
    split
    · exact .refl s
    · exact .silent rfl rfl
  unfold addPeer
  rw [hs₁]
  refine hem.trans ?_
  dsimp only
  split
  · split
    · exact enableHb_emits srv.id
    · split
      · exact (enableHb_emits srv.id).trans (.silent rfl rfl)
      · exact enableHb_emits srv.id
  · exact .refl s₁

theorem erasePeer_core (s : RaftServer) (id : SrvId) :
    (s.erasePeer id).core = { s.core with
      peers := s.core.peers.filter fun p => decide (p.1 ≠ id) } := by
  unfold erasePeer
  split
  · rw [emit_core]
    simp [core, List.filter_map, Function.comp_def]
  · rename_i h
    have hall : s.core.peers.filter (fun p => decide (p.1 ≠ id)) = s.core.peers := by
      rw [List.filter_eq_self]
      intro p hp
      rw [← core_peerIds] at h
      simpa using fun heq : p.1 = id => h (heq ▸ List.mem_map_of_mem hp)
    rw [hall]

theorem erasePeer_emits (id : SrvId) : Emits inp s (s.erasePeer id) := by
  unfold erasePeer
  split
  · have hfilter : Emits inp s { s with peers := s.peers.filter fun p => decide (p.id ≠ id) } :=
      .silent rfl rfl
    exact hfilter.trans (.emit (o := .cancel _) trivial)
  · exact .refl s

theorem addPeer_foldl_core (l : List SrvConfig) (s : RaftServer) :
    (l.foldl addPeer s).core = { s.core with
      peers := l.foldl addMember s.core.peers } := by
  induction l generalizing s with
  | nil => rfl
  | cons srv l ih =>
      rw [List.foldl_cons, ih, addPeer_core]
      rfl

theorem erasePeer_foldl_core (l : List SrvId) (s : RaftServer) :
    (l.foldl erasePeer s).core = { s.core with
      peers := s.core.peers.filter fun p => decide (p.1 ∉ l) } := by
  induction l generalizing s with
  | nil =>
      simp only [List.foldl_nil, List.not_mem_nil, not_false_eq_true, decide_true,
        List.filter_true]
  | cons id l ih =>
      rw [List.foldl_cons, ih, erasePeer_core, List.filter_filter]
      simp only [List.mem_cons, not_or, Bool.decide_and, Bool.and_comm]

theorem mem_addPeers {l : List SrvConfig} {ps : List (SrvId × Nat)} {p : SrvId × Nat}
    (h : p ∈ l.foldl addMember ps) :
    p ∈ ps ∨ ∃ srv ∈ l, p.1 = srv.id := by
  induction l generalizing ps with
  | nil => exact .inl h
  | cons srv l ih =>
      rcases ih h with h | ⟨c, hc, hp⟩
      · unfold addMember at h
        split at h
        · exact .inl h
        · rcases List.mem_append.mp h with h | h
          · exact .inl h
          · exact .inr ⟨srv, List.mem_cons_self, by simp [List.mem_singleton.mp h]⟩
      · exact .inr ⟨c, List.mem_cons_of_mem _ hc, hp⟩

/-- Dropping the removed ids leaves exactly the members of the new configuration. -/
theorem changePeers_core (s : RaftServer) (c : ClusterConfig) :
    (s.changePeers c).core = { s.core with peers := s.core.changePeers c } := by
  unfold changePeers
  dsimp only
  rw [erasePeer_foldl_core, addPeer_foldl_core]
  have hpeers : ((c.servers.filter fun srv => decide (srv.id ∉ s.peerIds ∧ s.id ≠ srv.id)).foldl
        addMember s.core.peers).filter
        (fun p => decide (p.1 ∉ s.peerIds.filter fun id => decide (id ∉ c.ids))) =
      s.core.changePeers c := by
    unfold Core.changePeers
    rw [core_peerIds, core_id]
    refine List.filter_congr fun p hp => ?_
    rcases mem_addPeers hp with hp | ⟨srv, hsrv, hid⟩
    · have hmem : p.1 ∈ s.peerIds := core_peerIds s ▸ List.mem_map_of_mem hp
      simp [hmem]
    · have hmem : p.1 ∈ c.ids :=
        hid ▸ List.mem_map_of_mem (List.mem_of_mem_filter hsrv)
      simp [hmem]
  rw [← hpeers]

theorem reconfigure_core (s : RaftServer) (c : ClusterConfig) :
    (s.reconfigure c).core = s.core.reconfigure c := by
  have hcore := changePeers_core s c
  unfold reconfigure
  generalize s.changePeers c = s₁ at hcore
  have hcond : (s₁.id ∉ c.ids ∧ ¬ s₁.catchingUp = true) ↔
      (s.core.id ∉ c.ids ∧ ¬ s.core.catchingUp = true) := by
    rw [show s₁.id = s.core.id from congrArg Core.id hcore,
      show s₁.catchingUp = s.core.catchingUp from congrArg Core.catchingUp hcore]
  dsimp only
  unfold Core.reconfigure
  split
  · rename_i h
    rw [emit_core, emit_core, hcore, if_pos (hcond.mp h)]
  · rename_i h
    have hset : ({ s₁ with config := c } : RaftServer).core = { s₁.core with config := c } := rfl
    rw [hset, hcore, if_neg (mt hcond.mpr h)]

theorem reconfigure_emits (c : ClusterConfig) : Emits inp s (s.reconfigure c) := by
  have hchange : Emits inp s (s.changePeers c) :=
    (Emits.foldl (fun _ srv => addPeer_emits srv) _ s).trans
      (Emits.foldl (fun _ id => erasePeer_emits id) _ _)
  unfold reconfigure
  refine hchange.trans ?_
  dsimp only
  split
  · exact (Emits.emit (o := .saveConfig _) trivial).trans (.emit (o := .systemExit _) trivial)
  · exact .silent rfl rfl

theorem reconfigure_traces {c : ClusterConfig}
    (h : NodeStep inp n₀ s.core none (s.core.reconfigure c)) :
    Traces inp n₀ s (s.reconfigure c) :=
  .among (by rwa [reconfigure_core]) (reconfigure_emits c)

/-! ## The join and leave exchanges -/

theorem handleRpcResult_core (s : RaftServer) (id : SrvId) (h : RpcHandler) (reqType : MsgType)
    (ok : Bool) : (s.handleRpcResult id h reqType ok).core = s.core := by
  unfold handleRpcResult
  split
  · rfl
  split
  · rfl
  · refine updatePeer_core s id fun p => ?_
    unfold Peer.rpcResult
    dsimp only
    split <;> split <;> exact ⟨rfl, rfl⟩

theorem handleRpcResult_traces (id : SrvId) (h : RpcHandler) (reqType : MsgType) (ok : Bool) :
    Traces inp n₀ s (s.handleRpcResult id h reqType ok) := by
  refine .soft (handleRpcResult_core s id h reqType ok) ?_ ?_
  all_goals
    unfold handleRpcResult
    split
    · rfl
    split <;> rfl

/-- The new configuration of either exchange is appended without a look at the role. -/
theorem appendNewConfig_traces (servers : List SrvConfig) (hinp : inp.Adds ∨ inp.Removes)
    (hrole : s.role = n₀.role) (hstate : s.state = n₀.state) :
    Traces inp n₀ s (s.appendNewConfig servers) := by
  have hl : MayLead inp n₀ s.core := .inr ⟨hinp, hrole, hstate⟩
  have hsoft : Traces inp n₀ s { s with configChanging := true } := .soft rfl rfl rfl
  unfold appendNewConfig
  refine hsoft.trans ?_
  refine Traces.trans (appendLog_traces (c := s.config) hl rfl (.inl ⟨_, rfl, .inr hinp⟩) rfl)
    (requestAppendEntries_traces (.inr ⟨hinp, ?_, ?_⟩))
  · exact (congrArg Core.role (appendLog_core _ _)).trans hrole
  · exact (congrArg Core.state (appendLog_core _ _)).trans hstate

theorem setSrvToJoin_traces (j : Option Peer) : Traces inp n₀ s { s with srvToJoin := j } :=
  .soft rfl rfl rfl

theorem syncLogToNewSrv_traces (startIdx : Nat) (hinp : inp.Adds) (hn : s.core = n₀) :
    Traces inp n₀ s (s.syncLogToNewSrv startIdx) := by
  unfold syncLogToNewSrv
  split
  · exact .refl s
  dsimp only
  split
  · exact appendNewConfig_traces _ (.inl hinp) (congrArg Core.role hn) (congrArg Core.state hn)
  split
  · split
    · rename_i hr
      exact .exit (exitOk_of_ne (createSyncSnapshotReq_error hr))
    · rename_i req j' hr
      refine (setSrvToJoin_traces (some j')).trans (.emit (o := .send _) ?_)
      refine .inr (.inr (.inr (.inl ⟨hinp, rfl, ?_⟩)))
      simp [(createSyncSnapshotReq_ok hr).1]
  split
  · exact .exit (exitOk_of_ne (by decide))
  · refine .emit (o := .send _) (.inr (.inr (.inr (.inl ⟨hinp, rfl, ?_⟩))))
    simp

theorem inviteSrvToJoinCluster_traces (hinp : inp.Adds) :
    Traces inp n₀ s s.inviteSrvToJoinCluster := by
  unfold inviteSrvToJoinCluster
  split
  · exact .refl s
  · refine .emit (o := .send _) (.inr (.inr (.inr (.inl ⟨hinp, rfl, ?_⟩))))
    simp

theorem handleAddSrvReq_traces {m : ReqMsg} {h : RpcHandler} {env : Env}
    (hinp : inp = .req m h env) (htype : m.type = .addServerRequest) :
    Traces inp n₀ s (reply (s.handleAddSrvReq m) h m.type) := by
  have hadds : inp.Adds := hinp ▸ htype
  unfold handleAddSrvReq
  dsimp only
  split
  · split
    · exact reply_other hinp htype rfl (by decide)
    split
    · exact reply_other hinp htype rfl (by decide)
    split
    · exact reply_other hinp htype rfl (by decide)
    · rename_i srv _ _ _ _
      have hset : Traces inp n₀ s { s with
          confToAdd := some srv, srvToJoin := some (Peer.new s.params srv) } := .soft rfl rfl rfl
      exact hset.trans ((inviteSrvToJoinCluster_traces hadds).trans (reply_other hinp htype rfl (by decide)))
  · exact reply_other hinp htype rfl (by decide)

theorem handleJoinClusterReq_traces {m : ReqMsg} {h : RpcHandler} {env : Env}
    (hinp : inp = .req m h env) (htype : m.type = .joinClusterRequest) (hn : s.core = n₀) :
    Traces inp n₀ s (reply (s.handleJoinClusterReq m) h m.type) := by
  unfold handleJoinClusterReq
  dsimp only
  split
  · rename_i t c hpay
    split
    · exact reply_other hinp htype rfl (by decide)
    · rename_i hcatch
      have hjoin : Traces inp n₀ s ({ s with
          catchingUp := true, role := .follower, leader := m.src, smCommitIndex := 0,
          quickCommitIdx := 0 }.saveState ⟨m.term, noServer⟩) :=
        .loud (.join hinp htype hn (Bool.eq_false_iff.mpr hcatch) ⟨_, c, hpay, rfl⟩) rfl rfl
      refine hjoin.trans (Traces.trans (reconfigure_traces (.joinConf hinp htype hpay)) ?_)
      exact reply_other hinp htype rfl (by decide)
  · exact reply_other hinp htype rfl (by decide)

theorem handleLogSyncReq_traces {m : ReqMsg} {h : RpcHandler} {env : Env}
    (hinp : inp = .req m h env) (htype : m.type = .syncLogRequest) :
    Traces inp n₀ s (reply (s.handleLogSyncReq m) h m.type) := by
  unfold handleLogSyncReq
  dsimp only
  split
  · rename_i es hpay
    split
    · exact reply_other hinp htype rfl (by decide)
    rename_i hcatch
    have hcatch : s.core.catchingUp = true := Classical.not_not.mp hcatch
    split
    · exact .exit (exitOk_of_ne (by decide))
    · rename_i l hl
      have happly : Traces inp n₀ s
          ({ s with logStore := l }.emit (.applyPack (m.lastLogIdx + 1) es)) :=
        .loud (.bulk (.pack hinp htype hpay hcatch hl)) rfl rfl
      refine happly.trans (Traces.trans (commit_traces fun hk => ?_) (reply_other hinp htype rfl (by decide)))
      refine .bulk (.packed hinp htype ?_ hk)
      exact (congrArg Core.catchingUp (emit_core _ _)).trans hcatch
  · exact reply_other hinp htype rfl (by decide)

theorem handleRmSrvReq_traces {m : ReqMsg} {h : RpcHandler} {env : Env}
    (hinp : inp = .req m h env) (htype : m.type = .removeServerRequest) :
    Traces inp n₀ s (reply (s.handleRmSrvReq m) h m.type) := by
  unfold handleRmSrvReq
  dsimp only
  split
  · split
    · exact reply_other hinp htype rfl (by decide)
    split
    · exact reply_other hinp htype rfl (by decide)
    split
    · exact reply_other hinp htype rfl (by decide)
    split
    · exact reply_other hinp htype rfl (by decide)
    · refine Traces.trans (.emit (o := .send _) ?_) (reply_other hinp htype rfl (by decide))
      exact .inr (.inr (.inl ⟨rfl, rfl, m, h, env, hinp, htype⟩))
  · exact reply_other hinp htype rfl (by decide)

theorem handleLeaveClusterReq_traces {m : ReqMsg} {h : RpcHandler} {env : Env}
    (hinp : inp = .req m h env) (htype : m.type = .leaveClusterRequest) :
    Traces inp n₀ s (reply (s.handleLeaveClusterReq m) h m.type) := by
  unfold handleLeaveClusterReq
  dsimp only
  split
  · exact reply_other hinp htype rfl (by decide)
  · have hset : Traces inp n₀ s { s with stepsToDown := 2 } := .soft rfl rfl rfl
    exact hset.trans (reply_other hinp htype rfl (by decide))

theorem handleExtResp_traces {m : RespMsg} {reqType : MsgType}
    (hinp : inp = .resp m .exResp reqType) (hn : s.core = n₀) :
    Traces inp n₀ s (s.handleExtResp m) := by
  have hadds : m.type ∈ [.syncLogResponse, .joinClusterResponse, .installSnapshotResponse] →
      inp.Adds := fun h => hinp ▸ ⟨rfl, h⟩
  unfold handleExtResp
  split
  · rename_i htype
    split
    · exact .refl s
    · exact (setSrvToJoin_traces _).trans
        (syncLogToNewSrv_traces _ (hadds (by simp [htype])) hn)
  · rename_i htype
    split
    · exact syncLogToNewSrv_traces _ (hadds (by simp [htype])) hn
    · exact .refl s
  · rename_i htype
    split
    · rename_i hacc
      exact appendNewConfig_traces _ (.inr (hinp ▸ ⟨rfl, htype, hacc⟩)) (congrArg Core.role hn)
        (congrArg Core.state hn)
    · exact .refl s
  · rename_i htype
    split
    · exact .refl s
    split
    · unfold handleSnapshotSyncResp
      split
      · exact .exit (exitOk_of_ne (by decide))
      · dsimp only
        exact (setSrvToJoin_traces _).trans
          (syncLogToNewSrv_traces _ (hadds (by simp [htype])) hn)
    · exact .refl s
  · exact handlePrevoteResp_traces hn
  · exact .exit (exitOk_of_ne (by decide))

theorem setRetryPeer_traces (req : ReqMsg) (p : Peer) :
    Traces inp n₀ s (s.setRetryPeer req p) := by
  unfold setRetryPeer
  split
  · refine .updatePeer req.dst ?_
    exact fun q => ⟨rfl, rfl⟩
  · exact setSrvToJoin_traces _

theorem handleExtRespErr_traces {m : ReqMsg} (hinp : inp = .rpcError m .exResp)
    (hn : s.core = n₀) : Traces inp n₀ s (s.handleExtRespErr m) := by
  unfold handleExtRespErr
  split
  swap
  · exact .refl s
  split
  · exact .refl s
  rename_i p _
  split
  · split
    · rename_i htype
      have hrem : inp.Removes := hinp ▸ ⟨rfl, htype⟩
      obtain ⟨s₁, hs₁, hrole, hstate, htr⟩ : ∃ s₁ : RaftServer,
          (if s.peers.length = 1 then s.erasePeer p.id else s) = s₁ ∧
          s₁.role = n₀.role ∧ s₁.state = n₀.state ∧ Traces inp n₀ s s₁ := by
        refine ⟨_, rfl, ?_⟩
        split
        · rename_i hlen
          have hcore := erasePeer_core s p.id
          have hrole : (s.erasePeer p.id).role = s.role := congrArg Core.role hcore
          have hstate : (s.erasePeer p.id).state = s.state := congrArg Core.state hcore
          refine ⟨hrole.trans (congrArg Core.role hn), hstate.trans (congrArg Core.state hn),
            .among ?_ ?_⟩
          · rw [hcore]
            exact .erase hinp htype (by simpa [core] using hlen)
          · exact erasePeer_emits p.id
        · exact ⟨congrArg Core.role hn, congrArg Core.state hn, .refl s⟩
      dsimp only
      rw [hs₁]
      exact htr.trans (appendNewConfig_traces _ (.inr hrem) hrole hstate)
    · exact .soft rfl rfl rfl
  · exact (setRetryPeer_traces m _).trans (.emit (o := .schedule (.retry m)) hinp)

end RaftServer

end Ns3Raft.Raft
