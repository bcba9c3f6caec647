import Ns3Raft.Raft.Step

/-! # What sending leaves alone

Most functions of the server build requests, keep the books of their peers and
set heartbeat timers. They leave the rest of the record as it is, and what they
emit is plain: no change of the log, of the saved state or of the election
timer, and nothing handed to the state machine in order. The requests that carry
entries or a snapshot are made from what the server holds.
-/

namespace Ns3Raft.Raft

def MsgType.carriesLog (t : MsgType) : Bool :=
  t = .appendEntriesRequest ∨ t = .syncLogRequest ∨ t = .installSnapshotRequest

def Output.plain : Output → Bool
  | .schedule (.heartbeat _) | .cancel (.heartbeat _) => true
  | .send (.req m _) => !m.type.carriesLog
  | .schedule _ | .cancel _ => false
  | .saveState _ | .append .. | .writeAt .. | .applyPack .. | .compact _ | .reach .. | .commit ..
  | .applySnapshot _ => false
  | _ => true

/-- The fields that sending does not touch. -/
structure Kept where
  id : SrvId
  leader : SrvId
  role : SrvRole
  state : SrvState
  smCommitIndex : Nat
  configChanging : Bool
  catchingUp : Bool
  electionTask : Bool
  logStore : LogStore
  config : ClusterConfig
  smSnapshot : Option Snapshot
  lastSnapshot : Option Snapshot
  smSnapshotData : List (Nat × List UInt8)

def RaftServer.kept (s : RaftServer) : Kept where
  id := s.id
  leader := s.leader
  role := s.role
  state := s.state
  smCommitIndex := s.smCommitIndex
  configChanging := s.configChanging
  catchingUp := s.catchingUp
  electionTask := s.electionTask
  logStore := s.logStore
  config := s.config
  smSnapshot := s.smSnapshot
  lastSnapshot := s.lastSnapshot
  smSnapshotData := s.smSnapshotData

/-- A snapshot the server may send: its last one, or one it is sending. -/
def RaftServer.Knows (s : RaftServer) (snp : Snapshot) : Prop :=
  s.lastSnapshot = some snp ∨
    ∃ p ∈ s.peers ++ s.srvToJoin.toList, p.snpSyncCtx.map (·.1) = some snp

/-- The entries of an append request follow an entry of known term in the log. -/
def RaftServer.AppendsFrom (s : RaftServer) (m : ReqMsg) : Prop :=
  s.termForLog m.lastLogIdx = some m.lastLogTerm ∧
    (m.logEntries ≠ [] → s.logStore.startIndex ≤ m.lastLogIdx + 1) ∧
    ∃ k, m.payload =
      .entries ((s.logStore.entries.drop (m.lastLogIdx + 1 - s.logStore.startIndex)).take k)

/-- A request with entries or a snapshot that is made from what the server holds. -/
def RaftServer.Vouches (s : RaftServer) : Output → Prop
  | .send (.req m _) => m.term = s.state.term ∧ m.type.carriesLog = true ∧
      (m.type = .appendEntriesRequest → s.AppendsFrom m) ∧
      (m.type = .syncLogRequest →
        ∃ a k, m.payload = .logPack ((s.logStore.entries.drop a).take k)) ∧
      (m.type = .installSnapshotRequest →
        ∃ r, m.payload = .snpSyncReq r ∧ s.Knows r.snapshot)
  | _ => False

theorem RaftServer.Vouches.send {s : RaftServer} {o : Output} (h : s.Vouches o) :
    ∃ p, o = .send p := by
  cases o with
  | send p => exact ⟨p, rfl⟩
  | _ => exact h.elim

/-- What comes out on the way from `s` to `s'` satisfies `P`; a process that is
gone emits nothing. -/
structure Outputs (P : Output → Prop) (s s' : RaftServer) : Prop where
  out : ∃ os, s'.out = s.out ++ os ∧ (∀ o ∈ os, P o) ∧ (s.exited = true → os = [])
  exited : s.exited = true → s'.exited = true

/-- From `s` to `s'` nothing but sending. -/
structure Sends (s s' : RaftServer) : Prop
    extends Outputs (fun o => o.plain = true ∨ s.Vouches o) s s' where
  kept : s'.kept = s.kept
  known : ∀ snp, s'.Knows snp → s.Knows snp

namespace Outputs

variable {P Q : Output → Prop} {s s' s'' : RaftServer}

theorem soft (ho : s'.out = s.out) (hx : s'.exited = s.exited) : Outputs P s s' :=
  ⟨⟨[], by simp [ho]⟩, fun h => hx.trans h⟩

theorem trans (h : Outputs P s s') (h' : Outputs P s' s'') : Outputs P s s'' := by
  obtain ⟨os, ho, hp, hx⟩ := h.out
  obtain ⟨os', ho', hp', hx'⟩ := h'.out
  refine ⟨⟨os ++ os', by rw [ho', ho, List.append_assoc], fun o ho => ?_, fun he => ?_⟩,
    fun hx => h'.exited (h.exited hx)⟩
  · rcases List.mem_append.mp ho with ho | ho
    · exact hp o ho
    · exact hp' o ho
  · rw [hx he, hx' (h.exited he), List.append_nil]

theorem mono (hPQ : ∀ o, P o → Q o) (h : Outputs P s s') : Outputs Q s s' :=
  have ⟨os, ho, hp, hx⟩ := h.out
  ⟨⟨os, ho, fun o hmem => hPQ o (hp o hmem), hx⟩, h.exited⟩

theorem emit (s : RaftServer) {o : Output} (ho : P o) : Outputs P s (s.emit o) := by
  unfold RaftServer.emit
  split
  · exact .soft rfl rfl
  · rename_i hx
    exact ⟨⟨[o], rfl, by simpa using ho, fun h => absurd h hx⟩, fun h => h⟩

theorem exit (s : RaftServer) {r : ExitReason} (hr : P (.exit r)) : Outputs P s (s.exit r) := by
  unfold RaftServer.exit
  split
  · exact .soft rfl rfl
  · rename_i hx
    exact ⟨⟨[.exit r], rfl, by simpa using hr, fun h => absurd h hx⟩, fun _ => rfl⟩

theorem foldl {α : Type} {f : RaftServer → α → RaftServer} (hf : ∀ s a, Outputs P s (f s a))
    (l : List α) (s : RaftServer) : Outputs P s (l.foldl f s) := by
  induction l generalizing s with
  | nil => exact .soft rfl rfl
  | cons a l ih => exact (hf s a).trans (ih _)

end Outputs

namespace Sends

variable {s s' s'' : RaftServer}

theorem refl (s : RaftServer) : Sends s s := ⟨.soft rfl rfl, rfl, fun _ h => h⟩

/-- What is vouched for later was so before. -/
theorem vouches (h : Sends s s') {o : Output} (ho : s'.Vouches o) : s.Vouches o := by
  have hstate : s'.state = s.state := congrArg Kept.state h.kept
  have hlog : s'.logStore = s.logStore := congrArg Kept.logStore h.kept
  have hsnp : s'.smSnapshot = s.smSnapshot := congrArg Kept.smSnapshot h.kept
  cases o with
  | send p =>
      cases p with
      | req m handler =>
          obtain ⟨hterm, hcarries, happend, hsync, hinstall⟩ := ho
          refine ⟨hterm.trans (by rw [hstate]), hcarries, fun ht => ?_, fun ht => ?_, fun ht => ?_⟩
          · obtain ⟨hprev, hstart, hentries⟩ := happend ht
            rw [hlog] at hstart hentries
            refine ⟨?_, hstart, hentries⟩
            rw [← hprev]
            unfold RaftServer.termForLog
            rw [hlog, hsnp]
          · rw [← hlog]
            exact hsync ht
          · obtain ⟨r, hpay, hknown⟩ := hinstall ht
            exact ⟨r, hpay, h.known _ hknown⟩
      | resp _ _ _ => exact ho.elim
  | _ => exact ho.elim

theorem trans (h : Sends s s') (h' : Sends s' s'') : Sends s s'' :=
  ⟨h.toOutputs.trans (h'.toOutputs.mono fun _ ho => ho.imp_right h.vouches),
    h'.kept.trans h.kept, fun snp hs => h.known snp (h'.known snp hs)⟩

/-- Fields that are not kept. -/
theorem soft (hk : s'.kept = s.kept) (ho : s'.out = s.out) (hx : s'.exited = s.exited)
    (hs : ∀ snp, s'.Knows snp → s.Knows snp) : Sends s s' :=
  ⟨.soft ho hx, hk, hs⟩

/-- Fields that are not kept, the peer objects among them. -/
theorem ofPeers (hk : s'.kept = s.kept) (ho : s'.out = s.out) (hx : s'.exited = s.exited)
    (hp : ∀ p ∈ s'.peers ++ s'.srvToJoin.toList, ∀ snp,
      p.snpSyncCtx.map (·.1) = some snp → s.Knows snp) : Sends s s' := by
  refine soft hk ho hx fun snp hs => ?_
  rcases hs with hs | ⟨p, hmem, hs⟩
  · exact .inl ((congrArg Kept.lastSnapshot hk).symm.trans hs)
  · exact hp p hmem snp hs

theorem foldl {α : Type} {f : RaftServer → α → RaftServer} (hf : ∀ s a, Sends s (f s a))
    (l : List α) (s : RaftServer) : Sends s (l.foldl f s) := by
  induction l generalizing s with
  | nil => exact refl s
  | cons a l ih => exact (hf s a).trans (ih _)

theorem id (h : Sends s s') : s'.id = s.id := congrArg Kept.id h.kept

theorem leader (h : Sends s s') : s'.leader = s.leader := congrArg Kept.leader h.kept

theorem role (h : Sends s s') : s'.role = s.role := congrArg Kept.role h.kept

theorem catchingUp (h : Sends s s') : s'.catchingUp = s.catchingUp :=
  congrArg Kept.catchingUp h.kept

theorem electionTask (h : Sends s s') : s'.electionTask = s.electionTask :=
  congrArg Kept.electionTask h.kept

theorem configChanging (h : Sends s s') : s'.configChanging = s.configChanging :=
  congrArg Kept.configChanging h.kept

theorem logStore (h : Sends s s') : s'.logStore = s.logStore := congrArg Kept.logStore h.kept

theorem smCommitIndex (h : Sends s s') : s'.smCommitIndex = s.smCommitIndex :=
  congrArg Kept.smCommitIndex h.kept

theorem config (h : Sends s s') : s'.config = s.config := congrArg Kept.config h.kept

theorem state (h : Sends s s') : s'.state = s.state := congrArg Kept.state h.kept

theorem smSnapshot (h : Sends s s') : s'.smSnapshot = s.smSnapshot :=
  congrArg Kept.smSnapshot h.kept

theorem lastSnapshot (h : Sends s s') : s'.lastSnapshot = s.lastSnapshot :=
  congrArg Kept.lastSnapshot h.kept

end Sends

namespace RaftServer

/-! ## Primitives -/

theorem emit_kept (s : RaftServer) (o : Output) : (s.emit o).kept = s.kept := by
  unfold emit
  split <;> rfl

theorem exit_kept (s : RaftServer) (r : ExitReason) : (s.exit r).kept = s.kept := by
  unfold exit
  split <;> rfl

theorem exit_exited (s : RaftServer) (r : ExitReason) : (s.exit r).exited = true := by
  unfold exit
  split
  · assumption
  · rfl

theorem emit_knows (s : RaftServer) (o : Output) (snp : Snapshot) :
    (s.emit o).Knows snp ↔ s.Knows snp := by
  unfold emit
  split <;> rfl

theorem exit_knows (s : RaftServer) (r : ExitReason) (snp : Snapshot) :
    (s.exit r).Knows snp ↔ s.Knows snp := by
  unfold exit
  split <;> rfl

theorem emit_sends_of (s : RaftServer) {o : Output} (ho : o.plain = true ∨ s.Vouches o) :
    Sends s (s.emit o) :=
  ⟨.emit s ho, emit_kept s o, fun snp => (emit_knows s o snp).mp⟩

theorem emit_sends (s : RaftServer) {o : Output} (ho : o.plain = true) : Sends s (s.emit o) :=
  emit_sends_of s (.inl ho)

theorem exit_sends (s : RaftServer) (r : ExitReason) : Sends s (s.exit r) :=
  ⟨.exit s (.inl rfl), exit_kept s r, fun snp => (exit_knows s r snp).mp⟩

theorem send_sends (s : RaftServer) {p : Packet} (hp : (Output.send p).plain = true) :
    Sends s (s.send p) := s.emit_sends hp

theorem knows_of_mem {s : RaftServer} {p : Peer} (hp : p ∈ s.peers) {snp : Snapshot}
    (hs : p.snpSyncCtx.map (·.1) = some snp) : s.Knows snp :=
  .inr ⟨p, List.mem_append_left _ hp, hs⟩

theorem knows_of_srvToJoin {s : RaftServer} {j : Peer} (hj : s.srvToJoin = some j)
    {snp : Snapshot} (hs : j.snpSyncCtx.map (·.1) = some snp) : s.Knows snp :=
  .inr ⟨j, List.mem_append_right _ (by rw [hj]; exact List.mem_singleton_self j), hs⟩

/-- A server with another peer object to join. -/
theorem srvToJoin_sends (s : RaftServer) (j : Peer)
    (hj : ∀ snp, j.snpSyncCtx.map (·.1) = some snp → s.Knows snp) :
    Sends s { s with srvToJoin := some j } := by
  refine .ofPeers rfl rfl rfl fun p hp snp hs => ?_
  rcases List.mem_append.mp hp with hp | hp
  · exact knows_of_mem (s := s) hp hs
  · rw [List.mem_singleton.mp hp] at hs
    exact hj snp hs

/-- A function on peers that adds no snapshot to those that are being sent. -/
theorem updatePeer_sends_of (s : RaftServer) (id : SrvId) (f : Peer → Peer)
    (hf : ∀ p ∈ s.peers, ∀ snp, (f p).snpSyncCtx.map (·.1) = some snp → s.Knows snp) :
    Sends s (s.updatePeer id f) := by
  refine .ofPeers rfl rfl rfl fun p' hp' snp hs => ?_
  rcases List.mem_append.mp hp' with hp' | hp'
  · obtain ⟨p, hp, rfl⟩ := List.mem_map.mp hp'
    split at hs
    · exact hf p hp snp hs
    · exact knows_of_mem hp hs
  · exact .inr ⟨p', List.mem_append_right _ hp', hs⟩

/-- A function on peers that leaves their snapshots alone. -/
theorem updatePeer_sends (s : RaftServer) (id : SrvId) (f : Peer → Peer)
    (hf : ∀ p, (f p).snpSyncCtx = p.snpSyncCtx) :
    Sends s (s.updatePeer id f) :=
  updatePeer_sends_of s id f fun p hp snp hs =>
    knows_of_mem hp (by rw [← hf p]; exact hs)

theorem reply_sends (r : RaftServer × Option RespMsg) (h : RpcHandler) (t : MsgType) :
    Sends r.1 (reply r h t) := by
  unfold reply
  split
  · exact .refl _
  · exact send_sends _ rfl

/-! ## Requests and commits -/

theorem pickSnapshot_knows {s : RaftServer} {p p' : Peer} {idx : Nat} {snp : Snapshot}
    (hp : ∀ snp, p.snpSyncCtx.map (·.1) = some snp → s.Knows snp)
    (h : s.pickSnapshot p idx = .ok (snp, p')) :
    s.Knows snp ∧ ∀ snp, p'.snpSyncCtx.map (·.1) = some snp → s.Knows snp := by
  have hfresh : s.freshSnapshot p idx = .ok (snp, p') → s.Knows snp ∧
      ∀ snp, p'.snpSyncCtx.map (·.1) = some snp → s.Knows snp := by
    intro h
    unfold freshSnapshot at h
    split at h
    · cases h
    rename_i last hlast
    split at h
    · cases h
    split at h
    · cases h
    · cases h
      refine ⟨.inl hlast, fun snp' hs => ?_⟩
      cases hs
      exact .inl hlast
  unfold pickSnapshot at h
  split at h
  · exact hfresh h
  rename_i ctx _ hctx
  split at h
  · cases h
    exact ⟨hp _ (by rw [hctx]; rfl), hp⟩
  split at h
  · exact hfresh h
  · cases h
    exact ⟨hp _ (by rw [hctx]; rfl), hp⟩

theorem createSyncSnapshotReq_knows {s : RaftServer} {p p' : Peer} {idx term commitIdx : Nat}
    {m : ReqMsg} (hp : ∀ snp, p.snpSyncCtx.map (·.1) = some snp → s.Knows snp)
    (h : s.createSyncSnapshotReq p idx term commitIdx = .ok (m, p')) :
    (m.type = .installSnapshotRequest ∧ m.term = term ∧
      ∃ r, m.payload = .snpSyncReq r ∧ s.Knows r.snapshot) ∧
      ∀ snp, p'.snpSyncCtx.map (·.1) = some snp → s.Knows snp := by
  unfold createSyncSnapshotReq at h
  split at h
  · cases h
  rename_i snp p₁ hpick
  obtain ⟨hsnp, hp₁⟩ := pickSnapshot_knows hp hpick
  dsimp only at h
  split at h
  · cases h
  · cases h
    exact ⟨⟨rfl, rfl, _, rfl, hsnp⟩, hp₁⟩

theorem createAppendEntriesReq_vouches {s : RaftServer} {p p' : Peer} {m : ReqMsg}
    {h : RpcHandler} (hp : ∀ snp, p.snpSyncCtx.map (·.1) = some snp → s.Knows snp)
    (hok : s.createAppendEntriesReq p = .ok (m, p')) :
    s.Vouches (.send (.req m h)) ∧ ∀ snp, p'.snpSyncCtx.map (·.1) = some snp → s.Knows snp := by
  unfold createAppendEntriesReq at hok
  extract_lets q at hok
  have hq : ∀ snp, q.snpSyncCtx.map (·.1) = some snp → s.Knows snp := by
    dsimp only [q]
    split <;> exact hp
  clear_value q
  split at hok
  · cases hok
  split at hok
  · obtain ⟨⟨ht, hterm, hpay⟩, hp'⟩ := createSyncSnapshotReq_knows hq hok
    refine ⟨⟨hterm, by rw [ht]; rfl, ?_, ?_, fun _ => hpay⟩, hp'⟩
    · rw [ht]
      exact fun h => MsgType.noConfusion h
    · rw [ht]
      exact fun h => MsgType.noConfusion h
  split at hok
  · cases hok
  rename_i t hterm
  split at hok
  · cases hok
  rename_i es hes
  cases hok
  refine ⟨⟨rfl, rfl, fun _ => ⟨hterm, ?_, ?_⟩, fun h => MsgType.noConfusion h, fun h => MsgType.noConfusion h⟩, hq⟩
  · intro hne
    unfold entriesFrom at hes
    split at hes
    · cases hes
      exact absurd rfl hne
    · unfold LogStore.logEntries at hes
      split at hes
      · cases hes
      · rename_i hstart
        exact Nat.le_of_not_lt hstart
  · unfold entriesFrom at hes
    split at hes
    · cases hes
      exact ⟨0, by simp⟩
    · unfold LogStore.logEntries at hes
      split at hes
      · cases hes
      · cases hes
        exact ⟨_, rfl⟩

/-- The snapshot a peer is being sent is known. -/
theorem knows_of_findPeer {s : RaftServer} {id : SrvId} {p : Peer} (h : s.findPeer id = some p)
    (snp : Snapshot) (hs : p.snpSyncCtx.map (·.1) = some snp) : s.Knows snp :=
  knows_of_mem (List.mem_of_find?_eq_some h) hs

theorem requestAppendEntriesTo_sends (s : RaftServer) (id : SrvId) :
    Sends s (s.requestAppendEntriesTo id).1 := by
  unfold requestAppendEntriesTo
  split
  · exact .refl s
  rename_i p hp
  split
  · exact .refl s
  split
  · exact exit_sends s _
  · rename_i req p' hreq
    obtain ⟨hvouch, hp'⟩ := createAppendEntriesReq_vouches (h := .resp) (knows_of_findPeer hp) hreq
    have hupdate := updatePeer_sends_of s id (Peer.sent p') fun _ _ snp hs => hp' snp hs
    exact ⟨hupdate.toOutputs.trans (.emit _ (.inr hvouch)),
      (emit_kept _ _).trans hupdate.kept,
      fun snp hs => hupdate.known snp ((emit_knows _ _ snp).mp hs)⟩

theorem notifyCommit_sends (s : RaftServer) (id : SrvId) : Sends s (s.notifyCommit id) := by
  unfold notifyCommit
  dsimp only
  split
  · exact requestAppendEntriesTo_sends s id
  · exact (requestAppendEntriesTo_sends s id).trans (updatePeer_sends _ id _ (by exact fun _ => rfl))

theorem commit_sends (s : RaftServer) (k : Nat) : Sends s (s.commit k) := by
  unfold commit
  split
  · have hsoft : Sends s { s with quickCommitIdx := k } := .soft rfl rfl rfl fun _ h => h
    dsimp only
    split
    · exact hsoft.trans (.foldl notifyCommit_sends _ _)
    · exact hsoft
  · exact .refl s

theorem requestAppendEntries_sends (s : RaftServer) : Sends s s.requestAppendEntries := by
  unfold requestAppendEntries
  split
  · exact commit_sends s _
  · exact .foldl requestAppendEntriesTo_sends _ _

theorem enableHb_sends (s : RaftServer) (id : SrvId) : Sends s (s.enableHb id) :=
  (updatePeer_sends s id _ (by exact fun _ => rfl)).trans (emit_sends _ (by simp [Output.plain]))

theorem disableHb_sends (s : RaftServer) (id : SrvId) : Sends s (s.disableHb id) :=
  (updatePeer_sends s id _ (by exact fun _ => rfl)).trans (emit_sends _ (by simp [Output.plain]))

theorem sendVoteRequests_sends (s : RaftServer) : Sends s s.sendVoteRequests := by
  unfold sendVoteRequests
  split
  · exact exit_sends s _
  · exact .foldl (fun s' id => send_sends s' rfl) _ _

theorem sendPrevoteRequests_sends (s : RaftServer) : Sends s s.sendPrevoteRequests := by
  unfold sendPrevoteRequests
  split
  · exact exit_sends s _
  · exact .foldl (fun s' id => send_sends s' rfl) _ _

theorem handleHbTimeout_sends (s : RaftServer) (id : SrvId) : Sends s (s.handleHbTimeout id) := by
  unfold handleHbTimeout
  split
  · exact .refl s
  split
  · dsimp only
    split
    · exact (requestAppendEntriesTo_sends s id).trans (emit_sends _ (by simp [Output.plain]))
    · exact requestAppendEntriesTo_sends s id
  · exact .refl s

theorem handleAppendEntriesResp_sends (s : RaftServer) (resp : RespMsg) :
    Sends s (s.handleAppendEntriesResp resp) := by
  unfold handleAppendEntriesResp
  split
  · split
    · dsimp only
      have hacked := ((updatePeer_sends s resp.src (Peer.ack resp.nextIdx) fun _ => rfl).trans
        (commit_sends _ (s.updatePeer resp.src (Peer.ack resp.nextIdx)).majorityIndex)).trans
        (updatePeer_sends _ resp.src (fun p => { p with pendingCommit := false }) fun _ => rfl)
      split
      · exact hacked.trans (requestAppendEntriesTo_sends _ _)
      · exact hacked
    · dsimp only
      split
      · exact (updatePeer_sends s resp.src _ (by exact fun _ => rfl)).trans (requestAppendEntriesTo_sends _ _)
      · exact updatePeer_sends s resp.src _ (by exact fun _ => rfl)
  · exact .refl s

theorem handleInstallSnapshotResp_sends (s : RaftServer) (resp : RespMsg) :
    Sends s (s.handleInstallSnapshotResp resp) := by
  unfold handleInstallSnapshotResp
  split
  · exact .refl s
  have hthen : ∀ r : RaftServer × Bool, Sends s r.1 →
      Sends s (if r.1.role = .leader ∧ r.2 = true then (r.1.requestAppendEntriesTo resp.src).1
        else r.1) := by
    intro r hr
    split
    · exact hr.trans (requestAppendEntriesTo_sends _ _)
    · exact hr
  refine hthen _ ?_
  rename_i p hp
  split
  · split
    · exact .refl s
    · rename_i snp off hctx
      split
      · exact updatePeer_sends_of s _ _ fun _ _ _ hs => nomatch hs
      · refine updatePeer_sends_of s _ _ fun _ _ snp' hs => knows_of_findPeer hp snp' ?_
        rw [hctx]
        exact hs
  · exact .refl s

theorem forwardToLeader_sends (s : RaftServer) {req : ReqMsg} (ht : req.type = .clientRequest) :
    Sends s (s.forwardToLeader req) := by
  have hplain : (Output.send (.req { req with src := s.id, dst := s.leader } .client)).plain =
      true := by
    unfold Output.plain
    dsimp only
    rw [ht]
    rfl
  unfold forwardToLeader
  split
  · exact .refl s
  split
  · exact send_sends s hplain
  split
  · have hsoft : Sends s { s with rpcClients := s.rpcClients ++ [s.leader] } := .soft rfl rfl rfl fun _ h => h
    exact hsoft.trans (send_sends _ hplain)
  · exact .refl s

/-! ## Membership exchanges -/

theorem handleRpcResult_sends (s : RaftServer) (id : SrvId) (h : RpcHandler) (t : MsgType)
    (ok : Bool) : Sends s (s.handleRpcResult id h t ok) := by
  have hresult : ∀ p : Peer, (p.rpcResult s.params t ok).snpSyncCtx = p.snpSyncCtx := by
    intro p
    unfold Peer.rpcResult Peer.resumeHbSpeed Peer.slowDownHb
    dsimp only
    split <;> split <;> rfl
  unfold handleRpcResult
  split
  · refine .ofPeers rfl rfl rfl fun p hp snp hs => ?_
    rcases List.mem_append.mp hp with hp | hp
    · exact knows_of_mem (s := s) hp hs
    · cases hj : s.srvToJoin with
      | none => simp [hj] at hp
      | some j =>
          refine knows_of_srvToJoin hj ?_
          rw [hj, Option.map_some, Option.toList_some, List.mem_singleton] at hp
          rw [hp] at hs
          split at hs
          · rwa [hresult] at hs
          · exact hs
  split
  · exact .refl s
  · exact updatePeer_sends s id _ hresult

theorem addPeer_sends (s : RaftServer) (srv : SrvConfig) : Sends s (s.addPeer srv) := by
  unfold addPeer
  extract_lets new t
  have hadded : Sends s t := by
    dsimp only [t, new]
    split
    · exact .refl s
    · refine .ofPeers rfl rfl rfl fun p hp snp hs => ?_
      rcases List.mem_append.mp hp with hp | hp
      · rcases List.mem_append.mp hp with hp | hp
        · exact knows_of_mem hp hs
        · rw [List.mem_singleton.mp hp] at hs
          cases hs
      · exact .inr ⟨p, List.mem_append_right _ hp, hs⟩
  clear_value t
  have henabled := hadded.trans (enableHb_sends t srv.id)
  dsimp only
  split
  · split
    · exact henabled
    · rename_i j _
      split
      · have hupdate := henabled.trans (updatePeer_sends _ srv.id
          (fun p => { p with nextLogIdx := j.nextLogIdx }) fun _ => rfl)
        refine hupdate.trans (.ofPeers rfl rfl rfl fun p hp snp hs => knows_of_mem ?_ hs)
        simpa using hp
      · exact henabled
  · exact hadded

theorem erasePeer_sends (s : RaftServer) (id : SrvId) : Sends s (s.erasePeer id) := by
  unfold erasePeer
  split
  · have hfilter : Sends s { s with peers := s.peers.filter fun p => decide (p.id ≠ id) } := by
      refine .ofPeers rfl rfl rfl fun p hp snp hs => ?_
      rcases List.mem_append.mp hp with hp | hp
      · exact knows_of_mem (List.mem_of_mem_filter hp) hs
      · exact .inr ⟨p, List.mem_append_right _ hp, hs⟩
    exact hfilter.trans (emit_sends _ (by simp [Output.plain]))
  · exact .refl s

theorem changePeers_sends (s : RaftServer) (c : ClusterConfig) : Sends s (s.changePeers c) :=
  (Sends.foldl addPeer_sends _ s).trans (.foldl erasePeer_sends _ _)

theorem inviteSrvToJoinCluster_sends (s : RaftServer) : Sends s s.inviteSrvToJoinCluster := by
  unfold inviteSrvToJoinCluster
  split
  · exact .refl s
  · exact send_sends s rfl

theorem handleAddSrvReq_sends (s : RaftServer) (req : ReqMsg) :
    Sends s (s.handleAddSrvReq req).1 := by
  unfold handleAddSrvReq
  dsimp only
  split
  · rename_i srv _
    split
    · exact .refl s
    split
    · exact .refl s
    split
    · exact .refl s
    · have hjoin : Sends s { s with
          confToAdd := some srv, srvToJoin := some (Peer.new s.params srv) } :=
        (srvToJoin_sends s (Peer.new s.params srv) fun _ hs => nomatch hs).trans
          (.soft rfl rfl rfl fun _ h => h)
      exact hjoin.trans (inviteSrvToJoinCluster_sends _)
  · exact .refl s

theorem handleRmSrvReq_sends (s : RaftServer) (req : ReqMsg) :
    Sends s (s.handleRmSrvReq req).1 := by
  unfold handleRmSrvReq
  dsimp only
  split
  · split
    · exact .refl s
    split
    · exact .refl s
    split
    · exact .refl s
    split
    · exact .refl s
    · exact send_sends s rfl
  · exact .refl s

theorem setRetryPeer_sends {s : RaftServer} {req : ReqMsg} {p q : Peer}
    (hp : s.retryPeer req = some p) (hq : q.snpSyncCtx = p.snpSyncCtx) :
    Sends s (s.setRetryPeer req q) := by
  unfold setRetryPeer
  unfold retryPeer at hp
  split
  · exact updatePeer_sends s _ _ fun _ => rfl
  · rename_i ht
    rw [if_neg ht] at hp
    exact srvToJoin_sends s q fun snp hs => knows_of_srvToJoin hp (hq ▸ hs)

/-! ## What the other functions do to the kept fields -/

theorem stopElectionTimer_kept (s : RaftServer) : s.stopElectionTimer.kept = s.kept := by
  unfold stopElectionTimer
  split
  · exact emit_kept s _
  · rfl

theorem saveState_kept (s : RaftServer) (st : SrvState) :
    (s.saveState st).kept = { s.kept with state := st } := emit_kept _ _

theorem appendLog_kept (s : RaftServer) (e : LogEntry) :
    (s.appendLog e).kept = { s.kept with logStore := s.logStore.append e } := emit_kept _ _

theorem restartElectionTimer_kept (s : RaftServer) :
    ∃ b, s.restartElectionTimer.kept = { s.kept with electionTask := b } := by
  unfold restartElectionTimer
  split
  · exact ⟨s.electionTask, rfl⟩
  · dsimp only
    rw [emit_kept]
    split
    · exact ⟨s.electionTask, emit_kept s _⟩
    · exact ⟨true, rfl⟩

/-- What stepping down leaves of the kept fields. -/
theorem becomeFollower_kept (s : RaftServer) :
    ∃ b, s.becomeFollower.kept = { s.kept with role := .follower, electionTask := b } := by
  unfold becomeFollower
  dsimp only
  rw [emit_kept]
  obtain ⟨s₁, hs₁⟩ : ∃ s₁, { s with prevoteState := none } = s₁ := ⟨_, rfl⟩
  have hfold : (s₁.peerIds.foldl disableHb s₁).kept = s.kept := by
    rw [(Sends.foldl disableHb_sends s₁.peerIds s₁).kept, ← hs₁]
    rfl
  rw [hs₁]
  obtain ⟨b, hb⟩ := restartElectionTimer_kept
    { s₁.peerIds.foldl disableHb s₁ with srvToJoin := none, role := .follower }
  refine ⟨b, hb.trans ?_⟩
  rw [← hfold]
  rfl

/-- What following a higher term leaves of the kept fields. -/
theorem updateTerm_kept (s : RaftServer) (t : Nat) :
    ∃ b r st, (s.updateTerm t).1.kept =
      { s.kept with role := r, electionTask := b, state := st } := by
  unfold updateTerm
  split
  · dsimp only
    obtain ⟨b, hb⟩ := becomeFollower_kept
      ({ s with electionCompleted := false, votesGranted := 0, votedServers := [] }.saveState
        ⟨t, noServer⟩)
    refine ⟨b, .follower, ⟨t, noServer⟩, hb.trans ?_⟩
    rw [saveState_kept]
    rfl
  · exact ⟨s.electionTask, s.role, s.state, rfl⟩

theorem logInitialConfig_kept (s : RaftServer) :
    s.logInitialConfig.kept =
      if s.config.logIdx = 0 then
        { s.kept with
          config := s.config.setLogIdx s.logStore.nextSlot
          configChanging := true
          logStore := s.logStore.append
            ⟨s.state.term, .conf (s.config.setLogIdx s.logStore.nextSlot)⟩ }
      else s.kept := by
  unfold logInitialConfig
  split
  · exact appendLog_kept _ _
  · rfl

theorem logInitialConfig_role (s : RaftServer) : s.logInitialConfig.role = s.role := by
  have h := congrArg Kept.role (logInitialConfig_kept s)
  split at h <;> exact h

theorem logInitialConfig_smCommitIndex (s : RaftServer) :
    s.logInitialConfig.smCommitIndex = s.smCommitIndex := by
  have h := congrArg Kept.smCommitIndex (logInitialConfig_kept s)
  split at h <;> exact h

theorem rollbackAt_kept (s : RaftServer) (idx : Nat) :
    (s.rollbackAt idx).kept = { s.kept with
      configChanging := s.configChanging && !(s.logStore.entryAt idx).any (·.isConf) } := by
  unfold rollbackAt
  split
  · rename_i hnone
    simp [hnone, kept]
  · rename_i old hold
    rw [hold, Option.any_some]
    unfold LogEntry.isConf LogEntry.conf?
    split
    · rename_i hval
      rw [emit_kept, hval]
      simp [kept]
    · rename_i hval
      rw [hval]
      simp [kept]
    · rename_i happ hconf
      cases hval : old.val with
      | appLog data => exact absurd hval (happ data)
      | conf c => exact absurd hval (hconf c)
      | clusterServer srv => simp [kept]
      | serverId id => simp [kept]

theorem noteReceived_kept (s : RaftServer) (idx : Nat) (e : LogEntry) :
    (s.noteReceived idx e).kept =
      { s.kept with configChanging := s.configChanging || e.isConf } := by
  unfold noteReceived LogEntry.isConf LogEntry.conf?
  cases e.val with
  | appLog data =>
      dsimp only
      rw [emit_kept]
      simp [kept]
  | conf c => simp [kept]
  | clusterServer srv => simp [kept]
  | serverId id => simp [kept]

theorem overwriteAt_kept (s : RaftServer) (idx : Nat) (e : LogEntry) :
    (s.overwriteAt idx e).kept = { s.kept with
      logStore := s.logStore.writeAt idx e
      configChanging :=
        (s.configChanging && !(s.logStore.entryAt idx).any (·.isConf)) || e.isConf } := by
  have hroll := rollbackAt_kept s idx
  have hlog : (s.rollbackAt idx).logStore = s.logStore := congrArg Kept.logStore hroll
  have hwrite : ({ s.rollbackAt idx with
      logStore := (s.rollbackAt idx).logStore.writeAt idx e }.emit (.writeAt idx e)).kept =
      { s.kept with
        logStore := s.logStore.writeAt idx e
        configChanging := s.configChanging && !(s.logStore.entryAt idx).any (·.isConf) } := by
    rw [emit_kept, hlog]
    exact congrArg (fun k : Kept => { k with logStore := s.logStore.writeAt idx e }) hroll
  unfold overwriteAt
  dsimp only
  rw [noteReceived_kept, hwrite]
  exact congrArg (fun b : Bool => { s.kept with
    logStore := s.logStore.writeAt idx e, configChanging := b || e.isConf })
    (congrArg Kept.configChanging hwrite)

theorem appendReceived_kept (s : RaftServer) (e : LogEntry) :
    (s.appendReceived e).kept = { s.kept with
      logStore := s.logStore.append e, configChanging := s.configChanging || e.isConf } := by
  have happend := appendLog_kept s e
  unfold appendReceived
  rw [noteReceived_kept, happend]
  exact congrArg (fun b : Bool => { s.kept with
    logStore := s.logStore.append e, configChanging := b || e.isConf })
    (congrArg Kept.configChanging happend)

theorem writeEntries_kept (s : RaftServer) (idx : Nat) (es : List LogEntry) :
    ∃ l b, (s.writeEntries idx es).kept = { s.kept with logStore := l, configChanging := b } := by
  have hover : ∀ (es : List LogEntry) (s : RaftServer) (idx : Nat),
      ∃ l b, (s.overwriteLoop idx es).1.kept =
        { s.kept with logStore := l, configChanging := b } := by
    intro es
    induction es with
    | nil => exact fun s _ => ⟨s.logStore, s.configChanging, rfl⟩
    | cons e es ih =>
        intro s idx
        unfold overwriteLoop
        split
        · obtain ⟨l', b', h'⟩ := ih (s.overwriteAt idx e) (idx + 1)
          exact ⟨l', b', h'.trans (by rw [overwriteAt_kept])⟩
        · exact ⟨s.logStore, s.configChanging, rfl⟩
  have happend : ∀ (es : List LogEntry) (s : RaftServer),
      ∃ l b, (es.foldl appendReceived s).kept =
        { s.kept with logStore := l, configChanging := b } := by
    intro es
    induction es with
    | nil => exact fun s => ⟨s.logStore, s.configChanging, rfl⟩
    | cons e es ih =>
        intro s
        obtain ⟨l', b', h'⟩ := ih (s.appendReceived e)
        exact ⟨l', b', h'.trans (by rw [appendReceived_kept])⟩
  obtain ⟨l, b, h⟩ := hover (skipOverlap s.logStore idx es).2 s (skipOverlap s.logStore idx es).1
  obtain ⟨l', b', h'⟩ := happend (s.overwriteLoop (skipOverlap s.logStore idx es).1
    (skipOverlap s.logStore idx es).2).2 (s.overwriteLoop (skipOverlap s.logStore idx es).1
    (skipOverlap s.logStore idx es).2).1
  exact ⟨l', b', h'.trans (by rw [h])⟩

/-! ## What the other functions let out -/

section Outputs

variable {P : Output → Prop} {s : RaftServer}

theorem saveState_outputs (s : RaftServer) {st : SrvState} (h : P (.saveState st)) :
    Outputs P s (s.saveState st) :=
  have hset : Outputs P s { s with state := st } := .soft rfl rfl
  hset.trans (.emit _ h)

theorem restartElectionTimer_outputs (s : RaftServer) (hc : P (.cancel .election))
    (hs : P (.schedule .election)) : Outputs P s s.restartElectionTimer := by
  unfold restartElectionTimer
  split
  · exact .soft rfl rfl
  · dsimp only
    refine Outputs.trans ?_ (.emit _ hs)
    split
    · exact .emit s hc
    · exact .soft rfl rfl

theorem stopElectionTimer_outputs (s : RaftServer) (hc : P (.cancel .election)) :
    Outputs P s s.stopElectionTimer := by
  unfold stopElectionTimer
  split
  · exact .emit s hc
  · exact .soft rfl rfl

theorem appendLog_outputs (s : RaftServer) {e : LogEntry}
    (h : P (.append s.role s.state.term s.logStore.nextSlot e)) : Outputs P s (s.appendLog e) :=
  have hset : Outputs P s { s with logStore := s.logStore.append e } := .soft rfl rfl
  hset.trans (.emit _ h)

theorem becomeFollower_outputs (s : RaftServer) (hp : ∀ o, o.plain = true → P o)
    (hc : P (.cancel .election)) (hs : P (.schedule .election)) :
    Outputs P s s.becomeFollower := by
  have hthen : ∀ t : RaftServer, Outputs P s t → Outputs P s
      ({ t with srvToJoin := none, role := .follower }.restartElectionTimer.emit
        .becomeFollower) := by
    intro t ht
    have hset : Outputs P t { t with srvToJoin := none, role := .follower } := .soft rfl rfl
    exact ((ht.trans hset).trans (restartElectionTimer_outputs _ hc hs)).trans
      (.emit _ (hp _ rfl))
  have hquiet : Outputs P s { s with prevoteState := none } := .soft rfl rfl
  have hdisable : ∀ (t : RaftServer) id, Outputs P t (t.disableHb id) := by
    intro t id
    have hset : Outputs P t (t.updatePeer id fun p => { p with hbEnabled := false }) :=
      .soft rfl rfl
    exact hset.trans (.emit _ (hp _ rfl))
  exact hthen _ (hquiet.trans (.foldl hdisable _ _))

theorem updateTerm_outputs (s : RaftServer) (t : Nat) (hp : ∀ o, o.plain = true → P o)
    (hc : P (.cancel .election)) (hs : P (.schedule .election)) (hst : ∀ st, P (.saveState st)) :
    Outputs P s (s.updateTerm t).1 := by
  unfold updateTerm
  split
  · dsimp only
    have hquiet : Outputs P s
        { s with electionCompleted := false, votesGranted := 0, votedServers := [] } :=
      .soft rfl rfl
    exact (hquiet.trans (saveState_outputs _ (hst _))).trans (becomeFollower_outputs _ hp hc hs)
  · exact .soft rfl rfl

theorem saveSnapshotData_outputs (s : RaftServer) (r : SnapshotSyncReq)
    (h : P (.saveSnapshotData r.snapshot r.offset r.data)) :
    Outputs P s (s.saveSnapshotData r) := by
  have hset : Outputs P s { s with smSnapshotData :=
      (r.snapshot.lastLogIdx, ((s.smSnapshotData.lookup r.snapshot.lastLogIdx).getD []).take
        r.offset ++ r.data) :: s.smSnapshotData } := .soft rfl rfl
  exact hset.trans (.emit _ h)

theorem logInitialConfig_outputs (s : RaftServer) (h : ∀ r t i e, P (.append r t i e)) :
    Outputs P s s.logInitialConfig := by
  unfold logInitialConfig
  split
  · have hset : Outputs P s { s with
        config := s.config.setLogIdx s.logStore.nextSlot, configChanging := true } := .soft rfl rfl
    exact hset.trans (appendLog_outputs _ (h _ _ _ _))
  · exact .soft rfl rfl

theorem rollbackAt_outputs (s : RaftServer) (idx : Nat) (h : ∀ i e, P (.rollback i e)) :
    Outputs P s (s.rollbackAt idx) := by
  unfold rollbackAt
  split
  · exact .soft rfl rfl
  · split
    · exact .emit s (h _ _)
    · exact .soft rfl rfl
    · exact .soft rfl rfl

theorem noteReceived_outputs (s : RaftServer) (idx : Nat) (e : LogEntry)
    (h : ∀ i e, P (.preCommit i e)) : Outputs P s (s.noteReceived idx e) := by
  unfold noteReceived
  split
  · exact .emit s (h _ _)
  · exact .soft rfl rfl
  · exact .soft rfl rfl

/-- The outputs of an overwrite and of an append that a request causes. -/
structure LogOutputs (P : Output → Prop) : Prop where
  rollback : ∀ i e, P (.rollback i e)
  preCommit : ∀ i e, P (.preCommit i e)
  writeAt : ∀ i e, P (.writeAt i e)
  append : ∀ r t i e, P (.append r t i e)

theorem overwriteAt_outputs (s : RaftServer) (idx : Nat) (e : LogEntry) (h : LogOutputs P) :
    Outputs P s (s.overwriteAt idx e) := by
  unfold overwriteAt
  dsimp only
  have hset : Outputs P (s.rollbackAt idx)
      { s.rollbackAt idx with logStore := (s.rollbackAt idx).logStore.writeAt idx e } :=
    .soft rfl rfl
  exact (((rollbackAt_outputs s idx h.rollback).trans hset).trans (.emit _ (h.writeAt _ _))).trans
    (noteReceived_outputs _ idx e h.preCommit)

theorem overwriteLoop_outputs (h : LogOutputs P) (es : List LogEntry) :
    ∀ (s : RaftServer) (idx : Nat), Outputs P s (s.overwriteLoop idx es).1 := by
  induction es with
  | nil => exact fun s idx => .soft rfl rfl
  | cons e es ih =>
      intro s idx
      unfold overwriteLoop
      split
      · exact (overwriteAt_outputs s idx e h).trans (ih _ _)
      · exact .soft rfl rfl

theorem appendReceived_outputs (s : RaftServer) (e : LogEntry) (h : LogOutputs P) :
    Outputs P s (s.appendReceived e) :=
  (appendLog_outputs s (h.append _ _ _ _)).trans (noteReceived_outputs _ _ e h.preCommit)

theorem writeEntries_outputs (s : RaftServer) (idx : Nat) (es : List LogEntry)
    (h : LogOutputs P) : Outputs P s (s.writeEntries idx es) := by
  have happend : ∀ (rest : List LogEntry) (s' : RaftServer),
      Outputs P s' (rest.foldl appendReceived s') := by
    intro rest
    induction rest with
    | nil => exact fun s' => .soft rfl rfl
    | cons e rest ih => exact fun s' => (appendReceived_outputs s' e h).trans (ih _)
  exact (overwriteLoop_outputs h _ s _).trans (happend _ _)

end Outputs

end RaftServer

end Ns3Raft.Raft
