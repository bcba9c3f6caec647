import Ns3Raft.Raft.Node

/-! # Every function of the server follows the protocol steps

Two lemmas for a function: what it does to the protocol state, and the path of
protocol steps it takes. Functions that only touch timers, flags and the
sending side keep the state as it is.
-/

namespace Ns3Raft.Raft

namespace RaftServer

/-! ## Primitives -/

@[simp] theorem emit_core (s : RaftServer) (o : Output) : (s.emit o).core = s.core := by
  unfold emit
  split <;> rfl

@[simp] theorem exit_core (s : RaftServer) (r : ExitReason) : (s.exit r).core = s.core := by
  unfold exit
  split <;> rfl

@[simp] theorem send_core (s : RaftServer) (p : Packet) : (s.send p).core = s.core := emit_core s _

@[simp] theorem core_role (s : RaftServer) : s.core.role = s.role := rfl

@[simp] theorem core_state (s : RaftServer) : s.core.state = s.state := rfl

@[simp] theorem core_id (s : RaftServer) : s.core.id = s.id := rfl

@[simp] theorem core_log (s : RaftServer) : s.core.log = s.logStore := rfl

@[simp] theorem core_quick (s : RaftServer) : s.core.quick = s.quickCommitIdx := rfl

@[simp] theorem core_config (s : RaftServer) : s.core.config = s.config := rfl

@[simp] theorem core_peerIds (s : RaftServer) : s.core.peerIds = s.peerIds := by
  simp [Core.peerIds, core, peerIds]

theorem core_majorityIndex (s : RaftServer) : s.core.majorityIndex = s.majorityIndex := by
  simp [Core.majorityIndex, core, majorityIndex, Function.comp_def]

theorem updatePeer_core (s : RaftServer) (id : SrvId) {f : Peer → Peer}
    (hf : ∀ p, (f p).id = p.id ∧ (f p).matchedIdx = p.matchedIdx) :
    (s.updatePeer id f).core = s.core := by
  have hmap : (s.updatePeer id f).core.peers = s.core.peers := by
    simp only [core, updatePeer, List.map_map]
    refine List.map_congr_left fun p _ => ?_
    by_cases h : p.id = id
    · simp [h, (hf p).2, (hf p).1]
    · simp [h]
  have hrest : (s.updatePeer id f).core =
      { s.core with peers := (s.updatePeer id f).core.peers } := rfl
  rw [hrest, hmap]

end RaftServer

namespace Traces

open RaftServer

variable {inp : Input} {n₀ : Core} {s : RaftServer}

theorem cancel (t : Task) : Traces inp n₀ s (s.emit (.cancel t)) := emit trivial

theorem scheduleElection : Traces inp n₀ s (s.emit (.schedule .election)) := emit trivial

theorem scheduleHb (id : SrvId) : Traces inp n₀ s (s.emit (.schedule (.heartbeat id))) :=
  emit trivial

theorem updatePeer (id : SrvId) {f : Peer → Peer}
    (hf : ∀ p, (f p).id = p.id ∧ (f p).matchedIdx = p.matchedIdx) :
    Traces inp n₀ s (s.updatePeer id f) :=
  soft (updatePeer_core s id hf) rfl rfl

/-- A loop whose body keeps the protocol state. -/
theorem foldl {α : Type} {f : RaftServer → α → RaftServer} {c : Core}
    (hcore : ∀ s a, (f s a).core = s.core) (h : ∀ s a, s.core = c → Traces inp n₀ s (f s a))
    (l : List α) (hs : s.core = c) : Traces inp n₀ s (l.foldl f s) := by
  induction l generalizing s with
  | nil => exact refl s
  | cons a l ih => exact (h s a hs).trans (ih ((hcore s a).trans hs))

end Traces

theorem foldl_core {α : Type} {f : RaftServer → α → RaftServer}
    (hcore : ∀ s a, (f s a).core = s.core) (l : List α) (s : RaftServer) :
    (l.foldl f s).core = s.core := by
  induction l generalizing s with
  | nil => rfl
  | cons a l ih => exact (ih _).trans (hcore s a)

namespace RaftServer

variable {inp : Input} {n₀ : Core} {s : RaftServer}

/-! ## Timers -/

@[simp] theorem restartElectionTimer_core (s : RaftServer) :
    s.restartElectionTimer.core = s.core := by
  unfold restartElectionTimer
  split
  · rfl
  · dsimp only
    rw [emit_core]
    split
    · exact emit_core s _
    · rfl

theorem restartElectionTimer_traces : Traces inp n₀ s s.restartElectionTimer := by
  unfold restartElectionTimer
  split
  · exact .refl s
  · split
    · exact (Traces.cancel _).trans .scheduleElection
    · have hsoft : Traces inp n₀ s { s with electionTask := true } := .soft rfl rfl rfl
      exact hsoft.trans .scheduleElection

@[simp] theorem stopElectionTimer_core (s : RaftServer) : s.stopElectionTimer.core = s.core := by
  unfold stopElectionTimer
  split <;> simp

theorem stopElectionTimer_traces : Traces inp n₀ s s.stopElectionTimer := by
  unfold stopElectionTimer
  split
  · exact .cancel _
  · exact .refl s

/-! ## Sending append requests -/

theorem freshSnapshot_ok {p p' : Peer} {idx : Nat} {snp : Snapshot}
    (h : s.freshSnapshot p idx = .ok (snp, p')) :
    p'.id = p.id ∧ p'.matchedIdx = p.matchedIdx := by
  unfold freshSnapshot at h
  split at h
  · cases h
  · split at h
    · cases h
    · split at h
      · cases h
      · cases h
        exact ⟨rfl, rfl⟩

theorem freshSnapshot_error {p : Peer} {idx : Nat} {r : ExitReason}
    (h : s.freshSnapshot p idx = .error r) : r ≠ .anotherLeader := by
  unfold freshSnapshot at h
  split at h
  · cases h
    decide
  · split at h
    · cases h
      decide
    · split at h
      · cases h
        decide
      · cases h

theorem pickSnapshot_ok {p p' : Peer} {idx : Nat} {snp : Snapshot}
    (h : s.pickSnapshot p idx = .ok (snp, p')) :
    p'.id = p.id ∧ p'.matchedIdx = p.matchedIdx := by
  unfold pickSnapshot at h
  split at h
  · exact freshSnapshot_ok h
  · split at h
    · cases h
      exact ⟨rfl, rfl⟩
    · split at h
      · exact freshSnapshot_ok h
      · cases h
        exact ⟨rfl, rfl⟩

theorem pickSnapshot_error {p : Peer} {idx : Nat} {r : ExitReason}
    (h : s.pickSnapshot p idx = .error r) : r ≠ .anotherLeader := by
  unfold pickSnapshot at h
  split at h
  · exact freshSnapshot_error h
  · split at h
    · cases h
    · split at h
      · exact freshSnapshot_error h
      · cases h

theorem createSyncSnapshotReq_ok {p p' : Peer} {idx term commitIdx : Nat} {req : ReqMsg}
    (h : s.createSyncSnapshotReq p idx term commitIdx = .ok (req, p')) :
    (req.type = .installSnapshotRequest ∧ req.term = term ∧ req.src = s.id ∧ req.dst = p.id) ∧
      p'.id = p.id ∧ p'.matchedIdx = p.matchedIdx := by
  unfold createSyncSnapshotReq at h
  split at h
  · cases h
  · rename_i snp q hq
    dsimp only at h
    split at h
    · cases h
    · cases h
      exact ⟨⟨rfl, rfl, rfl, (pickSnapshot_ok hq).1⟩, pickSnapshot_ok hq⟩

theorem createSyncSnapshotReq_error {p : Peer} {idx term commitIdx : Nat} {r : ExitReason}
    (h : s.createSyncSnapshotReq p idx term commitIdx = .error r) : r ≠ .anotherLeader := by
  unfold createSyncSnapshotReq at h
  split at h
  · rename_i r' hr
    cases h
    exact pickSnapshot_error hr
  · dsimp only at h
    split at h
    · cases h
      decide
    · cases h

theorem entriesFrom_some {idx : Nat} {es : List LogEntry} (h : s.entriesFrom idx = some es) :
    (∃ k, es = (s.logStore.entries.drop (idx + 1 - s.logStore.startIndex)).take k) ∧
      (es ≠ [] → s.logStore.startIndex ≤ idx + 1) := by
  unfold entriesFrom LogStore.logEntries at h
  split at h
  · cases h
    exact ⟨⟨0, by simp⟩, by simp⟩
  · split at h
    · cases h
    · cases h
      exact ⟨⟨_, rfl⟩, fun _ => by omega⟩

theorem createAppendEntriesReq_ok {p p' : Peer} {req : ReqMsg} (hp : p.id ∈ s.peerIds)
    (h : s.createAppendEntriesReq p = .ok (req, p')) :
    s.core.IsAppend req ∨ (1 < s.logStore.startIndex ∧ req.type = .installSnapshotRequest ∧
      req.term = s.state.term ∧ req.src = s.id ∧ req.dst ∈ s.peerIds) := by
  unfold createAppendEntriesReq at h
  obtain ⟨q, hq, hid⟩ : ∃ q : Peer,
      (if p.nextLogIdx = 0 then { p with nextLogIdx := s.logStore.nextSlot } else p) = q ∧
        q.id = p.id := by
    refine ⟨_, rfl, ?_⟩
    split <;> rfl
  dsimp only at h
  rw [hq] at h
  split at h
  · cases h
  rename_i hlt
  split at h
  · rename_i hstart
    obtain ⟨⟨h1, h2, h3, h4⟩, -⟩ := createSyncSnapshotReq_ok h
    exact .inr ⟨by omega, h1, h2, h3, by rwa [h4, hid]⟩
  split at h
  · cases h
  rename_i t ht
  split at h
  · cases h
  rename_i es hes
  obtain ⟨hk, hstart⟩ := entriesFrom_some hes
  simp only [Except.ok.injEq, Prod.mk.injEq] at h
  obtain ⟨rfl, -⟩ := h
  refine .inl ⟨rfl, rfl, rfl, ?_, ?_, ht, rfl, ?_, ?_⟩
  · simpa [hid] using hp
  · simpa using hlt
  · obtain ⟨k, hk⟩ := hk
    exact ⟨k, by rw [hk]; rfl⟩
  · simpa [ReqMsg.logEntries] using hstart

theorem createAppendEntriesReq_error {p : Peer} {r : ExitReason}
    (h : s.createAppendEntriesReq p = .error r) : r ≠ .anotherLeader := by
  unfold createAppendEntriesReq at h
  generalize (if p.nextLogIdx = 0 then { p with nextLogIdx := s.logStore.nextSlot } else p) = q at h
  dsimp only at h
  split at h
  · cases h
    decide
  split at h
  · exact createSyncSnapshotReq_error h
  split at h
  · cases h
    decide
  split at h
  · cases h
    decide
  · cases h

@[simp] theorem requestAppendEntriesTo_core (s : RaftServer) (id : SrvId) :
    (s.requestAppendEntriesTo id).1.core = s.core := by
  unfold requestAppendEntriesTo
  split
  · rfl
  · split
    · rfl
    · split
      · simp
      · rw [send_core]
        refine updatePeer_core s id ?_
        exact fun q => ⟨rfl, rfl⟩

theorem exitOk_of_ne {n : Core} {r : ExitReason} (h : r ≠ .anotherLeader) : ExitOk inp n r :=
  fun h' => absurd h' h

theorem requestAppendEntriesTo_traces (id : SrvId) (hl : MayLead inp n₀ s.core) :
    Traces inp n₀ s (s.requestAppendEntriesTo id).1 := by
  unfold requestAppendEntriesTo
  split
  · exact .refl s
  rename_i p hp
  have hmem : p.id ∈ s.peerIds := List.mem_map_of_mem (List.mem_of_find?_eq_some hp)
  split
  · exact .refl s
  split
  · rename_i r hr
    exact .exit (exitOk_of_ne (createAppendEntriesReq_error hr))
  · rename_i req p' hr
    have hsoft : ∀ q, (Peer.sent p' q).id = q.id ∧ (Peer.sent p' q).matchedIdx = q.matchedIdx :=
      fun q => ⟨rfl, rfl⟩
    refine (Traces.updatePeer id hsoft).trans ?_
    have hcore := updatePeer_core s id hsoft
    rcases createAppendEntriesReq_ok hmem hr with h | ⟨h0, h1, h2, h3, h4⟩
    · exact .loud (.sendAppend (hcore.symm ▸ hl) (hcore.symm ▸ h)) rfl rfl
    · refine .loud (.sendInstall (hcore.symm ▸ hl) ?_ h1 ?_ ?_ ?_) rfl rfl
      · rwa [hcore]
      · rwa [hcore]
      · rwa [hcore]
      · rwa [hcore, core_peerIds]

/-! ## Committing -/

@[simp] theorem notifyCommit_core (s : RaftServer) (id : SrvId) :
    (s.notifyCommit id).core = s.core := by
  unfold notifyCommit
  dsimp only
  split
  · simp
  · refine (updatePeer_core _ id ?_).trans (requestAppendEntriesTo_core s id)
    exact fun q => ⟨rfl, rfl⟩

theorem notifyCommit_traces (id : SrvId) (hl : MayLead inp n₀ s.core) :
    Traces inp n₀ s (s.notifyCommit id) := by
  unfold notifyCommit
  dsimp only
  split
  · exact requestAppendEntriesTo_traces id hl
  · refine (requestAppendEntriesTo_traces id hl).trans (.updatePeer id ?_)
    exact fun q => ⟨rfl, rfl⟩

theorem commit_core (s : RaftServer) (k : Nat) :
    (s.commit k).core = { s.core with quick := max s.quickCommitIdx k } := by
  unfold commit
  split
  · rename_i h
    have hmax : max s.quickCommitIdx k = k := Nat.max_eq_right h.le
    dsimp only
    split
    · rw [foldl_core notifyCommit_core]
      simp [core, hmax]
    · simp [core, hmax]
  · rename_i h
    have hmax : max s.quickCommitIdx k = s.quickCommitIdx := Nat.max_eq_left (by omega)
    rw [hmax]
    rfl

theorem commit_traces {k : Nat}
    (h : s.quickCommitIdx < k → NodeStep inp n₀ s.core none { s.core with quick := k }) :
    Traces inp n₀ s (s.commit k) := by
  unfold commit
  split
  · rename_i hk
    have hset : Traces inp n₀ s { s with quickCommitIdx := k } := .silent (h hk) rfl rfl
    refine hset.trans ?_
    dsimp only
    split
    · rename_i hr
      exact .foldl notifyCommit_core
        (fun s' id hs => notifyCommit_traces id (.inl (by rw [hs]; exact hr))) _ rfl
    · exact .refl _
  · exact .refl s

theorem requestAppendEntries_traces (hl : MayLead inp n₀ s.core) :
    Traces inp n₀ s s.requestAppendEntries := by
  unfold requestAppendEntries
  split
  · rename_i h
    refine commit_traces fun hk => .alone ?_ hk hl
    simp [core, h]
  · exact .foldl (fun s id => requestAppendEntriesTo_core s id)
      (fun s' id hs => requestAppendEntriesTo_traces id (hs ▸ hl)) _ rfl

end RaftServer

end Ns3Raft.Raft
