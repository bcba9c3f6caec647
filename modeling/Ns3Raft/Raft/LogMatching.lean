import Ns3Raft.Raft.Agreement

/-! # The logs of a cluster

How the logs of a cluster of fixed members hang together in every run, however its servers count
and commit, and what a leader has of what was committed before it.
-/

namespace Ns3Raft.Raft

open Majority Replication

variable {S : List SrvConfig} {i j : SrvId} {a a' : LogState} {c c' : Cluster}

/-! ## The replicated log of a server -/

namespace Replicates

variable {s s' : RaftServer}

theorem entryAt_succ (h : Replicates S c.world a) (hs : c.srv i = some s) (p : Nat) :
    s.logStore.entryAt (p + 1) = (a.log i)[p]? := by
  obtain ⟨hstart, hlog⟩ := h.log_eq hs
  rw [LogStore.entryAt_succ hstart, hlog]

theorem entryAt_zero (h : Replicates S c.world a) (hs : c.srv i = some s) : s.logStore.entryAt 0 = none := by
  obtain ⟨hstart, -⟩ := h.log_eq hs
  rw [LogStore.entryAt, hstart, if_pos (by omega)]

theorem nextSlot_eq (h : Replicates S c.world a) (hs : c.srv i = some s) :
    s.logStore.nextSlot = (a.log i).length + 1 := by
  obtain ⟨hstart, hlog⟩ := h.log_eq hs
  rw [LogStore.nextSlot, hstart, hlog, Nat.add_comm]

theorem term_eq (h : Replicates S c.world a) (hs : c.srv i = some s) : a.term i = s.state.term := by
  have hnode : c.world.node i = some s.core := by simp [Cluster.world, hs]
  have hstate := h.fixed.election.ballots.state i _ hnode
  rw [(h.mirrors.stored i).term, ← hstate]
  rfl

theorem winner_eq (h : Replicates S c.world a) (hs : c.srv i = some s) (hr : s.role = .leader) :
    a.winner s.state.term = some i :=
  (h.mirrors.plays i s.core (by simp [Cluster.world, hs])).leads hr

theorem exists_of_entryAt (h : Replicates S c.world a) (hs : c.srv i = some s) {k : Nat} {x : LogEntry}
    (hx : s.logStore.entryAt k = some x) : ∃ p, k = p + 1 ∧ (a.log i)[p]? = some x := by
  cases k with
  | zero =>
      rw [h.entryAt_zero hs] at hx
      cases hx
  | succ p => exact ⟨p, rfl, h.entryAt_succ hs p ▸ hx⟩

/-- Whoever is still in the term it has won has for its log what it led. -/
theorem log_eq_lead (h : Replicates S c.world a) (hs : c.srv i = some s) {t : Nat}
    (hw : a.winner t = some i) (ht : s.state.term = t) : a.log i = a.lead t := by
  have hterm := (h.term_eq hs).trans ht
  rw [← hterm] at hw ⊢
  exact h.mirrors.inv.winner_log i hw

/-- The entries at an index and before it are those of a common prefix. -/
theorem same_up_to (h : Replicates S c.world a) (hs : c.srv i = some s) {p : Nat}
    {c' : Cluster} {j : SrvId} {a' : LogState} (h' : Replicates S c'.world a') (hs' : c'.srv j = some s')
    (htake : (a.log i).take p = (a'.log j).take p) {k : Nat} (hk : k ≤ p) :
    s.logStore.entryAt k = s'.logStore.entryAt k := by
  cases k with
  | zero => rw [h.entryAt_zero hs, h'.entryAt_zero hs']
  | succ k =>
      rw [h.entryAt_succ hs, h'.entryAt_succ hs', ← List.getElem?_take_of_lt (show k < p by omega), htake,
        List.getElem?_take_of_lt (by omega)]

end Replicates

/-! ## Runs of three servers -/

namespace ThreeServers

def committed : Cluster := Transition.follow Cluster.step .down firstCommit

/-- The configuration of server 1 has reached server 2, and the response is on its way. -/
def answered : Cluster := Transition.follow Cluster.step .down (firstCommit.take 7)

def answer : RespMsg :=
  { term := 1, type := .appendEntriesResponse, src := 2, dst := 1, nextIdx := 2, accepted := true }

theorem replaced_run : Transition.Reachable Cluster.step (ReplicaStep servers) .down replaced ∧
    ∃ s ∈ replaced.srv 2, ∃ s' ∈ replaced.srv 3,
      ∃ x ∈ s.logStore.entryAt 2, ∃ y ∈ s'.logStore.entryAt 2, x.term = y.term :=
  ⟨Transition.reachable_of_follows (by decide +kernel), by decide +kernel⟩

theorem answered_run : Transition.Reachable Cluster.step (ReplicaStep servers) .down answered ∧
    CanOccur [.clientRequest] answered.hist 1 (.resp answer .resp .appendEntriesRequest) ∧
    ∃ s ∈ answered.srv 1, s.role = .leader ∧ answer.src ∈ s.peerIds ∧ answer.term = s.state.term :=
  ⟨Transition.reachable_of_follows (by decide +kernel), by decide +kernel, by decide +kernel⟩

/-- Server 1 leads with an entry of its term in the log of server 2. Then it takes a write, or loses the lead. -/
theorem committed_run : Transition.Reachable Cluster.step (RightStep servers) .down committed ∧
    (∃ s ∈ committed.srv 1, s.role = .leader ∧
      ∃ s' ∈ committed.srv 2, ∃ x ∈ s'.logStore.entryAt 1, x.term = s.state.term) ∧
    (Transition.Reachable Cluster.step (ReplicaStep servers) committed
        (Transition.follow Cluster.step committed [write 1 [1], timeout 2]) ∧
      ∃ s ∈ committed.srv 1, s.role = .leader ∧
        ∃ s' ∈ (Transition.follow Cluster.step committed [write 1 [1], timeout 2]).srv 1,
          s'.state.term = s.state.term ∧ s.logStore ≠ s'.logStore) ∧
    Transition.Reachable Cluster.step (RightStep servers) committed
        (Transition.follow Cluster.step committed [timeout 2, deliver 11, deliver 12]) ∧
      ∃ s ∈ committed.srv 1, ∃ x ∈ s.logStore.entryAt 1, 1 ≤ s.quickCommitIdx ∧
        ∃ s' ∈ (Transition.follow Cluster.step committed [timeout 2, deliver 11, deliver 12]).srv 2,
          s'.role = .leader ∧ s.state.term < s'.state.term :=
  ⟨Transition.reachable_of_follows (by decide +kernel), by decide +kernel,
    ⟨Transition.reachable_of_follows (by decide +kernel), by decide +kernel⟩,
    Transition.reachable_of_follows (by decide +kernel), by decide +kernel⟩

end ThreeServers

/-! ## Log matching -/

/-- Two logs that have entries of one term at an index are the same up to this index. -/
theorem log_matching (hS : (S.map (·.id)).Nodup) (hno : noServer ∉ memberIds S)
    (h : Transition.Reachable Cluster.step (ReplicaStep S) .down c) {s s' : RaftServer}
    (hs : c.srv i = some s) (hs' : c.srv j = some s') {k : Nat} {x y : LogEntry}
    (hx : s.logStore.entryAt k = some x) (hy : s'.logStore.entryAt k = some y) (hterm : x.term = y.term) :
    ∀ k' ≤ k, s.logStore.entryAt k' = s'.logStore.entryAt k' := by
  obtain ⟨a, -, ha⟩ := (Replicates.down S).run hS hno h
  obtain ⟨p, rfl, hxp⟩ := ha.exists_of_entryAt hs hx
  rw [ha.entryAt_succ hs'] at hy
  have hlog := ha.mirrors.inv.rooted_log i
  have hlog' := ha.mirrors.inv.rooted_log j
  have htake := hlog.take_eq hlog' (t := y.term) (by rw [hxp, Option.map_some, hterm]) (by rw [hy, Option.map_some])
  exact fun k' hk' => ha.same_up_to hs ha hs' htake hk'

open ThreeServers in
theorem log_matching_three : ∃ s s', replaced.srv 2 = some s ∧ replaced.srv 3 = some s' ∧
    ∀ k ≤ 2, s.logStore.entryAt k = s'.logStore.entryAt k := by
  obtain ⟨hrun, s, hs, s', hs', x, hx, y, hy, ht⟩ := replaced_run
  exact ⟨s, s', hs, hs', log_matching (by decide) (by decide) hrun hs hs' hx hy ht⟩

/-! ## Leaders -/

/-- As long as a server is in the term it leads or has led, its log only grows. -/
theorem leader_keeps_log (hS : (S.map (·.id)).Nodup) (hno : noServer ∉ memberIds S)
    (h : Transition.Reachable Cluster.step (ReplicaStep S) .down c)
    (h' : Transition.Reachable Cluster.step (ReplicaStep S) c c') {s s' : RaftServer} (hs : c.srv i = some s)
    (hr : s.role = .leader) (hs' : c'.srv i = some s') (ht : s'.state.term = s.state.term) :
    s.logStore.entries <+: s'.logStore.entries := by
  obtain ⟨a, -, ha⟩ := (Replicates.down S).run hS hno h
  obtain ⟨a', hlater, ha'⟩ := ha.run hS hno h'
  have hw := ha.winner_eq hs hr
  rw [(ha.log_eq hs).2, (ha'.log_eq hs').2, ha.log_eq_lead hs hw rfl,
    ha'.log_eq_lead hs' (hlater.evolves.winner _ _ hw) ht]
  exact hlater.evolves.lead _ (by simp [hw])

open ThreeServers in
theorem leader_keeps_log_three : ∃ s s', committed.srv 1 = some s ∧
    (Transition.follow Cluster.step committed [write 1 [1], timeout 2]).srv 1 = some s' ∧
      s.logStore.entries <+: s'.logStore.entries ∧ s.logStore ≠ s'.logStore := by
  obtain ⟨hreach, -, ⟨hrun, s, hs, hr, s', hs', ht, hne⟩, -⟩ := committed_run
  exact ⟨s, s', hs, hs', leader_keeps_log (S := servers) (by decide) (by decide)
    (hreach.mono fun _ _ hok => hok.1) hrun hs hr hs' ht, hne⟩

/-- Entries of a leader's term come from its log, together with all before them: those in the logs of the
others and those on the way. -/
theorem entries_from_leader (hS : (S.map (·.id)).Nodup) (hno : noServer ∉ memberIds S)
    (h : Transition.Reachable Cluster.step (ReplicaStep S) .down c) {s : RaftServer} (hs : c.srv i = some s)
    (hr : s.role = .leader) :
    (∀ j s' k x, c.srv j = some s' → s'.logStore.entryAt k = some x → x.term = s.state.term →
        ∀ k' ≤ k, s'.logStore.entryAt k' = s.logStore.entryAt k') ∧
      ∀ j m h q x, (j, .send (.req m h)) ∈ c.hist → m.type = .appendEntriesRequest →
        m.logEntries[q]? = some x → x.term = s.state.term →
          ∀ q' ≤ q, m.logEntries[q']? = s.logStore.entryAt (m.lastLogIdx + 1 + q') := by
  obtain ⟨a, -, ha⟩ := (Replicates.down S).run hS hno h
  have hinv := ha.mirrors.inv
  have hlog := ha.log_eq_lead hs (ha.winner_eq hs hr) rfl
  constructor
  · intro j s' k x hs' hx ht k' hk'
    obtain ⟨p, rfl, hxp⟩ := ha.exists_of_entryAt hs' hx
    obtain ⟨hlen, rfl⟩ := List.getElem?_eq_some_iff.mp hxp
    have hprefix := ((hinv.rooted_log j).getElem hlen).2
    rw [ht, ← hlog] at hprefix
    refine ha.same_up_to hs' ha hs ?_ hk'
    rw [List.prefix_iff_eq_take.mp hprefix, List.length_take, Nat.min_eq_left hlen]
  · intro j m h' q x hx htype hq ht q' hq'
    have hfrom := (ha.mirrors.carries _ hx).2.1 htype
    have hwon : a.winner m.term ≠ none := by simp [hfrom.won]
    obtain ⟨hlen, hxe⟩ := List.getElem?_eq_some_iff.mp (hfrom.getElem? hq)
    obtain ⟨z, hz⟩ := ((hinv.rooted_lead _ hwon).getElem hlen).2
    have hq'lt : q' < m.logEntries.length := by
      have := (List.getElem?_eq_some_iff.mp hq).1
      omega
    have hsent := hfrom.getElem? (List.getElem?_eq_getElem hq'lt)
    rw [hxe, ht, ← hlog] at hz
    rw [Nat.add_right_comm, ha.entryAt_succ hs, List.getElem?_eq_getElem hq'lt, ← hsent, ← hz,
      List.getElem?_append_left (by rw [List.length_take]; omega), List.getElem?_take_of_lt (by omega)]

open ThreeServers in
theorem entries_from_leader_three : ∃ s, committed.srv 1 = some s ∧ s.role = .leader ∧
    (∃ s' ∈ committed.srv 2, ∃ x ∈ s'.logStore.entryAt 1, x.term = s.state.term) ∧
      ∀ j s' k x, committed.srv j = some s' → s'.logStore.entryAt k = some x → x.term = s.state.term →
        ∀ k' ≤ k, s'.logStore.entryAt k' = s.logStore.entryAt k' := by
  obtain ⟨hreach, ⟨s, hs, hr, hx⟩, -⟩ := committed_run
  exact ⟨s, hs, hr, hx, (entries_from_leader (S := servers) (by decide) (by decide)
    (hreach.mono fun _ _ hok => hok.1) hs hr).1⟩

/-! ## Acknowledgements -/

/-- Whoever accepts an append request says who it is and how far the request went. -/
def AcksRight (hist : Hist) : Prop :=
  ∀ j r h, (j, .send (.resp r h .appendEntriesRequest)) ∈ hist → r.accepted = true → r.src = j ∧ 0 < r.nextIdx

theorem NodeStep.ack_out {inp : Input} {n₀ n n' : Core} {r : RespMsg} {h : RpcHandler} (hacc : r.accepted = true)
    (hstep : NodeStep inp n₀ n (some (.send (.resp r h .appendEntriesRequest))) n') :
    r.src = n.id ∧ 0 < r.nextIdx := by
  cases hstep with
  | quiet hq => exact absurd rfl (hq.2 hacc).2
  | sendAck _ _ _ _ hsrc _ _ hnext => exact ⟨hsrc, by omega⟩
  | write _ _ _ _ _ ho => rcases ho with ho | ho <;> cases ho
  | bulk hb => cases hb

theorem AcksRight.step {w w' : World} {inp : Input} {n₀ : Core} (hacks : AcksRight w.hist) (hel : Election S w)
    (h : World.Step i inp n₀ w w') : AcksRight w'.hist := by
  intro j r h' hx hacc
  cases h with
  | @node n n' o hn hstep =>
      rw [World.put_hist, List.mem_append] at hx
      rcases hx with hx | hx
      · exact hacks j r h' hx hacc
      · obtain ⟨x, hx, heq⟩ := List.mem_map.mp hx
        obtain ⟨rfl, rfl⟩ := Prod.mk.inj heq
        obtain ⟨hsrc, hpos⟩ := (Option.mem_toList.mp hx ▸ hstep : NodeStep inp n₀ n (some _) n').ack_out hacc
        exact ⟨hsrc.trans (hel.member _ n hn).id, hpos⟩
  | exit hn _ =>
      simp only [World.put_hist, List.map_cons, List.map_nil, List.mem_append, List.mem_singleton] at hx
      rcases hx with hx | hx
      · exact hacks j r h' hx hacc
      · cases hx
  | die => exact hacks j r h' (by simpa using hx) hacc

theorem acksRight_of_reachable (hS : (S.map (·.id)).Nodup) (hno : noServer ∉ memberIds S)
    (h : Transition.Reachable Cluster.step (ReplicaStep S) .down c) : AcksRight c.hist := by
  suffices (∃ a, Replicates S c.world a) ∧ AcksRight c.world.hist from this.2
  refine h.invariant (P := fun c => (∃ a, Replicates S c.world a) ∧ AcksRight c.world.hist)
    ⟨⟨_, .down S⟩, by simp [AcksRight, Cluster.world, Cluster.down]⟩ ?_
  rintro c ev ⟨⟨a, ha⟩, hacks⟩ hok
  obtain ⟨a', -, ha'⟩ := ha.next hS hno hok
  refine ⟨⟨a', ha'⟩, ?_⟩
  have hhandler : ∀ i inp s, c.srv i = some s →
      CanOccur [.clientRequest] c.hist i inp ∧ Ordinary S c.hist inp → ∀ w₁ w₂, c.hist <+: w₁.hist →
      (∃ a, Replicates S w₁ a) ∧ AcksRight w₁.hist → World.Step i inp s.core w₁ w₂ →
      (∃ a, Replicates S w₂ a) ∧ AcksRight w₂.hist := by
    rintro i inp s hs hocc w₁ w₂ hgrow ⟨⟨a₁, h₁⟩, hw⟩ hstep
    obtain ⟨a₂, -, h₂⟩ := ha.handler hno hs hocc hgrow h₁ hstep
    exact ⟨⟨a₂, h₂⟩, hw.step h₁.fixed.election hstep⟩
  cases ev with
  | act i inp =>
      exact (Cluster.act_invariant (P := fun w => (∃ a, Replicates S w a) ∧ AcksRight w.hist) ⟨⟨a, ha⟩, hacks⟩
        fun s w₁ w₂ hs hg hw hstep => hhandler i inp s hs hok w₁ w₂ hg hw hstep).2
  | crash i inp k =>
      exact (Cluster.crash_invariant (k := k) (P := fun w => (∃ a, Replicates S w a) ∧ AcksRight w.hist)
        ⟨⟨a, ha⟩, hacks⟩ fun s w₁ w₂ hs hg hw hstep => hhandler i inp s hs hok w₁ w₂ hg hw hstep).2
  | restart b =>
      simp only [Cluster.step, Cluster.restart]
      split <;> exact hacks

namespace RaftServer

theorem handleAppendEntriesResp_peers (s : RaftServer) {m : RespMsg} (hmem : m.src ∈ s.peerIds)
    (hacc : m.accepted = true) :
    (s.handleAppendEntriesResp m).core.peers = (s.core.ack m.src m.nextIdx).peers := by
  have hclear : ∀ s' : RaftServer, (s'.updatePeer m.src fun p => { p with pendingCommit := false }).core = s'.core :=
    fun s' => updatePeer_core s' m.src fun p => ⟨rfl, rfl⟩
  unfold handleAppendEntriesResp
  rw [if_pos hmem, if_pos hacc, ← updatePeer_ack_core]
  dsimp only
  split
  · rw [requestAppendEntriesTo_core, hclear, commit_core]
  · rw [hclear, commit_core]

/-- A leader takes a response of its own term. -/
theorem step_resp_peers (s : RaftServer) {m : RespMsg} {reqType : MsgType} (hmem : m.src ∈ s.peerIds)
    (htype : m.type = .appendEntriesResponse) (hacc : m.accepted = true) (hterm : m.term = s.state.term) :
    (s.step (.resp m .resp reqType)).core.peers = (s.core.ack m.src m.nextIdx).peers := by
  have hcore : ∀ s₁ : RaftServer, s₁.core = s.core →
      (s₁.handlePeerResp m).core.peers = (s.core.ack m.src m.nextIdx).peers := by
    intro s₁ h₁
    have hmem₁ : m.src ∈ s₁.peerIds := by rwa [← core_peerIds, h₁, core_peerIds]
    have hstay : s₁.updateTerm m.term = (s₁, false) := by
      have hstate : s₁.state = s.state := congrArg Core.state h₁
      rw [updateTerm, if_neg (by rw [hstate, hterm]; exact Nat.lt_irrefl _)]
    rw [handlePeerResp, if_pos hmem₁, hstay, ← h₁]
    simp only [Bool.false_eq_true, if_false, htype]
    exact s₁.handleAppendEntriesResp_peers hmem₁ hacc
  exact hcore _ (handleRpcResult_core ..)

end RaftServer

/-- What a leader takes for matched when a peer accepts its request is in the peer's log as it is in
its own, for as long as the leader's term is not over for either of them. -/
theorem match_index_sound (hS : (S.map (·.id)).Nodup) (hno : noServer ∉ memberIds S)
    (h : Transition.Reachable Cluster.step (ReplicaStep S) .down c) {s : RaftServer} (hs : c.srv i = some s)
    (hr : s.role = .leader) {m : RespMsg} {reqType : MsgType}
    (hocc : CanOccur [.clientRequest] c.hist i (.resp m .resp reqType)) (hmem : m.src ∈ s.peerIds)
    (htype : m.type = .appendEntriesResponse) (hacc : m.accepted = true) (hterm : m.term = s.state.term) :
    ∃ k < s.logStore.nextSlot,
      (∀ p ∈ (s.step (.resp m .resp reqType)).peers, p.id = m.src → p.matchedIdx = k) ∧
        ∀ c', Transition.Reachable Cluster.step (ReplicaStep S) c c' → ∀ s₁ s₂, c'.srv i = some s₁ →
          c'.srv m.src = some s₂ → s₁.state.term = s.state.term → s₂.state.term ≤ s.state.term →
            ∀ k' ≤ k, s₂.logStore.entryAt k' = s₁.logStore.entryAt k' := by
  obtain ⟨a, -, ha⟩ := (Replicates.down S).run hS hno h
  obtain ⟨⟨j, x⟩, hx, hxs⟩ := List.mem_map.mp hocc.1
  obtain rfl : x = .send (.resp m .resp reqType) := hxs
  obtain rfl : reqType = .appendEntriesRequest := by
    obtain ⟨hkind, hresponse⟩ := ha.fixed.kinds _ hx
    rw [htype] at hresponse
    rcases hkind with ⟨rfl | rfl | rfl, -⟩ | ⟨-, h⟩ | ⟨-, h⟩ | ⟨-, h, -⟩ | ⟨-, h⟩
    · rfl
    all_goals first | cases hresponse | cases h
  obtain ⟨rfl, hpos⟩ := acksRight_of_reachable hS hno h j m .resp hx hacc
  have hw := ha.winner_eq hs hr
  have hacked : m.nextIdx ≤ a.acked m.src s.state.term + 1 := hterm ▸ (ha.mirrors.carries _ hx rfl hacc).2
  have hlen := ha.mirrors.inv.acked_le m.src s.state.term (by simp [hw])
  rw [← ha.log_eq_lead hs hw rfl] at hlen
  refine ⟨m.nextIdx - 1, by rw [ha.nextSlot_eq hs]; omega, fun p hp hid => ?_, fun c' h' s₁ s₂ hs₁ hs₂ ht₁ ht₂ => ?_⟩
  · have hpeer : (p.id, p.matchedIdx) ∈ (s.core.ack m.src m.nextIdx).peers := by
      rw [← s.step_resp_peers hmem htype hacc hterm]
      exact List.mem_map.mpr ⟨p, hp, rfl⟩
    obtain ⟨q, -, hq⟩ := List.mem_map.mp hpeer
    split at hq
    · rw [← (Prod.mk.inj hq).2, ulongPred, if_neg hpos.ne']
    · rename_i hne
      exact absurd (by rw [hq, hid]) hne
  · obtain ⟨a', hlater, ha'⟩ := ha.run hS hno h'
    have hterm₁ := (ha'.term_eq hs₁).trans ht₁
    have hterm₂ := (ha'.term_eq hs₂).trans_le ht₂
    have hgrown := hlater.evolves.acked m.src s.state.term
    have htake := (ha'.mirrors.inv.take_acked (v := m.src) (w := i) (k := m.nextIdx - 1)
      (by rw [hterm₁]; exact hlater.evolves.winner _ _ hw) (by omega) (by rw [hterm₁]; omega)).1
    exact fun k' hk' => ha'.same_up_to hs₂ ha' hs₁ htake hk'

open ThreeServers in
theorem match_index_sound_three : ∃ s, answered.srv 1 = some s ∧ ∃ k < s.logStore.nextSlot,
    (∀ p ∈ (s.step (.resp answer .resp .appendEntriesRequest)).peers, p.id = 2 → p.matchedIdx = k) ∧
      ∀ c', Transition.Reachable Cluster.step (ReplicaStep servers) answered c' → ∀ s₁ s₂, c'.srv 1 = some s₁ →
        c'.srv 2 = some s₂ → s₁.state.term = s.state.term → s₂.state.term ≤ s.state.term →
          ∀ k' ≤ k, s₂.logStore.entryAt k' = s₁.logStore.entryAt k' := by
  obtain ⟨hrun, hocc, s, hs, hr, hmem, hterm⟩ := answered_run
  exact ⟨s, hs, match_index_sound (by decide) (by decide) hrun hs hr hocc hmem rfl rfl hterm⟩

/-! ## What leaders have -/

theorem grown {l l' : List LogEntry} (h : l <+: l') {p : Nat} {x : LogEntry} (hx : l[p]? = some x) :
    l'[p]? = some x := by
  obtain ⟨hp, rfl⟩ := List.getElem?_eq_some_iff.mp hx
  exact List.prefix_iff_getElem?.mp h p hp

/-- As long as every count of acknowledgements is right and every follower commits what it has compared, a
leader of a server's term or of a later one has everything that the server has committed. -/
theorem leader_has_committed (hS : (S.map (·.id)).Nodup) (hno : noServer ∉ memberIds S)
    (h : Transition.Reachable Cluster.step (RightStep S) .down c)
    (h' : Transition.Reachable Cluster.step (RightStep S) c c') {s s' : RaftServer} (hs : c.srv i = some s)
    (hs' : c'.srv j = some s') (hr : s'.role = .leader) (ht : s.state.term ≤ s'.state.term) {k : Nat} {x : LogEntry}
    (hk : k ≤ s.quickCommitIdx) (hx : s.logStore.entryAt k = some x) : s'.logStore.entryAt k = some x := by
  obtain ⟨a, -, ha⟩ := (Agrees.down S).run hS hno h
  obtain ⟨a', hlater, ha'⟩ := ha.run hS hno h'
  obtain ⟨p, rfl, hxp⟩ := ha.replicates.exists_of_entryAt hs hx
  have hi : i ∈ memberIds S := by
    simpa using (ha.fixed.election.member i s.core (by simp [Cluster.world, hs])).mem
  have hj : j ∈ memberIds S := by
    simpa using (ha'.fixed.election.member j s'.core (by simp [Cluster.world, hs'])).mem
  have hfirm : Firm LogEntry.term (memberIds S) a i s.quickCommitIdx :=
    ha.committed.quick i s.core (by simp [Cluster.world, hs])
  rw [ha'.replicates.entryAt_succ hs']
  rcases hfirm with halone | hzero | ⟨t, n, hchosen, hn, hle, hp⟩
  · rw [halone, Finset.mem_singleton] at hj
    subst hj
    exact grown (hlater.alone _ halone) hxp
  · omega
  · have hw := ha'.replicates.winner_eq hs' hr
    rw [ha.replicates.term_eq hs] at hle
    have hlead := ha'.mirrors.inv.chosen_lead (hchosen.mono hlater.evolves) (hle.trans ht) (by simp [hw])
    have hbefore : (a.lead t)[p]? = some x := by
      rw [← hxp]
      exact (Firm.getElem? hp (Nat.lt_of_succ_le hk) (List.getElem?_eq_some_iff.mp hxp).1).symm
    rw [ha'.replicates.log_eq_lead hs' hw rfl]
    refine grown hlead ?_
    rw [List.getElem?_take_of_lt (by omega)]
    exact grown (hlater.evolves.lead t hchosen.won) hbefore

open ThreeServers in
theorem leader_has_committed_three : ∃ s s' x, committed.srv 1 = some s ∧
    (Transition.follow Cluster.step committed [timeout 2, deliver 11, deliver 12]).srv 2 = some s' ∧
      s'.role = .leader ∧ s.state.term < s'.state.term ∧ s.logStore.entryAt 1 = some x ∧
        s'.logStore.entryAt 1 = some x := by
  obtain ⟨hreach, -, -, hrun, s, hs, x, hx, hk, s', hs', hr, ht⟩ := committed_run
  exact ⟨s, s', x, hs, hs', hr, ht, hx, leader_has_committed (by decide) (by decide) hreach hrun
    hs hs' hr ht.le hk hx⟩

end Ns3Raft.Raft
