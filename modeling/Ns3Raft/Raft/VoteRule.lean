import Ns3Raft.Raft.TermVote

/-! # The vote rule and compaction

A voter compares a candidate with the last entry of its log store, a candidate
announces what `term_for_log` says about its last index. The two differ when a
compaction has left the store without entries.
-/

namespace Ns3Raft.Raft

namespace RaftServer

def Accepts (r : RaftServer × Option RespMsg) : Prop := r.2.any (·.accepted) = true

instance (r : RaftServer × Option RespMsg) : Decidable (Accepts r) :=
  inferInstanceAs (Decidable (_ = _))

/-- The candidate's last term and index are at least those of the voter, the
voter's term taken the way `request_vote` takes it. -/
def Covers (s : RaftServer) (req : ReqMsg) : Prop :=
  ∀ t ∈ s.termForLog s.logStore.lastIndex,
    t < req.lastLogTerm ∨ (req.lastLogTerm = t ∧ s.logStore.lastIndex ≤ req.lastLogIdx)

instance (s : RaftServer) (req : ReqMsg) : Decidable (s.Covers req) :=
  inferInstanceAs (Decidable (∀ t ∈ _, _))

def VotesUpToDate (s : RaftServer) : Prop :=
  ∀ req, Accepts (s.handleVoteReq req) ∨ Accepts (s.handlePrevoteReq req) → s.Covers req

/-- The log holds an entry, or its last index is no snapshot's, or there is
nothing to forget because that snapshot ends in term 0. -/
def LastTermInLog (s : RaftServer) : Prop :=
  s.logStore.entries = [] → s.logStore.lastIndex ≠ 0 →
    ∀ snp ∈ s.smSnapshot, snp.lastLogIdx = s.logStore.lastIndex → snp.lastLogTerm = 0

instance (s : RaftServer) : Decidable s.LastTermInLog :=
  inferInstanceAs (Decidable (_ → _ → ∀ snp ∈ _, _))

/-! ## The two views of the last term -/

theorem termForLog_lastIndex_of_entries {s : RaftServer} (h : s.logStore.entries ≠ []) :
    s.termForLog s.logStore.lastIndex = some s.logStore.lastEntry.term := by
  have hlen := List.length_pos_of_ne_nil h
  have hstart := s.logStore.start_pos
  have hlast : s.logStore.lastIndex = s.logStore.startIndex + (s.logStore.entries.length - 1) := by
    unfold LogStore.lastIndex LogStore.nextSlot
    omega
  unfold termForLog
  rw [if_neg (by omega), if_pos (by omega)]
  simp only [LogStore.termAt, LogStore.entryAt, LogStore.lastEntry, hlast]
  rw [if_neg (by omega), Nat.add_sub_cancel_left, List.getLast?_eq_getElem?]
  simp [List.getElem?_eq_getElem (by omega : s.logStore.entries.length - 1 < s.logStore.entries.length)]

theorem termForLog_lastIndex_of_empty {s : RaftServer} (h : s.logStore.entries = [])
    (hI : s.logStore.lastIndex ≠ 0) {t : Nat} :
    s.termForLog s.logStore.lastIndex = some t ↔
      ∃ snp ∈ s.smSnapshot, snp.lastLogIdx = s.logStore.lastIndex ∧ snp.lastLogTerm = t := by
  have hlt : ¬ s.logStore.startIndex ≤ s.logStore.lastIndex := by
    have := s.logStore.start_pos
    unfold LogStore.lastIndex LogStore.nextSlot
    simp only [h, List.length_nil]
    omega
  unfold termForLog
  rw [if_neg hI, if_neg hlt]
  cases s.smSnapshot with
  | none => simp
  | some snp =>
      by_cases heq : s.logStore.lastIndex = snp.lastLogIdx
      · simp [heq]
      · simp [heq, Ne.symm heq]

theorem lastTermInLog_iff (s : RaftServer) :
    s.LastTermInLog ↔
      ∀ t ∈ s.termForLog s.logStore.lastIndex, t = s.logStore.lastEntry.term := by
  by_cases h : s.logStore.entries = []
  · have hdummy : s.logStore.lastEntry.term = 0 := by
      simp [LogStore.lastEntry, h, LogStore.dummyEntry]
    rw [hdummy]
    by_cases hI : s.logStore.lastIndex = 0
    · simp [LastTermInLog, hI, termForLog]
    · constructor
      · intro hlast t ht
        obtain ⟨snp, hsnp, hidx, rfl⟩ := (termForLog_lastIndex_of_empty h hI).mp ht
        exact hlast h hI snp hsnp hidx
      · intro hall _ _ snp hsnp hidx
        exact hall _ ((termForLog_lastIndex_of_empty h hI).mpr ⟨snp, hsnp, hidx, rfl⟩)
  · simp [LastTermInLog, h, termForLog_lastIndex_of_entries h]

theorem voteLogOkay_of_accepts {s : RaftServer} {req : ReqMsg}
    (h : Accepts (s.handleVoteReq req) ∨ Accepts (s.handlePrevoteReq req)) :
    s.voteLogOkay req = true := by
  rcases h with h | h
  · unfold handleVoteReq at h
    dsimp only at h
    split at h
    · rename_i hok
      exact hok.2.1
    · simp [Accepts] at h
  · unfold handlePrevoteReq at h
    dsimp only at h
    split at h
    · rename_i hok
      exact hok.2.1
    · simp [Accepts] at h

theorem votesUpToDate_iff (s : RaftServer) : s.VotesUpToDate ↔ s.LastTermInLog := by
  rw [lastTermInLog_iff]
  constructor
  · -- a candidate that has exactly what the store shows gets the vote
    intro h t ht
    have hcov := h
      { term := s.state.term, type := .voteRequest, src := s.state.votedFor, dst := s.id,
        lastLogTerm := s.logStore.lastEntry.term, lastLogIdx := s.logStore.lastIndex,
        commitIdx := 0, payload := .entries [] }
      (.inl (by simp [handleVoteReq, voteLogOkay, Accepts, RespMsg.accept])) t ht
    rcases hcov with hlt | ⟨heq, -⟩
    · by_cases hempty : s.logStore.entries = []
      · simp [LogStore.lastEntry, hempty, LogStore.dummyEntry] at hlt
      · rw [termForLog_lastIndex_of_entries hempty] at ht
        exact (Option.some.inj ht).symm
    · exact heq.symm
  · intro h req hacc t ht
    have hok := voteLogOkay_of_accepts hacc
    rw [h t ht]
    simpa [voteLogOkay] using hok

/-! ## Runs whose compactions leave an entry -/

/-- Neither a finished snapshot nor one that arrives takes the whole log away. -/
def KeepsTail (s : RaftServer) : Input → Prop
  | .snapshotCompleted (some _) => ∀ snp ∈ s.snpInProgress,
      s.params.reservedLogItems < snp.lastLogIdx →
      snp.lastLogIdx - s.params.reservedLogItems < s.logStore.lastIndex
  | .req m _ _ => m.type = .installSnapshotRequest →
      match m.payload with
      | .snpSyncReq r => r.snapshot.lastLogIdx < s.logStore.lastIndex
      | _ => True
  | _ => True

instance (s : RaftServer) : DecidablePred s.KeepsTail
  | .snapshotCompleted (some _) => inferInstanceAs (Decidable (∀ snp ∈ s.snpInProgress, _))
  | .req m _ _ => by
      dsimp only [KeepsTail]
      exact match m.payload with
      | .entries _ | .logPack _ | .snpSyncReq _ => inferInstance
  | .snapshotCompleted none | .electionTimeout | .hbTimeout _ | .commitInBg | .resp ..
  | .rpcError .. | .retry _ | .replicateLog .. => inferInstanceAs (Decidable True)

end RaftServer

/-- A store without entries is a fresh one. -/
def LogStore.Whole (l : LogStore) : Prop := l.entries = [] → l.startIndex = 1

instance (l : LogStore) : Decidable l.Whole := inferInstanceAs (Decidable (_ → _))

theorem LogStore.Whole.of_ne_nil {l : LogStore} (h : l.entries ≠ []) : l.Whole :=
  fun h' => absurd h' h

theorem LogStore.Whole.compact {l l' : LogStore} {idx : Nat} (h : l.compact idx = some l')
    (hidx : idx < l.lastIndex) : l'.Whole := by
  unfold LogStore.compact at h
  split at h
  · cases h
  · cases h
    refine .of_ne_nil fun hnil => ?_
    have hlen : l.entries.length ≤ idx + 1 - l.startIndex := List.drop_eq_nil_iff.mp hnil
    unfold LogStore.lastIndex LogStore.nextSlot at hidx
    omega

theorem NodeStep.whole {inp : Input} {s : RaftServer} {n n' : Core} {o : Option Output}
    (hk : s.KeepsTail inp) (h : NodeStep inp s.core n o n') (hn : n.log.Whole) : n'.log.Whole := by
  cases h with
  | create _ _ _ _ => exact .of_ne_nil (by simp)
  | write _ _ _ _ _ _ => exact .of_ne_nil (by simp [LogStore.writeAt])
  | compact hinp hsnp hn' hres hl =>
      subst hinp
      rw [hn'] at hl hres
      exact .compact hl (hk _ hsnp hres)
  | bulk h =>
      cases h with
      | pack _ _ _ _ hl =>
          unfold LogStore.applyPack at hl
          split at hl
          · cases hl
          · rename_i hne
            cases hl
            refine .of_ne_nil fun hnil => hne (.inl ?_)
            exact (List.append_eq_nil_iff.mp hnil).2
      | snapCompact hinp htype hpay hlog _ _ hl =>
          subst hinp
          have hidx := hk htype
          rw [hpay] at hidx
          rw [hlog] at hl
          exact .compact hl hidx
      | _ => exact hn
  | _ => exact hn

theorem Path.whole {inp : Input} {s : RaftServer} {n n' : Core} {os : List Output}
    (hk : s.KeepsTail inp) (h : Path inp s.core n os n') (hn : n.log.Whole) : n'.log.Whole := by
  induction h with
  | nil => exact hn
  | cons hs _ ih => exact ih (hs.whole hk hn)

namespace RaftServer

theorem step_whole {s : RaftServer} {inp : Input} (hk : s.KeepsTail inp) (hs : s.exited = false)
    (hw : s.logStore.Whole) (hlive : (s.step inp).exited = false) :
    (s.step inp).logStore.Whole := by
  rcases handle_traces { s with out := [] } inp with h | ⟨-, -, h3, -⟩ | ⟨-, h2, -⟩
  · exact absurd h (by simp [hs])
  · exact Path.whole (s := s) hk h3 hw
  · exact absurd (h2.symm.trans hlive) (by simp)

theorem lastTermInLog_of_whole {s : RaftServer} (h : s.logStore.Whole) : s.LastTermInLog := by
  intro hempty hI
  refine absurd ?_ hI
  simp [LogStore.lastIndex, LogStore.nextSlot, hempty, h hempty]

def LiveKeepsTail (s : RaftServer) (inp : Input) : Prop := Live s inp ∧ s.KeepsTail inp

instance (s : RaftServer) (inp : Input) : Decidable (LiveKeepsTail s inp) :=
  inferInstanceAs (Decidable (_ ∧ _))

theorem run_whole {b : Boot} {tr : List (RaftServer × Input)} {s : RaftServer}
    (hb : b.logStore.Whole)
    (h : Transition.Run RaftServer.step LiveKeepsTail (RaftServer.start b) tr s) :
    s.exited = false → s.logStore.Whole :=
  h.invariant (P := fun s => s.exited = false → s.logStore.Whole) (fun _ => hb)
    fun _ _ hw hok hlive => step_whole hok.2 hok.1 (hw hok.1) hlive

/-- A voter only grants its vote to logs at least as good as its own exactly when
its store still shows its last term, which it does in every run that leaves the
store an entry at each compaction. -/
theorem votesUpToDate_iff_lastTermInLog (b : Boot) (tr : List (RaftServer × Input))
    (s : RaftServer) :
    (s.VotesUpToDate ↔ s.LastTermInLog) ∧
    (b.logStore.Whole →
      Transition.Run RaftServer.step LiveKeepsTail (RaftServer.start b) tr s →
      s.exited = false → s.VotesUpToDate) :=
  ⟨votesUpToDate_iff s, fun hb h hlive =>
    (votesUpToDate_iff s).mpr (lastTermInLog_of_whole (run_whole hb h hlive))⟩

/-! Two entries of term 5 are committed and then covered by a snapshot; with
`reserved_log_items_` zero the compaction takes both. -/

namespace EmptiedLog

def voter (reserved : Nat) : Boot :=
  { id := 3, params := { snapshotDistance := 1, reservedLogItems := reserved }
    config := ⟨0, 0, [⟨1, "a"⟩, ⟨2, "b"⟩, ⟨3, "c"⟩]⟩ }

def inputs : List Input :=
  [.req { term := 5, type := .appendEntriesRequest, src := 1, dst := 3, lastLogTerm := 0,
          lastLogIdx := 0, commitIdx := 2,
          payload := .entries [⟨5, .appLog [1]⟩, ⟨5, .appLog [2]⟩] } .resp {},
   .commitInBg, .commitInBg, .snapshotCompleted (some [0])]

def server (reserved : Nat) : RaftServer :=
  inputs.foldl RaftServer.step (RaftServer.start (voter reserved))

/-- A candidate whose log ends in term 1. -/
def staleVote : ReqMsg :=
  { term := 6, type := .voteRequest, src := 2, dst := 3, lastLogTerm := 1, lastLogIdx := 1,
    commitIdx := 0, payload := .entries [] }

end EmptiedLog

open EmptiedLog in
theorem votesUpToDate_of_reserved_item :
    ((server 0).VotesUpToDate ↔ (server 0).LastTermInLog) ∧ (server 1).VotesUpToDate :=
  ⟨(votesUpToDate_iff_lastTermInLog (voter 0) [] (server 0)).1,
    (votesUpToDate_iff_lastTermInLog (voter 1) _ (server 1)).2 (by decide +kernel)
      (Transition.run_of_passes _ _ _ inputs (by decide +kernel)) (by decide +kernel)⟩

open EmptiedLog in
theorem emptied_log_votes_for_stale_log :
    Transition.Passes RaftServer.step Live (RaftServer.start (voter 0)) inputs ∧
      Accepts (((server 0).followTerm staleVote).handleVoteReq staleVote) ∧
      ((server 0).followTerm staleVote).termForLog 2 = some 5 ∧
      ¬ ((server 0).followTerm staleVote).Covers staleVote ∧
      ¬ ((server 0).followTerm staleVote).VotesUpToDate := by
  have hacc : Accepts (((server 0).followTerm staleVote).handleVoteReq staleVote) := by
    decide +kernel
  have hcov : ¬ ((server 0).followTerm staleVote).Covers staleVote := by decide +kernel
  exact ⟨by decide +kernel, hacc, by decide +kernel, hcov, fun h => hcov (h _ (.inl hacc))⟩

end RaftServer

end Ns3Raft.Raft
