import Ns3Raft.Raft.ConfFlag
import Ns3Raft.Raft.Election

/-! # Logs in order of their terms

The terms along a log do not go down, and none is later than the server's own,
as long as what comes in by bulk (an installed snapshot, a log pack) goes on
from what is there. `compact` does not look at the entries that it keeps behind
a snapshot.
-/

namespace Ns3Raft.Raft

/-! ## Lists that do not go down -/

section Rising

variable {l m : List Nat} {k t : Nat}

theorem rising_from (h : l.Pairwise (· ≤ ·)) (hk : l[k]? = some t) :
    (t :: l.drop (k + 1)).Pairwise (· ≤ ·) := by
  obtain ⟨hlt, rfl⟩ := List.getElem?_eq_some_iff.mp hk
  rw [← List.drop_eq_getElem_cons hlt]
  exact h.sublist (List.drop_sublist k l)

/-- A list up to a place, and another one that goes on from there. -/
theorem rising_splice (h : l.Pairwise (· ≤ ·)) (hk : l[k]? = some t)
    (hm : (t :: m).Pairwise (· ≤ ·)) : (l.take (k + 1) ++ m).Pairwise (· ≤ ·) := by
  have htake : l.take (k + 1) = l.take k ++ [t] := by rw [List.take_add_one, hk]; rfl
  have hup : (l.take k ++ [t]).Pairwise (· ≤ ·) := htake ▸ h.sublist (List.take_sublist _ l)
  obtain ⟨hlow, -, hlast⟩ := List.pairwise_append.mp hup
  rw [htake, List.append_assoc, List.singleton_append]
  refine List.pairwise_append.mpr ⟨hlow, hm, fun a ha b hb => ?_⟩
  have hat : a ≤ t := hlast a ha t (List.mem_singleton_self t)
  rcases List.mem_cons.mp hb with rfl | hb
  · exact hat
  · exact hat.trans (List.rel_of_pairwise_cons hm hb)

theorem rising_zero (h : l.Pairwise (· ≤ ·)) : (0 :: l).Pairwise (· ≤ ·) :=
  List.pairwise_cons.mpr ⟨fun _ _ => Nat.zero_le _, h⟩

end Rising

namespace LogStore

def terms (l : LogStore) : List Nat := l.entries.map (·.term)

/-- The log ends where the snapshot ends, or before, or has its last entry. -/
def GoesOnFrom (l : LogStore) (snp : Snapshot) : Prop :=
  l.lastIndex ≤ snp.lastLogIdx ∨ l.termAt snp.lastLogIdx = some snp.lastLogTerm

instance (l : LogStore) (snp : Snapshot) : Decidable (l.GoesOnFrom snp) :=
  inferInstanceAs (Decidable (_ ∨ _))

theorem termAt_eq_terms (l : LogStore) {idx : Nat} (h : l.startIndex ≤ idx) :
    l.termAt idx = l.terms[idx - l.startIndex]? := by
  unfold termAt entryAt terms
  rw [if_neg (Nat.not_lt.mpr h), List.getElem?_map]

theorem compact_terms {l l' : LogStore} {idx : Nat} (h : l.compact idx = some l') :
    l.startIndex ≤ idx ∧ l'.startIndex = idx + 1 ∧
      l'.entries = l.entries.drop (idx + 1 - l.startIndex) := by
  unfold compact at h
  split at h
  · cases h
  · cases h
    exact ⟨by omega, rfl, rfl⟩

/-- What is kept behind an index goes on from the term the log had there. -/
theorem rising_compact {l l' : LogStore} {idx b : Nat} (h : l.terms.Pairwise (· ≤ ·))
    (hl : l.compact idx = some l')
    (hb : b = 0 ∨ l.lastIndex ≤ idx ∨ l.termAt idx = some b) :
    (b :: l'.terms).Pairwise (· ≤ ·) := by
  obtain ⟨hs, -, hentries⟩ := compact_terms hl
  have hterms : l'.terms = l.terms.drop (idx + 1 - l.startIndex) := by
    unfold terms
    rw [hentries, List.map_drop]
  rw [hterms]
  rcases hb with rfl | hend | hat
  · exact rising_zero (h.sublist (List.drop_sublist _ _))
  · have hnil : l.terms.drop (idx + 1 - l.startIndex) = [] := by
      refine List.drop_eq_nil_of_le ?_
      unfold terms
      unfold lastIndex nextSlot at hend
      rw [List.length_map]
      omega
    rw [hnil]
    exact List.pairwise_singleton _ b
  · rw [l.termAt_eq_terms hs] at hat
    rw [Nat.succ_sub hs]
    exact rising_from h hat

end LogStore

/-! ## Servers -/

namespace RaftServer

variable {s s' s'' : RaftServer}

/-- The term of the entry before an index, as far as the server can tell. -/
def termBefore (s : RaftServer) (idx : Nat) : Nat := (s.termForLog (idx - 1)).getD 0

/-- The terms along the log, after that of the snapshot that ends before it. -/
def termsAlong (s : RaftServer) : List Nat :=
  s.termBefore s.logStore.startIndex :: s.logStore.terms

/-- The snapshots a server has or is sending. -/
def snapshots (s : RaftServer) : List Snapshot :=
  s.smSnapshot.toList ++ s.lastSnapshot.toList ++
    (s.peers ++ s.srvToJoin.toList).filterMap fun p => p.snpSyncCtx.map (·.1)

theorem mem_snapshots {snp : Snapshot} :
    snp ∈ s.snapshots ↔ s.smSnapshot = some snp ∨ s.Knows snp := by
  unfold snapshots Knows
  rw [List.mem_append, List.mem_append, Option.mem_toList, Option.mem_toList,
    List.mem_filterMap, or_assoc]

/-- The terms along the log rise, and nothing held is of a later term than the server. -/
structure InOrder (s : RaftServer) : Prop where
  along : s.termsAlong.Pairwise (· ≤ ·)
  log_le : ∀ e ∈ s.logStore.entries, e.term ≤ s.state.term
  snapshots_le : ∀ snp ∈ s.snapshots, snp.lastLogTerm ≤ s.state.term

instance (s : RaftServer) : Decidable s.InOrder :=
  decidable_of_iff (s.termsAlong.Pairwise (· ≤ ·) ∧
      (∀ e ∈ s.logStore.entries, e.term ≤ s.state.term) ∧
      ∀ snp ∈ s.snapshots, snp.lastLogTerm ≤ s.state.term)
    ⟨fun ⟨h1, h2, h3⟩ => ⟨h1, h2, h3⟩, fun h => ⟨h.along, h.log_le, h.snapshots_le⟩⟩

/-- Before the log there is at most a snapshot. -/
theorem termBefore_start (s : RaftServer) :
    s.termBefore s.logStore.startIndex = 0 ∨
      ∃ snp, s.smSnapshot = some snp ∧ snp.lastLogIdx + 1 = s.logStore.startIndex ∧
        s.termBefore s.logStore.startIndex = snp.lastLogTerm := by
  have hpos := s.logStore.start_pos
  unfold termBefore termForLog
  split
  · exact .inl rfl
  rw [if_neg (by omega)]
  split
  · exact .inl rfl
  · rename_i snp hsnp
    split
    · exact .inr ⟨snp, hsnp, by omega, rfl⟩
    · exact .inl rfl

/-- The place of a term in the list. -/
theorem termsAlong_getElem? (s : RaftServer) {idx : Nat} (hs : s.logStore.startIndex ≤ idx)
    (hn : idx ≤ s.logStore.nextSlot) :
    s.termsAlong[idx - s.logStore.startIndex]? = some (s.termBefore idx) := by
  rcases Nat.eq_or_lt_of_le hs with rfl | hlt
  · rw [Nat.sub_self]
    rfl
  · obtain ⟨j, rfl⟩ : ∃ j, idx = j + 1 := ⟨idx - 1, by omega⟩
    have hsome := (s.logStore.entryAt_isSome_iff j).mpr ⟨by omega, by omega⟩
    have hat : ∃ t, s.logStore.termAt j = some t := by
      obtain ⟨e, he⟩ := Option.isSome_iff_exists.mp hsome
      exact ⟨e.term, by unfold LogStore.termAt; rw [he]; rfl⟩
    obtain ⟨t, ht⟩ := hat
    have hbefore : s.termBefore (j + 1) = t := by
      have hpos := s.logStore.start_pos
      unfold termBefore termForLog
      rw [Nat.add_sub_cancel, if_neg (by omega), if_pos (by omega), ht]
      rfl
    rw [hbefore, Nat.succ_sub (by omega), ← ht, s.logStore.termAt_eq_terms (by omega)]
    rfl

theorem InOrder.along_le (h : s.InOrder) : ∀ t ∈ s.termsAlong, t ≤ s.state.term := by
  intro t ht
  rcases List.mem_cons.mp ht with rfl | ht
  · rcases s.termBefore_start with hzero | ⟨snp, hsnp, -, hterm⟩
    · omega
    · rw [hterm]
      exact h.snapshots_le snp (mem_snapshots.mpr (.inl hsnp))
  · obtain ⟨e, he, rfl⟩ := List.mem_map.mp ht
    exact h.log_le e he

/-- The log and the snapshots stay as they are, the term does not go down. -/
structure Retains (s s' : RaftServer) : Prop where
  log : s'.logStore = s.logStore
  snapshot : s'.smSnapshot = s.smSnapshot
  term : s.state.term ≤ s'.state.term
  known : ∀ snp, s'.Knows snp → s.Knows snp

theorem Retains.trans (h : Retains s s') (h' : Retains s' s'') : Retains s s'' :=
  ⟨h'.log.trans h.log, h'.snapshot.trans h.snapshot, h.term.trans h'.term,
    fun snp hs => h.known snp (h'.known snp hs)⟩

/-- Only the log and the snapshots before it decide what stands along the log. -/
theorem termsAlong_congr (hlog : s'.logStore = s.logStore) (hsnp : s'.smSnapshot = s.smSnapshot) :
    s'.termsAlong = s.termsAlong := by
  unfold termsAlong termBefore termForLog
  rw [hlog, hsnp]

theorem InOrder.retains (h : s.InOrder) (hr : Retains s s') : s'.InOrder where
  along := termsAlong_congr hr.log hr.snapshot ▸ h.along
  log_le e he := (h.log_le e (hr.log ▸ he)).trans hr.term
  snapshots_le snp hsnp := by
    refine (h.snapshots_le snp (mem_snapshots.mpr ?_)).trans hr.term
    exact (mem_snapshots.mp hsnp).imp (hr.snapshot.symm.trans ·) (hr.known snp)

/-! ## What the functions of the server retain -/

theorem Retains.refl (s : RaftServer) : Retains s s := ⟨rfl, rfl, le_rfl, fun _ h => h⟩

end RaftServer

theorem Sends.retains {s s' : RaftServer} (h : Sends s s') : RaftServer.Retains s s' :=
  ⟨h.logStore, h.smSnapshot, h.state ▸ le_rfl, h.known⟩

namespace RaftServer

variable {s s' : RaftServer}

theorem emit_retains (s : RaftServer) (o : Output) : Retains s (s.emit o) := by
  unfold emit
  split
  · exact .refl s
  · exact ⟨rfl, rfl, le_rfl, fun _ h => h⟩

theorem saveState_retains (s : RaftServer) {st : SrvState} (h : s.state.term ≤ st.term) :
    Retains s (s.saveState st) :=
  have hset : Retains s { s with state := st } := ⟨rfl, rfl, h, fun _ h => h⟩
  hset.trans (emit_retains _ _)

theorem restartElectionTimer_retains (s : RaftServer) : Retains s s.restartElectionTimer := by
  unfold restartElectionTimer
  split
  · exact .refl s
  · dsimp only
    refine Retains.trans ?_ (emit_retains _ _)
    split
    · exact emit_retains s _
    · exact ⟨rfl, rfl, le_rfl, fun _ h => h⟩

theorem stopElectionTimer_retains (s : RaftServer) : Retains s s.stopElectionTimer := by
  unfold stopElectionTimer
  split
  · exact emit_retains s _
  · exact .refl s

theorem becomeFollower_retains (s : RaftServer) : Retains s s.becomeFollower := by
  have hset : Retains s { s with prevoteState := none } := ⟨rfl, rfl, le_rfl, fun _ h => h⟩
  have hquiet := hset.trans (Sends.foldl disableHb_sends s.peerIds { s with prevoteState := none }).retains
  have hthen : ∀ t : RaftServer, Retains t
      ({ t with srvToJoin := none, role := .follower }.restartElectionTimer.emit
        .becomeFollower) := by
    intro t
    have hdrop : Retains t { t with srvToJoin := none, role := .follower } := by
      refine ⟨rfl, rfl, le_rfl, fun snp hs => hs.imp_right fun ⟨p, hp, hctx⟩ => ⟨p, ?_, hctx⟩⟩
      exact List.mem_append_left _ (by simpa using hp)
    exact (hdrop.trans (restartElectionTimer_retains _)).trans (emit_retains _ _)
  exact hquiet.trans (hthen _)

theorem updateTerm_retains (s : RaftServer) (t : Nat) : Retains s (s.updateTerm t).1 := by
  unfold updateTerm
  split
  · rename_i hlt
    have hset : Retains s
        { s with electionCompleted := false, votesGranted := 0, votedServers := [] } :=
      ⟨rfl, rfl, le_rfl, fun _ h => h⟩
    exact (hset.trans (saveState_retains _ hlt.le)).trans (becomeFollower_retains _)
  · exact .refl s

theorem standing_retains (s : RaftServer) : Retains s s.standing := by
  have hset : Retains s { s with
      prevoteState := none, role := .candidate, votesGranted := 0, votedServers := [],
      electionCompleted := false } := ⟨rfl, rfl, le_rfl, fun _ h => h⟩
  unfold standing
  exact (hset.trans (saveState_retains _ (Nat.le_succ _))).trans (saveState_retains _ le_rfl)

theorem reached_retains (s : RaftServer) (e : LogEntry) : Retains s (s.reached e) := by
  have hset : Retains s { s with smCommitIndex := s.smCommitIndex + 1 } :=
    ⟨rfl, rfl, le_rfl, fun _ h => h⟩
  have hreach := hset.trans (emit_retains _ (.reach (s.smCommitIndex + 1) e))
  unfold reached
  dsimp only
  split
  · exact hreach.trans (emit_retains _ _)
  · exact hreach.trans ⟨rfl, rfl, le_rfl, fun _ h => h⟩
  · exact hreach

theorem saveSnapshotData_retains (s : RaftServer) (r : SnapshotSyncReq) :
    Retains s (s.saveSnapshotData r) := by
  unfold saveSnapshotData
  dsimp only
  refine Retains.trans ?_ (emit_retains _ _)
  exact ⟨rfl, rfl, le_rfl, fun _ h => h⟩

theorem appendLog_knows {e : LogEntry} {snp : Snapshot} :
    (s.appendLog e).Knows snp ↔ s.Knows snp :=
  emit_knows { s with logStore := s.logStore.append e } _ snp

theorem noteReceived_knows {idx : Nat} {e : LogEntry} {snp : Snapshot}
    (h : (s.noteReceived idx e).Knows snp) : s.Knows snp := by
  unfold noteReceived at h
  split at h
  · exact (emit_knows _ _ _).mp h
  · exact h
  · exact h

theorem overwriteAt_knows {idx : Nat} {e : LogEntry} {snp : Snapshot}
    (h : (s.overwriteAt idx e).Knows snp) : s.Knows snp := by
  have hback : (s.rollbackAt idx).Knows snp → s.Knows snp := by
    intro h
    unfold rollbackAt at h
    split at h
    · exact h
    · split at h
      · exact (emit_knows _ _ _).mp h
      · exact h
      · exact h
  have hwrite := noteReceived_knows h
  exact hback ((emit_knows { s.rollbackAt idx with
    logStore := (s.rollbackAt idx).logStore.writeAt idx e } _ snp).mp hwrite)

theorem writeEntries_knows {idx : Nat} {es : List LogEntry} {snp : Snapshot}
    (h : (s.writeEntries idx es).Knows snp) : s.Knows snp := by
  have happend : ∀ (es : List LogEntry) (t : RaftServer),
      (es.foldl appendReceived t).Knows snp → t.Knows snp := by
    intro es
    induction es with
    | nil => exact fun _ h => h
    | cons e es ih => exact fun t h => appendLog_knows.mp (noteReceived_knows (ih _ h))
  have hover : ∀ (es : List LogEntry) (t : RaftServer) (idx : Nat),
      (t.overwriteLoop idx es).1.Knows snp → t.Knows snp := by
    intro es
    induction es with
    | nil => exact fun _ _ h => h
    | cons e es ih =>
        intro t idx h
        unfold overwriteLoop at h
        split at h
        · exact overwriteAt_knows (ih _ _ h)
        · exact h
  exact hover _ _ _ (happend _ _ h)

/-! ## What the changes of a log do -/

theorem InOrder.splice (h : s.InOrder) {idx : Nat} {es : List LogEntry}
    (hs : s.logStore.startIndex ≤ idx) (hn : idx ≤ s.logStore.nextSlot)
    (hterms : (s.termBefore idx :: es.map (·.term)).Pairwise (· ≤ ·))
    (hle : ∀ e ∈ es, e.term ≤ s.state.term) :
    InOrder { s with logStore := s.logStore.splice idx es } := by
  refine ⟨?_, fun e he => ?_, h.snapshots_le⟩
  · have halong : termsAlong { s with logStore := s.logStore.splice idx es } =
        s.termsAlong.take (idx - s.logStore.startIndex + 1) ++ es.map (·.term) := by
      have hbefore : termBefore { s with logStore := s.logStore.splice idx es }
          s.logStore.startIndex = s.termBefore s.logStore.startIndex := by
        have hpos := s.logStore.start_pos
        unfold termBefore termForLog LogStore.splice
        dsimp only
        rw [if_neg (c := s.logStore.startIndex ≤ s.logStore.startIndex - 1) (by omega),
          if_neg (c := s.logStore.startIndex ≤ s.logStore.startIndex - 1) (by omega)]
      unfold termsAlong
      rw [List.take_succ_cons, List.cons_append, ← hbefore]
      unfold LogStore.terms LogStore.splice
      rw [List.map_append, List.map_take]
    rw [halong]
    exact rising_splice h.along (s.termsAlong_getElem? hs hn) hterms
  · rcases List.mem_append.mp he with he | he
    · exact h.log_le e (List.mem_of_mem_take he)
    · exact hle e he

theorem InOrder.appendLog (h : s.InOrder) {e : LogEntry} (he : e.term = s.state.term) :
    (s.appendLog e).InOrder := by
  have hs : s.logStore.startIndex ≤ s.logStore.nextSlot := Nat.le_add_right _ _
  have hbefore : s.termBefore s.logStore.nextSlot ≤ s.state.term :=
    h.along_le _ (List.mem_of_getElem? (s.termsAlong_getElem? hs le_rfl))
  have hterms : (s.termBefore s.logStore.nextSlot :: [e].map (·.term)).Pairwise (· ≤ ·) :=
    List.pairwise_pair.mpr (hbefore.trans he.ge)
  have hsplice := h.splice hs le_rfl hterms (by simp [he])
  rw [← LogStore.append_eq_splice] at hsplice
  exact hsplice.retains (emit_retains _ _)

theorem InOrder.of_termAt (h : s.InOrder) {idx t : Nat} (ht : s.logStore.termAt idx = some t) :
    s.logStore.startIndex ≤ idx ∧ t ≤ s.state.term := by
  unfold LogStore.termAt at ht
  obtain ⟨e, he, rfl⟩ := Option.map_eq_some_iff.mp ht
  have hs := ((s.logStore.entryAt_isSome_iff idx).mp (by rw [he]; rfl)).1
  refine ⟨hs, h.log_le e ?_⟩
  unfold LogStore.entryAt at he
  rw [if_neg (Nat.not_lt.mpr hs)] at he
  exact List.mem_of_getElem? he

/-- A snapshot whose last entry is in the log. -/
theorem InOrder.setSnapshot (h : s.InOrder) {snp : Snapshot}
    (hs : s.logStore.startIndex ≤ snp.lastLogIdx) (hle : snp.lastLogTerm ≤ s.state.term) :
    InOrder { s with smSnapshot := some snp } := by
  refine ⟨?_, h.log_le, fun snp' hsnp => ?_⟩
  · rcases termBefore_start { s with smSnapshot := some snp } with hzero | ⟨_, heq, hend, -⟩
    · unfold termsAlong
      rw [hzero]
      exact rising_zero (List.pairwise_cons.mp h.along).2
    · cases heq
      dsimp only at hend
      omega
  · rcases mem_snapshots.mp hsnp with heq | hknown
    · cases heq
      exact hle
    · exact h.snapshots_le snp' (mem_snapshots.mpr (.inr hknown))

theorem InOrder.setLastSnapshot (h : s.InOrder) {snp : Snapshot}
    (hle : snp.lastLogTerm ≤ s.state.term) : InOrder { s with lastSnapshot := some snp } := by
  refine ⟨h.along, h.log_le, fun snp' hsnp => ?_⟩
  rcases mem_snapshots.mp hsnp with hsm | heq | hctx
  · exact h.snapshots_le snp' (mem_snapshots.mpr (.inl hsm))
  · cases heq
    exact hle
  · exact h.snapshots_le snp' (mem_snapshots.mpr (.inr (.inr hctx)))

theorem InOrder.compact (h : s.InOrder) {idx : Nat} {l : LogStore}
    (hl : s.logStore.compact idx = some l)
    (hsnp : ∀ snp, s.smSnapshot = some snp → snp.lastLogIdx = idx → s.logStore.GoesOnFrom snp) :
    InOrder { s with logStore := l } := by
  obtain ⟨hs, hstart, hentries⟩ := LogStore.compact_terms hl
  refine ⟨?_, fun e he => ?_, h.snapshots_le⟩
  · refine LogStore.rising_compact (List.pairwise_cons.mp h.along).2 hl ?_
    rcases termBefore_start { s with logStore := l } with hzero | ⟨snp, heq, hend, hterm⟩
    · exact .inl hzero
    · have hidx : snp.lastLogIdx = idx := by
        dsimp only at hend
        omega
      have hgoes := hsnp snp heq hidx
      unfold LogStore.GoesOnFrom at hgoes
      rw [hidx] at hgoes
      exact .inr (hterm ▸ hgoes)
  · rw [hentries] at he
    exact h.log_le e (List.mem_of_mem_drop he)

end RaftServer

/-! ## Requests -/

/-- What the request brings goes up, and not beyond its term. -/
structure ReqMsg.InOrder (m : ReqMsg) : Prop where
  append : m.type = .appendEntriesRequest →
    (m.lastLogTerm :: m.logEntries.map (·.term)).Pairwise (· ≤ ·) ∧
      ∀ e ∈ m.logEntries, e.term ≤ m.term
  pack : m.type = .syncLogRequest → ∀ es, m.payload = .logPack es →
    (es.map (·.term)).Pairwise (· ≤ ·)
  snapshot : m.type = .installSnapshotRequest → ∀ r, m.payload = .snpSyncReq r →
    r.snapshot.lastLogTerm ≤ m.term

theorem ReqMsg.InOrder.of_plain {m : ReqMsg} (h : m.type.carriesLog = false) : m.InOrder :=
  ⟨fun ht => (by simp [ht, MsgType.carriesLog] at h), fun ht => (by simp [ht, MsgType.carriesLog] at h),
    fun ht => (by simp [ht, MsgType.carriesLog] at h)⟩

def Output.InOrder : Output → Prop
  | .send (.req m _) | .schedule (.retry m) => m.InOrder
  | _ => True

def Input.InOrder : Input → Prop
  | .req m _ _ | .rpcError m _ | .retry m => m.InOrder
  | _ => True

theorem Output.inOrder_of_plain {o : Output} (h : o.plain = true) : o.InOrder := by
  cases o with
  | send p =>
      cases p with
      | req m _ => exact .of_plain (by simpa [Output.plain] using h)
      | resp _ _ _ => trivial
  | schedule t =>
      cases t with
      | retry m => cases h
      | _ => trivial
  | _ => trivial

namespace RaftServer

variable {s s' : RaftServer}

theorem lt_nextSlot_of_termForLog {idx t : Nat} (h : s.termForLog idx = some t)
    (hs : s.logStore.startIndex ≤ idx + 1) : idx < s.logStore.nextSlot := by
  have hpos := s.logStore.start_pos
  have hle : s.logStore.startIndex ≤ s.logStore.nextSlot := Nat.le_add_right _ _
  by_cases hin : s.logStore.startIndex ≤ idx
  · unfold termForLog at h
    rw [if_neg (by omega), if_pos hin] at h
    unfold LogStore.termAt at h
    obtain ⟨e, he, -⟩ := Option.map_eq_some_iff.mp h
    exact ((s.logStore.entryAt_isSome_iff idx).mp (by rw [he]; rfl)).2
  · omega

/-- The entries behind an index whose term is known. -/
theorem InOrder.rising_drop (h : s.InOrder) {idx t : Nat} (ht : s.termForLog idx = some t)
    (hs : s.logStore.startIndex ≤ idx + 1) :
    (t :: (s.logStore.entries.drop (idx + 1 - s.logStore.startIndex)).map (·.term)).Pairwise
      (· ≤ ·) := by
  have hplace := s.termsAlong_getElem? hs (lt_nextSlot_of_termForLog ht hs)
  have hbefore : s.termBefore (idx + 1) = t := by
    unfold termBefore
    rw [Nat.add_sub_cancel, ht]
    rfl
  rw [hbefore] at hplace
  have hrise := rising_from h.along hplace
  unfold termsAlong LogStore.terms at hrise
  rwa [List.drop_succ_cons, ← List.map_drop] at hrise

theorem Vouches.inOrder {o : Output} (ho : s.Vouches o) (h : s.InOrder) : o.InOrder := by
  obtain ⟨p, rfl⟩ := ho.send
  cases p with
  | resp _ _ _ => exact ho.elim
  | req m handler =>
      obtain ⟨hterm, -, happend, hsync, hinstall⟩ := ho
      refine ⟨fun ht => ?_, fun ht es hes => ?_, fun ht r hr => ?_⟩
      · obtain ⟨hprev, hstart, k, hpay⟩ := happend ht
        have hentries : m.logEntries =
            (s.logStore.entries.drop (m.lastLogIdx + 1 - s.logStore.startIndex)).take k := by
          unfold ReqMsg.logEntries
          rw [hpay]
        refine ⟨?_, fun e he => ?_⟩
        · by_cases hnil : m.logEntries = []
          · rw [hnil]
            exact List.pairwise_singleton _ _
          · have hrise := h.rising_drop hprev (hstart hnil)
            rw [hentries, List.map_take]
            exact hrise.sublist ((List.take_sublist k _).cons_cons _)
        · rw [hentries] at he
          rw [hterm]
          exact h.log_le e (List.mem_of_mem_drop (List.mem_of_mem_take he))
      · obtain ⟨a, k, hpay⟩ := hsync ht
        rw [hpay] at hes
        cases hes
        rw [List.map_take, List.map_drop]
        exact (List.pairwise_cons.mp h.along).2.sublist
          ((List.take_sublist _ _).trans (List.drop_sublist _ _))
      · obtain ⟨r', hpay, hknown⟩ := hinstall ht
        rw [hpay] at hr
        cases hr
        rw [hterm]
        exact h.snapshots_le _ (mem_snapshots.mpr (.inr hknown))

end RaftServer

theorem Sends.inOrder {s s' : RaftServer} (h : Sends s s') (hs : s.InOrder) :
    Outputs Output.InOrder s s' :=
  h.toOutputs.mono fun _ ho => ho.elim Output.inOrder_of_plain fun hv => hv.inOrder hs

/-! ## What each input must find -/

/-- A snapshot is installed on a log that goes on from it, a log pack goes on
from the log in front of it and stays within the server's term, an invitation is
not of an earlier term than what the server holds. -/
def RaftServer.BulkGoesOn (s : RaftServer) (m : ReqMsg) : Prop :=
  match m.payload with
  | .snpSyncReq r => m.type = .installSnapshotRequest → r.done = true →
      s.smCommitIndex < r.snapshot.lastLogIdx → s.logStore.GoesOnFrom r.snapshot
  | .logPack es => m.type = .syncLogRequest → s.catchingUp = true →
      (∀ e ∈ es.head?, s.termBefore (m.lastLogIdx + 1) ≤ e.term) ∧ ∀ e ∈ es, e.term ≤ s.state.term
  | .entries _ => s.AcceptsJoin m →
      (∀ e ∈ s.logStore.entries, e.term ≤ m.term) ∧ ∀ snp ∈ s.snapshots, snp.lastLogTerm ≤ m.term

instance (s : RaftServer) (m : ReqMsg) : Decidable (s.BulkGoesOn m) := by
  dsimp only [RaftServer.BulkGoesOn]
  exact match m.payload with
  | .entries _ | .logPack _ | .snpSyncReq _ => inferInstance

/-- The condition on one step. A snapshot completes while its last entry is still
the one it was taken at. -/
def GoesOn (s : RaftServer) : Input → Prop
  | .req m _ _ => s.BulkGoesOn m
  | .snapshotCompleted (some _) =>
      ∀ snp ∈ s.snpInProgress, s.logStore.termAt snp.lastLogIdx = some snp.lastLogTerm
  | _ => True

instance (s : RaftServer) : DecidablePred (GoesOn s)
  | .req m _ _ => inferInstanceAs (Decidable (s.BulkGoesOn m))
  | .snapshotCompleted (some _) => inferInstanceAs (Decidable (∀ snp ∈ s.snpInProgress, _))
  | .snapshotCompleted none | .electionTimeout | .hbTimeout _ | .commitInBg | .resp ..
  | .rpcError .. | .retry _ | .replicateLog .. => inferInstanceAs (Decidable True)

/-! ## One step -/

namespace RaftServer

variable {s s₀ s' : RaftServer} {inp : Input}

/-- The term in front of the first entry that a request writes. -/
theorem termBefore_write {m : ReqMsg} (hprev : s.appendLogOkay m = some true) {k : Nat}
    (hstart : s.logStore.startIndex ≤ m.lastLogIdx + 1)
    (hmatch : ∀ i e, i < k → m.logEntries[i]? = some e →
      s.logStore.termAt (m.lastLogIdx + 1 + i) = some e.term) (hk : k ≤ m.logEntries.length) :
    s.termBefore (m.lastLogIdx + 1 + k) = 0 ∨
      (m.lastLogTerm :: m.logEntries.map (·.term))[k]? =
        some (s.termBefore (m.lastLogIdx + 1 + k)) := by
  cases k with
  | zero =>
      unfold termBefore
      rw [Nat.add_zero, Nat.add_sub_cancel]
      unfold appendLogOkay at hprev
      split at hprev
      · rename_i hzero
        rw [hzero]
        exact .inl rfl
      split at hprev
      · obtain ⟨t, ht, heq⟩ := Option.map_eq_some_iff.mp hprev
        rw [ht, of_decide_eq_true heq]
        exact .inr rfl
      · cases hprev
  | succ k =>
      obtain ⟨e, he⟩ : ∃ e, m.logEntries[k]? = some e :=
        ⟨_, List.getElem?_eq_getElem (by omega)⟩
      have hat := hmatch k e k.lt_succ_self he
      have hbefore : s.termBefore (m.lastLogIdx + 1 + (k + 1)) = e.term := by
        unfold termBefore termForLog
        rw [show m.lastLogIdx + 1 + (k + 1) - 1 = m.lastLogIdx + 1 + k by omega,
          if_neg (by omega), if_pos (by omega), hat]
        rfl
      refine .inr ?_
      rw [hbefore, List.getElem?_cons_succ, List.getElem?_map, he]
      rfl

theorem InOrder.write (h : s.InOrder) {m : ReqMsg} (hm : m.InOrder)
    (ht : m.type = .appendEntriesRequest) (hterm : m.term = s.state.term)
    (hprev : s.appendLogOkay m = some true)
    (hstart : m.logEntries ≠ [] → s.logStore.startIndex ≤ m.lastLogIdx + 1)
    (hn : m.lastLogIdx + 1 ≤ s.logStore.nextSlot) :
    (s.writeEntries (m.lastLogIdx + 1) m.logEntries).InOrder := by
  obtain ⟨hrise, hle⟩ := hm.append ht
  obtain ⟨i, rest, heq, hi, hnil, hcons⟩ := s.writeEntries_splice hstart hn
  obtain ⟨k, hk, hskip, hmatch, -, -⟩ :=
    skipOverlap_spec s.logStore (m.lastLogIdx + 1) m.logEntries
  obtain ⟨rfl, rfl⟩ := Prod.mk.inj (hskip.symm.trans heq)
  by_cases hrest : m.logEntries.drop k = []
  · have hkept := hnil hrest
    exact h.retains ⟨congrArg Kept.logStore hkept, congrArg Kept.smSnapshot hkept,
      (congrArg (·.state.term) hkept).ge, fun _ => writeEntries_knows⟩
  obtain ⟨hs, hkept⟩ := hcons hrest
  have hne : m.logEntries ≠ [] := fun hnil => hrest (by rw [hnil, List.drop_nil])
  have hterms : (s.termBefore (m.lastLogIdx + 1 + k) ::
      (m.logEntries.drop k).map (·.term)).Pairwise (· ≤ ·) := by
    rw [List.map_drop]
    rcases termBefore_write hprev (hstart hne) hmatch hk with hzero | hplace
    · rw [hzero]
      exact rising_zero ((List.pairwise_cons.mp hrise).2.sublist (List.drop_sublist k _))
    · exact rising_from hrise hplace
  have hsplice := h.splice hs hi hterms fun e he =>
    (hle e (List.mem_of_mem_drop he)).trans hterm.le
  exact hsplice.retains ⟨congrArg Kept.logStore hkept, congrArg Kept.smSnapshot hkept,
    (congrArg (·.state.term) hkept).ge, fun _ => writeEntries_knows⟩

theorem InOrder.logInitialConfig (h : s.InOrder) : s.logInitialConfig.InOrder := by
  unfold RaftServer.logInitialConfig
  split
  · have hset : InOrder { s with
        config := s.config.setLogIdx s.logStore.nextSlot, configChanging := true } :=
      h.retains ⟨rfl, rfl, le_rfl, fun _ h => h⟩
    exact hset.appendLog rfl
  · exact h

/-- A leader's first steps, up to the log of the initial configuration. -/
theorem lead_retains {s₁ s₂ : RaftServer} (h₁ : s₁ = s ∨ s₁ = s.standing) (h₂ : Sends s₁ s₂) :
    Retains s { s₂.stopElectionTimer with role := .leader, leader := s₂.stopElectionTimer.id } := by
  have hfirst : Retains s s₁ := by
    rcases h₁ with rfl | rfl
    · exact .refl _
    · exact standing_retains s
  have hlead : Retains s₂.stopElectionTimer
      { s₂.stopElectionTimer with role := .leader, leader := s₂.stopElectionTimer.id } :=
    ⟨rfl, rfl, le_rfl, fun _ h => h⟩
  exact ((hfirst.trans h₂.retains).trans (stopElectionTimer_retains s₂)).trans hlead

theorem InOrder.pack (h : s.InOrder) {idx : Nat} {es : List LogEntry} {l : LogStore}
    (hl : s.logStore.applyPack idx es = some l) (hes : (es.map (·.term)).Pairwise (· ≤ ·))
    (hfirst : ∀ e ∈ es.head?, s.termBefore idx ≤ e.term)
    (hle : ∀ e ∈ es, e.term ≤ s.state.term) : InOrder { s with logStore := l } := by
  unfold LogStore.applyPack at hl
  split at hl
  · cases hl
  rename_i hrange
  rw [not_or, not_or] at hrange
  cases hl
  refine h.splice (Nat.le_of_not_lt hrange.2.1) (Nat.le_of_not_lt hrange.2.2) ?_ hle
  cases es with
  | nil => exact absurd rfl hrange.1
  | cons e es =>
      have hhead := hfirst e rfl
      refine List.pairwise_cons.mpr ⟨fun t ht => ?_, hes⟩
      rcases List.mem_cons.mp ht with rfl | ht
      · exact hhead
      · exact hhead.trans (List.rel_of_pairwise_cons hes ht)

theorem overtaken_knows (s : RaftServer) (snp : Snapshot) (l : LogStore) {snp' : Snapshot}
    (h : (s.overtaken snp l).Knows snp') : s.Knows snp' :=
  (emit_knows { s with logStore := l } _ _).mp
    ((stopElectionTimer_retains _).known _ ((emit_knows _ _ _).mp h))

theorem InOrder.overtaken (h : s.InOrder) {snp : Snapshot} {l : LogStore} {c : ClusterConfig}
    (hl : s.logStore.compact snp.lastLogIdx = some l) (hle : snp.lastLogTerm ≤ s.state.term)
    (hgoes : s.logStore.GoesOnFrom snp) :
    InOrder { s.overtaken snp l with config := c, smSnapshot := some snp } := by
  have hkept := overtaken_kept s snp l
  have htaken := h.setSnapshot (LogStore.compact_terms hl).1 hle
  have hcut : InOrder { s with smSnapshot := some snp, logStore := l } :=
    htaken.compact hl fun snp' heq _ => by
      cases heq
      exact hgoes
  refine hcut.retains ⟨congrArg Kept.logStore hkept, rfl, (congrArg (·.state.term) hkept).ge,
    fun snp' hs => ?_⟩
  have hknown : s.Knows snp' := overtaken_knows s snp l hs
  exact hknown

end RaftServer

namespace RaftServer

variable {s s₀ s₁ : RaftServer} {inp : Input}

theorem InOrder.installed (hs : s.InOrder) {m : ReqMsg} {h : RpcHandler} {env : Env}
    {r : SnapshotSyncReq} {l : LogStore} (c : ClusterConfig) (hreq : inp = .req m h env)
    (hinp : inp.InOrder) (hok : GoesOn s₀ inp) (ht : m.type = .installSnapshotRequest)
    (hpay : m.payload = .snpSyncReq r) (hdone : r.done = true) (hterm : m.term ≤ s.state.term)
    (habove : s.smCommitIndex < r.snapshot.lastLogIdx) (hu : Untouched s₀ s)
    (hl : s.logStore.compact r.snapshot.lastLogIdx = some l) :
    InOrder { s.overtaken r.snapshot l with config := c, smSnapshot := some r.snapshot } := by
  subst hreq
  have hlog : s.logStore = s₀.logStore := congrArg Footing.logStore hu
  have hsm : s.smCommitIndex = s₀.smCommitIndex := congrArg Footing.smCommitIndex hu
  have hbulk : s₀.BulkGoesOn m := hok
  unfold BulkGoesOn at hbulk
  rw [hpay] at hbulk
  have hgoes : s.logStore.GoesOnFrom r.snapshot := hlog ▸ hbulk ht hdone (hsm ▸ habove)
  exact hs.overtaken hl ((hinp.snapshot ht r hpay).trans hterm) hgoes

/-- The server notes the snapshot it was given as its last one. -/
theorem InOrder.noteSnapshot (hs : s.InOrder) {snp : Snapshot} (c : ClusterConfig)
    (hsnp : s.smSnapshot = some snp) (h : Sends s s₁) :
    InOrder { s₁.saveState s₁.state with lastSnapshot := some { snp with lastConfig := c } } := by
  have hsaved : (s₁.saveState s₁.state).InOrder :=
    (hs.retains h.retains).retains (saveState_retains s₁ le_rfl)
  have hstate : (s₁.saveState s₁.state).state = s.state :=
    (congrArg Kept.state (saveState_kept s₁ s₁.state)).trans h.state
  have hle : snp.lastLogTerm ≤ s.state.term := hs.snapshots_le snp (mem_snapshots.mpr (.inl hsnp))
  exact hsaved.setLastSnapshot (hstate ▸ hle)

end RaftServer

open RaftServer in
theorem Move.inOrder {inp : Input} {s₀ s s' : RaftServer} (h : Move inp s₀ s s')
    (hs : s.InOrder) (hinp : inp.InOrder) (hok : GoesOn s₀ inp) :
    s'.exited = true ∨ s'.InOrder := by
  cases h with
  | sends h => exact .inr (hs.retains h.retains)
  | config => exact .inr (hs.retains ⟨rfl, rfl, le_rfl, fun _ h => h⟩)
  | again _ => exact .inr (hs.retains (emit_retains s _))
  | restart => exact .inr (hs.retains (restartElectionTimer_retains s))
  | grant hterm => exact .inr (hs.retains (saveState_retains s hterm.ge))
  | stepDown _ _ => exact .inr (hs.retains (updateTerm_retains s _))
  | demote _ => exact .inr (hs.retains (becomeFollower_retains s))
  | stand h =>
      exact .inr (hs.retains (((standing_retains s).trans h.retains).trans
        (restartElectionTimer_retains _)))
  | lead _ h₁ h₂ h₃ _ =>
      exact .inr (hs.retains ((lead_retains h₁ h₂).trans h₃.retains)).logInitialConfig
  | @write m _ _ hreq htakes hterm _ hu =>
      subst hreq
      have hlog : s.logStore = s₀.logStore := congrArg Footing.logStore hu
      have hsnp : s.smSnapshot = s₀.smSnapshot := congrArg Footing.smSnapshot hu
      have hprev : s.appendLogOkay m = some true := by
        rw [← htakes.2.2.2.1]
        unfold appendLogOkay termForLog
        rw [hlog, hsnp]
      have hn : m.lastLogIdx + 1 ≤ s.logStore.nextSlot := by
        have hpos := s₀.logStore.nextSlot_pos
        rw [hlog]
        rcases htakes.prev with h0 | hlt
        · omega
        · omega
      have hwrite := hs.write hinp htakes.1 hterm hprev (hlog ▸ htakes.2.2.2.2) hn
      exact .inr (hwrite.retains ⟨rfl, rfl, le_rfl, fun _ h => h⟩)
  | create _ hterm _ _ => exact .inr (hs.appendLog hterm)
  | newConfig _ _ =>
      have hset : RaftServer.InOrder { s with configChanging := true } :=
        hs.retains ⟨rfl, rfl, le_rfl, fun _ h => h⟩
      exact .inr (hset.appendLog rfl)
  | giveUp _ _ _ => exact .inr (hs.retains ⟨rfl, rfl, le_rfl, fun _ h => h⟩)
  | @pack m _ _ es l hreq ht hpay hcatch hl heq =>
      subst hreq heq
      have hbulk : RaftServer.BulkGoesOn _ m := hok
      unfold BulkGoesOn at hbulk
      rw [hpay] at hbulk
      obtain ⟨hfirst, hle⟩ := hbulk ht hcatch
      have hpack := hs.pack hl (hinp.pack ht es hpay) hfirst hle
      exact .inr (hpack.retains (emit_retains _ _))
  | @join m _ _ t c hreq ht hpay hcatch heq =>
      subst hreq heq
      have hbulk : RaftServer.BulkGoesOn _ m := hok
      unfold BulkGoesOn at hbulk
      rw [hpay] at hbulk
      have hacc : s.AcceptsJoin m :=
        ⟨ht, hcatch, by rw [(m.conf?_eq_some_iff c).mpr ⟨t, hpay⟩]; rfl⟩
      obtain ⟨hlog, hsnp⟩ := hbulk hacc
      have hset : RaftServer.InOrder { s with
          catchingUp := true, role := .follower, leader := m.src, smCommitIndex := 0,
          quickCommitIdx := 0, state := ⟨m.term, noServer⟩ } := ⟨hs.along, hlog, hsnp⟩
      exact .inr (hset.retains (emit_retains _ _))
  | reach _ _ _ _ _ h => exact .inr (hs.retains ((reached_retains s _).trans h.retains))
  | lost _ => exact .inl (exit_exited _ _)
  | @complete bytes snp hreq hsnp heq =>
      subst hreq heq
      obtain ⟨hstart, hle⟩ := hs.of_termAt (hok snp hsnp)
      have hset : RaftServer.InOrder { s with smSnapshot := some { snp with size := bytes.length } } :=
        hs.setSnapshot hstart hle
      have hlast : RaftServer.InOrder { s with
          smSnapshot := some { snp with size := bytes.length },
          lastSnapshot := some { snp with size := bytes.length } } := hset.setLastSnapshot hle
      exact .inr (hlast.retains ⟨rfl, rfl, le_rfl, fun _ h => h⟩)
  | @compact bytes snp l hreq hsnp heq hl =>
      subst hreq heq
      have hat := hok snp hsnp
      have hcut := hs.compact hl fun snp' heq' _ => by
        cases heq'
        exact .inr hat
      exact .inr (hcut.retains (emit_retains _ _))
  | receive _ _ _ _ => exact .inr (hs.retains (saveSnapshotData_retains s _))
  | @install _ _ _ _ _ c c' _ _ hreq ht hpay hdone hterm habove _ hu hl h₁ h₂ =>
      have hover := hs.installed c hreq hinp hok ht hpay hdone hterm habove hu hl
      have hlast := hover.noteSnapshot c' rfl h₁
      exact .inr (hlast.retains (h₂.retains.trans (restartElectionTimer_retains _)))
  | halt => exact .inl (exit_exited _ _)

open RaftServer in
/-- Only requests matter, and they are made from logs in order. -/
theorem Move.outputs {inp : Input} {s₀ s s' : RaftServer} (h : Move inp s₀ s s')
    (hs : s.InOrder) (hinp : inp.InOrder) (hok : GoesOn s₀ inp) :
    Outputs Output.InOrder s s' := by
  have hsave : ∀ (t : RaftServer) (st : SrvState), Outputs Output.InOrder t (t.saveState st) :=
    fun t _ => saveState_outputs t trivial
  have hrestart : ∀ t : RaftServer, Outputs Output.InOrder t t.restartElectionTimer :=
    fun t => restartElectionTimer_outputs t trivial trivial
  have hstop : ∀ t : RaftServer, Outputs Output.InOrder t t.stopElectionTimer :=
    fun t => stopElectionTimer_outputs t trivial
  have hset : ∀ {t t' : RaftServer}, t'.out = t.out → t'.exited = t.exited →
      Outputs Output.InOrder t t' := Outputs.soft
  have hafter : ∀ {t t' t'' : RaftServer}, Outputs Output.InOrder t' t'' → t'.out = t.out →
      t'.exited = t.exited → Outputs Output.InOrder t t'' := fun h ho hx => (hset ho hx).trans h
  have hstand : Outputs Output.InOrder s s.standing := by
    unfold standing
    refine Outputs.trans ?_ (hsave _ _)
    exact hafter (hsave _ _) rfl rfl
  have hcut : ∀ (l : LogStore) (idx : Nat), Outputs Output.InOrder s
      ({ s with logStore := l }.emit (.compact idx)).stopElectionTimer := by
    intro l idx
    refine Outputs.trans ?_ (hstop _)
    exact hafter (.emit _ trivial) rfl rfl
  cases h with
  | sends h => exact h.inOrder hs
  | config => exact hset rfl rfl
  | again hfrom =>
      refine .emit s ?_
      rcases hfrom with ⟨m, rfl, rfl⟩ | ⟨m, rfl, rfl⟩
      · exact hinp
      · exact hinp
  | restart => exact hrestart s
  | grant _ => exact hsave s _
  | stepDown _ _ =>
      exact updateTerm_outputs s _ (fun _ => Output.inOrder_of_plain) trivial trivial
        fun _ => trivial
  | demote _ => exact becomeFollower_outputs s (fun _ => Output.inOrder_of_plain) trivial trivial
  | stand h =>
      exact (hstand.trans (h.inOrder (hs.retains (standing_retains s)))).trans (hrestart _)
  | @lead s₁ s₂ s' _ h₁ h₂ h₃ _ =>
      have hfirst : Outputs Output.InOrder s s₁ ∧ s₁.InOrder := by
        rcases h₁ with rfl | rfl
        · exact ⟨hset rfl rfl, hs⟩
        · exact ⟨hstand, hs.retains (standing_retains s)⟩
      have hled : Outputs Output.InOrder s₂.stopElectionTimer
          { s₂.stopElectionTimer with role := .leader, leader := s₂.stopElectionTimer.id } :=
        hset rfl rfl
      have hsent := h₃.inOrder (hs.retains (lead_retains h₁ h₂))
      exact ((((hfirst.1.trans (h₂.inOrder hfirst.2)).trans (hstop s₂)).trans hled).trans
        hsent).trans (logInitialConfig_outputs s' fun _ _ _ _ => trivial)
  | @write m _ _ _ _ _ _ _ =>
      have hwrite := writeEntries_outputs (P := Output.InOrder) s (m.lastLogIdx + 1)
        m.logEntries ⟨fun _ _ => trivial, fun _ _ => trivial, fun _ _ => trivial,
          fun _ _ _ _ => trivial⟩
      exact hwrite.trans (hset rfl rfl)
  | create _ _ _ _ => exact appendLog_outputs s trivial
  | newConfig _ _ => exact hafter (appendLog_outputs _ trivial) rfl rfl
  | giveUp _ _ _ => exact hset rfl rfl
  | pack _ _ _ _ _ _ => exact hafter (.emit _ trivial) rfl rfl
  | join _ _ _ _ _ =>
      unfold invited
      exact hafter (hsave _ _) rfl rfl
  | @reach e _ _ _ _ _ _ h =>
      obtain ⟨hout, hx, -⟩ := reached_out s e
      refine Outputs.trans ⟨⟨_, hout, fun o ho => ?_, fun hs => if_pos hs⟩, fun hs => ?_⟩
        (h.inOrder (hs.retains (reached_retains s e)))
      · split at ho
        · cases ho
        · unfold reachOutputs at ho
          rcases List.mem_cons.mp ho with rfl | ho
          · trivial
          · split at ho
            · rw [List.mem_singleton.mp ho]
              trivial
            · cases ho
      · exact hx.trans hs
  | lost _ => exact hafter (.exit _ trivial) rfl rfl
  | complete _ _ _ => exact hset rfl rfl
  | compact _ _ _ _ => exact hafter (.emit _ trivial) rfl rfl
  | receive _ _ _ _ => exact saveSnapshotData_outputs s _ trivial
  | @install m _ _ r l c c' s₁ s₂ hreq ht hpay hdone hterm habove _ hu hl h₁ h₂ =>
      have htaken : Output.InOrder (.applySnapshot r.snapshot) := trivial
      have hover : Outputs Output.InOrder s
          { s.overtaken r.snapshot l with config := c, smSnapshot := some r.snapshot } :=
        ((hcut l r.snapshot.lastLogIdx).trans (.emit _ htaken)).trans (hset rfl rfl)
      have hin := hs.installed c hreq hinp hok ht hpay hdone hterm habove hu hl
      have hsaved := (hover.trans (h₁.inOrder hin)).trans (hsave s₁ s₁.state)
      exact (hsaved.trans (hafter (h₂.inOrder (hin.noteSnapshot c' rfl h₁)) rfl rfl)).trans
        (hrestart s₂)
  | @halt l idx r => exact (hcut l idx).trans (.exit _ trivial)

namespace RaftServer

variable {s : RaftServer} {inp : Input}

theorem goesOn_clear (h : GoesOn s inp) : GoesOn { s with out := [] } inp := by
  cases inp with
  | snapshotCompleted data => cases data <;> exact h
  | _ => exact h

theorem step_inOrder (hs : s.InOrder) (hinp : inp.InOrder) (hok : GoesOn s inp) :
    Outputs Output.InOrder { s with out := [] } (s.step inp) ∧
      ((s.step inp).exited = true ∨ (s.step inp).InOrder) := by
  have hmoves := step_moves s inp
  have hok' := goesOn_clear hok
  generalize s.step inp = s' at hmoves
  induction hmoves with
  | refl => exact ⟨.soft rfl rfl, .inr (hs.retains ⟨rfl, rfl, le_rfl, fun _ h => h⟩)⟩
  | tail _ hmove ih =>
      obtain ⟨hout, hx | hin⟩ := ih
      · -- a process that is gone lets nothing out
        obtain ⟨os, hos, -, hnil⟩ := hmove.emits.out
        refine ⟨hout.trans ⟨⟨os, hos, fun o ho => ?_, hnil⟩, hmove.exited⟩, .inl (hmove.exited hx)⟩
        rw [hnil hx] at ho
        cases ho
      · exact ⟨hout.trans (hmove.outputs hin hinp hok'), hmove.inOrder hin hinp hok'⟩

/-! ## Installing a snapshot -/

/-- The request takes the server to the snapshot that it completes. -/
def Installs (s : RaftServer) (m : ReqMsg) (h : RpcHandler) (env : Env) (r : SnapshotSyncReq) :
    Prop :=
  m.type = .installSnapshotRequest ∧ m.payload = .snpSyncReq r ∧
    s.smCommitIndex < r.snapshot.lastLogIdx ∧ (s.step (.req m h env)).exited = false ∧
    (s.step (.req m h env)).smCommitIndex = r.snapshot.lastLogIdx

instance (s : RaftServer) (m : ReqMsg) (h : RpcHandler) (env : Env) (r : SnapshotSyncReq) :
    Decidable (s.Installs m h env r) := inferInstanceAs (Decidable (_ ∧ _))

theorem applySnapshot_log (snp : Snapshot) (applyOk : Bool) :
    (s.applySnapshot snp applyOk).exited = true ∨
      s.logStore.compact snp.lastLogIdx = some (s.applySnapshot snp applyOk).logStore := by
  unfold applySnapshot
  split
  · exact .inl (exit_exited _ _)
  rename_i l hl
  dsimp only
  split
  · exact .inl (exit_exited _ _)
  refine .inr ?_
  obtain ⟨c, c', s₁, s₂, h₁, h₂, heq⟩ := restoreSnapshot_eq
    ({ s with logStore := l }.emit (.compact snp.lastLogIdx)).stopElectionTimer snp
  have hcut : ({ s with logStore := l }.emit (.compact snp.lastLogIdx)).stopElectionTimer.logStore =
      l := (stopElectionTimer_retains _).log.trans (emit_retains _ _).log
  rw [heq, hl, (restartElectionTimer_retains s₂).log, h₂.logStore]
  show some l = some (s₁.saveState s₁.state).logStore
  rw [(saveState_retains s₁ le_rfl).log, h₁.logStore]
  show some l = some (emit _ _).logStore
  rw [(emit_retains _ _).log, hcut]

theorem handleSnapshotSyncReq_log (r : SnapshotSyncReq) (applyOk : Bool) :
    (s.handleSnapshotSyncReq r applyOk).exited = true ∨
      (s.handleSnapshotSyncReq r applyOk).smCommitIndex = s.smCommitIndex ∨
      (r.done = true ∧
        s.logStore.compact r.snapshot.lastLogIdx =
          some (s.handleSnapshotSyncReq r applyOk).logStore) := by
  have hkept := saveSnapshotData_kept s r
  have hlog : (s.saveSnapshotData r).logStore = s.logStore := congrArg Kept.logStore hkept
  have hsm : (s.saveSnapshotData r).smCommitIndex = s.smCommitIndex :=
    congrArg Kept.smCommitIndex hkept
  unfold handleSnapshotSyncReq
  dsimp only
  split
  · rename_i hdone
    split
    · exact .inl (exit_exited _ _)
    · refine (applySnapshot_log r.snapshot applyOk).imp_right fun hcut => .inr ⟨hdone, ?_⟩
      rwa [hlog] at hcut
  · exact .inr (.inl hsm)

theorem handleInstallSnapshotReq_log (m : ReqMsg) (applyOk : Bool) :
    (s.handleInstallSnapshotReq m applyOk).1.exited = true ∨
      (s.handleInstallSnapshotReq m applyOk).1.smCommitIndex = s.smCommitIndex ∨
      ∃ r, m.payload = .snpSyncReq r ∧ r.done = true ∧
        s.logStore.compact r.snapshot.lastLogIdx =
          some (s.handleInstallSnapshotReq m applyOk).1.logStore := by
  unfold handleInstallSnapshotReq
  split
  · exact .inl (exit_exited _ _)
  rename_i hno
  obtain ⟨b, r, hkept, -⟩ := hear_kept s (m.term = s.state.term ∧ ¬ s.catchingUp)
    fun h1 h2 => hno ⟨h1.1, h1.2, h2⟩
  dsimp only
  generalize (if m.term = s.state.term ∧ ¬ s.catchingUp then
      if s.role = .candidate then s.becomeFollower else s.restartElectionTimer
    else s) = s₁ at hkept
  have hlog : s₁.logStore = s.logStore := congrArg Kept.logStore hkept
  have hsm : s₁.smCommitIndex = s.smCommitIndex := congrArg Kept.smCommitIndex hkept
  split
  · exact .inr (.inl hsm)
  split
  · rename_i r hpay
    split
    · exact .inr (.inl hsm)
    · rcases handleSnapshotSyncReq_log (s := s₁) r applyOk with hx | hsame | ⟨hdone, hcut⟩
      · exact .inl hx
      · exact .inr (.inl (hsame.trans hsm))
      · exact .inr (.inr ⟨r, hpay, hdone, hlog ▸ hcut⟩)
  · exact .inr (.inl hsm)

theorem Installs.log {m : ReqMsg} {h : RpcHandler} {env : Env} {r : SnapshotSyncReq}
    (hi : s.Installs m h env r) :
    s.logStore.compact r.snapshot.lastLogIdx = some (s.step (.req m h env)).logStore ∧
      (GoesOn s (.req m h env) → s.logStore.GoesOnFrom r.snapshot) := by
  obtain ⟨ht, hpay, habove, hlive, hat⟩ := hi
  have hu := followTerm_untouched (Untouched.refl { s with out := [] }) m
  have hlog : (({ s with out := [] } : RaftServer).followTerm m).logStore = s.logStore :=
    congrArg Footing.logStore hu
  have hsm : (({ s with out := [] } : RaftServer).followTerm m).smCommitIndex = s.smCommitIndex :=
    congrArg Footing.smCommitIndex hu
  have hinstall := handleInstallSnapshotReq_log
    (s := ({ s with out := [] } : RaftServer).followTerm m) m env.applyOk
  have hreply := reply_sends (({ s with out := [] } : RaftServer).processReq m env) h m.type
  have hprocess : (({ s with out := [] } : RaftServer).processReq m env) =
      (({ s with out := [] } : RaftServer).followTerm m).handleInstallSnapshotReq m env.applyOk := by
    unfold processReq handleExtendedMsg
    rw [ht]
  rw [← hprocess] at hinstall
  rcases hinstall with hx | hsame | ⟨r', hpay', hdone, hcut⟩
  · exact nomatch hlive.symm.trans (hreply.exited hx)
  · have hsame' := hreply.smCommitIndex.trans (hsame.trans hsm)
    exact absurd (hsame'.symm.trans hat) (Nat.ne_of_lt habove)
  · obtain rfl : r = r' := Payload.snpSyncReq.inj (hpay.symm.trans hpay')
    refine ⟨?_, fun hok => ?_⟩
    · rw [hlog, ← hreply.logStore] at hcut
      exact hcut
    · have hbulk : s.BulkGoesOn m := hok
      unfold BulkGoesOn at hbulk
      rw [hpay] at hbulk
      exact hbulk ht hdone habove

end RaftServer

/-! ## Clusters -/

def clientTypes : List MsgType := [.clientRequest, .addServerRequest, .removeServerRequest]

/-- What can happen, as long as a step meets the condition and a server comes up
with stores in order. -/
def OrderStep (c : Cluster) : Event → Prop
  | .act i inp | .crash i inp _ =>
      CanOccur clientTypes c.hist i inp ∧ ∀ s ∈ c.srv i, GoesOn s inp
  | .restart b => c.srv b.id = none → (RaftServer.start b).InOrder

instance (c : Cluster) : DecidablePred (OrderStep c)
  | .act .. | .crash .. => inferInstanceAs (Decidable (_ ∧ _))
  | .restart _ => inferInstanceAs (Decidable (_ → _))

/-- Every log of a cluster is in order, and so is what has been sent. -/
structure LogsInOrder (c : Cluster) : Prop where
  servers : ∀ i s, c.srv i = some s → s.InOrder
  sent : ∀ x ∈ c.hist, x.2.InOrder

theorem LogsInOrder.input {c : Cluster} (hc : LogsInOrder c) {i : SrvId} {inp : Input}
    (h : CanOccur clientTypes c.hist i inp) : inp.InOrder := by
  cases inp with
  | req m h' env =>
      rcases h with ⟨hsent, -⟩ | ⟨hmem, -⟩
      · obtain ⟨⟨j, o⟩, hx, rfl⟩ := List.mem_map.mp hsent
        exact hc.sent _ hx
      · refine ReqMsg.InOrder.of_plain ?_
        unfold clientTypes at hmem
        simp only [List.mem_cons, List.not_mem_nil, or_false] at hmem
        rcases hmem with ht | ht | ht <;> rw [ht] <;> rfl
  | rpcError m h' => exact hc.sent _ h
  | retry m => exact hc.sent _ h
  | _ => trivial

theorem LogsInOrder.record {c : Cluster} (hc : LogsInOrder c) {i : SrvId} {s : Option RaftServer}
    (hs : ∀ t ∈ s, t.InOrder) {os : List Output} (hos : ∀ o ∈ os, o.InOrder) :
    LogsInOrder ((c.setSrv i s).record i os) := by
  refine ⟨fun j t hj => ?_, fun x hx => ?_⟩
  · simp only [Cluster.record, Cluster.setSrv] at hj
    split at hj
    · exact hs t hj
    · exact hc.servers j t hj
  · rcases List.mem_append.mp hx with hx | hx
    · exact hc.sent x hx
    · obtain ⟨o, ho, rfl⟩ := List.mem_map.mp hx
      exact hos o ho

theorem LogsInOrder.step {c : Cluster} (hc : LogsInOrder c) {ev : Event} (hok : OrderStep c ev) :
    LogsInOrder (c.step ev) := by
  have hact : ∀ {i inp s}, c.srv i = some s → CanOccur clientTypes c.hist i inp →
      (∀ s ∈ c.srv i, GoesOn s inp) →
      (∀ o ∈ (s.step inp).out, o.InOrder) ∧ ((s.step inp).exited = true ∨ (s.step inp).InOrder) := by
    intro i inp s hs hocc hok
    obtain ⟨hout, hend⟩ :=
      RaftServer.step_inOrder (hc.servers i s hs) (hc.input hocc) (hok s hs)
    obtain ⟨os, hos, hall, -⟩ := hout.out
    rw [List.nil_append] at hos
    exact ⟨fun o ho => hall o (hos ▸ ho), hend⟩
  cases ev with
  | act i inp =>
      simp only [Cluster.step, Cluster.act]
      split
      · exact hc
      · rename_i s hs
        obtain ⟨hout, hend⟩ := hact hs hok.1 hok.2
        refine hc.record (fun t ht => ?_) hout
        split at ht
        · cases ht
        · rename_i hlive
          cases ht
          exact hend.resolve_left hlive
  | crash i inp k =>
      simp only [Cluster.step, Cluster.crash]
      split
      · exact hc
      · rename_i s hs
        refine hc.record (fun t ht => by cases ht) fun o ho => ?_
        exact (hact hs hok.1 hok.2).1 o (List.mem_of_mem_take ho)
  | restart b =>
      simp only [Cluster.step, Cluster.restart]
      split
      · rename_i hdown
        refine ⟨fun j t hj => ?_, hc.sent⟩
        simp only [Cluster.setSrv] at hj
        split at hj
        · cases hj
          exact hok hdown
        · exact hc.servers j t hj
      · exact hc

namespace ThreeServers

def clientRequest (i : SrvId) (n : Nat) (_ : Cluster) : Event :=
  .act i (.req
    { term := 0, type := .clientRequest, src := 0, dst := i, lastLogTerm := 0, lastLogIdx := 0,
      commitIdx := 0, payload := .entries (List.replicate n ⟨0, .appLog []⟩) } .client {})

end ThreeServers

end Ns3Raft.Raft
