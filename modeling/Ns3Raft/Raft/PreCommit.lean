import Ns3Raft.Lib.Ledger
import Ns3Raft.Raft.TermVote

/-! # What the state machine is told about each entry

The state machine's ledger: an entry is opened by `pre_commit` and closed by
`commit` or `rollback`. It should hold the application entries of the log above
the index the state machine has come to.
-/

namespace Ns3Raft.Raft

open Ledger

/-- The application entries of a stretch of the log, with their indexes. -/
def appEntries (start : Nat) : List LogEntry → List (Nat × LogEntry)
  | [] => []
  | e :: es =>
      if e.isAppLog then (start, e) :: appEntries (start + 1) es else appEntries (start + 1) es

def LogStore.appAbove (l : LogStore) (sm : Nat) : Multiset (Nat × LogEntry) :=
  ↑((appEntries l.startIndex l.entries).filter fun x => decide (sm < x.1))

namespace Output

/-- Postings of the state machine's ledger. -/
def pendingPosting : Output → Option (Posting (Nat × LogEntry))
  | .preCommit idx e => some (.opened (idx, e))
  | .commit idx e | .rollback idx e => some (.closed (idx, e))
  | _ => none

/-- Postings of the application entries that wait for their `pre_commit`. -/
def enteringPosting : Output → Option (Posting (Nat × LogEntry))
  | .append _ _ idx e | .writeAt idx e => if e.isAppLog then some (.opened (idx, e)) else none
  | .preCommit idx e => some (.closed (idx, e))
  | _ => none

def Plain (o : Output) : Prop := o.pendingPosting = none ∧ o.enteringPosting = none

end Output

def pendings (os : List Output) : List (Posting (Nat × LogEntry)) :=
  os.filterMap Output.pendingPosting

def enterings (os : List Output) : List (Posting (Nat × LogEntry)) :=
  os.filterMap Output.enteringPosting

/-- Starting from the open items `M`, the ledger holds the application entries
above the commit index, and every entry that came in was announced. -/
def Booked (M : Multiset (Nat × LogEntry)) (s : RaftServer) : Prop :=
  s.exited = false →
    balance M (pendings s.out) = some (s.logStore.appAbove s.smCommitIndex) ∧
      balance 0 (enterings s.out) = some 0

/-! ## Application entries of a log -/

theorem appEntries_append (start : Nat) (xs ys : List LogEntry) :
    appEntries start (xs ++ ys) = appEntries start xs ++ appEntries (start + xs.length) ys := by
  induction xs generalizing start with
  | nil => rfl
  | cons x xs ih =>
      have hlen : start + (x :: xs).length = start + 1 + xs.length := by
        simp only [List.length_cons]
        omega
      rw [List.cons_append, appEntries, appEntries, ih, hlen]
      split
      · rfl
      · rfl

theorem mem_appEntries {start : Nat} {es : List LogEntry} {x : Nat × LogEntry}
    (h : x ∈ appEntries start es) :
    start ≤ x.1 ∧ es[x.1 - start]? = some x.2 ∧ x.2.isAppLog = true := by
  induction es generalizing start with
  | nil => simp [appEntries] at h
  | cons e es ih =>
      have htail : x ∈ appEntries (start + 1) es →
          start ≤ x.1 ∧ (e :: es)[x.1 - start]? = some x.2 ∧ x.2.isAppLog = true := by
        intro hx
        obtain ⟨h1, h2, h3⟩ := ih hx
        have hsub : x.1 - start = x.1 - (start + 1) + 1 := by omega
        exact ⟨by omega, by rw [hsub, List.getElem?_cons_succ, h2], h3⟩
      unfold appEntries at h
      split at h
      · rename_i he
        rcases List.mem_cons.mp h with rfl | h
        · simpa using he
        · exact htail h
      · exact htail h

theorem appEntries_eq_nil {start : Nat} {es : List LogEntry} (h : ∀ e ∈ es, e.isAppLog = false) :
    appEntries start es = [] := by
  refine List.eq_nil_iff_forall_not_mem.mpr fun x hx => ?_
  obtain ⟨-, h2, h3⟩ := mem_appEntries hx
  have := h x.2 (List.mem_of_getElem? h2)
  simp [this] at h3

namespace LogStore

/-- The log below an index that is written, and what is written there. -/
theorem appAbove_append (l : LogStore) (e : LogEntry) (sm : Nat) :
    (l.append e).appAbove sm =
      l.appAbove sm + if e.isAppLog = true ∧ sm < l.nextSlot then {(l.nextSlot, e)} else 0 := by
  simp only [appAbove, append_startIndex, append_entries, appEntries_append, List.filter_append,
    ← Multiset.coe_add]
  congr 1
  by_cases he : e.isAppLog = true
  · by_cases hsm : sm < l.nextSlot
    · simp [appEntries, he, nextSlot] at hsm ⊢
      simp [hsm]
    · simp only [appEntries, he, nextSlot] at hsm ⊢
      simp [hsm]
  · simp [appEntries, he]

/-- What an overwrite at `idx` leaves in place. -/
def below (l : LogStore) (idx : Nat) : LogStore :=
  ⟨l.startIndex, l.entries.take (idx - l.startIndex), l.start_pos⟩

theorem below_nextSlot (l : LogStore) {idx : Nat} (hs : l.startIndex ≤ idx)
    (hn : idx ≤ l.nextSlot) : (l.below idx).nextSlot = idx := by
  unfold nextSlot at *
  simp only [below, List.length_take]
  omega

theorem appEntries_at (l : LogStore) {idx : Nat} {old : LogEntry}
    (hold : l.entryAt idx = some old) :
    appEntries l.startIndex l.entries =
      appEntries l.startIndex (l.below idx).entries ++
        ((if old.isAppLog then [(idx, old)] else []) ++
          appEntries (idx + 1) (l.entries.drop (idx - l.startIndex + 1))) := by
  obtain ⟨hs, hn⟩ := (l.entryAt_isSome_iff idx).mp (by simp [hold])
  have hget : l.entries[idx - l.startIndex]? = some old := by
    simpa [entryAt, Nat.not_lt.mpr hs] using hold
  obtain ⟨hlt, hel⟩ := List.getElem?_eq_some_iff.mp hget
  have hlen : l.startIndex + (l.below idx).entries.length = idx := l.below_nextSlot hs hn.le
  have hcut : l.entries =
      (l.below idx).entries ++ old :: l.entries.drop (idx - l.startIndex + 1) := by
    rw [← hel, ← List.drop_eq_getElem_cons hlt]
    exact (List.take_append_drop (idx - l.startIndex) l.entries).symm
  conv_lhs => rw [hcut]
  rw [appEntries_append, hlen, appEntries]
  split
  · rfl
  · rfl

/-- An overwrite takes away one application entry at most, when none lies beyond it. -/
theorem appAbove_below (l : LogStore) {idx sm : Nat} {old : LogEntry}
    (hold : l.entryAt idx = some old)
    (hbeyond : ∀ i e, idx < i → l.entryAt i = some e → e.isAppLog = false)
    (hsm : idx ≤ sm → old.isAppLog = false) :
    l.appAbove sm = (l.below idx).appAbove sm + if old.isAppLog then {(idx, old)} else 0 := by
  have hs := ((l.entryAt_isSome_iff idx).mp (by simp [hold])).1
  have htail : appEntries (idx + 1) (l.entries.drop (idx - l.startIndex + 1)) = [] := by
    refine appEntries_eq_nil fun e he => ?_
    obtain ⟨k, hk⟩ := List.getElem?_of_mem he
    rw [List.getElem?_drop] at hk
    refine hbeyond (idx + 1 + k) e (by omega) ?_
    have hsub : idx + 1 + k - l.startIndex = idx - l.startIndex + 1 + k := by omega
    rw [entryAt, if_neg (by omega), hsub, hk]
  simp only [appAbove, l.appEntries_at hold, htail, List.append_nil, List.filter_append,
    ← Multiset.coe_add]
  congr 1
  split
  · rename_i ho
    have hlt : sm < idx := by
      by_contra hle
      simp [hsm (Nat.le_of_not_lt hle)] at ho
    simp [hlt]
  · rfl

/-- The commit index passes one entry. -/
theorem appAbove_succ (l : LogStore) {sm : Nat} {e : LogEntry}
    (he : l.entryAt (sm + 1) = some e) :
    l.appAbove sm = l.appAbove (sm + 1) + if e.isAppLog then {(sm + 1, e)} else 0 := by
  obtain ⟨hs, hn⟩ := (l.entryAt_isSome_iff (sm + 1)).mp (by simp [he])
  have hlen := l.below_nextSlot hs hn.le
  have hlow : ∀ {k}, sm ≤ k → (appEntries l.startIndex (l.below (sm + 1)).entries).filter
      (fun x => decide (k < x.1)) = [] := by
    intro k hk
    refine List.filter_eq_nil_iff.mpr fun x hx => ?_
    obtain ⟨h1, h2, -⟩ := mem_appEntries hx
    have hlt := (List.getElem?_eq_some_iff.mp h2).1
    unfold nextSlot at hlen
    simp only [below] at hlen hlt
    simp only [decide_eq_true_eq, not_lt]
    omega
  have hhigh : ∀ {k}, k ≤ sm + 1 → (appEntries (sm + 1 + 1)
      (l.entries.drop (sm + 1 - l.startIndex + 1))).filter (fun x => decide (k < x.1)) =
      appEntries (sm + 1 + 1) (l.entries.drop (sm + 1 - l.startIndex + 1)) := by
    intro k hk
    refine List.filter_eq_self.mpr fun x hx => ?_
    have := (mem_appEntries hx).1
    simp only [decide_eq_true_eq]
    omega
  simp only [appAbove, l.appEntries_at he, List.filter_append, hlow le_rfl, hlow (Nat.le_succ sm),
    hhigh (Nat.le_succ sm), hhigh le_rfl, List.nil_append]
  split
  · simp [← Multiset.cons_coe, ← Multiset.singleton_add, Multiset.add_comm]
  · simp

end LogStore

/-! ## Postings of single operations -/

section Postings

@[simp] theorem pendings_append (os os' : List Output) :
    pendings (os ++ os') = pendings os ++ pendings os' := List.filterMap_append ..

@[simp] theorem enterings_append (os os' : List Output) :
    enterings (os ++ os') = enterings os ++ enterings os' := List.filterMap_append ..

theorem pendings_plain {os : List Output} (h : ∀ o ∈ os, o.Plain) : pendings os = [] :=
  List.filterMap_eq_nil_iff.mpr fun o ho => (h o ho).1

theorem enterings_plain {os : List Output} (h : ∀ o ∈ os, o.Plain) : enterings os = [] :=
  List.filterMap_eq_nil_iff.mpr fun o ho => (h o ho).2

namespace RaftServer

@[simp] theorem emit_exited (s : RaftServer) (o : Output) : (s.emit o).exited = s.exited := by
  unfold emit
  split <;> rfl

theorem emit_out {s : RaftServer} (hs : s.exited = false) (o : Output) :
    (s.emit o).out = s.out ++ [o] := by simp [emit, hs]

/-- What the state machine hears of an entry that goes. -/
def rollbackOut (l : LogStore) (idx : Nat) : List Output :=
  match l.entryAt idx with
  | some old => if old.isAppLog then [.rollback idx old] else []
  | none => []

/-- What the state machine hears of an entry that comes. -/
def preCommitOut (idx : Nat) (e : LogEntry) : List Output :=
  if e.isAppLog then [.preCommit idx e] else []

@[simp] theorem rollbackAt_exited (s : RaftServer) (idx : Nat) :
    (s.rollbackAt idx).exited = s.exited := by
  unfold rollbackAt
  split
  · rfl
  · split <;> simp

@[simp] theorem noteReceived_exited (s : RaftServer) (idx : Nat) (e : LogEntry) :
    (s.noteReceived idx e).exited = s.exited := by
  unfold noteReceived
  split <;> simp

@[simp] theorem overwriteAt_exited (s : RaftServer) (idx : Nat) (e : LogEntry) :
    (s.overwriteAt idx e).exited = s.exited := by
  simp [overwriteAt]

@[simp] theorem appendReceived_exited (s : RaftServer) (e : LogEntry) :
    (s.appendReceived e).exited = s.exited := by
  simp [appendReceived, appendLog]

theorem rollbackAt_out {s : RaftServer} (hs : s.exited = false) (idx : Nat) :
    (s.rollbackAt idx).out = s.out ++ rollbackOut s.logStore idx := by
  unfold rollbackAt rollbackOut
  cases s.logStore.entryAt idx with
  | none => simp
  | some old =>
      rcases old with ⟨t, v⟩
      cases v <;> simp [LogEntry.isAppLog, emit, hs]

theorem noteReceived_out {s : RaftServer} (hs : s.exited = false) (idx : Nat) (e : LogEntry) :
    (s.noteReceived idx e).out = s.out ++ preCommitOut idx e := by
  rcases e with ⟨t, v⟩
  unfold noteReceived preCommitOut
  cases v <;> simp [LogEntry.isAppLog, emit, hs]

theorem overwriteAt_out {s : RaftServer} (hs : s.exited = false) (idx : Nat) (e : LogEntry) :
    (s.overwriteAt idx e).out =
      s.out ++ (rollbackOut s.logStore idx ++ ([.writeAt idx e] ++ preCommitOut idx e)) := by
  unfold overwriteAt
  dsimp only
  rw [noteReceived_out (by simpa using hs), emit_out (by simpa using hs)]
  simp only [rollbackAt_out hs, List.append_assoc]

theorem appendReceived_out {s : RaftServer} (hs : s.exited = false) (e : LogEntry) :
    (s.appendReceived e).out = s.out ++
      ([.append s.role s.state.term s.logStore.nextSlot e] ++
        preCommitOut s.logStore.nextSlot e) := by
  have happ : (s.appendLog e).out =
      s.out ++ [.append s.role s.state.term s.logStore.nextSlot e] :=
    emit_out (s := { s with logStore := s.logStore.append e }) hs _
  unfold appendReceived
  rw [noteReceived_out (by simpa [appendLog] using hs), happ, List.append_assoc]

end RaftServer

end Postings

/-! ## Operations that post -/

variable {M : Multiset (Nat × LogEntry)} {s s' : RaftServer}

theorem Booked.grow (hb : Booked M s) (os : List Output)
    (hs : s'.exited = false → s.exited = false) (hout : s'.out = s.out ++ os)
    (hpend : balance (s.logStore.appAbove s.smCommitIndex) (pendings os) =
      some (s'.logStore.appAbove s'.smCommitIndex))
    (hent : balance 0 (enterings os) = some 0) : Booked M s' := by
  intro hlive
  obtain ⟨h1, h2⟩ := hb (hs hlive)
  rw [hout, pendings_append, enterings_append, balance_append, balance_append, h1, h2]
  exact ⟨hpend, hent⟩

theorem Booked.plain {os : List Output} (hb : Booked M s)
    (hs : s'.exited = false → s.exited = false) (hout : s'.out = s.out ++ os)
    (hos : ∀ o ∈ os, o.Plain)
    (happ : s'.logStore.appAbove s'.smCommitIndex = s.logStore.appAbove s.smCommitIndex) :
    Booked M s' := by
  refine hb.grow _ hs hout ?_ ?_
  · rw [pendings_plain hos, happ]
    rfl
  · rw [enterings_plain hos]
    rfl

/-- Nothing but an exit, or no output at all. -/
theorem Booked.exit (r : ExitReason) : Booked M (s.exit r) := by
  intro hlive
  unfold RaftServer.exit at hlive
  split at hlive
  · rename_i hs
    simp [hs] at hlive
  · simp at hlive

theorem erase_add_singleton (m : Multiset (Nat × LogEntry)) (x : Nat × LogEntry) :
    (m + {x}).erase x = m := by
  rw [Multiset.add_comm, Multiset.singleton_add, Multiset.erase_cons_head]

theorem balance_preCommitOut (m : Multiset (Nat × LogEntry)) (idx : Nat) (e : LogEntry) :
    balance m (pendings (RaftServer.preCommitOut idx e)) =
      some (m + if e.isAppLog then {(idx, e)} else 0) := by
  unfold RaftServer.preCommitOut
  split
  · exact balance_opened m (idx, e)
  · simp [pendings]

theorem balance_entering {o : Output} {idx : Nat} {e : LogEntry}
    (ho : o.enteringPosting = if e.isAppLog then some (.opened (idx, e)) else none) :
    balance 0 (enterings ([o] ++ RaftServer.preCommitOut idx e)) = some 0 := by
  by_cases he : e.isAppLog = true
  · rw [if_pos he] at ho
    have hlist : enterings ([o] ++ RaftServer.preCommitOut idx e) =
        [.opened (idx, e)] ++ [.closed (idx, e)] := by
      simp only [enterings, RaftServer.preCommitOut, if_pos he, List.singleton_append,
        List.filterMap_cons, ho]
      rfl
    rw [hlist, balance_append, balance_opened, Option.bind_some, balance_closed (by simp)]
    simp
  · rw [if_neg he] at ho
    simp only [enterings, RaftServer.preCommitOut, if_neg he, List.append_nil,
      List.filterMap_cons, ho]
    rfl

theorem Booked.appendReceived {e : LogEntry} (hb : Booked M s)
    (hsm : e.isAppLog = true → s.smCommitIndex < s.logStore.nextSlot) :
    Booked M (s.appendReceived e) := by
  intro hlive
  have hs : s.exited = false := by simpa using hlive
  have hcore := RaftServer.appendReceived_core s e
  have hlog : (s.appendReceived e).logStore = s.logStore.append e := congrArg Core.log hcore
  have hidx : (s.appendReceived e).smCommitIndex = s.smCommitIndex := congrArg Core.sm hcore
  refine hb.grow _ (fun _ => hs) (RaftServer.appendReceived_out hs e) ?_ (balance_entering rfl) hlive
  have hplain : pendings [.append s.role s.state.term s.logStore.nextSlot e] = [] := rfl
  rw [pendings_append, hplain, List.nil_append, balance_preCommitOut, hlog, hidx,
    LogStore.appAbove_append]
  congr 2
  by_cases he : e.isAppLog = true
  · simp [he, hsm he]
  · simp [he]

theorem Booked.overwriteAt {idx : Nat} {e old : LogEntry} (hb : Booked M s)
    (hstart : s.logStore.startIndex ≤ idx) (hold : s.logStore.entryAt idx = some old)
    (hbeyond : ∀ i e, idx < i → s.logStore.entryAt i = some e → e.isAppLog = false)
    (hsm : idx ≤ s.smCommitIndex → old.isAppLog = false)
    (he : e.isAppLog = true → s.smCommitIndex < idx) : Booked M (s.overwriteAt idx e) := by
  intro hlive
  have hs : s.exited = false := by simpa using hlive
  have hn : idx < s.logStore.nextSlot :=
    ((s.logStore.entryAt_isSome_iff idx).mp (by simp [hold])).2
  have hcore := RaftServer.overwriteAt_core s idx e
  have hlog : (s.overwriteAt idx e).logStore = (s.logStore.below idx).append e :=
    congrArg Core.log hcore
  have hidx : (s.overwriteAt idx e).smCommitIndex = s.smCommitIndex := congrArg Core.sm hcore
  have hent : enterings (RaftServer.rollbackOut s.logStore idx) = [] := by
    unfold RaftServer.rollbackOut
    split
    · split
      · rfl
      · rfl
    · rfl
  refine hb.grow _ (fun _ => hs) (RaftServer.overwriteAt_out hs idx e) ?_ ?_ hlive
  · have hplain : pendings [.writeAt idx e] = [] := rfl
    have hback : balance (s.logStore.appAbove s.smCommitIndex)
        (pendings (RaftServer.rollbackOut s.logStore idx)) =
        some ((s.logStore.below idx).appAbove s.smCommitIndex) := by
      rw [s.logStore.appAbove_below hold hbeyond hsm]
      simp only [RaftServer.rollbackOut, hold]
      split
      · have hlist : pendings [.rollback idx old] = [.closed (idx, old)] := rfl
        rw [hlist, balance_closed (by simp), erase_add_singleton]
      · simp [pendings]
    rw [pendings_append, pendings_append, hplain, List.nil_append, balance_append, hback,
      Option.bind_some, balance_preCommitOut, hlog, hidx, LogStore.appAbove_append,
      s.logStore.below_nextSlot hstart hn.le]
    congr 2
    by_cases happ : e.isAppLog = true
    · simp [happ, he happ]
    · simp [happ]
  · rw [enterings_append, hent, List.nil_append]
    exact balance_entering rfl

/-- The third loop of the append handler. -/
theorem Booked.appendReceived_foldl {es : List LogEntry} (hb : Booked M s)
    (hes : ∀ x ∈ appEntries s.logStore.nextSlot es, s.smCommitIndex < x.1) :
    Booked M (es.foldl RaftServer.appendReceived s) := by
  induction es generalizing s with
  | nil => exact hb
  | cons e es ih =>
      have hcore := RaftServer.appendReceived_core s e
      have hlog : (s.appendReceived e).logStore = s.logStore.append e := congrArg Core.log hcore
      have hidx : (s.appendReceived e).smCommitIndex = s.smCommitIndex := congrArg Core.sm hcore
      refine ih (hb.appendReceived fun he => ?_) fun x hx => ?_
      · exact hes (s.logStore.nextSlot, e) (by simp [appEntries, he])
      · rw [hlog, LogStore.append_nextSlot] at hx
        rw [hidx]
        refine hes x ?_
        unfold appEntries
        split
        · exact List.mem_cons_of_mem _ hx
        · exact hx

/-! ## Inputs that touch no application entry -/

/-- Inputs whose handlers neither bring in nor commit application entries. -/
def Input.Unbooked : Input → Prop
  | .req m _ _ => m.type ∉ [.appendEntriesRequest, .clientRequest, .joinClusterRequest,
      .syncLogRequest, .installSnapshotRequest]
  | .commitInBg | .snapshotCompleted _ | .replicateLog .. => False
  | _ => True

variable {inp : Input} {n₀ : Core}

theorem Quiet.plain (hinp : inp.Unbooked) {o : Output} (h : Quiet inp o) : o.Plain := by
  cases o with
  | preCommit idx e =>
      obtain ⟨m, h', env, rfl, ht | ht⟩ := h
      · simp [Input.Unbooked, ht] at hinp
      · simp [Input.Unbooked, ht] at hinp
  | rollback idx e =>
      obtain ⟨m, h', env, rfl, ht⟩ := h
      simp [Input.Unbooked, ht] at hinp
  | commit idx e =>
      have hbg : inp = .commitInBg := h
      subst hbg
      exact hinp.elim
  | append _ _ _ _ => exact h.elim
  | writeAt _ _ => exact h.elim
  | _ => exact ⟨rfl, rfl⟩

theorem EntryFrom.not_app (hinp : inp.Unbooked) {n : Core} {e : LogEntry} (h : EntryFrom inp n e) :
    e.isAppLog = false := by
  rcases h with ⟨c, hc, -⟩ | ⟨_, _, rfl, -⟩ | ⟨m, h', env, rfl, ht, -⟩
  · simp [LogEntry.isAppLog, hc]
  · exact hinp.elim
  · simp [Input.Unbooked, ht] at hinp

theorem NodeStep.unbooked (hinp : inp.Unbooked) {n n' : Core} {o : Option Output}
    (h : NodeStep inp n₀ n o n') :
    n'.log.appAbove n'.sm = n.log.appAbove n.sm ∧ ∀ x ∈ o.toList, x.Plain := by
  have hplain : ∀ {x : Output}, x.Plain → ∀ y ∈ (some x).toList, y.Plain := by
    simp
  have hreq : ∀ {m : ReqMsg} {h : RpcHandler} {env : Env}, inp = .req m h env →
      m.type ≠ .appendEntriesRequest ∧ m.type ≠ .joinClusterRequest ∧
        m.type ≠ .syncLogRequest ∧ m.type ≠ .installSnapshotRequest := by
    rintro m h env rfl
    simp only [Input.Unbooked, List.mem_cons, List.not_mem_nil, or_false, not_or] at hinp
    exact ⟨hinp.1, hinp.2.2.1, hinp.2.2.2.1, hinp.2.2.2.2⟩
  have hbg : inp ≠ .commitInBg := by
    rintro rfl
    exact hinp
  cases h with
  | quiet h => exact ⟨rfl, hplain (h.plain hinp)⟩
  | @create e c _ _ he _ =>
      have hna := he.not_app hinp
      refine ⟨?_, hplain ⟨rfl, by simp [Output.enteringPosting, hna]⟩⟩
      simp [LogStore.appAbove_append, hna]
  | write h1 h2 _ _ _ _ => exact absurd h2.type (hreq h1).1
  | reach h1 _ _ _ _ => exact absurd h1 hbg
  | compact h1 _ _ _ _ =>
      subst h1
      exact hinp.elim
  | join h1 h2 _ _ _ => exact absurd h2 (hreq h1).2.1
  | bulk h =>
      cases h with
      | pack h1 h2 _ _ _ => exact absurd h2 (hreq h1).2.2.1
      | packed h1 h2 _ _ => exact absurd h2 (hreq h1).2.2.1
      | snapCompact h1 h2 _ _ _ _ _ => exact absurd h2 (hreq h1).2.2.2
      | snapIndex h1 h2 _ => exact absurd h2 (hreq h1).2.2.2
      | _ => exact ⟨rfl, by simp [Output.Plain, Output.pendingPosting, Output.enteringPosting]⟩
  | _ => exact ⟨rfl, by simp [Output.Plain, Output.pendingPosting, Output.enteringPosting]⟩

theorem Path.unbooked (hinp : inp.Unbooked) {n n' : Core} {os : List Output}
    (h : Path inp n₀ n os n') :
    n'.log.appAbove n'.sm = n.log.appAbove n.sm ∧ ∀ x ∈ os, x.Plain := by
  induction h with
  | nil => exact ⟨rfl, by simp⟩
  | cons hs _ ih =>
      obtain ⟨h1, h2⟩ := hs.unbooked hinp
      refine ⟨ih.1.trans h1, fun x hx => ?_⟩
      rcases List.mem_append.mp hx with hx | hx
      · exact h2 x hx
      · exact ih.2 x hx

theorem Booked.traces (hinp : inp.Unbooked) (hb : Booked M s) (h : Traces inp n₀ s s') :
    Booked M s' := by
  rcases h with ⟨-, h2, -⟩ | ⟨h1, -, h3, h4⟩ | ⟨-, h2, -, -, -⟩
  · exact fun hlive => absurd (h2.symm.trans hlive) (by simp)
  · obtain ⟨g1, g2⟩ := h3.unbooked hinp
    exact hb.plain (fun _ => h1) h4 g2 g1
  · exact fun hlive => absurd (h2.symm.trans hlive) (by simp)

/-! ## Append requests -/

namespace RaftServer

/-- Below what an append request writes first, nothing changes: no application
entry beyond that index is dropped, the one at the index is not yet committed,
and no application entry comes in below the commit index. -/
def SettlesOverwrite (s : RaftServer) (m : ReqMsg) : Prop :=
  (skipOverlap s.logStore (m.lastLogIdx + 1) m.logEntries).2 ≠ [] →
    (∀ e ∈ s.logStore.entries.drop
        ((skipOverlap s.logStore (m.lastLogIdx + 1) m.logEntries).1 + 1 - s.logStore.startIndex),
      e.isAppLog = false) ∧
    ((skipOverlap s.logStore (m.lastLogIdx + 1) m.logEntries).1 ≤ s.smCommitIndex →
      ∀ e ∈ s.logStore.entryAt (skipOverlap s.logStore (m.lastLogIdx + 1) m.logEntries).1,
        e.isAppLog = false) ∧
    ∀ x ∈ appEntries (skipOverlap s.logStore (m.lastLogIdx + 1) m.logEntries).1
        (skipOverlap s.logStore (m.lastLogIdx + 1) m.logEntries).2,
      s.smCommitIndex < x.1

theorem overwriteLoop_role (es : List LogEntry) :
    ∀ (s : RaftServer) (idx : Nat), (s.overwriteLoop idx es).1.role = s.role := by
  induction es with
  | nil => exact fun _ _ => rfl
  | cons e es ih =>
      intro s idx
      unfold overwriteLoop
      split
      · exact (ih _ _).trans (congrArg Core.role (overwriteAt_core s idx e))
      · rfl

theorem writeEntries_role (s : RaftServer) (idx : Nat) (es : List LogEntry) :
    (s.writeEntries idx es).role = s.role := by
  have hfold : ∀ (l : List LogEntry) (s : RaftServer),
      (l.foldl appendReceived s).role = s.role := by
    intro l
    induction l with
    | nil => exact fun _ => rfl
    | cons e l ih =>
        exact fun s => (ih _).trans (congrArg Core.role (appendReceived_core s e))
  exact (hfold _ _).trans (overwriteLoop_role _ _ _)

theorem writeEntries_booked {m : ReqMsg} (hb : Booked M s)
    (hstart : m.logEntries ≠ [] → s.logStore.startIndex ≤ m.lastLogIdx + 1)
    (hprev : m.lastLogIdx + 1 ≤ s.logStore.nextSlot) (hok : s.SettlesOverwrite m) :
    Booked M (s.writeEntries (m.lastLogIdx + 1) m.logEntries) := by
  obtain ⟨k, -, heq, -, hnext, -⟩ :=
    skipOverlap_spec s.logStore (m.lastLogIdx + 1) m.logEntries
  unfold SettlesOverwrite at hok
  rw [heq] at hok
  unfold writeEntries
  rw [heq]
  dsimp only at hok ⊢
  rcases hdrop : m.logEntries.drop k with _ | ⟨e, es⟩
  · exact hb
  rw [hdrop] at hok
  obtain ⟨hbeyond, hold, hnew⟩ := hok (by simp)
  have hne : m.logEntries ≠ [] := by
    intro h
    simp [h] at hdrop
  have hs : s.logStore.startIndex ≤ m.lastLogIdx + 1 + k := (hstart hne).trans (by omega)
  have hle := hnext hprev
  rw [overwriteLoop_eq s e es hs]
  split
  · rename_i hlt
    obtain ⟨old, hentry⟩ := Option.isSome_iff_exists.mp
      ((s.logStore.entryAt_isSome_iff (m.lastLogIdx + 1 + k)).mpr ⟨hs, hlt⟩)
    have hcore := overwriteAt_core s (m.lastLogIdx + 1 + k) e
    have hlog : (s.overwriteAt (m.lastLogIdx + 1 + k) e).logStore =
        s.logStore.writeAt (m.lastLogIdx + 1 + k) e := congrArg Core.log hcore
    have hidx : (s.overwriteAt (m.lastLogIdx + 1 + k) e).smCommitIndex = s.smCommitIndex :=
      congrArg Core.sm hcore
    have hfirst : Booked M (s.overwriteAt (m.lastLogIdx + 1 + k) e) := by
      refine hb.overwriteAt hs hentry (fun i x hi hx => ?_) (fun h => hold h old hentry) ?_
      · refine hbeyond x (List.mem_of_getElem? (i := i - (m.lastLogIdx + 1 + k + 1)) ?_)
        unfold LogStore.entryAt at hx
        rw [if_neg (by omega)] at hx
        rw [List.getElem?_drop, ← hx]
        congr 1
        omega
      · exact fun he => hnew (m.lastLogIdx + 1 + k, e) (by simp [appEntries, he])
    refine hfirst.appendReceived_foldl fun x hx => ?_
    rw [hlog, s.logStore.writeAt_nextSlot_of_le e hs hle] at hx
    rw [hidx]
    refine hnew x ?_
    unfold appEntries
    split
    · exact List.mem_cons_of_mem _ hx
    · exact hx
  · have heq' : s.logStore.nextSlot = m.lastLogIdx + 1 + k := by omega
    exact hb.appendReceived_foldl (by rwa [heq'])

theorem emit_booked {o : Output} (hb : Booked M s) (ho : o.Plain) : Booked M (s.emit o) := by
  have hcore := emit_core s o
  have hlog : (s.emit o).logStore = s.logStore := congrArg Core.log hcore
  have hidx : (s.emit o).smCommitIndex = s.smCommitIndex := congrArg Core.sm hcore
  intro hlive
  have hs : s.exited = false := by simpa using hlive
  exact hb.plain (fun _ => hs) (emit_out hs o) (by simpa using ho) (by rw [hlog, hidx]) hlive

theorem reply_booked {r : RaftServer × Option RespMsg} {h : RpcHandler} {t : MsgType}
    (hb : Booked M r.1) : Booked M (reply r h t) := by
  unfold reply
  split
  · exact hb
  · exact emit_booked hb ⟨rfl, rfl⟩

theorem updateTerm_booked (hb : Booked M s) (t : Nat) : Booked M (s.updateTerm t).1 :=
  have hterm : Traces (.resp { term := t, type := .voteResponse, src := 0, dst := 0 } .resp
      .voteRequest) s.core s (s.updateTerm t).1 := updateTerm_traces rfl ⟨rfl, rfl⟩
  hb.traces (by trivial) hterm

theorem followTerm_booked (hb : Booked M s) (m : ReqMsg) : Booked M (s.followTerm m) := by
  unfold followTerm
  split
  · dsimp only
    split
    · exact updateTerm_booked hb m.term
    · exact updateTerm_booked hb m.term
  · exact hb

theorem noteLeader_booked (hb : Booked M s) : Booked M s.noteLeader := by
  unfold noteLeader
  split
  · rw [← becomeFollower_role s .follower]
    have hb' : Booked M { s with role := .follower } := hb
    have hfollow : Traces .electionTimeout s.core { s with role := .follower }
        (becomeFollower { s with role := .follower }) := becomeFollower_traces rfl
    exact hb'.traces (by trivial) hfollow
  · have htimer : Traces .electionTimeout s.core s s.restartElectionTimer :=
      restartElectionTimer_traces
    exact hb.traces (by trivial) htimer

theorem commit_of_follower (hr : s.role = .follower) (k : Nat) :
    s.commit k = { s with quickCommitIdx := max s.quickCommitIdx k } := by
  unfold commit
  split
  · rename_i h
    simp [hr, Nat.max_eq_right h.le]
  · rename_i h
    simp [Nat.max_eq_left (Nat.le_of_not_lt h)]

/-- An append request that the server takes in keeps the ledger. -/
def AcceptsSettled (s : RaftServer) (m : ReqMsg) : Prop :=
  s.state.term ≤ m.term → ¬ (m.term = s.state.term ∧ s.role = .leader) →
    s.appendLogOkay m = some true → s.SettlesOverwrite m

theorem appendLogOkay_congr (hlog : s'.logStore = s.logStore) (hsnp : s'.smSnapshot = s.smSnapshot)
    (m : ReqMsg) : s'.appendLogOkay m = s.appendLogOkay m := by
  simp only [appendLogOkay, termForLog, hlog, hsnp]

theorem settlesOverwrite_congr (hlog : s'.logStore = s.logStore)
    (hidx : s'.smCommitIndex = s.smCommitIndex) (m : ReqMsg) :
    s'.SettlesOverwrite m ↔ s.SettlesOverwrite m := by
  simp only [SettlesOverwrite, hlog, hidx]

theorem followTerm_core (s : RaftServer) (m : ReqMsg) :
    (s.followTerm m).core = s.core ∨ s.state.term < m.term ∧
      (s.followTerm m).core = { s.core with
        state := ⟨m.term, noServer⟩, role := .follower, votesGranted := 0, votedServers := [],
        electionCompleted := false } := by
  have hsoft : (s.followTerm m).core = s.core ∨
      (s.followTerm m).core = (s.updateTerm m.term).1.core := by
    unfold followTerm
    split
    · dsimp only
      split
      · exact .inr rfl
      · exact .inr rfl
    · exact .inl rfl
  rcases hsoft with h | h
  · exact .inl h
  · rw [h]
    rcases updateTerm_core s m.term with ⟨h1, -⟩ | ⟨h1, -, h2⟩
    · exact .inl h1
    · exact .inr ⟨h1, h2⟩

theorem handleAppendEntries_booked {m : ReqMsg} (hb : Booked M s) (hle : m.term ≤ s.state.term)
    (hok : s.AcceptsSettled m) : Booked M (s.handleAppendEntries m).1 := by
  unfold handleAppendEntries
  split
  · exact .exit _
  rename_i hnl
  obtain ⟨s₁, hs₁, hb₁, hcore⟩ : ∃ s₁ : RaftServer,
      (if m.term = s.state.term then
        if s.role = .candidate then s.becomeFollower else s.restartElectionTimer
      else s) = s₁ ∧ Booked M s₁ ∧
      s₁.core = (if m.term = s.state.term then { s.core with role := .follower } else s.core) := by
    refine ⟨_, rfl, ?_⟩
    split
    · rename_i ht
      exact ⟨noteLeader_booked hb, noteLeader_core fun hr => hnl ⟨ht, hr⟩⟩
    · exact ⟨hb, rfl⟩
  dsimp only
  rw [hs₁]
  have hfield : s₁.logStore = s.logStore ∧ s₁.smCommitIndex = s.smCommitIndex ∧
      s₁.smSnapshot = s.smSnapshot ∧ s₁.state = s.state := by
    refine ⟨(congrArg Core.log hcore).trans ?_, (congrArg Core.sm hcore).trans ?_,
      (congrArg Core.smSnapshot hcore).trans ?_, (congrArg Core.state hcore).trans ?_⟩
    all_goals split <;> rfl
  obtain ⟨hlog, hidx, hsnp, hstate⟩ := hfield
  split
  · exact .exit _
  rename_i okay hokay
  split
  · exact hb₁
  rename_i hrej
  split
  · exact .exit _
  rename_i hstart
  have hokay' : s₁.appendLogOkay m = some true := by
    cases okay with
    | true => exact hokay
    | false => exact absurd (.inr rfl) hrej
  have hterm : m.term = s.state.term := by
    have hge : ¬ m.term < s₁.state.term := fun h => hrej (.inl h)
    rw [hstate] at hge
    omega
  have hrole : s₁.role = .follower := by
    refine (congrArg Core.role hcore).trans ?_
    rw [if_pos hterm]
  have hsettle : s₁.SettlesOverwrite m := by
    rw [settlesOverwrite_congr hlog hidx]
    exact hok hterm.ge hnl (by rwa [← appendLogOkay_congr hlog hsnp])
  have hprev : m.lastLogIdx + 1 ≤ s₁.logStore.nextSlot := by
    by_cases hz : m.lastLogIdx = 0
    · have := s₁.logStore.nextSlot_pos
      omega
    · exact (appendLogOkay_true hokay' hz).1
  have hs : m.logEntries ≠ [] → s₁.logStore.startIndex ≤ m.lastLogIdx + 1 :=
    fun hne => Nat.le_of_not_lt fun h => hstart ⟨hne, h⟩
  have hwrite := writeEntries_booked hb₁ hs hprev hsettle
  have hrole' : (s₁.writeEntries (m.lastLogIdx + 1) m.logEntries).role = .follower :=
    (writeEntries_role s₁ _ _).trans hrole
  generalize s₁.writeEntries (m.lastLogIdx + 1) m.logEntries = s₂ at hwrite hrole'
  rw [commit_of_follower (s := { s₂ with leader := m.src }) hrole']
  exact hwrite

/-! ## Client requests -/

theorem requestAppendEntries_booked (hb : Booked M s) (hr : s.role = .leader) :
    Booked M s.requestAppendEntries :=
  have hsent : Traces .electionTimeout s.core s s.requestAppendEntries :=
    requestAppendEntries_traces (.inl hr)
  hb.traces (by trivial) hsent

theorem appendClientEntry_booked {e : LogEntry} (hb : Booked M s) (he : e.isAppLog = true)
    (hsm : s.smCommitIndex < s.logStore.nextSlot) : Booked M (s.appendClientEntry e) := by
  have heq : s.appendClientEntry e = s.appendReceived { e with term := s.state.term } := by
    rcases e with ⟨t, v⟩
    cases v with
    | appLog data => rfl
    | _ => simp [LogEntry.isAppLog] at he
  rw [heq]
  exact hb.appendReceived fun _ => hsm

theorem appendClientEntry_foldl_booked {es : List LogEntry} (hb : Booked M s)
    (hr : s.role = .leader)
    (hes : ∀ e ∈ es, e.isAppLog = true ∧ s.smCommitIndex < s.logStore.nextSlot) :
    Booked M (es.foldl appendClientEntry s) ∧ (es.foldl appendClientEntry s).role = .leader := by
  induction es generalizing s with
  | nil => exact ⟨hb, hr⟩
  | cons e es ih =>
      obtain ⟨he, hsm⟩ := hes e List.mem_cons_self
      have hcore := appendClientEntry_core s e
      refine ih (appendClientEntry_booked hb he hsm) ((congrArg Core.role hcore).trans hr) ?_
      intro e' he'
      have hlog : (s.appendClientEntry e).logStore = s.logStore.append _ := congrArg Core.log hcore
      have hidx : (s.appendClientEntry e).smCommitIndex = s.smCommitIndex :=
        congrArg Core.sm hcore
      refine ⟨(hes e' (List.mem_cons_of_mem _ he')).1, ?_⟩
      rw [hlog, hidx, LogStore.append_nextSlot]
      omega

theorem handleCliReq_booked {m : ReqMsg} {leaseOk : Bool} (hb : Booked M s)
    (hes : s.isLeader leaseOk = true →
      ∀ e ∈ m.logEntries, e.isAppLog = true ∧ s.smCommitIndex < s.logStore.nextSlot) :
    Booked M (s.handleCliReq m leaseOk).1 := by
  unfold handleCliReq
  dsimp only
  split
  · rename_i hl
    obtain ⟨h1, h2⟩ := appendClientEntry_foldl_booked hb (isLeader_role hl) (hes hl)
    exact requestAppendEntries_booked h1 h2
  split
  · exact hb
  · unfold forwardToLeader
    split
    · exact hb
    split
    · exact emit_booked hb ⟨rfl, rfl⟩
    split
    · exact emit_booked (s := { s with rpcClients := s.rpcClients ++ [s.leader] }) hb ⟨rfl, rfl⟩
    · exact hb

/-! ## Background commit -/

theorem applyConfig_booked (hb : Booked M s) (c : ClusterConfig) : Booked M (s.applyConfig c) := by
  have hsame : ∀ {s₁ s₂ : RaftServer}, Emits .electionTimeout s₁ s₂ →
      s₂.logStore = s₁.logStore → s₂.smCommitIndex = s₁.smCommitIndex → Booked M s₁ →
      Booked M s₂ := by
    intro s₁ s₂ hem hlog hidx hb₁
    obtain ⟨os, h1, h2⟩ := hem.out
    refine hb₁.plain (fun h => hem.exited.symm.trans h) h1 (fun o ho => ?_) (by rw [hlog, hidx])
    exact Quiet.plain (show Input.Unbooked .electionTimeout from trivial) (h2 o ho)
  have hcore := emit_core s (.saveConfig c)
  have hsave : Booked M (s.emit (.saveConfig c)) :=
    hsame (.emit trivial) (congrArg Core.log hcore) (congrArg Core.sm hcore) hb
  unfold applyConfig
  generalize s.emit (.saveConfig c) = s₁ at hsave
  obtain ⟨s₂, hs₂, hb₂⟩ : ∃ s₂ : RaftServer,
      (if s₁.config.logIdx < c.logIdx then { s₁ with configChanging := false }.reconfigure c
      else { s₁ with configChanging := false }) = s₂ ∧ Booked M s₂ := by
    refine ⟨_, rfl, ?_⟩
    split
    · have hre := reconfigure_core { s₁ with configChanging := false } c
      exact hsame (reconfigure_emits c) (congrArg Core.log hre) (congrArg Core.sm hre) hsave
    · exact hsave
  dsimp only
  rw [hs₂]
  split
  · exact hb₂
  · exact hb₂

theorem snapshotAndCompact_booked (hb : Booked M s) (idx : Nat) :
    Booked M (s.snapshotAndCompact idx) := by
  unfold snapshotAndCompact
  split
  swap
  · exact hb
  split
  · exact .exit _
  · exact hb
  split
  · exact hb
  · rename_i t _
    refine emit_booked ?_ ⟨rfl, rfl⟩
    exact hb

/-- An entry that the commit index passes is closed, when it is one of the application. -/
theorem commitInBg_booked (hb : Booked M s) : Booked M s.commitInBg := by
  unfold commitInBg
  split
  swap
  · exact hb
  dsimp only
  split
  · exact .exit _
  rename_i e he
  refine snapshotAndCompact_booked ?_ _
  have hpass := s.logStore.appAbove_succ he
  have hcore := emit_core { s with smCommitIndex := s.smCommitIndex + 1 }
    (.reach (s.smCommitIndex + 1) e)
  have hout : s.exited = false →
      (RaftServer.emit { s with smCommitIndex := s.smCommitIndex + 1 }
        (.reach (s.smCommitIndex + 1) e)).out = s.out ++ [.reach (s.smCommitIndex + 1) e] :=
    fun hs => emit_out (s := { s with smCommitIndex := s.smCommitIndex + 1 }) hs _
  have hex := emit_exited { s with smCommitIndex := s.smCommitIndex + 1 }
    (.reach (s.smCommitIndex + 1) e)
  generalize RaftServer.emit { s with smCommitIndex := s.smCommitIndex + 1 }
    (.reach (s.smCommitIndex + 1) e) = s₁ at hcore hout hex
  have hlog₁ : s₁.logStore = s.logStore := congrArg Core.log hcore
  have hidx₁ : s₁.smCommitIndex = s.smCommitIndex + 1 := congrArg Core.sm hcore
  have hreach : e.isAppLog = false → Booked M s₁ := by
    intro hna hlive
    have hs : s.exited = false := hex.symm.trans hlive
    refine hb.plain (fun _ => hs) (hout hs) ?_ ?_ hlive
    · simp [Output.Plain, Output.pendingPosting, Output.enteringPosting]
    · rw [hlog₁, hidx₁, hpass]
      simp [hna]
  rcases e with ⟨t, v⟩
  cases v with
  | appLog data =>
      have happ : (⟨t, .appLog data⟩ : LogEntry).isAppLog = true := rfl
      rw [if_pos happ] at hpass
      show Booked M (s₁.emit _)
      intro hlive
      have hs₁ : s₁.exited = false := by simpa using hlive
      have hs : s.exited = false := hex.symm.trans hs₁
      have hcore₂ := emit_core s₁ (.commit (s.smCommitIndex + 1) ⟨t, .appLog data⟩)
      refine hb.grow [.reach (s.smCommitIndex + 1) ⟨t, .appLog data⟩,
        .commit (s.smCommitIndex + 1) ⟨t, .appLog data⟩] (fun _ => hs) ?_ ?_ rfl hlive
      · rw [emit_out hs₁, hout hs, List.append_assoc]
        rfl
      · have hlog₂ := congrArg Core.log hcore₂
        have hidx₂ := congrArg Core.sm hcore₂
        simp only [core] at hlog₂ hidx₂
        have hlist : pendings [.reach (s.smCommitIndex + 1) ⟨t, .appLog data⟩,
            .commit (s.smCommitIndex + 1) ⟨t, .appLog data⟩] =
            [.closed (s.smCommitIndex + 1, ⟨t, .appLog data⟩)] := rfl
        rw [hlog₂, hidx₂, hlog₁, hidx₁, hlist, hpass, balance_closed (by simp),
          erase_add_singleton]
  | conf c => exact applyConfig_booked (hreach rfl) c
  | clusterServer srv => exact hreach rfl
  | serverId id => exact hreach rfl

/-! ## Steps and runs -/

/-- Neither a join nor a snapshot. -/
def InScope : Input → Prop
  | .req m _ _ => m.type ∉ [.joinClusterRequest, .syncLogRequest, .installSnapshotRequest]
  | .snapshotCompleted _ => False
  | _ => True

/-- What the ledger asks of an input: no `replicate_log` on a leader, application
entries only from clients, and append requests that settle what they overwrite. -/
def Announces (s : RaftServer) : Input → Prop
  | .req m _ env =>
      (m.type = .appendEntriesRequest → s.AcceptsSettled m) ∧
        (m.type = .clientRequest → s.isLeader env.leaseOk = true →
          ∀ e ∈ m.logEntries, e.isAppLog = true ∧ s.smCommitIndex < s.logStore.nextSlot)
  | .replicateLog _ leaseOk => s.isLeader leaseOk = false
  | _ => True

instance : DecidablePred InScope
  | .req .. => inferInstanceAs (Decidable (_ ∉ _))
  | .snapshotCompleted _ => inferInstanceAs (Decidable False)
  | .electionTimeout | .hbTimeout _ | .commitInBg | .resp .. | .rpcError .. | .retry _
  | .replicateLog .. => inferInstanceAs (Decidable True)

instance (s : RaftServer) (m : ReqMsg) : Decidable (s.SettlesOverwrite m) := by
  unfold SettlesOverwrite
  infer_instance

instance (s : RaftServer) (m : ReqMsg) : Decidable (s.AcceptsSettled m) := by
  unfold AcceptsSettled
  infer_instance

instance (s : RaftServer) : DecidablePred s.Announces
  | .req .. => inferInstanceAs (Decidable (_ ∧ _))
  | .replicateLog .. => inferInstanceAs (Decidable (_ = _))
  | .electionTimeout | .hbTimeout _ | .commitInBg | .resp .. | .rpcError .. | .retry _
  | .snapshotCompleted _ => inferInstanceAs (Decidable True)

def LiveAnnounces (s : RaftServer) (inp : Input) : Prop :=
  Live s inp ∧ InScope inp ∧ s.Announces inp

instance (s : RaftServer) (inp : Input) : Decidable (LiveAnnounces s inp) :=
  inferInstanceAs (Decidable (_ ∧ _ ∧ _))

def LiveInScope (s : RaftServer) (inp : Input) : Prop := Live s inp ∧ InScope inp

instance (s : RaftServer) (inp : Input) : Decidable (LiveInScope s inp) :=
  inferInstanceAs (Decidable (_ ∧ _))

theorem processReq_booked {m : ReqMsg} {env : Env} (hb : Booked M s)
    (hok : s.Announces (.req m .resp env))
    (htype : m.type = .appendEntriesRequest ∨ m.type = .clientRequest) :
    Booked M (s.processReq m env).1 := by
  have hfollow := followTerm_booked hb m
  rcases htype with ht | ht
  · have hcarry : MsgType.carriesTerm m.type = true := by
      rw [ht]
      rfl
    have hle := followTerm_le (s := s) hcarry
    have hsettled : (s.followTerm m).AcceptsSettled m := by
      rcases followTerm_core s m with h | ⟨hlt, h⟩
      · have hlog : (s.followTerm m).logStore = s.logStore := congrArg Core.log h
        have hsnp : (s.followTerm m).smSnapshot = s.smSnapshot := congrArg Core.smSnapshot h
        have hidx : (s.followTerm m).smCommitIndex = s.smCommitIndex := congrArg Core.sm h
        have hstate : (s.followTerm m).state = s.state := congrArg Core.state h
        have hrole : (s.followTerm m).role = s.role := congrArg Core.role h
        intro h1 h2 h3
        rw [settlesOverwrite_congr hlog hidx]
        rw [hstate] at h1 h2
        rw [hrole] at h2
        exact hok.1 ht h1 h2 (by rwa [← appendLogOkay_congr hlog hsnp])
      · have hlog : (s.followTerm m).logStore = s.logStore := congrArg Core.log h
        have hsnp : (s.followTerm m).smSnapshot = s.smSnapshot := congrArg Core.smSnapshot h
        have hidx : (s.followTerm m).smCommitIndex = s.smCommitIndex := congrArg Core.sm h
        intro _ _ h3
        rw [settlesOverwrite_congr hlog hidx]
        refine hok.1 ht hlt.le (fun h => ?_) (by rwa [← appendLogOkay_congr hlog hsnp])
        have := h.1
        omega
    unfold processReq
    simp only [ht]
    exact handleAppendEntries_booked hfollow hle hsettled
  · have hsame : s.followTerm m = s := by
      unfold followTerm
      rw [if_neg (by rw [ht]; decide)]
    unfold processReq
    simp only [ht, hsame]
    exact handleCliReq_booked hb (hok.2 ht)

theorem handle_booked (hb : Booked M s) {inp : Input} (hscope : InScope inp)
    (hok : s.Announces inp) : Booked M (s.handle inp) := by
  by_cases hinp : inp.Unbooked
  · exact hb.traces hinp (handle_traces s inp)
  cases inp with
  | commitInBg => exact commitInBg_booked hb
  | req m h env =>
      refine reply_booked (processReq_booked hb hok ?_)
      simp only [Input.Unbooked, InScope, List.mem_cons, List.not_mem_nil, or_false,
        not_or] at hinp hscope
      tauto
  | replicateLog data leaseOk =>
      have hsame : s.handle (.replicateLog data leaseOk) = s := by
        have hno : s.isLeader leaseOk = false := hok
        simp [handle, replicateLog, hno]
      rwa [hsame]
  | snapshotCompleted data => exact hscope.elim
  | _ => exact absurd trivial hinp

theorem step_booked {inp : Input} (hscope : InScope inp)
    (hok : s.Announces inp) :
    Booked (s.logStore.appAbove s.smCommitIndex) (s.step inp) := by
  refine handle_booked (s := { s with out := [] }) (fun _ => ⟨rfl, rfl⟩) hscope ?_
  cases inp <;> exact hok

/-- After the outputs `os`, from the open items `M` on: the ledger holds the
application entries above the commit index, every entry that came in was
announced once, and nothing was closed more often than it was opened. -/
structure LedgerKept (M : Multiset (Nat × LogEntry)) (os : List Output) (s : RaftServer) :
    Prop where
  pending : balance M (pendings os) = some (s.logStore.appAbove s.smCommitIndex)
  entered : balance 0 (enterings os) = some 0
  once : ∀ x, (pendings os).count (.closed x) ≤ M.count x + (pendings os).count (.opened x)

/-- The ledger is kept along every run whose inputs meet `Announces`. -/
theorem run_ledger_kept (b : Boot) (tr : List (RaftServer × Input)) (s : RaftServer)
    (h : Transition.Run RaftServer.step LiveAnnounces (RaftServer.start b) tr s)
    (hs : s.exited = false) :
    LedgerKept (b.logStore.appAbove b.smCommitIndex) (emitted tr) s := by
  have hboth : s.exited = false →
      balance (b.logStore.appAbove b.smCommitIndex) (pendings (emitted tr)) =
        some (s.logStore.appAbove s.smCommitIndex) ∧
      balance 0 (enterings (emitted tr)) = some 0 := by
    clear hs
    induction h with
    | nil => exact fun _ => ⟨rfl, rfl⟩
    | @snoc tr s inp _ hok ih =>
        intro hlive
        obtain ⟨h1, h2⟩ := ih hok.1
        obtain ⟨g1, g2⟩ := step_booked hok.2.1 hok.2.2 hlive
        rw [emitted_snoc, pendings_append, enterings_append, balance_append, balance_append, h1, h2]
        exact ⟨g1, g2⟩
  obtain ⟨h1, h2⟩ := hboth hs
  exact ⟨h1, h2, count_closed_le h1⟩

/-! Two uncommitted entries of term 1, of which a leader of term 2 replaces the
second or the first. -/

namespace Overwritten

def follower : Boot := { id := 3, config := ⟨0, 0, [⟨1, "a"⟩, ⟨2, "b"⟩, ⟨3, "c"⟩]⟩ }

def append (term : Nat) (src : SrvId) (lastLogTerm lastLogIdx commitIdx : Nat)
    (es : List LogEntry) : Input :=
  .req { term := term, type := .appendEntriesRequest, src := src, dst := 3,
         lastLogTerm := lastLogTerm, lastLogIdx := lastLogIdx, commitIdx := commitIdx,
         payload := .entries es } .resp {}

def first : Input := append 1 1 0 0 0 [⟨1, .appLog [1]⟩, ⟨1, .appLog [2]⟩]

def last : Input := append 2 2 1 1 2 [⟨2, .appLog [3]⟩]

def both : Input := append 2 2 0 0 1 [⟨2, .appLog [3]⟩]

def alone : Boot := { id := 3, config := ⟨0, 0, [⟨3, "c"⟩]⟩ }

/-- A client entry that is not one of the application. -/
def otherEntry : Input :=
  .req { term := 0, type := .clientRequest, src := 9, dst := 3, lastLogTerm := 0, lastLogIdx := 0,
         commitIdx := 0, payload := .entries [⟨0, .serverId 1⟩] } .client {}

def server (b : Boot) (inputs : List Input) : RaftServer :=
  inputs.foldl RaftServer.step (RaftServer.start b)

def history (b : Boot) (inputs : List Input) : List Output :=
  emitted (Transition.trace RaftServer.step (RaftServer.start b) inputs)

def Possible (b : Boot) (inputs : List Input) : Prop :=
  Transition.Passes RaftServer.step LiveInScope (RaftServer.start b) inputs

instance (b : Boot) (inputs : List Input) : Decidable (Possible b inputs) :=
  inferInstanceAs (Decidable (Transition.Passes _ _ _ _))

end Overwritten

open Overwritten in
theorem run_ledger_kept_last_entry :
    LedgerKept 0 (history follower [first, last, .commitInBg, .commitInBg])
      (server follower [first, last, .commitInBg, .commitInBg]) :=
  run_ledger_kept follower _ _ (Transition.run_of_passes _ _ _
    [first, last, .commitInBg, .commitInBg] (by decide +kernel)) (by decide +kernel)

open Overwritten in
theorem ledger_lost :
    (Possible follower [first, both] ∧ (server follower [first, both]).exited = false ∧
      ¬ LedgerKept 0 (history follower [first, both]) (server follower [first, both])) ∧
    (Possible alone [.electionTimeout, .replicateLog [7] true] ∧
      (server alone [.electionTimeout, .replicateLog [7] true]).exited = false ∧
      ¬ LedgerKept 0 (history alone [.electionTimeout, .replicateLog [7] true])
        (server alone [.electionTimeout, .replicateLog [7] true])) ∧
    (Possible alone [.electionTimeout, otherEntry] ∧
      (server alone [.electionTimeout, otherEntry]).exited = false ∧
      ¬ LedgerKept 0 (history alone [.electionTimeout, otherEntry])
        (server alone [.electionTimeout, otherEntry])) := by
  refine ⟨⟨by decide +kernel, by decide +kernel, fun h => ?_⟩,
    ⟨by decide +kernel, by decide +kernel, fun h => ?_⟩,
    ⟨by decide +kernel, by decide +kernel, fun h => ?_⟩⟩
  · exact absurd h.pending (by decide +kernel)
  · exact absurd h.pending (by decide +kernel)
  · exact absurd h.pending (by decide +kernel)

end RaftServer

end Ns3Raft.Raft
