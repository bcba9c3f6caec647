import Ns3Raft.Raft.Stepped
import Ns3Raft.Raft.TermVote

/-! # What the state machine is given, in order

The background loop hands over the entries of the log one index after the other;
an installed snapshot takes the place of all indexes up to its own. Accepting an
invitation to join is the one step that starts over at index zero.
-/

namespace Ns3Raft.Raft

/-- What the state machine comes to: the entry at an index, or a snapshot. -/
inductive Application where
  | log (idx : Nat) (e : LogEntry)
  | snapshot (idx : Nat)
  deriving DecidableEq, Repr

namespace Application

def idx : Application → Nat
  | .log k _ => k
  | .snapshot k => k

def isLog : Application → Bool
  | .log .. => true
  | .snapshot _ => false

/-- The call of `state_machine::commit` that goes with it. -/
def commitCall : Application → Option (Nat × LogEntry)
  | .log k e => if e.isAppLog then some (k, e) else none
  | .snapshot _ => none

end Application

def Output.application : Output → Option Application
  | .reach k e => some (.log k e)
  | .applySnapshot snp => some (.snapshot snp.lastLogIdx)
  | _ => none

def Output.commitCall : Output → Option (Nat × LogEntry)
  | .commit k e => some (k, e)
  | _ => none

def applications (os : List Output) : List Application := os.filterMap Output.application

def commitCalls (os : List Output) : List (Nat × LogEntry) := os.filterMap Output.commitCall

/-- Strictly upward, an entry of the log always at the very next index. -/
def InOrder (as : List Application) : Prop :=
  as.IsChain fun x y => x.idx < y.idx ∧ (y.isLog = true → y.idx = x.idx + 1)

/-- From the index `a` through the applications to the index `b`. -/
def Applies : Nat → List Application → Nat → Prop
  | a, [], b => a = b
  | a, x :: as, b => a < x.idx ∧ (x.isLog = true → x.idx = a + 1) ∧ Applies x.idx as b

namespace Applies

variable {a b c : Nat} {as bs : List Application}

theorem append (h : Applies a as b) (h' : Applies b bs c) : Applies a (as ++ bs) c := by
  induction as generalizing a with
  | nil => exact h ▸ h'
  | cons x as ih => exact ⟨h.1, h.2.1, ih h.2.2⟩

theorem le (h : Applies a as b) : a ≤ b := by
  induction as generalizing a with
  | nil => exact Nat.le_of_eq h
  | cons x as ih =>
      have hrest := ih h.2.2
      have hfirst := h.1
      omega

theorem inOrder_cons (h : Applies a as b) {x : Application} (hx : x.idx = a) :
    InOrder (x :: as) := by
  induction as generalizing a x with
  | nil => exact .singleton x
  | cons y as ih => exact .cons_cons ⟨hx ▸ h.1, hx ▸ h.2.1⟩ (ih h.2.2 rfl)

end Applies

/-- No index comes twice. -/
theorem InOrder.sorted {as : List Application} (h : InOrder as) :
    (as.map Application.idx).Pairwise (· < ·) := by
  rw [List.pairwise_map]
  exact (h.imp fun _ _ h => h.1).pairwise

/-- From `s` to `s'` the state machine goes on from where it is. -/
structure Applied (s s' : RaftServer) : Prop where
  out : ∃ os k, s'.out = s.out ++ os ∧ Applies s.smCommitIndex (applications os) k ∧
    commitCalls os = (applications os).filterMap Application.commitCall ∧
    (s.exited = true → os = []) ∧ (s'.exited = false → s'.smCommitIndex = k)
  exited : s.exited = true → s'.exited = true
  le : s.smCommitIndex ≤ s'.smCommitIndex

/-- An output that hands nothing to the state machine. -/
def Output.Idle (o : Output) : Prop := o.application = none ∧ o.commitCall = none

namespace Applied

variable {s s' s'' : RaftServer}

theorem refl (s : RaftServer) : Applied s s :=
  ⟨⟨[], s.smCommitIndex, by simp, rfl, rfl, fun _ => rfl, fun _ => rfl⟩, fun h => h, le_rfl⟩

theorem trans (h : Applied s s') (h' : Applied s' s'') : Applied s s'' := by
  obtain ⟨os, k, hout, happ, hcall, hstuck, hk⟩ := h.out
  obtain ⟨os', k', hout', happ', hcall', hstuck', hk'⟩ := h'.out
  refine ⟨?_, fun hx => h'.exited (h.exited hx), h.le.trans h'.le⟩
  cases hx : s'.exited with
  | true =>
      refine ⟨os, k, ?_, happ, hcall, hstuck, fun hlive => ?_⟩
      · rw [hout', hout, hstuck' hx, List.append_nil]
      · exact absurd (h'.exited hx) (by simp [hlive])
  | false =>
      refine ⟨os ++ os', k', ?_, ?_, ?_, fun hex => ?_, hk'⟩
      · rw [hout', hout, List.append_assoc]
      · rw [applications, List.filterMap_append]
        exact happ.append (hk hx ▸ happ')
      · rw [commitCalls, applications, List.filterMap_append, List.filterMap_append,
          List.filterMap_append]
        exact congrArg₂ _ hcall hcall'
      · exact absurd (h.exited hex) (by simp [hx])

/-- Nothing handed over. -/
theorem of_idle (ho : Outputs Output.Idle s s') (hsm : s'.smCommitIndex = s.smCommitIndex) :
    Applied s s' := by
  obtain ⟨os, hout, hidle, hstuck⟩ := ho.out
  have happ : applications os = [] := List.filterMap_eq_nil_iff.mpr fun o h => (hidle o h).1
  have hcall : commitCalls os = [] := List.filterMap_eq_nil_iff.mpr fun o h => (hidle o h).2
  refine ⟨⟨os, s.smCommitIndex, hout, ?_, ?_, hstuck, fun _ => hsm⟩, ho.exited, hsm.ge⟩
  · rw [happ]
    rfl
  · rw [hcall, happ]
    rfl

end Applied

theorem Output.idle_of_plain (o : Output) (h : o.plain = true) : o.Idle := by
  cases o with
  | reach _ _ => cases h
  | commit _ _ => cases h
  | applySnapshot _ => cases h
  | _ => exact ⟨rfl, rfl⟩

theorem Sends.idle {s s' : RaftServer} (h : Sends s s') : Outputs Output.Idle s s' := by
  refine h.toOutputs.mono fun o ho => ho.elim o.idle_of_plain fun hv => ?_
  obtain ⟨p, rfl⟩ := hv.send
  exact ⟨rfl, rfl⟩

theorem Sends.applied {s s' : RaftServer} (h : Sends s s') : Applied s s' :=
  .of_idle h.idle h.smCommitIndex

/-! ## One step -/

namespace RaftServer

variable {s : RaftServer}

theorem saveState_applied (s : RaftServer) (st : SrvState) : Applied s (s.saveState st) :=
  .of_idle (saveState_outputs s ⟨rfl, rfl⟩) (congrArg Kept.smCommitIndex (saveState_kept s st))

theorem appendLog_applied (s : RaftServer) (e : LogEntry) : Applied s (s.appendLog e) :=
  .of_idle (appendLog_outputs s ⟨rfl, rfl⟩) (congrArg Kept.smCommitIndex (appendLog_kept s e))

theorem restartElectionTimer_applied (s : RaftServer) : Applied s s.restartElectionTimer := by
  obtain ⟨b, hb⟩ := restartElectionTimer_kept s
  exact .of_idle (restartElectionTimer_outputs s ⟨rfl, rfl⟩ ⟨rfl, rfl⟩)
    (congrArg Kept.smCommitIndex hb)

theorem stopElectionTimer_applied (s : RaftServer) : Applied s s.stopElectionTimer :=
  .of_idle (stopElectionTimer_outputs s ⟨rfl, rfl⟩)
    (congrArg Kept.smCommitIndex (stopElectionTimer_kept s))

theorem becomeFollower_applied (s : RaftServer) : Applied s s.becomeFollower := by
  obtain ⟨b, hb⟩ := becomeFollower_kept s
  exact .of_idle (becomeFollower_outputs s Output.idle_of_plain ⟨rfl, rfl⟩ ⟨rfl, rfl⟩)
    (congrArg Kept.smCommitIndex hb)

theorem updateTerm_applied (s : RaftServer) (t : Nat) : Applied s (s.updateTerm t).1 := by
  obtain ⟨b, r, st, hb⟩ := updateTerm_kept s t
  exact .of_idle (updateTerm_outputs s t Output.idle_of_plain ⟨rfl, rfl⟩ ⟨rfl, rfl⟩
    fun _ => ⟨rfl, rfl⟩) (congrArg Kept.smCommitIndex hb)

theorem standing_applied (s : RaftServer) : Applied s s.standing := by
  have hset : Applied s { s with
      prevoteState := none, role := .candidate, votesGranted := 0, votedServers := [],
      electionCompleted := false } := .of_idle (.soft rfl rfl) rfl
  exact (hset.trans (saveState_applied _ _)).trans (saveState_applied _ _)

theorem logInitialConfig_applied (s : RaftServer) : Applied s s.logInitialConfig :=
  .of_idle (logInitialConfig_outputs s fun _ _ _ _ => ⟨rfl, rfl⟩)
    (logInitialConfig_smCommitIndex s)

theorem writeEntries_applied (s : RaftServer) (idx : Nat) (es : List LogEntry) :
    Applied s (s.writeEntries idx es) := by
  obtain ⟨l, b, h⟩ := writeEntries_kept s idx es
  exact .of_idle (writeEntries_outputs s idx es ⟨fun _ _ => ⟨rfl, rfl⟩, fun _ _ => ⟨rfl, rfl⟩,
    fun _ _ => ⟨rfl, rfl⟩, fun _ _ _ _ => ⟨rfl, rfl⟩⟩) (congrArg Kept.smCommitIndex h)

theorem applications_reachOutputs (idx : Nat) (e : LogEntry) :
    applications (reachOutputs idx e) = [.log idx e] := by
  unfold reachOutputs
  split <;> rfl

theorem commitCalls_reachOutputs (idx : Nat) (e : LogEntry) :
    commitCalls (reachOutputs idx e) = [Application.log idx e].filterMap Application.commitCall := by
  unfold reachOutputs
  split
  · rename_i happ
    simp [commitCalls, Output.commitCall, Application.commitCall, happ]
    rfl
  · rename_i happ
    simp [commitCalls, Output.commitCall, Application.commitCall, happ]

/-- The next entry goes to the state machine, an application entry by `commit`. -/
theorem reached_applied (s : RaftServer) (e : LogEntry) : Applied s (s.reached e) := by
  obtain ⟨hout, hx, hsm⟩ := reached_out s e
  refine ⟨?_, fun h => hx.trans h, by omega⟩
  cases hlive : s.exited with
  | true =>
      refine ⟨[], s.smCommitIndex, by rw [hout, hlive]; rfl, rfl, rfl, fun _ => rfl, fun h => ?_⟩
      rw [hx, hlive] at h
      cases h
  | false =>
      refine ⟨reachOutputs (s.smCommitIndex + 1) e, s.smCommitIndex + 1, by rw [hout, hlive]; rfl,
        ?_, ?_, fun h => Bool.noConfusion h, fun _ => hsm⟩
      · rw [applications_reachOutputs]
        exact ⟨Nat.lt_succ_self _, fun _ => rfl, rfl⟩
      · rw [commitCalls_reachOutputs, applications_reachOutputs]

/-- A snapshot above the present index goes to the state machine. -/
theorem overtaken_applied (s : RaftServer) (snp : Snapshot) (l : LogStore)
    (h : s.smCommitIndex < snp.lastLogIdx) : Applied s (s.overtaken snp l) := by
  have hset : Applied s { s with logStore := l } := .of_idle (.soft rfl rfl) rfl
  have hcompact : Applied { s with logStore := l }
      ({ s with logStore := l }.emit (.compact snp.lastLogIdx)) :=
    .of_idle (.emit _ ⟨rfl, rfl⟩) (congrArg Kept.smCommitIndex (emit_kept _ _))
  have hstop := (hset.trans hcompact).trans (stopElectionTimer_applied _)
  have hsm : (({ s with logStore := l }.emit (.compact snp.lastLogIdx)).stopElectionTimer
      ).smCommitIndex = s.smCommitIndex :=
    (congrArg Kept.smCommitIndex (stopElectionTimer_kept _)).trans
      (congrArg Kept.smCommitIndex (emit_kept _ _))
  unfold overtaken
  generalize ({ s with logStore := l }.emit (.compact snp.lastLogIdx)).stopElectionTimer = t
    at hstop hsm
  refine hstop.trans ⟨?_, fun hx => ?_, ?_⟩
  · cases hx : t.exited with
    | true =>
        refine ⟨[], t.smCommitIndex, by simp [emit, hx], rfl, rfl, fun _ => rfl, fun h => ?_⟩
        simp [emit, hx] at h
    | false =>
        refine ⟨[.applySnapshot snp], snp.lastLogIdx, by simp [emit, hx], ?_, rfl,
          fun h => Bool.noConfusion h, fun _ => rfl⟩
        exact ⟨hsm ▸ h, fun h => Bool.noConfusion h, rfl⟩
  · simp [emit, hx]
  · exact hsm ▸ h.le

end RaftServer

/-- An invitation to join finds a server that has applied nothing. -/
def JoinsFresh (s : RaftServer) : Input → Prop
  | .req m _ _ => s.AcceptsJoin m → s.smCommitIndex = 0
  | _ => True

instance (s : RaftServer) : DecidablePred (JoinsFresh s)
  | .req .. => inferInstanceAs (Decidable (_ → _))
  | .electionTimeout | .hbTimeout _ | .commitInBg | .resp .. | .rpcError .. | .retry _
  | .snapshotCompleted _ | .replicateLog .. => inferInstanceAs (Decidable True)

theorem Move.applied {inp : Input} {s₀ s s' : RaftServer} (h : Move inp s₀ s s')
    (hj : JoinsFresh s₀ inp) : Applied s s' := by
  cases h with
  | sends h => exact h.applied
  | config => exact .of_idle (.soft rfl rfl) rfl
  | again hagain =>
      refine .of_idle (.emit s ?_) (congrArg Kept.smCommitIndex (RaftServer.emit_kept s _))
      rcases hagain with ⟨m, -, rfl⟩ | ⟨m, -, rfl⟩
      · exact ⟨rfl, rfl⟩
      · exact ⟨rfl, rfl⟩
  | restart => exact s.restartElectionTimer_applied
  | grant _ => exact s.saveState_applied _
  | stepDown _ _ => exact s.updateTerm_applied _
  | demote _ => exact s.becomeFollower_applied
  | stand h => exact (s.standing_applied.trans h.applied).trans (RaftServer.restartElectionTimer_applied _)
  | @lead s₁ s₂ s' _ h₁ h₂ h₃ _ =>
      have hfirst : Applied s s₁ := by
        rcases h₁ with rfl | rfl
        · exact .refl s₁
        · exact s.standing_applied
      have hset : Applied s₂.stopElectionTimer
          { s₂.stopElectionTimer with role := .leader, leader := s₂.stopElectionTimer.id } :=
        .of_idle (.soft rfl rfl) rfl
      exact (((hfirst.trans h₂.applied).trans (s₂.stopElectionTimer_applied.trans hset)).trans
        h₃.applied).trans s'.logInitialConfig_applied
  | write _ _ _ _ _ =>
      exact (s.writeEntries_applied _ _).trans (.of_idle (.soft rfl rfl) rfl)
  | create _ _ _ _ => exact s.appendLog_applied _
  | newConfig _ _ =>
      have hset : Applied s { s with configChanging := true } := .of_idle (.soft rfl rfl) rfl
      exact hset.trans (RaftServer.appendLog_applied _ _)
  | giveUp _ _ _ => exact .of_idle (.soft rfl rfl) rfl
  | @pack _ _ _ _ l _ _ _ _ _ _ =>
      have hset : Applied s { s with logStore := l } := .of_idle (.soft rfl rfl) rfl
      exact hset.trans (.of_idle (.emit _ ⟨rfl, rfl⟩)
        (congrArg Kept.smCommitIndex (RaftServer.emit_kept _ _)))
  | @join m _ _ t c hinp ht hpay hcatch hs =>
      have hzero : s.smCommitIndex = 0 := by
        subst hinp hs
        exact hj ⟨ht, hcatch, by rw [(m.conf?_eq_some_iff c).mpr ⟨t, hpay⟩]; rfl⟩
      have hset : Applied s { s with
          catchingUp := true, role := .follower, leader := m.src, smCommitIndex := 0,
          quickCommitIdx := 0 } := .of_idle (.soft rfl rfl) hzero.symm
      exact hset.trans (RaftServer.saveState_applied _ _)
  | @reach e _ _ _ _ _ _ h => exact (s.reached_applied e).trans h.applied
  | @lost r _ =>
      have hexit := RaftServer.exit_sends { s with smCommitIndex := s.smCommitIndex + 1 } r
      have hgone := RaftServer.exit_exited { s with smCommitIndex := s.smCommitIndex + 1 } r
      obtain ⟨os, hout, hidle, hstuck⟩ := hexit.idle.out
      have happ : applications os = [] := List.filterMap_eq_nil_iff.mpr fun o h => (hidle o h).1
      have hcall : commitCalls os = [] := List.filterMap_eq_nil_iff.mpr fun o h => (hidle o h).2
      refine ⟨⟨os, s.smCommitIndex, hout, by rw [happ]; rfl, by rw [hcall, happ]; rfl, hstuck,
        fun hlive => ?_⟩, hexit.exited, ?_⟩
      · exact absurd hgone (by simp [hlive])
      · rw [hexit.smCommitIndex]
        exact Nat.le_succ _
  | complete _ _ _ => exact .of_idle (.soft rfl rfl) rfl
  | receive _ _ _ _ =>
      exact .of_idle (s.saveSnapshotData_outputs _ ⟨rfl, rfl⟩)
        (congrArg Kept.smCommitIndex (RaftServer.saveSnapshotData_kept s _))
  | @compact _ _ l _ _ _ _ =>
      have hset : Applied s { s with logStore := l } := .of_idle (.soft rfl rfl) rfl
      exact hset.trans (.of_idle (.emit _ ⟨rfl, rfl⟩)
        (congrArg Kept.smCommitIndex (RaftServer.emit_kept _ _)))
  | @install _ _ _ r l c c' s₁ s₂ _ _ _ _ _ habove _ _ _ h₁ h₂ =>
      have hset : Applied (s.overtaken r.snapshot l)
          { s.overtaken r.snapshot l with config := c, smSnapshot := some r.snapshot } :=
        .of_idle (.soft rfl rfl) rfl
      have hover := ((s.overtaken_applied r.snapshot l habove).trans hset).trans h₁.applied
      have hlast : Applied (s₁.saveState s₁.state) { s₁.saveState s₁.state with
          lastSnapshot := some { r.snapshot with lastConfig := c' } } := .of_idle (.soft rfl rfl) rfl
      exact (((hover.trans (s₁.saveState_applied _)).trans hlast).trans h₂.applied).trans
        s₂.restartElectionTimer_applied
  | @halt l idx r =>
      have hset : Applied s { s with logStore := l } := .of_idle (.soft rfl rfl) rfl
      refine ((hset.trans ?_).trans (RaftServer.stopElectionTimer_applied _)).trans
        (RaftServer.exit_sends _ _).applied
      exact .of_idle (.emit _ ⟨rfl, rfl⟩) (congrArg Kept.smCommitIndex (RaftServer.emit_kept _ _))

namespace RaftServer

variable {s : RaftServer} {inp : Input}

theorem step_applied (hj : JoinsFresh s inp) : Applied { s with out := [] } (s.step inp) := by
  have hmoves := step_moves s inp
  have hj' : JoinsFresh { s with out := [] } inp := by
    cases inp with
    | req m h env => exact hj
    | _ => trivial
  generalize s.step inp = s' at hmoves
  induction hmoves with
  | refl => exact .refl _
  | tail _ hmove ih => exact ih.trans (hmove.applied hj')

/-- An accepted invitation sets the index back to zero. -/
theorem step_join_smCommitIndex {m : ReqMsg} {h : RpcHandler} {env : Env} (hj : s.AcceptsJoin m) :
    (s.step (.req m h env)).smCommitIndex = 0 := by
  have hfollow : ({ s with out := [] } : RaftServer).followTerm m = { s with out := [] } := by
    unfold followTerm
    rw [if_neg (by rw [hj.1]; decide)]
  obtain ⟨c, hc⟩ := Option.isSome_iff_exists.mp hj.2.2
  obtain ⟨t, hpay⟩ := (m.conf?_eq_some_iff c).mp hc
  simp only [step, handle, processReq, hfollow, hj.1, handleExtendedMsg]
  rw [(reply_sends _ _ _).smCommitIndex]
  simp only [handleJoinClusterReq, hpay]
  rw [if_neg (by simp [hj.2.1])]
  rw [(reconfigure_sends _ c).smCommitIndex]
  exact congrArg Kept.smCommitIndex (saveState_kept _ _)

theorem joinsFresh_iff (s : RaftServer) (inp : Input) :
    JoinsFresh s inp ↔ s.smCommitIndex ≤ (s.step inp).smCommitIndex := by
  constructor
  · exact fun hj => (step_applied hj).le
  · intro hle
    cases inp with
    | req m h env =>
        intro hacc
        rw [step_join_smCommitIndex hacc] at hle
        omega
    | _ => trivial

end RaftServer

/-! ## Runs -/

theorem run_applies {b : Boot} {tr : List (RaftServer × Input)} {s : RaftServer}
    (h : Transition.Run RaftServer.step Live (RaftServer.start b) tr s)
    (hj : ∀ x ∈ tr, JoinsFresh x.1 x.2) :
    ∃ k, Applies b.smCommitIndex (applications (emitted tr)) k ∧
      commitCalls (emitted tr) = (applications (emitted tr)).filterMap Application.commitCall ∧
      (s.exited = false → s.smCommitIndex = k) := by
  induction h with
  | nil => exact ⟨b.smCommitIndex, rfl, rfl, fun _ => rfl⟩
  | @snoc tr s inp _ hlive ih =>
      obtain ⟨k, happ, hcall, hk⟩ := ih fun x hx => hj x (List.mem_append_left _ hx)
      obtain ⟨os, k', hout, happ', hcall', -, hk'⟩ :=
        (RaftServer.step_applied (hj (s, inp) (by simp))).out
      have hos : (s.step inp).out = os := hout
      refine ⟨k', ?_, ?_, hk'⟩
      · rw [emitted_snoc, hos, applications, List.filterMap_append]
        exact happ.append (hk hlive ▸ happ')
      · rw [emitted_snoc, hos, commitCalls, applications, List.filterMap_append,
          List.filterMap_append, List.filterMap_append]
        exact congrArg₂ _ hcall hcall'

/-- The state machine is given every index once and in order, the entries one
after the other, exactly when no invitation is accepted above index zero. The
index at the start counts as one that is already applied. -/
theorem applied_in_order_iff_joins_fresh {b : Boot} {tr : List (RaftServer × Input)}
    {s : RaftServer} (h : Transition.Run RaftServer.step Live (RaftServer.start b) tr s) :
    (InOrder (.snapshot b.smCommitIndex :: applications (emitted tr)) ∧
      commitCalls (emitted tr) = (applications (emitted tr)).filterMap Application.commitCall ∧
      ∀ x ∈ tr, x.1.smCommitIndex ≤ (x.1.step x.2).smCommitIndex) ↔
    ∀ x ∈ tr, JoinsFresh x.1 x.2 := by
  constructor
  · rintro ⟨-, -, hle⟩ x hx
    exact (x.1.joinsFresh_iff x.2).mpr (hle x hx)
  · intro hj
    obtain ⟨k, happ, hcall, -⟩ := run_applies h hj
    exact ⟨happ.inOrder_cons rfl, hcall, fun x hx => (x.1.joinsFresh_iff x.2).mp (hj x hx)⟩

namespace RetriedJoin

/-- The leader tells the joined server that both entries are committed. -/
def reminder : Input := request .appendEntriesRequest 1 1 1 2 2 []

/-- The first invitation comes again after its configuration is committed. -/
def appliedAgain : List Input := catchUp ++ [invitation, reminder, .commitInBg]

end RetriedJoin

open RetriedJoin in
theorem applied_in_order_until_retry :
    InOrder (.snapshot joiner.smCommitIndex :: applications (history catchUp)) :=
  ((applied_in_order_iff_joins_fresh (b := joiner)
    (Transition.run_of_passes _ _ _ catchUp (by decide +kernel))).mpr
      (by decide +kernel)).1

open RetriedJoin in
theorem retried_join_applies_twice :
    Transition.Passes RaftServer.step Live (RaftServer.start joiner)
        appliedAgain ∧
      (applications (history appliedAgain)).map Application.idx = [1, 2, 1] ∧
      ¬ InOrder (applications (history appliedAgain)) := by
  refine ⟨by decide +kernel, by decide +kernel, fun h => ?_⟩
  have hsorted := h.sorted
  rw [show (applications (history appliedAgain)).map Application.idx = [1, 2, 1] by
    decide +kernel] at hsorted
  exact absurd hsorted (by decide)

end Ns3Raft.Raft
