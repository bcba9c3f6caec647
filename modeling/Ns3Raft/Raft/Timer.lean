import Ns3Raft.Raft.Stepped
import Ns3Raft.Raft.TermVote

/-! # The election timer

A server together with what the scheduler holds of its election task. The timer
is pending from a `schedule` on until it is cancelled or fires. Two places leave
a server without it: a prevote round, which does not set the timer for the time
it waits, and the end of the catch-up, since a timeout before that cannot set it.
-/

namespace Ns3Raft.Raft

/-- The scheduler's side of one output. -/
def Output.timer (pending : Bool) : Output → Bool
  | .schedule .election => true
  | .cancel .election => false
  | _ => pending

def timerAfter (pending : Bool) (os : List Output) : Bool := os.foldl Output.timer pending

structure Timed where
  server : RaftServer
  pending : Bool
  deriving DecidableEq, Repr

namespace Timed

/-- The timer that fires is no longer pending. -/
def step (t : Timed) (inp : Input) : Timed :=
  let pending := if inp = .electionTimeout then false else t.pending
  ⟨t.server.step inp, timerAfter pending (t.server.step inp).out⟩

def start (b : Boot) : Timed := ⟨.start b, timerAfter false (RaftServer.start b).out⟩

/-- The process is alive, and the election timer only fires when it is pending. -/
def Fires (t : Timed) (inp : Input) : Prop :=
  t.server.exited = false ∧ (inp = .electionTimeout → t.pending = true)

instance (t : Timed) (inp : Input) : Decidable (t.Fires inp) := inferInstanceAs (Decidable (_ ∧ _))

/-- Able to start an election on its own. -/
def Armed (t : Timed) : Prop :=
  t.server.role ≠ .leader → t.server.catchingUp = false → t.pending = true

instance (t : Timed) : Decidable t.Armed := inferInstanceAs (Decidable (_ → _))

end Timed

namespace RaftServer

/-- An election timeout starts a prevote round, or finds one under way. -/
def WaitsForPrevote (s : RaftServer) : Prop :=
  s.stepsToDown = 0 ∧ s.catchingUp = false ∧ s.role = .follower ∧
    s.params.prevoteEnabled = true ∧ (s.peers ≠ [] ∨ s.prevoteState.any (·.votedServers ≠ []))

instance (s : RaftServer) : Decidable s.WaitsForPrevote := inferInstanceAs (Decidable (_ ∧ _))

/-- The next entry to apply is a configuration that ends the catch-up. -/
def EndsCatchUp (s : RaftServer) : Prop :=
  s.smCommitIndex < s.quickCommitIdx ∧ s.smCommitIndex < s.logStore.lastIndex ∧
    s.catchingUp = true ∧
    ((s.logStore.entryAt (s.smCommitIndex + 1)).bind LogEntry.conf?).any fun c =>
      decide (s.id ∈ c.ids)

instance (s : RaftServer) : Decidable s.EndsCatchUp := inferInstanceAs (Decidable (_ ∧ _))

end RaftServer

/-- No prevote round is waited for without the timer, and the catch-up of a
server that does not lead ends while the timer is pending. -/
def Timed.Rearms (t : Timed) : Input → Prop
  | .electionTimeout => ¬ t.server.WaitsForPrevote
  | .commitInBg => t.server.EndsCatchUp → t.server.role ≠ .leader → t.pending = true
  | _ => True

instance (t : Timed) : DecidablePred t.Rearms
  | .electionTimeout => inferInstanceAs (Decidable (¬ _))
  | .commitInBg => inferInstanceAs (Decidable (_ → _))
  | .hbTimeout _ | .req .. | .resp .. | .rpcError .. | .retry _ | .snapshotCompleted _
  | .replicateLog .. => inferInstanceAs (Decidable True)

/-! ## Outputs and the timer -/

/-- An output that leaves the election timer alone. -/
def Output.Untimed (o : Output) : Prop := ∀ p, o.timer p = p

theorem Output.untimed_of_plain (o : Output) (h : o.plain = true) : o.Untimed := by
  intro p
  cases o with
  | schedule t => cases t <;> first | rfl | cases h
  | cancel t => cases t <;> first | rfl | cases h
  | _ => rfl

theorem Sends.untimed {s s' : RaftServer} (h : Sends s s') : Outputs Output.Untimed s s' := by
  refine h.toOutputs.mono fun o ho => ho.elim o.untimed_of_plain fun hv => ?_
  obtain ⟨p, rfl⟩ := hv.send
  exact fun _ => rfl

theorem timerAfter_untimed {os : List Output} (h : ∀ o ∈ os, o.Untimed) (p : Bool) :
    timerAfter p os = p := by
  induction os with
  | nil => rfl
  | cons o os ih =>
      rw [timerAfter, List.foldl_cons, h o (by simp)]
      exact ih fun o ho => h o (List.mem_cons_of_mem _ ho)

theorem Outputs.timerAfter {s s' : RaftServer} (h : Outputs Output.Untimed s s') (p : Bool) :
    timerAfter p s'.out = Raft.timerAfter p s.out := by
  obtain ⟨os, hout, huntimed, -⟩ := h.out
  rw [hout, Raft.timerAfter, List.foldl_append]
  exact timerAfter_untimed huntimed _

namespace RaftServer

/-- `Timed.Armed` in the middle of a handler that began with the timer at `p`. -/
def Armed (p : Bool) (s : RaftServer) : Prop :=
  s.exited = true ∨ s.role = .leader ∨ s.catchingUp = true ∨ timerAfter p s.out = true

variable {p : Bool} {s s' : RaftServer}

theorem Armed.of_untimed (hs : s.Armed p) (ho : Outputs Output.Untimed s s')
    (hrole : s'.role = s.role) (hcatch : s'.catchingUp = s.catchingUp) : s'.Armed p := by
  rcases hs with hs | hs | hs | hs
  · exact .inl (ho.exited hs)
  · exact .inr (.inl (hrole.trans hs))
  · exact .inr (.inr (.inl (hcatch.trans hs)))
  · exact .inr (.inr (.inr ((ho.timerAfter p).trans hs)))

theorem Armed.of_sends (hs : s.Armed p) (h : Sends s s') : s'.Armed p :=
  hs.of_untimed h.untimed h.role h.catchingUp

theorem emit_schedule_armed (p : Bool) (s : RaftServer) :
    (s.emit (.schedule .election)).Armed p := by
  unfold emit
  split
  · rename_i hx
    exact .inl hx
  · refine .inr (.inr (.inr ?_))
    rw [timerAfter, List.foldl_append]
    rfl

theorem restartElectionTimer_armed (p : Bool) (s : RaftServer) :
    s.restartElectionTimer.Armed p := by
  unfold restartElectionTimer
  split
  · rename_i hc
    exact .inr (.inr (.inl hc))
  · exact emit_schedule_armed p _

theorem becomeFollower_armed (p : Bool) (s : RaftServer) : s.becomeFollower.Armed p :=
  (restartElectionTimer_armed p _).of_sends (emit_sends _ rfl)

theorem updateTerm_armed (p : Bool) {t : Nat} (h : s.state.term < t) :
    (s.updateTerm t).1.Armed p := by
  unfold updateTerm
  rw [if_pos h]
  exact becomeFollower_armed p _

theorem becomeCandidate_armed (p : Bool) (s : RaftServer) : s.becomeCandidate.Armed p := by
  unfold becomeCandidate
  dsimp only
  split
  · rename_i hl
    exact .inr (.inl hl)
  · exact restartElectionTimer_armed p _

theorem exit_armed (p : Bool) (s : RaftServer) (r : ExitReason) : (s.exit r).Armed p :=
  .inl (exit_exited s r)

theorem saveState_untimed (s : RaftServer) (st : SrvState) :
    Outputs Output.Untimed s (s.saveState st) := saveState_outputs s fun _ => rfl

theorem appendLog_untimed (s : RaftServer) (e : LogEntry) :
    Outputs Output.Untimed s (s.appendLog e) := appendLog_outputs s fun _ => rfl

theorem reached_untimed (s : RaftServer) (e : LogEntry) :
    Outputs Output.Untimed s (s.reached e) := by
  obtain ⟨hout, hx, -⟩ := reached_out s e
  refine ⟨⟨_, hout, fun o ho => ?_, fun h => if_pos h⟩, fun h => hx.trans h⟩
  split at ho
  · cases ho
  · unfold reachOutputs at ho
    split at ho
    · rcases List.mem_pair.mp ho with rfl | rfl
      · exact fun _ => rfl
      · exact fun _ => rfl
    · rw [List.mem_singleton.mp ho]
      exact fun _ => rfl

/-- Reaching a configuration may end the catch-up; else the timer is as before. -/
theorem Armed.reached (hs : s.Armed p) (e : LogEntry)
    (he : s.catchingUp = true → (e.conf?.any fun c => decide (s.id ∈ c.ids)) = true →
      s.role ≠ .leader → timerAfter p s.out = true) : (s.reached e).Armed p := by
  have hkept := reached_kept s e
  have htimer := (reached_untimed s e).timerAfter p
  have hrole : (s.reached e).role = s.role := congrArg Kept.role hkept
  have hcatch : (s.reached e).catchingUp = (s.catchingUp && !_) := congrArg Kept.catchingUp hkept
  rcases hs with hs | hs | hs | hs
  · exact .inl ((reached_untimed s e).exited hs)
  · exact .inr (.inl (hrole.trans hs))
  · cases hend : e.conf?.any fun c => decide (s.id ∈ c.ids) with
    | false => exact .inr (.inr (.inl (by rw [hcatch, hs, hend]; rfl)))
    | true =>
        by_cases hl : s.role = .leader
        · exact .inr (.inl (hrole.trans hl))
        · exact .inr (.inr (.inr (htimer.trans (he hs hend hl))))
  · exact .inr (.inr (.inr (htimer.trans hs)))

end RaftServer

/-! ## One step -/

theorem Move.armed {inp : Input} {p : Bool} {s₀ s s' : RaftServer} (h : Move inp s₀ s s')
    (hs : s.Armed p)
    (hend : inp = .commitInBg → s₀.EndsCatchUp → s₀.role ≠ .leader →
      timerAfter p s₀.out = true) : s'.Armed p := by
  cases h with
  | sends h => exact hs.of_sends h
  | config => exact hs
  | again hagain =>
      refine hs.of_untimed (.emit s ?_) (congrArg Kept.role (RaftServer.emit_kept s _))
        (congrArg Kept.catchingUp (RaftServer.emit_kept s _))
      rcases hagain with ⟨m, -, rfl⟩ | ⟨m, -, rfl⟩
      · exact fun _ => rfl
      · exact fun _ => rfl
  | restart => exact RaftServer.restartElectionTimer_armed p s
  | grant _ =>
      exact hs.of_untimed (s.saveState_untimed _)
        (congrArg Kept.role (RaftServer.saveState_kept s _))
        (congrArg Kept.catchingUp (RaftServer.saveState_kept s _))
  | stepDown ht _ => exact RaftServer.updateTerm_armed p ht
  | demote _ => exact RaftServer.becomeFollower_armed p s
  | stand _ => exact RaftServer.restartElectionTimer_armed p _
  | @lead s₁ s₂ s' _ _ _ h₃ _ =>
      exact .inr (.inl ((RaftServer.logInitialConfig_role s').trans h₃.role))
  | @write m _ _ _ _ _ _ _ =>
      obtain ⟨l, b, hkept⟩ := RaftServer.writeEntries_kept s (m.lastLogIdx + 1) m.logEntries
      have hout : Outputs Output.Untimed s (s.writeEntries (m.lastLogIdx + 1) m.logEntries) :=
        RaftServer.writeEntries_outputs s _ _ ⟨fun _ _ _ => rfl, fun _ _ _ => rfl,
          fun _ _ _ => rfl, fun _ _ _ _ _ => rfl⟩
      exact hs.of_untimed (hout.trans (.soft rfl rfl)) (congrArg Kept.role hkept)
        (congrArg Kept.catchingUp hkept)
  | create _ _ _ _ =>
      exact hs.of_untimed (s.appendLog_untimed _)
        (congrArg Kept.role (RaftServer.appendLog_kept s _))
        (congrArg Kept.catchingUp (RaftServer.appendLog_kept s _))
  | newConfig _ _ =>
      have hset : Outputs Output.Untimed s { s with configChanging := true } := .soft rfl rfl
      exact hs.of_untimed (hset.trans (RaftServer.appendLog_untimed _ _))
        (congrArg Kept.role (RaftServer.appendLog_kept _ _))
        (congrArg Kept.catchingUp (RaftServer.appendLog_kept _ _))
  | giveUp _ _ _ => exact hs
  | @pack _ _ _ _ l _ _ _ _ _ _ =>
      have hset : Outputs Output.Untimed s { s with logStore := l } := .soft rfl rfl
      exact hs.of_untimed (hset.trans (.emit _ fun _ => rfl))
        (congrArg Kept.role (RaftServer.emit_kept _ _))
        (congrArg Kept.catchingUp (RaftServer.emit_kept _ _))
  | join _ _ _ _ _ =>
      exact .inr (.inr (.inl (congrArg Kept.catchingUp (RaftServer.saveState_kept _ _))))
  | @reach e _ hinp heq hquick hlast he h =>
      subst heq
      refine (hs.reached e fun hcatch hconf hl => hend hinp ⟨hquick, hlast, hcatch, ?_⟩ hl).of_sends h
      rw [he]
      exact hconf
  | lost _ => exact RaftServer.exit_armed p _ _
  | complete _ _ _ => exact hs
  | receive _ _ _ _ =>
      exact hs.of_untimed (s.saveSnapshotData_outputs _ fun _ => rfl)
        (congrArg Kept.role (RaftServer.saveSnapshotData_kept s _))
        (congrArg Kept.catchingUp (RaftServer.saveSnapshotData_kept s _))
  | @compact _ _ l _ _ _ _ =>
      have hset : Outputs Output.Untimed s { s with logStore := l } := .soft rfl rfl
      exact hs.of_untimed (hset.trans (.emit _ fun _ => rfl))
        (congrArg Kept.role (RaftServer.emit_kept _ _))
        (congrArg Kept.catchingUp (RaftServer.emit_kept _ _))
  | install _ _ _ _ _ _ _ _ _ _ _ => exact RaftServer.restartElectionTimer_armed p _
  | halt => exact RaftServer.exit_armed p _ _

theorem Moves.armed {inp : Input} {p : Bool} {s₀ s : RaftServer} (h : Moves inp s₀ s₀ s)
    (hs : s₀.Armed p)
    (hend : inp = .commitInBg → s₀.EndsCatchUp → s₀.role ≠ .leader →
      timerAfter p s₀.out = true) : s.Armed p := by
  induction h with
  | refl => exact hs
  | tail _ hmove ih => exact hmove.armed ih hend

namespace RaftServer

/-- A timeout that does not wait for a prevote leaves the timer set. -/
theorem handleElectionTimeout_armed (p : Bool) {s : RaftServer} (h : ¬ s.WaitsForPrevote) :
    s.handleElectionTimeout.Armed p := by
  unfold handleElectionTimeout
  split
  · dsimp only
    split
    · unfold leaveCluster
      exact exit_armed p _ _
    · exact restartElectionTimer_armed p _
  rename_i hdown
  split
  · exact restartElectionTimer_armed p s
  rename_i hcatch
  split
  · exact exit_armed p s _
  split
  · rename_i hpre
    have hno : s.peers = [] ∧ ∀ pv, s.prevoteState = some pv → pv.votedServers = [] := by
      by_contra hwait
      refine h ⟨by omega, by simpa using hcatch, hpre.2, hpre.1, ?_⟩
      by_contra hnone
      rw [not_or, not_not] at hnone
      refine hwait ⟨hnone.1, fun pv hpv => ?_⟩
      simpa [hpv] using hnone.2
    have hstand : s.requestPrevote.Armed p := by
      unfold requestPrevote
      rw [if_pos hno.1]
      exact becomeCandidate_armed p s
    split
    · rename_i pv hpv
      rw [if_neg (not_not.mpr (hno.2 pv hpv))]
      exact hstand
    · exact hstand
  · exact becomeCandidate_armed p s

/-- A prevote round is started without setting the timer. -/
theorem handleElectionTimeout_sends {s : RaftServer} (h : s.WaitsForPrevote) :
    Sends s s.handleElectionTimeout := by
  obtain ⟨hdown, hcatch, hrole, hpre, hwait⟩ := h
  unfold handleElectionTimeout
  rw [if_neg (by omega), if_neg (by simp [hcatch]), if_neg (by simp [hrole]),
    if_pos ⟨hpre, hrole⟩]
  split
  · rename_i pv hpv
    split
    · exact .refl s
    · rename_i hempty
      refine requestPrevote_sends (hwait.resolve_right ?_)
      simpa [hpv] using hempty
  · rename_i hnone
    exact requestPrevote_sends (hwait.resolve_right (by simp [hnone]))

end RaftServer

namespace Timed

variable {t : Timed} {inp : Input}

theorem armed_iff (p : Bool) (s : RaftServer) (hlive : s.exited = false) :
    (⟨s, timerAfter p s.out⟩ : Timed).Armed ↔ s.Armed p := by
  unfold Armed RaftServer.Armed
  cases hc : s.catchingUp <;> by_cases hr : s.role = .leader <;> simp [hlive, hr]

/-- A step that meets the condition leaves the timer as the server needs it. -/
theorem step_armed (hfire : t.Fires inp) (ht : t.Armed) (hr : t.Rearms inp)
    (hlive : (t.step inp).server.exited = false) : (t.step inp).Armed := by
  by_cases htimeout : inp = .electionTimeout
  · subst htimeout
    exact (armed_iff _ _ hlive).mpr (RaftServer.handleElectionTimeout_armed false hr)
  · have hpending : (if inp = .electionTimeout then false else t.pending) = t.pending :=
      if_neg htimeout
    have hbefore : RaftServer.Armed t.pending { t.server with out := [] } :=
      (armed_iff t.pending { t.server with out := [] } hfire.1).mp ht
    have hafter := (RaftServer.step_moves t.server inp).armed hbefore fun hinp hends hl => by
      subst hinp
      exact hr hends hl
    unfold step
    rw [hpending]
    exact (armed_iff _ _ hlive).mpr hafter

/-- Any other step loses the timer, unless the process ends. -/
theorem rearms_of_armed (hlive : (t.step inp).server.exited = false)
    (h : (t.step inp).Armed) : t.Rearms inp := by
  cases inp with
  | electionTimeout =>
      intro hwait
      have hsent := RaftServer.handleElectionTimeout_sends (s := { t.server with out := [] }) hwait
      have hfired := h (by
        rw [show (t.step .electionTimeout).server.role = t.server.role from hsent.role, hwait.2.2.1]
        decide) (hsent.catchingUp.trans hwait.2.1)
      have htimer := hsent.untimed.timerAfter false
      exact Bool.noConfusion (hfired.symm.trans htimer)
  | commitInBg =>
      rintro ⟨hquick, hlast, hcatch, hconf⟩ hl
      obtain ⟨e, he⟩ : ∃ e, t.server.logStore.entryAt (t.server.smCommitIndex + 1) = some e := by
        cases he : t.server.logStore.entryAt (t.server.smCommitIndex + 1) with
        | none => simp [he] at hconf
        | some e => exact ⟨e, rfl⟩
      have hreach := RaftServer.commitInBg_reconfigures (s := { t.server with out := [] })
        hquick hlast he
      have hkept := RaftServer.reached_kept { t.server with out := [] } e
      have hrole : (t.step .commitInBg).server.role = t.server.role :=
        (Sends.role hreach).trans (congrArg Kept.role hkept)
      have hdone : (t.step .commitInBg).server.catchingUp = false := by
        have hends : (e.conf?.any fun c => decide (t.server.id ∈ c.ids)) = true := by
          rw [he] at hconf
          exact hconf
        refine ((Sends.catchingUp hreach).trans (congrArg Kept.catchingUp hkept)).trans ?_
        exact (congrArg (fun b => t.server.catchingUp && !b) hends).trans (Bool.and_false _)
      have htimer := ((RaftServer.reached_untimed { t.server with out := [] } e).trans
        (Sends.untimed hreach)).timerAfter t.pending
      exact htimer.symm.trans (h (hrole ▸ hl) hdone)
  | _ => trivial

end Timed

/-! ## Runs -/

/-- In every run a server that is not the leader and not catching up has its
election timer pending, in every state, exactly when every step of the run meets
the condition. -/
theorem timer_pending_iff_rearms {b : Boot} {tr : List (Timed × Input)} {t : Timed}
    (h : Transition.Run Timed.step Timed.Fires (Timed.start b) tr t)
    (hlive : t.server.exited = false) :
    ((∀ x ∈ tr, x.1.Armed) ∧ t.Armed) ↔ ∀ x ∈ tr, x.1.Rearms x.2 := by
  induction h with
  | nil => simp [Timed.Armed, Timed.start, RaftServer.start, timerAfter, Output.timer]
  | @snoc tr t inp _ hfire ih =>
      have hbefore := ih hfire.1
      constructor
      · rintro ⟨hall, hlast⟩ x hx
        rcases List.mem_append.mp hx with hx | hx
        · refine hbefore.mp ⟨fun y hy => hall y (List.mem_append_left _ hy), ?_⟩ x hx
          exact hall (t, inp) (by simp)
        · rw [List.mem_singleton.mp hx]
          exact Timed.rearms_of_armed hlive hlast
      · intro hall
        obtain ⟨h1, h2⟩ := hbefore.mpr fun x hx => hall x (List.mem_append_left _ hx)
        refine ⟨fun x hx => ?_, Timed.step_armed hfire h2 (hall (t, inp) (by simp)) hlive⟩
        rcases List.mem_append.mp hx with hx | hx
        · exact h1 x hx
        · rw [List.mem_singleton.mp hx]
          exact h2

/-! A server with a peer whose timeout begins a prevote round that nobody
answers, and a joining server whose timer fires while it catches up. -/

namespace LostTimer

def member (prevoteEnabled : Bool) : Boot :=
  { id := 1, params := { prevoteEnabled }, config := ⟨0, 0, [⟨1, "a"⟩, ⟨2, "b"⟩]⟩ }

def after (b : Boot) (inputs : List Input) : Timed := inputs.foldl Timed.step (.start b)

/-- The timer fires between the invitation and the entries. -/
def slowJoin : List Input :=
  [RetriedJoin.invitation, .electionTimeout] ++ RetriedJoin.catchUp.tail

end LostTimer

open LostTimer in
theorem timer_pending_without_prevote :
    (after (member false) [.electionTimeout, .electionTimeout]).Armed := by
  have hrun := Transition.run_of_passes Timed.step Timed.Fires (.start (member false))
    [.electionTimeout, .electionTimeout] (by decide +kernel)
  exact ((timer_pending_iff_rearms hrun (by decide +kernel)).mpr (by decide +kernel)).2

open LostTimer in
theorem timer_lost :
    (Transition.Passes Timed.step Timed.Fires (.start (member true))
        [.electionTimeout] ∧
      (after (member true) [.electionTimeout]).server.exited = false ∧
      ¬ (after (member true) [.electionTimeout]).Armed) ∧
    (Transition.Passes Timed.step Timed.Fires (.start RetriedJoin.joiner)
        slowJoin ∧
      (after RetriedJoin.joiner slowJoin).server.exited = false ∧
      ¬ (after RetriedJoin.joiner slowJoin).Armed) :=
  ⟨⟨by decide +kernel, by decide +kernel, by decide +kernel⟩,
    ⟨by decide +kernel, by decide +kernel, by decide +kernel⟩⟩

end Ns3Raft.Raft
