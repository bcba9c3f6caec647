import Mathlib.Data.List.Chain
import Ns3Raft.Lib.Chase
import Ns3Raft.Raft.Election
import Ns3Raft.Raft.Stepped

/-! # Forwarding to the leader

A follower passes a client request on to the server its leader pointer names.
The pointer stays as it is when the term moves on, so it can be out of date, but
it was set in a term in which that server led, and after every term in which its
owner led.
-/

namespace Ns3Raft.Raft

/-! ## The pointer in one step -/

/-- The input may set the pointer to another server. -/
def Input.NamesLeader : Input → Prop
  | .req m _ _ => m.type = .appendEntriesRequest ∨ m.type = .joinClusterRequest
  | _ => False

/-- The pointer stays, moves to its owner, or moves on an input that names a leader. -/
def Repoints (inp : Input) (k k' : Kept) : Prop :=
  k'.id = k.id ∧
    ((k'.leader = k.leader ∧ (k'.role = .leader → k.role = .leader)) ∨ k'.leader = k'.id ∨
      (inp.NamesLeader ∧ k'.role ≠ .leader))

theorem Repoints.same {inp : Input} {k k' : Kept} (hid : k'.id = k.id)
    (hleader : k'.leader = k.leader) (hrole : k'.role = k.role) : Repoints inp k k' :=
  ⟨hid, .inl ⟨hleader, fun h => hrole.symm.trans h⟩⟩

theorem Repoints.demoted {inp : Input} {k k' : Kept} (hid : k'.id = k.id)
    (hleader : k'.leader = k.leader) (hrole : k'.role ≠ .leader) : Repoints inp k k' :=
  ⟨hid, .inl ⟨hleader, fun h => absurd h hrole⟩⟩

theorem Repoints.refl {inp : Input} {k : Kept} : Repoints inp k k := .same rfl rfl rfl

open RaftServer in
theorem Move.repoints {inp : Input} {s₀ s s' : RaftServer} (h : Move inp s₀ s s') :
    Repoints inp s.kept s'.kept := by
  cases h with
  | sends h =>
      rw [h.kept]
      exact .refl
  | config => exact .same rfl rfl rfl
  | again _ =>
      rw [emit_kept]
      exact .same rfl rfl rfl
  | restart =>
      obtain ⟨b, hb⟩ := restartElectionTimer_kept s
      rw [hb]
      exact .same rfl rfl rfl
  | grant _ =>
      rw [saveState_kept]
      exact .same rfl rfl rfl
  | @stepDown t _ _ =>
      unfold updateTerm
      rw [if_pos ‹_›]
      obtain ⟨b, hb⟩ := becomeFollower_kept ({ s with
        electionCompleted := false, votesGranted := 0, votedServers := [] }.saveState ⟨t, noServer⟩)
      rw [hb, saveState_kept]
      exact .demoted rfl rfl nofun
  | demote _ =>
      obtain ⟨b, hb⟩ := becomeFollower_kept s
      rw [hb]
      exact .demoted rfl rfl nofun
  | @stand s₁ h =>
      obtain ⟨b, hb⟩ := restartElectionTimer_kept s₁
      rw [hb, h.kept, standing_kept]
      exact .demoted rfl rfl nofun
  | @lead s₁ s₂ s₃ _ h₁ h₂ h₃ _ =>
      have hid : s₂.id = s.id := by
        rcases h₁ with rfl | rfl
        · exact h₂.id
        · exact h₂.id.trans (congrArg Kept.id (standing_kept s))
      have hstop : s₂.stopElectionTimer.id = s.id :=
        (congrArg Kept.id (stopElectionTimer_kept s₂)).trans hid
      have hkept := logInitialConfig_kept s₃
      have hids : s₃.logInitialConfig.id = s₃.id ∧ s₃.logInitialConfig.leader = s₃.leader := by
        refine ⟨(congrArg Kept.id hkept).trans ?_, (congrArg Kept.leader hkept).trans ?_⟩ <;>
          split <;> rfl
      exact ⟨hids.1.trans (h₃.id.trans hstop),
        .inr (.inl (hids.2.trans (h₃.leader.trans (hids.1.trans h₃.id).symm)))⟩
  | @write m _ _ hinp htakes _ hrole _ =>
      obtain ⟨l, b, hkept⟩ := writeEntries_kept s (m.lastLogIdx + 1) m.logEntries
      have hid : (s.writeEntries (m.lastLogIdx + 1) m.logEntries).id = s.id :=
        congrArg Kept.id hkept
      have hfollow : (s.writeEntries (m.lastLogIdx + 1) m.logEntries).role = .follower :=
        (congrArg Kept.role hkept).trans hrole
      exact ⟨hid, .inr (.inr ⟨hinp ▸ .inl htakes.1, fun hl => nomatch hfollow.symm.trans hl⟩)⟩
  | create _ _ _ _ =>
      rw [appendLog_kept]
      exact .same rfl rfl rfl
  | newConfig _ _ =>
      rw [appendLog_kept]
      exact .same rfl rfl rfl
  | giveUp _ _ _ => exact .same rfl rfl rfl
  | pack _ _ _ _ _ _ =>
      rw [emit_kept]
      exact .same rfl rfl rfl
  | @join m _ _ _ _ hinp ht _ _ _ =>
      have hid : (s.invited m).id = s.id := congrArg Kept.id (saveState_kept _ _)
      have hfollow : (s.invited m).role = .follower := congrArg Kept.role (saveState_kept _ _)
      exact ⟨hid, .inr (.inr ⟨hinp ▸ .inr ht, fun hl => nomatch hfollow.symm.trans hl⟩)⟩
  | @reach e _ _ _ _ _ _ h =>
      rw [h.kept, reached_kept]
      exact .same rfl rfl rfl
  | lost _ =>
      rw [exit_kept]
      exact .same rfl rfl rfl
  | complete _ _ _ => exact .same rfl rfl rfl
  | compact _ _ _ _ =>
      rw [emit_kept]
      exact .same rfl rfl rfl
  | receive _ _ _ _ =>
      rw [saveSnapshotData_kept]
      exact .same rfl rfl rfl
  | @install m _ _ r l c c' s₁ s₂ _ _ _ _ _ _ _ _ _ h₁ h₂ =>
      obtain ⟨b, hb⟩ := restartElectionTimer_kept s₂
      have hover := overtaken_kept s r.snapshot l
      have hsaved := saveState_kept s₁ s₁.state
      have hid : (s₁.saveState s₁.state).id = s.id :=
        (congrArg Kept.id hsaved).trans (h₁.id.trans (congrArg Kept.id hover))
      have hleader : (s₁.saveState s₁.state).leader = s.leader :=
        (congrArg Kept.leader hsaved).trans (h₁.leader.trans (congrArg Kept.leader hover))
      have hrole : (s₁.saveState s₁.state).role = s.role :=
        (congrArg Kept.role hsaved).trans (h₁.role.trans (congrArg Kept.role hover))
      rw [hb, h₂.kept]
      exact .same hid hleader hrole
  | halt =>
      rw [exit_kept, stopElectionTimer_kept, emit_kept]
      exact .same rfl rfl rfl
/-- A leader points to itself. -/
def RaftServer.LeadsItself (s : RaftServer) : Prop := s.role = .leader → s.leader = s.id

theorem Moves.repoints {inp : Input} {s₀ s : RaftServer} (h : Moves inp s₀ s₀ s)
    (hs : s₀.LeadsItself) :
    s.id = s₀.id ∧ s.LeadsItself ∧
      (s.leader = s₀.leader ∨ s.leader = s.id ∨ inp.NamesLeader) := by
  induction h with
  | refl => exact ⟨rfl, hs, .inl rfl⟩
  | @tail s s' _ hmove ih =>
      obtain ⟨hid, hleads, hpoint⟩ := ih
      obtain ⟨hid', hmove⟩ : s'.id = s.id ∧ _ := hmove.repoints
      refine ⟨hid'.trans hid, fun hl => ?_, ?_⟩
      · rcases hmove with ⟨hsame, hrole⟩ | hself | ⟨-, hnot⟩
        · exact hsame.trans ((hleads (hrole hl)).trans hid'.symm)
        · exact hself
        · exact absurd hl hnot
      · rcases hmove with ⟨hsame, -⟩ | hself | ⟨hname, -⟩
        · rcases hpoint with hpoint | hpoint | hpoint
          · exact .inl (hsame.trans hpoint)
          · exact .inr (.inl (hsame.trans (hpoint.trans hid'.symm)))
          · exact .inr (.inr hpoint)
        · exact .inr (.inl hself)
        · exact .inr (.inr hname)

namespace RaftServer

variable {s : RaftServer}

theorem handleAppendEntries_leader (m : ReqMsg) (hle : m.term ≤ s.state.term) :
    (s.handleAppendEntries m).1.leader = s.leader ∨
      ((s.handleAppendEntries m).1.leader = m.src ∧
        (s.handleAppendEntries m).1.state.term = m.term) := by
  unfold handleAppendEntries
  split
  · exact .inl (exit_sends s _).leader
  rename_i hno
  obtain ⟨b, r, hkept, -⟩ := hear_kept s (m.term = s.state.term) fun h1 h2 => hno ⟨h1, h2⟩
  dsimp only
  generalize (if m.term = s.state.term then
      if s.role = .candidate then s.becomeFollower else s.restartElectionTimer
    else s) = s₁ at hkept
  have hleader : s₁.leader = s.leader := congrArg Kept.leader hkept
  have hstate : s₁.state = s.state := congrArg Kept.state hkept
  split
  · exact .inl ((exit_sends s₁ _).leader.trans hleader)
  split
  · exact .inl hleader
  rename_i hacc
  split
  · exact .inl ((exit_sends s₁ _).leader.trans hleader)
  · obtain ⟨l, b, hwrite⟩ := writeEntries_kept s₁ (m.lastLogIdx + 1) m.logEntries
    have hwritten : (s₁.writeEntries (m.lastLogIdx + 1) m.logEntries).state = s₁.state :=
      congrArg Kept.state hwrite
    refine .inr ⟨(commit_sends _ _).leader, ?_⟩
    rw [(commit_sends _ _).state]
    show (s₁.writeEntries (m.lastLogIdx + 1) m.logEntries).state.term = m.term
    rw [hwritten]
    rw [hstate] at hacc ⊢
    omega

theorem followTerm_leader (m : ReqMsg) : (s.followTerm m).leader = s.leader := by
  unfold followTerm
  split
  · obtain ⟨b, r, st, hkept⟩ := updateTerm_kept s m.term
    have hleader : (s.updateTerm m.term).1.leader = s.leader := congrArg Kept.leader hkept
    dsimp only
    split
    · exact hleader
    · exact hleader
  · rfl

/-- An append request sets the pointer to its sender only in the sender's term. -/
theorem step_append_leader {m : ReqMsg} (h : RpcHandler) (env : Env)
    (ht : m.type = .appendEntriesRequest) :
    (s.step (.req m h env)).leader = s.leader ∨
      ((s.step (.req m h env)).leader = m.src ∧
        (s.step (.req m h env)).state.term = m.term) := by
  have hle : m.term ≤ (({ s with out := [] } : RaftServer).followTerm m).state.term :=
    followTerm_le (by rw [ht]; rfl)
  have happend := handleAppendEntries_leader m hle
  rw [followTerm_leader] at happend
  have hreply := reply_sends (({ s with out := [] } : RaftServer).processReq m env) h m.type
  unfold step handle
  rw [hreply.leader, hreply.state]
  unfold processReq
  rw [ht]
  exact happend

end RaftServer

/-! ## Who has led -/

/-- The terms in which a server has sent append requests. -/
def asked (hist : Hist) (b : SrvId) : Set Nat :=
  {t | ∃ m h, (b, .send (.req m h)) ∈ hist ∧ m.type = .appendEntriesRequest ∧ m.term = t}

theorem asked_mono {hist hist' : Hist} (h : hist <+: hist') (b : SrvId) :
    asked hist b ⊆ asked hist' b := by
  rintro t ⟨m, h', hmem, hm⟩
  exact ⟨m, h', h.subset hmem, hm⟩

theorem asked_append_of_ne {i j : SrvId} (hj : j ≠ i) (hist : Hist) (os : List Output) :
    asked (hist ++ os.map (i, ·)) j = asked hist j := by
  refine Set.Subset.antisymm ?_ (asked_mono (List.prefix_append _ _) j)
  rintro t ⟨m, h, hmem, hm⟩
  rcases List.mem_append.mp hmem with hmem | hmem
  · exact ⟨m, h, hmem, hm⟩
  · obtain ⟨o, -, heq⟩ := List.mem_map.mp hmem
    exact absurd (Prod.mk.inj heq).1.symm hj

/-- Append requests go out under the sender's name and not above its term. -/
def AskedInTerm (w : World) : Prop :=
  ∀ i m h, (i, .send (.req m h)) ∈ w.hist → m.type = .appendEntriesRequest →
    m.src = i ∧ m.term ≤ (savedState i w.hist).term

section Step

variable {S : List SrvConfig} {i : SrvId} {inp : Input} {n₀ : Core} {w w' : World}

theorem World.Step.hist_grows (h : World.Step i inp n₀ w w') : w.hist <+: w'.hist := by
  cases h <;> exact List.prefix_append _ _

/-- What a server has saved only moves up. -/
theorem Ballots.savedState_le (hb : Ballots w') (h : w.hist <+: w'.hist) (i : SrvId) :
    (savedState i w.hist).term ≤ (savedState i w'.hist).term := by
  unfold savedState
  cases hlast : lastSaved i w.hist with
  | none => exact Nat.zero_le _
  | some st =>
      have hmem : st ∈ (outputsOf i w.hist).filterMap Output.saved? :=
        List.mem_of_getLast? hlast
      obtain ⟨o, ho, hst⟩ := List.mem_filterMap.mp hmem
      have hstance : st ∈ stancesOf i w.hist := by
        refine List.mem_filterMap.mpr ⟨o, ho, ?_⟩
        cases o <;> first | exact hst | cases hst
      exact (hb.last i st (stancesOf_mono i h hstance)).term_le

theorem AskedInTerm.step (hk : InputKind [.clientRequest] inp) (hel : Election S w)
    (hb : Ballots w') (hw : AskedInTerm w) (hs : World.Step i inp n₀ w w') : AskedInTerm w' := by
  have hle := hb.savedState_le hs.hist_grows
  have hold : ∀ j m h, (j, .send (.req m h)) ∈ w.hist → m.type = .appendEntriesRequest →
      m.src = j ∧ m.term ≤ (savedState j w'.hist).term := by
    intro j m h hmem ht
    obtain ⟨hsrc, hterm⟩ := hw j m h hmem ht
    exact ⟨hsrc, hterm.trans (hle j)⟩
  intro j m h hmem ht
  have hgrow := hs.hist_grows
  cases hs with
  | @node n n' o hn hstep =>
      rcases List.mem_append.mp hmem with hmem | hmem
      · exact hold j m h hmem ht
      obtain ⟨o', ho', heq⟩ := List.mem_map.mp hmem
      obtain ⟨rfl, rfl⟩ := Prod.mk.inj heq
      rw [Option.mem_toList] at ho'
      subst ho'
      obtain ⟨-, hterm, hsrc, -⟩ := hstep.leader_request noAdd_client hk (.inl ht)
      refine ⟨hsrc.trans (hel.member i n hn).id, ?_⟩
      rw [hterm, hel.ballots.state i n hn]
      exact hb.savedState_le hgrow i
  | exit _ _ =>
      rcases List.mem_append.mp hmem with hmem | hmem
      · exact hold j m h hmem ht
      · simp at hmem
  | die =>
      rw [World.put_hist, List.map_nil, List.append_nil] at hmem
      exact hold j m h hmem ht

theorem NodeStep.stays_leader {n n' : Core} {o : Option Output} (hs : NodeStep inp n₀ n o n')
    (h₀ : n₀.role ≠ .leader) (hn : n.role = .leader) : n'.role = .leader := by
  cases hs with
  | newTerm heq _ _ => exact absurd (heq ▸ hn) h₀
  | demote _ hcand _ _ => exact nomatch hcand.symm.trans hn
  | stand heq => exact absurd (heq ▸ hn) h₀
  | selfVote heq =>
      rw [heq] at hn
      cases hn
  | join _ _ heq _ _ => exact absurd (heq ▸ hn) h₀
  | win _ _ => rfl
  | bulk hb => cases hb <;> exact hn
  | _ => exact hn

theorem Path.stays_leader {n n' : Core} {os : List Output} (hp : Path inp n₀ n os n')
    (h₀ : n₀.role ≠ .leader) (hn : n.role = .leader) : n'.role = .leader := by
  induction hp with
  | nil => exact hn
  | cons hs _ ih => exact ih (hs.stays_leader h₀ hn)

/-- A server that sends append requests led before its step or leads after it. -/
theorem Path.asked_leads {n n' : Core} {os : List Output} (hk : InputKind [.clientRequest] inp)
    (hp : Path inp n₀ n os n') {m : ReqMsg} {h : RpcHandler} (hmem : .send (.req m h) ∈ os)
    (ht : m.type = .appendEntriesRequest) : n₀.role = .leader ∨ n'.role = .leader := by
  by_cases h₀ : n₀.role = .leader
  · exact .inl h₀
  refine .inr ?_
  induction hp with
  | nil => cases hmem
  | cons hs hrest ih =>
      rcases List.mem_append.mp hmem with hmem | hmem
      · rw [Option.mem_toList] at hmem
        subst hmem
        obtain ⟨hlead, -, -, -, rfl⟩ := hs.leader_request noAdd_client hk (.inl ht)
        exact hrest.stays_leader h₀ (hk.mayLead noAdd_client (by decide) hlead)
      · exact ih hmem

end Step

/-- Where the pointer of a server may be after a step that leaves it alive. -/
theorem RaftServer.step_pointer {inp : Input} {s : RaftServer}
    (hk : InputKind [.clientRequest] inp) (hlive : s.exited = false) (hs : s.LeadsItself)
    (hlive' : (s.step inp).exited = false) :
    (s.step inp).id = s.id ∧ (s.step inp).LeadsItself ∧
      ((s.step inp).leader = s.id ∨
        ((s.step inp).leader = s.leader ∧
          ∀ m h, .send (.req m h) ∈ (s.step inp).out → m.type ≠ .appendEntriesRequest) ∨
        ∃ m h env, inp = .req m h env ∧ m.type = .appendEntriesRequest ∧
          (s.step inp).leader = m.src ∧ (s.step inp).state.term = m.term) := by
  obtain ⟨hid, hleads, hpoint⟩ := (s.step_moves inp).repoints hs
  refine ⟨hid, hleads, ?_⟩
  have hstays : (s.step inp).leader = s.leader → (s.step inp).leader = s.id ∨
      ((s.step inp).leader = s.leader ∧
        ∀ m h, .send (.req m h) ∈ (s.step inp).out → m.type ≠ .appendEntriesRequest) := by
    intro hsame
    by_cases hsent : ∃ m h, .send (.req m h) ∈ (s.step inp).out ∧ m.type = .appendEntriesRequest
    · obtain ⟨m, h, hmem, ht⟩ := hsent
      refine .inl ?_
      cases RaftServer.handle_traces { s with out := [] } inp with
      | frozen hx _ _ => exact nomatch hlive.symm.trans hx
      | died _ hx _ _ _ => exact nomatch hlive'.symm.trans hx
      | @live os _ _ hpath hout =>
          have hos : .send (.req m h) ∈ os := by
            have hmem' : .send (.req m h) ∈ [] ++ os := hout ▸ hmem
            simpa using hmem'
          rcases hpath.asked_leads hk hos ht with hl | hl
          · exact hsame.trans (hs hl)
          · exact (hleads hl).trans hid
    · exact .inr ⟨hsame, fun m h hmem ht => hsent ⟨m, h, hmem, ht⟩⟩
  rcases hpoint with hpoint | hpoint | hname
  · exact (hstays hpoint).imp_right .inl
  · exact .inl (hpoint.trans hid)
  · cases inp with
    | req m h env =>
        rcases hname with ht | ht
        · rcases s.step_append_leader h env ht with hsame | hset
          · exact (hstays hsame).imp_right .inl
          · exact .inr (.inr ⟨m, h, env, rfl, ht, hset⟩)
        · exact absurd ht (InputKind.not_join noAdd_client hk)
    | _ => exact hname.elim

/-! ## The pointers of a cluster -/

/-- Where the servers that are up point to. -/
structure Pointers (c : Cluster) : Prop where
  live : ∀ i s, c.srv i = some s → s.exited = false
  leads : ∀ i s, c.srv i = some s → s.LeadsItself
  above : ∀ i s, c.srv i = some s →
    s.leader = noServer ∨ s.leader = i ∨ Chase.Above (asked c.hist) i s.leader

section Cluster

variable {S : List SrvConfig} {c : Cluster} {i : SrvId} {inp : Input}

/-- A pointer stays above the requests of its owner while the owner sends none. -/
theorem above_mono {hist hist' : Hist} (h : hist <+: hist') {i b : SrvId}
    (hsame : asked hist' i ⊆ asked hist i) (ha : Chase.Above (asked hist) i b) :
    Chase.Above (asked hist') i b := by
  obtain ⟨t, ht, hall⟩ := ha
  exact ⟨t, asked_mono h b ht, fun t' ht' => hall t' (hsame ht')⟩

/-- An append request that sets the pointer is of a term in which the server
itself has not led. -/
theorem above_of_append {s' : RaftServer} {m : ReqMsg} {h : RpcHandler} {env : Env}
    (hno : noServer ∉ memberIds S) {w' : World} (hw' : FixedInv S w') (hask' : AskedInTerm w')
    (hgrow : c.hist <+: w'.hist) (hnode : w'.node i = some s'.core)
    (hocc : CanOccur [.clientRequest] c.hist i (.req m h env))
    (ht : m.type = .appendEntriesRequest) (hterm : s'.state.term = m.term) :
    Chase.Above (asked w'.hist) i m.src := by
  rcases hocc with ⟨hsent, hdst⟩ | ⟨hmem, -⟩
  · obtain ⟨⟨j, o⟩, hx, ho⟩ := List.mem_map.mp hsent
    obtain rfl : o = .send (.req m h) := ho
    have hx' := hgrow.subset hx
    obtain ⟨hsrc, -⟩ := hask' j m h hx' ht
    obtain ⟨hmember, hne, hwon⟩ := hw'.election.requests j m h hx' (.inl ht)
    refine ⟨m.term, ⟨m, h, hsrc ▸ hx', ht, rfl⟩, ?_⟩
    rintro t ⟨m', h', hy, ht', rfl⟩
    obtain ⟨hsrc', hle⟩ := hask' i m' h' hy ht'
    rw [← hw'.election.ballots.state i _ hnode] at hle
    have hle : m'.term ≤ m.term := hle.trans hterm.le
    refine Nat.lt_of_le_of_ne hle fun heq => ?_
    obtain ⟨hmember', -, hwon'⟩ := hw'.election.requests i m' h' hy (.inl ht')
    rw [heq] at hwon'
    have hsame := hw'.election.ballots.one_winner hno hmember hmember' hwon hwon'
    exact hne (hsame.trans (hsrc'.trans hdst.symm))
  · rw [ht] at hmem
    simp at hmem

theorem Pointers.act (hno : noServer ∉ memberIds S) (hc : FixedInv S c.world)
    (hc' : FixedInv S (c.act i inp).world) (hask' : AskedInTerm (c.act i inp).world)
    (hocc : CanOccur [.clientRequest] c.hist i inp) (hp : Pointers c) :
    Pointers (c.act i inp) := by
  cases hs : c.srv i with
  | none => simpa [Cluster.act, hs] using hp
  | some s =>
      have hk : InputKind [.clientRequest] inp := .of_canOccur hc.kinds hocc
      have hhist : (c.act i inp).hist = c.hist ++ (s.step inp).out.map (i, ·) := by
        simp [Cluster.act, hs, Cluster.record, Cluster.setSrv]
      have hgrow : c.hist <+: (c.act i inp).hist := hhist ▸ List.prefix_append _ _
      have hother : ∀ j, j ≠ i → (c.act i inp).srv j = c.srv j := by
        intro j hj
        simp [Cluster.act, hs, Cluster.record, Cluster.setSrv, hj]
      have hself : ∀ s', (c.act i inp).srv i = some s' →
          s' = s.step inp ∧ (s.step inp).exited = false := by
        intro s' hs'
        simp only [Cluster.act, hs, Cluster.record, Cluster.setSrv, ↓reduceIte] at hs'
        split at hs'
        · cases hs'
        · rename_i hx
          exact ⟨(Option.some.inj hs').symm, by simpa using hx⟩
      have hid : s.id = i := (hc.election.member i s.core (by simp [Cluster.world, hs])).id
      refine ⟨fun j t hj => ?_, fun j t hj => ?_, fun j t hj => ?_⟩
      · by_cases hji : j = i
        · subst hji
          obtain ⟨rfl, hx⟩ := hself t hj
          exact hx
        · exact hp.live j t (hother j hji ▸ hj)
      · by_cases hji : j = i
        · subst hji
          obtain ⟨rfl, hx⟩ := hself t hj
          exact (s.step_pointer hk (hp.live j s hs) (hp.leads j s hs) hx).2.1
        · exact hp.leads j t (hother j hji ▸ hj)
      · by_cases hji : j = i
        · subst hji
          obtain ⟨rfl, hx⟩ := hself t hj
          have hnode : (c.act j inp).world.node j = some (s.step inp).core := by
            simp [Cluster.world, hj]
          obtain ⟨-, -, hpoint⟩ := s.step_pointer hk (hp.live j s hs) (hp.leads j s hs) hx
          rcases hpoint with hpoint | ⟨hsame, hsilent⟩ | ⟨m, h, env, rfl, ht, hsrc, hterm⟩
          · exact .inr (.inl (hpoint.trans hid))
          · rw [hsame]
            refine (hp.above j s hs).imp_right (Or.imp_right (above_mono hgrow ?_))
            rintro x ⟨m, h, hmem, ht, rfl⟩
            rw [hhist] at hmem
            rcases List.mem_append.mp hmem with hmem | hmem
            · exact ⟨m, h, hmem, ht, rfl⟩
            · obtain ⟨o, ho, heq⟩ := List.mem_map.mp hmem
              obtain rfl : o = .send (.req m h) := (Prod.mk.inj heq).2
              exact absurd ht (hsilent m h ho)
          · rw [hsrc]
            exact .inr (.inr (above_of_append hno hc' hask' hgrow hnode hocc ht hterm))
        · refine (hp.above j t (hother j hji ▸ hj)).imp_right (Or.imp_right (above_mono hgrow ?_))
          rw [hhist, asked_append_of_ne hji]

theorem Pointers.crash {k : Nat} (hp : Pointers c) : Pointers (c.crash i inp k) := by
  cases hs : c.srv i with
  | none => simpa [Cluster.crash, hs] using hp
  | some s =>
      have hhist : (c.crash i inp k).hist = c.hist ++ ((s.step inp).out.take k).map (i, ·) := by
        simp [Cluster.crash, hs, Cluster.record, Cluster.setSrv]
      have hup : ∀ j t, (c.crash i inp k).srv j = some t → j ≠ i ∧ c.srv j = some t := by
        intro j t hj
        simp only [Cluster.crash, hs, Cluster.record, Cluster.setSrv] at hj
        split at hj
        · cases hj
        · exact ⟨‹_›, hj⟩
      refine ⟨fun j t hj => hp.live j t (hup j t hj).2, fun j t hj => hp.leads j t (hup j t hj).2,
        fun j t hj => ?_⟩
      refine (hp.above j t (hup j t hj).2).imp_right (Or.imp_right (above_mono ?_ ?_))
      · exact hhist ▸ List.prefix_append _ _
      · rw [hhist, asked_append_of_ne (hup j t hj).1]

theorem Pointers.restart {b : Boot} (hp : Pointers c) :
    Pointers (c.setSrv b.id (some (RaftServer.start b))) := by
  have hup : ∀ j t, (c.setSrv b.id (some (RaftServer.start b))).srv j = some t →
      t = RaftServer.start b ∨ c.srv j = some t := by
    intro j t hj
    simp only [Cluster.setSrv] at hj
    split at hj
    · exact .inl (Option.some.inj hj).symm
    · exact .inr hj
  refine ⟨fun j t hj => ?_, fun j t hj => ?_, fun j t hj => ?_⟩
  · rcases hup j t hj with rfl | hj
    · rfl
    · exact hp.live j t hj
  · rcases hup j t hj with rfl | hj
    · intro hleads
      cases hleads
    · exact hp.leads j t hj
  · rcases hup j t hj with rfl | hj
    · exact .inl rfl
    · exact hp.above j t hj

end Cluster

/-! ## What a server passes on -/

/-- A client request that a server passes on. -/
def Output.forwarded? : Output → Option ReqMsg
  | .send (.req m .client) => some m
  | _ => none

namespace RaftServer

variable {s s' : RaftServer}

/-- Nothing is passed on from `s` to `s'`. -/
abbrev PassesNothing : RaftServer → RaftServer → Prop := Outputs fun o => o.forwarded? = none

theorem requestAppendEntriesTo_passesNothing (s : RaftServer) (id : SrvId) :
    PassesNothing s (s.requestAppendEntriesTo id).1 := by
  unfold requestAppendEntriesTo
  split
  · exact .soft rfl rfl
  split
  · exact .soft rfl rfl
  split
  · exact .exit s rfl
  · rename_i req p' _
    have hset : PassesNothing s (s.updatePeer id (Peer.sent p')) := .soft rfl rfl
    exact hset.trans (.emit _ rfl)

theorem requestAppendEntries_passesNothing (s : RaftServer) :
    PassesNothing s s.requestAppendEntries := by
  have hnotify : ∀ (s : RaftServer) id, PassesNothing s (s.notifyCommit id) := by
    intro s id
    unfold notifyCommit
    dsimp only
    split
    · exact requestAppendEntriesTo_passesNothing s id
    · exact (requestAppendEntriesTo_passesNothing s id).trans (.soft rfl rfl)
  unfold requestAppendEntries
  split
  · unfold commit
    split
    · dsimp only
      have hset : PassesNothing s { s with quickCommitIdx := s.logStore.lastIndex } := .soft rfl rfl
      split
      · exact hset.trans (Outputs.foldl hnotify _ _)
      · exact hset
    · exact .soft rfl rfl
  · exact Outputs.foldl requestAppendEntriesTo_passesNothing _ _

theorem appendClientEntries_passesNothing (es : List LogEntry) (s : RaftServer) :
    PassesNothing s (es.foldl appendClientEntry s) := by
  induction es generalizing s with
  | nil => exact .soft rfl rfl
  | cons e es ih =>
      have happend : PassesNothing s (s.appendLog { e with term := s.state.term }) :=
        appendLog_outputs s rfl
      have hone : PassesNothing s (s.appendClientEntry e) := happend.trans (.emit _ rfl)
      exact hone.trans (ih _)

/-- A client request is passed on only to the server the pointer names. -/
theorem handleCliReq_forwarded {m m' : ReqMsg} {leaseOk : Bool} (hout : s.out = [])
    (h : .send (.req m' .client) ∈ (s.handleCliReq m leaseOk).1.out) :
    s.role ≠ .leader ∧ s.leader ≠ s.id ∧ s.leader ≠ noServer ∧ m'.dst = s.leader ∧
      m'.type = m.type := by
  have hnone : ∀ {s' : RaftServer}, PassesNothing s s' → .send (.req m' .client) ∉ s'.out := by
    intro s' hp hmem
    obtain ⟨os, hos, hall, -⟩ := hp.out
    rw [hos, hout, List.nil_append] at hmem
    exact nomatch hall _ hmem
  unfold handleCliReq at h
  dsimp only at h
  split at h
  · exact absurd h (hnone ((appendClientEntries_passesNothing _ s).trans
      (requestAppendEntries_passesNothing _)))
  split at h
  · rw [hout] at h
    cases h
  · rename_i hno
    rw [not_or] at hno
    have hsent : ∀ t : RaftServer, t.out = [] →
        .send (.req m' .client) ∈
          (t.send (.req { m with src := s.id, dst := s.leader } .client)).out →
        m' = { m with src := s.id, dst := s.leader } := by
      intro t ht hmem
      unfold send emit at hmem
      split at hmem
      · rw [ht] at hmem
        cases hmem
      · rw [ht] at hmem
        simpa using hmem
    unfold forwardToLeader at h
    split at h
    · rw [hout] at h
      cases h
    rename_i hleader
    split at h
    · obtain rfl := hsent s hout h
      exact ⟨hno.1, Ne.symm hno.2, hleader, rfl, rfl⟩
    split at h
    · obtain rfl := hsent { s with rpcClients := s.rpcClients ++ [s.leader] } hout h
      exact ⟨hno.1, Ne.symm hno.2, hleader, rfl, rfl⟩
    · rw [hout] at h
      cases h

/-- The response to a client request, sent or not, is there. -/
theorem handleCliReq_answers (m : ReqMsg) (leaseOk : Bool) :
    (s.handleCliReq m leaseOk).2.isSome := by
  unfold handleCliReq
  dsimp only
  split
  · rfl
  split <;> rfl

end RaftServer

/-! ## Runs -/

structure Forwarding (S : List SrvConfig) (c : Cluster) : Prop where
  fixed : FixedInv S c.world
  inTerm : AskedInTerm c.world
  pointers : Pointers c

theorem forwarding_of_reachable {S : List SrvConfig} {c : Cluster} (hS : (S.map (·.id)).Nodup)
    (hno : noServer ∉ memberIds S)
    (h : Transition.Reachable Cluster.step (FixedStep S) .down c) : Forwarding S c := by
  have hrem : MsgType.removeServerRequest ∉ [MsgType.clientRequest] := by decide
  refine h.invariant (P := Forwarding S) ?_ fun c ev hc hok => ?_
  · refine ⟨fixedInv_of_reachable hS hno .refl, ?_, ?_, ?_, ?_⟩
    · simp [AskedInTerm, Cluster.world, Cluster.down]
    all_goals simp [Cluster.down]
  · have hworld : ∀ {i inp s w₁ w₂}, CanOccur [.clientRequest] c.hist i inp ∧
        Ordinary S c.hist inp → c.srv i = some s → c.hist <+: w₁.hist →
        FixedInv S w₁ ∧ AskedInTerm w₁ → World.Step i inp s.core w₁ w₂ →
        FixedInv S w₂ ∧ AskedInTerm w₂ := by
      intro i inp s w₁ w₂ hok hs hgrow hw hstep
      have hfixed := hc.fixed.step hno hs hok hgrow hw.1 hstep
      exact ⟨hfixed, hw.2.step (.of_canOccur hc.fixed.kinds hok.1) hw.1.election
        hfixed.election.ballots hstep⟩
    cases ev with
    | act i inp =>
        obtain ⟨hfixed, hasked⟩ := Cluster.act_invariant ⟨hc.fixed, hc.inTerm⟩
          fun s w₁ w₂ hs hgrow hw => hworld hok hs hgrow hw
        exact ⟨hfixed, hasked, hc.pointers.act hno hc.fixed hfixed hasked hok.1⟩
    | crash i inp k =>
        obtain ⟨hfixed, hasked⟩ := Cluster.crash_invariant (k := k) ⟨hc.fixed, hc.inTerm⟩
          fun s w₁ w₂ hs hgrow hw => hworld hok hs hgrow hw
        exact ⟨hfixed, hasked, hc.pointers.crash⟩
    | restart b =>
        simp only [Cluster.step, Cluster.restart]
        split
        · exact ⟨hc.fixed.restart hS hok, hc.inTerm, hc.pointers.restart⟩
        · exact hc

namespace Cluster

/-- `a` is not the leader and points to another server. -/
def Forwards (c : Cluster) (a b : SrvId) : Prop :=
  ∃ s, c.srv a = some s ∧ s.leader = b ∧ s.role ≠ .leader ∧ b ≠ a

instance (c : Cluster) (a b : SrvId) : Decidable (c.Forwards a b) :=
  decidable_of_iff (∃ s ∈ c.srv a, s.leader = b ∧ s.role ≠ .leader ∧ b ≠ a) Iff.rfl

/-- Server `x.1`, as it is in `c`, passes the client request `x.2` on as `y.2` to `y.1`. -/
def Hop (c : Cluster) (lease : SrvId → Bool) (x y : SrvId × ReqMsg) : Prop :=
  ∃ s, c.srv x.1 = some s ∧ y.2.dst = y.1 ∧
    .send (.req y.2 .client) ∈ ({ s with out := [] }.handleCliReq x.2 (lease x.1)).1.out

/-- Server `x.1` answers the client request `x.2` and passes nothing on. -/
def Answers (c : Cluster) (lease : SrvId → Bool) (x : SrvId × ReqMsg) : Prop :=
  ∃ s, c.srv x.1 = some s ∧ ({ s with out := [] }.handleCliReq x.2 (lease x.1)).2.isSome ∧
    ∀ m, .send (.req m .client) ∉ ({ s with out := [] }.handleCliReq x.2 (lease x.1)).1.out

end Cluster

variable {S : List SrvConfig} {c : Cluster}

theorem Forwarding.mem_of_up (hf : Forwarding S c) {a : SrvId} {s : RaftServer}
    (hs : c.srv a = some s) : a ∈ memberIds S :=
  mem_memberIds.mpr (hf.fixed.election.member a s.core (by simp [Cluster.world, hs])).mem

/-- Marks rise along the pointers. -/
theorem Forwarding.above_of_transGen (hf : Forwarding S c) (hno : noServer ∉ memberIds S)
    {a b : SrvId} (h : Relation.TransGen c.Forwards a b) :
    b = noServer ∨ Chase.Above (asked c.hist) a b := by
  have hone : ∀ {a b}, c.Forwards a b → b = noServer ∨ Chase.Above (asked c.hist) a b := by
    rintro a b ⟨s, hs, rfl, -, hne⟩
    exact (hf.pointers.above a s hs).imp_right fun h => h.resolve_left hne
  induction h with
  | single h => exact hone h
  | tail _ h ih =>
      obtain ⟨s, hs, -, -, -⟩ := id h
      have hup : _ ≠ noServer := fun heq => hno (heq ▸ hf.mem_of_up hs)
      exact (hone h).imp_right fun habove => (ih.resolve_left hup).trans habove

theorem Forwarding.acyclic (hf : Forwarding S c) (hno : noServer ∉ memberIds S) (a : SrvId) :
    ¬ Relation.TransGen c.Forwards a a := by
  intro h
  obtain ⟨b, ⟨s, hs, -⟩, -⟩ := Relation.TransGen.head'_iff.mp h
  have hup : a ≠ noServer := fun heq => hno (heq ▸ hf.mem_of_up hs)
  exact Chase.not_above_self ((hf.above_of_transGen hno h).resolve_left hup)

/-- A server that is pointed to is a member. -/
theorem Forwarding.mem_of_forwards (hf : Forwarding S c) {a b : SrvId} (h : c.Forwards a b)
    (hb : b ≠ noServer) : b ∈ memberIds S := by
  obtain ⟨s, hs, rfl, -, hne⟩ := h
  obtain ⟨t, ⟨m, h, hmem, ht, -⟩, -⟩ :=
    ((hf.pointers.above a s hs).resolve_left hb).resolve_left hne
  obtain ⟨hsrc, -⟩ := hf.inTerm _ m h hmem ht
  exact hsrc ▸ (hf.fixed.election.requests _ m h hmem (.inl ht)).1

theorem Forwarding.forwards_of_hop (hf : Forwarding S c) {lease : SrvId → Bool}
    {x y : SrvId × ReqMsg} (h : c.Hop lease x y) : c.Forwards x.1 y.1 ∧ y.1 ∈ memberIds S := by
  obtain ⟨s, hs, hdst, hmem⟩ := h
  obtain ⟨hrole, hself, hnone, hto, -⟩ := RaftServer.handleCliReq_forwarded rfl hmem
  have hid : s.id = x.1 :=
    (hf.fixed.election.member x.1 s.core (by simp [Cluster.world, hs])).id
  have hpoint : s.leader = y.1 := hto.symm.trans hdst
  have hforward : c.Forwards x.1 y.1 :=
    ⟨s, hs, hpoint, hrole, fun heq => hself (hpoint.trans (heq.trans hid.symm))⟩
  exact ⟨hforward, hf.mem_of_forwards hforward fun heq => hnone (hpoint.trans heq)⟩

/-- The leader pointers have no cycle, and a client request that is passed on
along them, while nothing else happens, is passed on at most as often as there
are servers; the server it ends at, if it is up, answers it itself. -/
theorem forwarding_terminates (hS : (S.map (·.id)).Nodup) (hno : noServer ∉ memberIds S)
    (h : Transition.Reachable Cluster.step (FixedStep S) .down c) :
    (∀ a, ¬ Relation.TransGen c.Forwards a a) ∧
      ∀ (lease : SrvId → Bool) (x : SrvId × ReqMsg),
        (∀ route, (x :: route).IsChain (c.Hop lease) → route.length ≤ S.length) ∧
        ∃ route, (x :: route).IsChain (c.Hop lease) ∧
          (c.srv ((x :: route).getLast (List.cons_ne_nil x route)).1 = none ∨
            c.Answers lease ((x :: route).getLast (List.cons_ne_nil x route))) := by
  have hf := forwarding_of_reachable hS hno h
  refine ⟨hf.acyclic hno, fun lease x => ?_⟩
  have hlen : ∀ route, (x :: route).IsChain (c.Hop lease) → route.length ≤ S.length := by
    intro route hroute
    have hmember : (memberIds S).card ≤ S.length :=
      (List.toFinset_card_le _).trans_eq (List.length_map _)
    have hpoints : ((x :: route).map Prod.fst).IsChain
        fun a b => c.Forwards a b ∧ b ∈ memberIds S :=
      (List.isChain_map _).mpr (hroute.imp fun _ _ hop => hf.forwards_of_hop hop)
    have hacyclic : ∀ a, ¬ Relation.TransGen (fun a b => c.Forwards a b ∧ b ∈ memberIds S) a a :=
      fun a ha => hf.acyclic hno a (ha.lift id fun _ _ h => h.1)
    have hlen := Chase.length_le_card hacyclic (fun _ _ h => h.2) hpoints
    rw [List.length_map] at hlen
    exact hlen.trans hmember
  refine ⟨hlen, ?_⟩
  obtain ⟨route, hroute, hend⟩ := Chase.exists_end hlen
  refine ⟨route, hroute, ?_⟩
  generalize (x :: route).getLast (List.cons_ne_nil x route) = y at hend
  cases hs : c.srv y.1 with
  | none => exact .inl rfl
  | some s =>
      refine .inr ⟨s, hs, RaftServer.handleCliReq_answers y.2 _, fun m hm => ?_⟩
      exact hend (m.dst, m) ⟨s, hs, rfl, hm⟩

namespace ThreeServers

/-- Server 1 leads term 1 and is heard by both others. Server 2 wins term 2 and is
heard by server 1 only, so server 3 still points to it. -/
def staleSchedule : List (Cluster → Event) :=
  [fun _ => .restart (boot 1), fun _ => .restart (boot 2), fun _ => .restart (boot 3), timeout 1,
   deliver 0, deliver 2, deliver 4, deliver 3, timeout 2, deliver 7, deliver 9, deliver 10]

def staleCluster : Cluster := Transition.follow Cluster.step .down staleSchedule

end ThreeServers

open ThreeServers in
theorem forwarding_terminates_three :
    (staleCluster.Forwards 3 1 ∧ staleCluster.Forwards 1 2) ∧
      (∀ a, ¬ Relation.TransGen staleCluster.Forwards a a) ∧
      ∀ (lease : SrvId → Bool) (x : SrvId × ReqMsg),
        (∀ route, (x :: route).IsChain (staleCluster.Hop lease) → route.length ≤ servers.length) ∧
        ∃ route, (x :: route).IsChain (staleCluster.Hop lease) ∧
          (staleCluster.srv ((x :: route).getLast (List.cons_ne_nil x route)).1 = none ∨
            staleCluster.Answers lease ((x :: route).getLast (List.cons_ne_nil x route))) :=
  ⟨by decide +kernel, forwarding_terminates (S := servers) (by decide) (by decide)
    (Transition.reachable_of_follows (by decide +kernel))⟩

end Ns3Raft.Raft
