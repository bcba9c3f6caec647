import Ns3Raft.Raft.Paths.Step

/-! # Terms and votes of one server

The saved state only moves forward: to a later term, or within a term from no
vote to a vote. Accepting an invitation to join is the one step that sets both
without a look at the present ones.
-/

namespace Ns3Raft.Raft

/-- A later term, or the same term with the vote kept once it is cast. -/
def SrvState.Precedes (a b : SrvState) : Prop :=
  a.term < b.term ∨ (a.term = b.term ∧ (a.votedFor = noServer ∨ a.votedFor = b.votedFor))

instance (a b : SrvState) : Decidable (a.Precedes b) := inferInstanceAs (Decidable (_ ∨ _))

namespace SrvState.Precedes

theorem refl (a : SrvState) : a.Precedes a := .inr ⟨rfl, .inr rfl⟩

theorem trans {a b c : SrvState} (h : a.Precedes b) (h' : b.Precedes c) : a.Precedes c := by
  rcases h with h | ⟨h1, h2⟩
  · rcases h' with g | ⟨g, -⟩
    · exact .inl (h.trans g)
    · exact .inl (g ▸ h)
  · rcases h' with g | ⟨g1, g2⟩
    · exact .inl (h1 ▸ g)
    · refine .inr ⟨h1.trans g1, ?_⟩
      rcases h2 with h2 | h2
      · exact .inl h2
      · rwa [h2]

theorem term_le {a b : SrvState} (h : a.Precedes b) : a.term ≤ b.term := by
  rcases h with h | ⟨h, -⟩
  · exact h.le
  · exact h.le

theorem eq_of_term {a b : SrvState} (h : a.Precedes b) (ht : a.term = b.term)
    (hv : a.votedFor ≠ noServer) : a.votedFor = b.votedFor := by
  rcases h with h | ⟨-, h | h⟩
  · omega
  · exact absurd h hv
  · exact h

end SrvState.Precedes

/-- What an output says about term and vote: a saved state, or an accepted vote. -/
def Output.stance : Output → Option SrvState
  | .saveState st => some st
  | .send (.resp r _ _) =>
      if r.type = .voteResponse ∧ r.accepted = true then some ⟨r.term, r.dst⟩ else none
  | _ => none

def stances (os : List Output) : List SrvState := os.filterMap Output.stance

def ReqMsg.conf? (m : ReqMsg) : Option ClusterConfig :=
  match m.payload with
  | .entries [⟨_, .conf c⟩] => some c
  | _ => none

theorem ReqMsg.conf?_eq_some_iff (m : ReqMsg) (c : ClusterConfig) :
    m.conf? = some c ↔ ∃ t, m.payload = .entries [⟨t, .conf c⟩] := by
  unfold conf?
  split
  · rename_i hp
    simp [hp]
  · rename_i hp
    simp only [reduceCtorEq, false_iff, not_exists]
    exact fun t => hp t c

/-- The server would accept this request to join. -/
def RaftServer.AcceptsJoin (s : RaftServer) (m : ReqMsg) : Prop :=
  m.type = .joinClusterRequest ∧ s.catchingUp = false ∧ m.conf?.isSome

instance (s : RaftServer) (m : ReqMsg) : Decidable (s.AcceptsJoin m) :=
  inferInstanceAs (Decidable (_ ∧ _))

/-- A join that is accepted moves the saved state forward. -/
def JoinForward (s : RaftServer) : Input → Prop
  | .req m _ _ => s.AcceptsJoin m → s.state.Precedes ⟨m.term, noServer⟩
  | _ => True

instance (s : RaftServer) : DecidablePred (JoinForward s)
  | .req .. => inferInstanceAs (Decidable (_ → _))
  | .electionTimeout | .hbTimeout _ | .commitInBg | .resp .. | .rpcError .. | .retry _
  | .snapshotCompleted _ | .replicateLog .. => inferInstanceAs (Decidable True)

/-! ## One step -/

theorem NodeStep.join_or_precedes {inp : Input} {n₀ n n' : Core} {o : Option Output}
    (h : NodeStep inp n₀ n o n') :
    (n.state.Precedes n'.state ∧
      ∀ st ∈ o.bind Output.stance, n.state.Precedes st ∧ st.Precedes n'.state) ∨
    ∃ m h env e c, inp = .req m h env ∧ m.type = .joinClusterRequest ∧ n₀.catchingUp = false ∧
      m.payload = .entries [e] ∧ e.val = .conf c ∧ n = n₀ ∧ n'.state = ⟨m.term, noServer⟩ ∧
      o = some (.saveState ⟨m.term, noServer⟩) := by
  have hsame : ∀ {st : SrvState}, st = n.state → n.state.Precedes st ∧ st.Precedes n.state := by
    rintro st rfl
    exact ⟨.refl _, .refl _⟩
  have hsave : ∀ {st st' : SrvState}, n.state.Precedes st → st' = st →
      ∀ x ∈ (some (Output.saveState st)).bind Output.stance,
        n.state.Precedes x ∧ x.Precedes st' := by
    rintro st st' hst rfl x hx
    simp only [Output.stance, Option.bind_some, Option.mem_some_iff] at hx
    exact ⟨hx ▸ hst, hx ▸ .refl _⟩
  cases h with
  | quiet h =>
      refine .inl ⟨.refl _, fun st hst => ?_⟩
      rename_i o
      cases o with
      | send p =>
          cases p with
          | req m h' => simp [Output.stance] at hst
          | resp r h' reqType =>
              simp only [Output.stance, Option.bind_some, Option.mem_def] at hst
              split at hst
              · rename_i hr
                exact absurd hr.1 (h.2 hr.2).1
              · cases hst
      | saveState st => exact h.elim
      | _ => simp [Output.stance] at hst
  | newTerm _ ht _ => exact .inl ⟨.inl ht, hsave (.inl ht) rfl⟩
  | stand _ => exact .inl ⟨.inl (Nat.lt_succ_self _), hsave (.inl (Nat.lt_succ_self _)) rfl⟩
  | selfVote hn =>
      have hv : n.state.votedFor = noServer := by rw [hn]
      exact .inl ⟨.inr ⟨rfl, .inl hv⟩, hsave (.inr ⟨rfl, .inl hv⟩) rfl⟩
  | @grant m _ _ _ _ _ hv _ =>
      have hp : n.state.Precedes ⟨n.state.term, m.src⟩ := .inr ⟨rfl, hv.symm⟩
      exact .inl ⟨hp, hsave hp rfl⟩
  | sendVote _ _ hst _ =>
      refine .inl ⟨.refl _, fun st h => hsame ?_⟩
      simp only [Output.stance, Option.bind_some, Option.mem_def] at h
      split at h
      · cases h
        exact hst.symm
      · cases h
  | sendAck _ _ htype _ _ _ _ _ =>
      refine .inl ⟨.refl _, fun st h => ?_⟩
      simp [Output.stance, htype] at h
  | write _ _ _ _ _ ho =>
      refine .inl ⟨.refl _, fun st h => ?_⟩
      rcases ho with rfl | rfl
      · simp [Output.stance] at h
      · simp [Output.stance] at h
  | join h1 h2 h3 h4 h5 =>
      obtain ⟨e, c, h5, h6⟩ := h5
      exact .inr ⟨_, _, _, e, c, h1, h2, h3 ▸ h4, h5, h6, h3, rfl, rfl⟩
  | bulk h =>
      refine .inl ?_
      cases h with
      | snapSave _ _ => exact ⟨.refl _, hsave (.refl _) rfl⟩
      | _ => exact ⟨.refl _, by simp [Output.stance]⟩
  | _ => exact .inl ⟨.refl _, by simp [Output.stance]⟩

theorem NodeStep.precedes {inp : Input} {s : RaftServer} {n n' : Core} {o : Option Output}
    (h : NodeStep inp s.core n o n') (hj : JoinForward s inp) :
    n.state.Precedes n'.state ∧
      ∀ st ∈ o.bind Output.stance, n.state.Precedes st ∧ st.Precedes n'.state := by
  rcases h.join_or_precedes with h | ⟨m, h', env, e, c, h1, h2, h3, h4, h5, h6, h7, rfl⟩
  · exact h
  · have hp : n.state.Precedes ⟨m.term, noServer⟩ := by
      rw [h6]
      subst h1
      refine hj ⟨h2, h3, Option.isSome_iff_exists.mpr ⟨c, ?_⟩⟩
      rw [ReqMsg.conf?_eq_some_iff, h4, ← h5]
      exact ⟨e.term, rfl⟩
    rw [h7]
    refine ⟨hp, fun st hst => ?_⟩
    simp only [Output.stance, Option.bind_some, Option.mem_some_iff] at hst
    exact hst ▸ ⟨hp, .refl _⟩

theorem Path.precedes {inp : Input} {s : RaftServer} {n n' : Core} {os : List Output}
    (h : Path inp s.core n os n') (hj : JoinForward s inp) :
    n.state.Precedes n'.state ∧ (stances os).Pairwise SrvState.Precedes ∧
      ∀ st ∈ stances os, n.state.Precedes st ∧ st.Precedes n'.state := by
  induction h with
  | nil => exact ⟨.refl _, by simp [stances], by simp [stances]⟩
  | @cons a b c o os hs _ ih =>
      obtain ⟨h1, h2⟩ := hs.precedes hj
      obtain ⟨g1, g2, g3⟩ := ih
      have hhead : stances (o.toList ++ os) = (o.bind Output.stance).toList ++ stances os := by
        cases o with
        | none => rfl
        | some o => cases ho : o.stance <;> simp [stances, ho]
      rw [hhead]
      refine ⟨h1.trans g1, ?_, ?_⟩
      · rw [List.pairwise_append]
        refine ⟨?_, g2, ?_⟩
        · cases o.bind Output.stance <;> simp
        · intro x hx y hy
          rw [Option.mem_toList] at hx
          exact (h2 x hx).2.trans (g3 y hy).1
      · intro st hst
        rw [List.mem_append, Option.mem_toList] at hst
        rcases hst with hst | hst
        · exact ⟨(h2 st hst).1, (h2 st hst).2.trans g1⟩
        · exact ⟨h1.trans (g3 st hst).1, (g3 st hst).2⟩

namespace RaftServer

/-- The step neither lowers the term nor changes a vote that is cast, in memory
and in what is saved. -/
def KeepsVote (s : RaftServer) (inp : Input) : Prop :=
  (∀ st, .saveState st ∈ (s.step inp).out → s.state.Precedes st) ∧
    ((s.step inp).exited = false → s.state.Precedes (s.step inp).state)

theorem step_stances {s : RaftServer} {inp : Input} (hs : s.exited = false)
    (hj : JoinForward s inp) :
    (stances (s.step inp).out).Pairwise SrvState.Precedes ∧
      (∀ st ∈ stances (s.step inp).out, s.state.Precedes st) ∧
      ((s.step inp).exited = false → s.state.Precedes (s.step inp).state ∧
        ∀ st ∈ stances (s.step inp).out, st.Precedes (s.step inp).state) := by
  have hout : (s.step inp).out = ({ s with out := [] }.handle inp).out := rfl
  have hstart : ({ s with out := [] } : RaftServer).core = s.core := rfl
  rcases handle_traces { s with out := [] } inp with h | ⟨-, h2, h3, h4⟩ | ⟨-, h2, h3, h4, h5⟩
  · exact absurd h (by simp [hs])
  · rw [hstart] at h3
    obtain ⟨g1, g2, g3⟩ := h3.precedes hj
    rw [hout, h4, List.nil_append]
    exact ⟨g2, fun st hst => (g3 st hst).1, fun _ => ⟨g1, fun st hst => (g3 st hst).2⟩⟩
  · rw [hstart] at h3
    obtain ⟨g1, g2, g3⟩ := h3.precedes hj
    rename_i os n r
    have hexit : stances (os ++ [.exit r]) = stances os := by simp [stances, Output.stance]
    rw [hout, h5, List.nil_append, hexit]
    refine ⟨g2, fun st hst => (g3 st hst).1, fun hlive => ?_⟩
    exact absurd (h2.symm.trans hlive) (by simp)

/-- An accepted join saves the state of the request, whatever the present one is. -/
theorem handleJoinClusterReq_saves {s : RaftServer} {m : ReqMsg} (hs : s.exited = false)
    (hj : s.AcceptsJoin m) :
    .saveState ⟨m.term, noServer⟩ ∈ (s.handleJoinClusterReq m).1.out := by
  obtain ⟨htype, hcatch, hconf⟩ := hj
  obtain ⟨c, hc⟩ := Option.isSome_iff_exists.mp hconf
  obtain ⟨t, hpay⟩ := (m.conf?_eq_some_iff c).mp hc
  have hgrow : ∀ s' : RaftServer, ∀ o ∈ s'.out, o ∈ (s'.reconfigure c).out := by
    intro s' o ho
    have htr : Traces (.req m .resp {}) s'.core s' (s'.reconfigure c) :=
      reconfigure_traces (.joinConf rfl htype hpay)
    rcases htr with ⟨-, -, h⟩ | ⟨-, -, -, h⟩ | ⟨-, -, -, -, h⟩ <;> simp [h, ho]
  unfold handleJoinClusterReq
  simp only [hpay]
  rw [if_neg (by simp [hcatch])]
  refine hgrow _ _ ?_
  simp [saveState, emit, hs]

theorem step_join_saves {s : RaftServer} {m : ReqMsg} {h : RpcHandler} {env : Env}
    (hs : s.exited = false) (hj : s.AcceptsJoin m) :
    .saveState ⟨m.term, noServer⟩ ∈ (s.step (.req m h env)).out := by
  have hfollow : ({ s with out := [] } : RaftServer).followTerm m = { s with out := [] } := by
    unfold followTerm
    rw [if_neg (by rw [hj.1]; decide)]
  have hsaved := handleJoinClusterReq_saves (s := { s with out := [] }) hs hj
  simp only [step, handle, processReq, hfollow, hj.1, handleExtendedMsg]
  unfold reply
  split
  · exact hsaved
  · unfold send emit
    split
    · exact hsaved
    · exact List.mem_append_left _ hsaved

theorem keepsVote_iff {s : RaftServer} (hs : s.exited = false) (inp : Input) :
    s.KeepsVote inp ↔ JoinForward s inp := by
  constructor
  · rintro ⟨h, -⟩
    cases inp with
    | req m h' env => exact fun hj => h _ (step_join_saves hs hj)
    | _ => trivial
  · intro hj
    obtain ⟨-, h2, h3⟩ := step_stances hs hj
    refine ⟨fun st hst => h2 st ?_, fun hlive => (h3 hlive).1⟩
    exact List.mem_filterMap.mpr ⟨_, hst, rfl⟩

end RaftServer

/-! ## Runs of one server -/

/-- Everything that a run of one server has emitted. -/
def emitted (tr : List (RaftServer × Input)) : List Output :=
  tr.flatMap fun x => (x.1.step x.2).out

@[simp] theorem emitted_snoc (tr : List (RaftServer × Input)) (s : RaftServer) (inp : Input) :
    emitted (tr ++ [(s, inp)]) = emitted tr ++ (s.step inp).out := by
  simp [emitted]

theorem run_stances {b : Boot} {tr : List (RaftServer × Input)} {s : RaftServer}
    (h : Transition.Run RaftServer.step (fun s inp => s.exited = false ∧ JoinForward s inp)
      (RaftServer.start b) tr s) :
    (stances (emitted tr)).Pairwise SrvState.Precedes ∧
      (s.exited = false → ∀ st ∈ stances (emitted tr), st.Precedes s.state) := by
  induction h with
  | nil => simp [emitted, stances]
  | @snoc tr s inp hrun hok ih =>
      obtain ⟨h1, h2, h3⟩ := RaftServer.step_stances hok.1 hok.2
      have hold := ih.2 hok.1
      rw [emitted_snoc, stances, List.filterMap_append]
      refine ⟨List.pairwise_append.mpr ⟨ih.1, h1, ?_⟩, fun hlive st hst => ?_⟩
      · exact fun x hx y hy => (hold x hx).trans (h2 y hy)
      · rcases List.mem_append.mp hst with hst | hst
        · exact (hold st hst).trans (h3 hlive).1
        · exact (h3 hlive).2 st hst

theorem comparable_of_pairwise {α : Type} {R : α → α → Prop} {l : List α} (h : l.Pairwise R)
    {a b : α} (ha : a ∈ l) (hb : b ∈ l) : R a b ∨ R b a ∨ a = b := by
  obtain ⟨i, hi, rfl⟩ := List.getElem_of_mem ha
  obtain ⟨j, hj, rfl⟩ := List.getElem_of_mem hb
  rw [List.pairwise_iff_getElem] at h
  rcases Nat.lt_trichotomy i j with hij | rfl | hij
  · exact .inl (h i j hi hj hij)
  · exact .inr (.inr rfl)
  · exact .inr (.inl (h j i hj hi hij))

/-- No two accepted votes of one term go to different servers. -/
def VotesOnce (os : List Output) : Prop :=
  ∀ r r' h h' rt rt', .send (.resp r h rt) ∈ os → .send (.resp r' h' rt') ∈ os →
    r.type = .voteResponse → r'.type = .voteResponse → r.accepted = true → r'.accepted = true →
    r.term = r'.term → r.dst ≠ noServer → r'.dst ≠ noServer → r.dst = r'.dst

theorem votesOnce_of_pairwise {os : List Output}
    (h : (stances os).Pairwise SrvState.Precedes) : VotesOnce os := by
  intro r r' h₁ h₂ rt rt' hr hr' ht ht' ha ha' hterm hd hd'
  have hmem : ⟨r.term, r.dst⟩ ∈ stances os :=
    List.mem_filterMap.mpr ⟨_, hr, by simp [Output.stance, ht, ha]⟩
  have hmem' : ⟨r'.term, r'.dst⟩ ∈ stances os :=
    List.mem_filterMap.mpr ⟨_, hr', by simp [Output.stance, ht', ha']⟩
  rcases comparable_of_pairwise h hmem hmem' with hp | hp | hp
  · exact hp.eq_of_term hterm hd
  · exact (hp.eq_of_term hterm.symm hd').symm
  · exact congrArg SrvState.votedFor hp

/-- The guard of a run: the process is alive. -/
def Live (s : RaftServer) (_ : Input) : Prop := s.exited = false

instance (s : RaftServer) (inp : Input) : Decidable (Live s inp) :=
  inferInstanceAs (Decidable (_ = _))

def LiveForward (s : RaftServer) (inp : Input) : Prop := Live s inp ∧ JoinForward s inp

instance (s : RaftServer) (inp : Input) : Decidable (LiveForward s inp) :=
  inferInstanceAs (Decidable (_ ∧ _))

/-- The server keeps its term and vote in a step exactly when a join it accepts
moves forward, and a run of such steps never casts two votes in one term. -/
theorem term_and_vote_kept_iff_joins_forward (b : Boot) (tr : List (RaftServer × Input))
    (s : RaftServer) :
    (Transition.Run RaftServer.step Live (RaftServer.start b) tr s → s.exited = false →
      ∀ inp, s.KeepsVote inp ↔ JoinForward s inp) ∧
    (Transition.Run RaftServer.step LiveForward (RaftServer.start b) tr s →
      (stances (emitted tr)).Pairwise SrvState.Precedes ∧ VotesOnce (emitted tr)) :=
  ⟨fun _ hs => RaftServer.keepsVote_iff hs,
    fun h => ⟨(run_stances h).1, votesOnce_of_pairwise (run_stances h).1⟩⟩

/-! A new server is invited in term 1, catches up, votes for server 1 in term 2,
and then the first invitation arrives a second time. -/

namespace RetriedJoin

def servers : List SrvConfig := [⟨1, "a"⟩, ⟨2, "b"⟩]

def joiner : Boot := { id := 3, config := ⟨0, 0, [⟨3, "c"⟩]⟩ }

def request (type : MsgType) (term : Nat) (src : SrvId) (lastLogTerm lastLogIdx commitIdx : Nat)
    (es : List LogEntry) : Input :=
  .req { term := term, type := type, src := src, dst := 3, lastLogTerm := lastLogTerm,
         lastLogIdx := lastLogIdx, commitIdx := commitIdx, payload := .entries es } .resp {}

def invitation : Input := request .joinClusterRequest 1 1 0 1 1 [⟨1, .conf ⟨1, 0, servers⟩⟩]

def catchUp : List Input :=
  [invitation,
   request .appendEntriesRequest 1 1 0 0 2
     [⟨1, .conf ⟨1, 0, servers⟩⟩, ⟨1, .conf ⟨2, 1, servers ++ [⟨3, "c"⟩]⟩⟩],
   .commitInBg, .commitInBg]

def firstVote : Input := request .voteRequest 2 1 1 2 2 []

def secondVote : Input := request .voteRequest 2 2 1 2 2 []

def voted : RaftServer :=
  (catchUp ++ [firstVote]).foldl RaftServer.step (RaftServer.start joiner)

def history (inputs : List Input) : List Output :=
  emitted (Transition.trace RaftServer.step (RaftServer.start joiner) inputs)

end RetriedJoin

open RetriedJoin in
theorem term_and_vote_kept_until_retry :
    (voted.KeepsVote secondVote ↔ JoinForward voted secondVote) ∧
      VotesOnce (history (catchUp ++ [firstVote])) :=
  ⟨(term_and_vote_kept_iff_joins_forward joiner _ voted).1
      (Transition.run_of_passes _ _ _ _ (by decide +kernel)) (by decide +kernel) secondVote,
    ((term_and_vote_kept_iff_joins_forward joiner _ _).2
      (Transition.run_of_passes _ _ _ (catchUp ++ [firstVote]) (by decide +kernel))).2⟩

open RetriedJoin in
theorem retried_join_votes_twice :
    Transition.Passes RaftServer.step Live (RaftServer.start joiner)
        (catchUp ++ [firstVote, invitation, secondVote]) ∧
      ¬ voted.KeepsVote invitation ∧
      ¬ VotesOnce (history (catchUp ++ [firstVote, invitation, secondVote])) := by
  refine ⟨by decide +kernel, ?_, ?_⟩
  · rintro ⟨h, -⟩
    exact absurd (h ⟨1, noServer⟩ (by decide +kernel)) (by decide +kernel)
  · intro h
    have hvote := h
      { term := 2, type := .voteResponse, src := 3, dst := 1, nextIdx := 3, accepted := true }
      { term := 2, type := .voteResponse, src := 3, dst := 2, nextIdx := 3, accepted := true }
      .resp .resp .voteRequest .voteRequest (by decide +kernel) (by decide +kernel)
    exact absurd (hvote rfl rfl rfl rfl rfl (by decide) (by decide)) (by decide)

end Ns3Raft.Raft
