import Ns3Raft.Raft.Members
import Ns3Raft.Raft.TermVote

/-! # Elections among fixed members

Everything a server has saved or granted is a stance in its own part of the
history. Two majorities of stances for one term meet in a server that has only
one, so a term has one winner.
-/

namespace Ns3Raft.Raft

open Majority

abbrev Hist := List (SrvId × Output)

def Output.saved? : Output → Option SrvState
  | .saveState st => some st
  | _ => none

def outputsOf (i : SrvId) (hist : Hist) : List Output :=
  hist.filterMap fun x => if x.1 = i then some x.2 else none

def stancesOf (i : SrvId) (hist : Hist) : List SrvState := stances (outputsOf i hist)

/-- What the state manager of a server holds. -/
def lastSaved (i : SrvId) (hist : Hist) : Option SrvState :=
  ((outputsOf i hist).filterMap Output.saved?).getLast?

def savedState (i : SrvId) (hist : Hist) : SrvState := (lastSaved i hist).getD ⟨0, noServer⟩

theorem outputsOf_append (i : SrvId) (hist hist' : Hist) :
    outputsOf i (hist ++ hist') = outputsOf i hist ++ outputsOf i hist' :=
  List.filterMap_append ..

theorem outputsOf_map_self (i : SrvId) (os : List Output) : outputsOf i (os.map (i, ·)) = os := by
  simp [outputsOf, List.filterMap_map]

theorem outputsOf_map_of_ne {i j : SrvId} (h : j ≠ i) (os : List Output) :
    outputsOf i (os.map (j, ·)) = [] := by
  simp [outputsOf, List.filterMap_map, h]

theorem stancesOf_append_of_ne {i j : SrvId} (h : j ≠ i) (hist : Hist) (os : List Output) :
    stancesOf i (hist ++ os.map (j, ·)) = stancesOf i hist := by
  simp [stancesOf, outputsOf_append, outputsOf_map_of_ne h]

theorem stancesOf_append_self (i : SrvId) (hist : Hist) (os : List Output) :
    stancesOf i (hist ++ os.map (i, ·)) = stancesOf i hist ++ stances os := by
  simp [stancesOf, outputsOf_append, outputsOf_map_self, stances]

theorem stancesOf_mono (i : SrvId) {hist hist' : Hist} (h : hist <+: hist') {st : SrvState}
    (hst : st ∈ stancesOf i hist) : st ∈ stancesOf i hist' := by
  obtain ⟨more, rfl⟩ := h
  unfold stancesOf stances at *
  rw [outputsOf_append, List.filterMap_append]
  exact List.mem_append_left _ hst

theorem savedState_append_of_ne {i j : SrvId} (h : j ≠ i) (hist : Hist) (os : List Output) :
    savedState i (hist ++ os.map (j, ·)) = savedState i hist := by
  simp [savedState, lastSaved, outputsOf_append, outputsOf_map_of_ne h]

theorem savedState_append_quiet (i j : SrvId) (hist : Hist) {os : List Output}
    (h : ∀ o ∈ os, o.saved? = none) :
    savedState i (hist ++ os.map (j, ·)) = savedState i hist := by
  by_cases hij : j = i
  · subst hij
    have hnil : os.filterMap Output.saved? = [] := List.filterMap_eq_nil_iff.mpr h
    simp [savedState, lastSaved, outputsOf_append, outputsOf_map_self, hnil]
  · exact savedState_append_of_ne hij hist os

theorem savedState_append_save (i : SrvId) (hist : Hist) (st : SrvState) :
    savedState i (hist ++ [Output.saveState st].map (i, ·)) = st := by
  rw [savedState, lastSaved, outputsOf_append, outputsOf_map_self, List.filterMap_append]
  simp [Output.saved?]

theorem mem_stancesOf {i : SrvId} {o : Output} {hist : Hist} {st : SrvState}
    (h : (i, o) ∈ hist) (ho : o.stance = some st) : st ∈ stancesOf i hist :=
  List.mem_filterMap.mpr ⟨o, List.mem_filterMap.mpr ⟨(i, o), h, by simp⟩, ho⟩

/-! ## Stances in order -/

structure Ballots (w : World) : Prop where
  order : ∀ i, (stancesOf i w.hist).Pairwise SrvState.Precedes
  last : ∀ i, ∀ st ∈ stancesOf i w.hist, st.Precedes (savedState i w.hist)
  state : ∀ i n, w.node i = some n → n.state = savedState i w.hist

/-- One vote of a server in a term. -/
theorem Ballots.unique {w : World} (hb : Ballots w) {v i j : SrvId} {t : Nat}
    (hi : ⟨t, i⟩ ∈ stancesOf v w.hist) (hj : ⟨t, j⟩ ∈ stancesOf v w.hist) (hi' : i ≠ noServer)
    (hj' : j ≠ noServer) : i = j := by
  rcases comparable_of_pairwise (hb.order v) hi hj with h | h | h
  · exact h.eq_of_term rfl hi'
  · exact (h.eq_of_term rfl hj').symm
  · exact congrArg SrvState.votedFor h

/-- What a step saves is the state it ends in. -/
theorem NodeStep.saved {inp : Input} {n₀ n n' : Core} {o : Option Output}
    (h : NodeStep inp n₀ n o n') :
    (n'.state = n.state ∧ ∀ x ∈ o.toList, x.saved? = none) ∨
      o = some (.saveState n'.state) := by
  cases h with
  | quiet h =>
      rename_i o
      refine .inl ⟨rfl, ?_⟩
      cases o with
      | saveState st => exact h.elim
      | _ => simp [Output.saved?]
  | newTerm _ _ _ => exact .inr rfl
  | stand _ => exact .inr rfl
  | selfVote _ => exact .inr rfl
  | grant _ _ _ _ _ => exact .inr rfl
  | join _ _ _ _ _ => exact .inr rfl
  | write _ _ _ _ _ ho =>
      rcases ho with rfl | rfl
      · exact .inl ⟨rfl, by simp [Output.saved?]⟩
      · exact .inl ⟨rfl, by simp [Output.saved?]⟩
  | bulk h =>
      cases h with
      | snapSave _ _ => exact .inr rfl
      | _ => exact .inl ⟨rfl, by simp [Output.saved?]⟩
  | _ => exact .inl ⟨rfl, by simp [Output.saved?]⟩

section Step

variable {ext : List MsgType} {S : List SrvConfig} {i : SrvId} {inp : Input} {n₀ : Core}
  {w w' : World}

theorem Ballots.step (hext : NoAdd ext) (hk : InputKind ext inp) (hb : Ballots w)
    (hs : World.Step i inp n₀ w w') : Ballots w' := by
  have hgone : ∀ os : List Output, (∀ o ∈ os, o.saved? = none ∧ o.stance = none) →
      Ballots (w.put i none os) := by
    intro os hos
    have hst : ∀ j, stancesOf j (w.put i none os).hist = stancesOf j w.hist := by
      intro j
      by_cases hj : i = j
      · subst hj
        have hnil : stances os = [] := List.filterMap_eq_nil_iff.mpr fun o ho => (hos o ho).2
        rw [World.put_hist, stancesOf_append_self, hnil, List.append_nil]
      · exact stancesOf_append_of_ne hj w.hist os
    have hsaved : ∀ j, savedState j (w.put i none os).hist = savedState j w.hist :=
      fun j => savedState_append_quiet j i w.hist fun o ho => (hos o ho).1
    refine ⟨fun j => ?_, fun j => ?_, fun j n hn => ?_⟩
    · rw [hst]
      exact hb.order j
    · rw [hst, hsaved]
      exact hb.last j
    · by_cases hj : j = i
      · subst hj
        simp at hn
      · rw [World.put_node_of_ne _ hj] at hn
        rw [hsaved]
        exact hb.state j n hn
  cases hs with
  | @node n n' o hn h =>
      have hprec : n.state.Precedes n'.state ∧
          ∀ st ∈ o.bind Output.stance, n.state.Precedes st ∧ st.Precedes n'.state := by
        rcases h.join_or_precedes with h | ⟨m, h', env, e, c, rfl, hm, -⟩
        · exact h
        · exact absurd hm (InputKind.not_join hext hk)
      have hsaved : savedState i (w.hist ++ o.toList.map (i, ·)) = n'.state := by
        rcases h.saved with ⟨h1, h2⟩ | rfl
        · rw [savedState_append_quiet i i w.hist h2, h1]
          exact (hb.state i n hn).symm
        · exact savedState_append_save i w.hist n'.state
      have hstance : stances o.toList = (o.bind Output.stance).toList := by
        cases o with
        | none => rfl
        | some o => cases ho : o.stance <;> simp [stances, ho]
      have hstate := hb.state i n hn
      refine ⟨fun j => ?_, fun j st hst => ?_, fun j n₁ hn₁ => ?_⟩
      · rw [World.put_hist]
        by_cases hj : i = j
        · subst hj
          rw [stancesOf_append_self, hstance, List.pairwise_append]
          refine ⟨hb.order i, ?_, fun x hx y hy => ?_⟩
          · cases o.bind Output.stance <;> simp
          · rw [Option.mem_toList] at hy
            exact (hb.last i x hx).trans (hstate ▸ (hprec.2 y hy).1)
        · rw [stancesOf_append_of_ne hj]
          exact hb.order j
      · rw [World.put_hist] at hst ⊢
        by_cases hj : i = j
        · subst hj
          rw [stancesOf_append_self, hstance, List.mem_append, Option.mem_toList] at hst
          rw [hsaved]
          rcases hst with hst | hst
          · exact (hb.last i st hst).trans (hstate ▸ hprec.1)
          · exact (hprec.2 st hst).2
        · rw [stancesOf_append_of_ne hj] at hst
          rw [savedState_append_of_ne hj]
          exact hb.last j st hst
      · rw [World.put_hist]
        by_cases hj : j = i
        · subst hj
          rw [World.put_node_self] at hn₁
          obtain rfl : n' = n₁ := Option.some.inj hn₁
          exact hsaved.symm
        · rw [World.put_node_of_ne _ hj] at hn₁
          rw [savedState_append_of_ne (Ne.symm hj)]
          exact hb.state j n₁ hn₁
  | exit _ _ => exact hgone _ (by simp [Output.saved?, Output.stance])
  | die => exact hgone _ (by simp)

end Step

/-! ## What a step does to the election -/

theorem NodeStep.tally {inp : Input} {n₀ n n' : Core} {o : Option Output}
    (h : NodeStep inp n₀ n o n') :
    (n'.state.term = n.state.term ∧ n'.votesGranted = n.votesGranted ∧
      n'.votedServers = n.votedServers ∧
        (n'.electionCompleted = false → n.electionCompleted = false)) ∨
    n'.votesGranted = 0 ∨
    (o = some (.saveState ⟨n'.state.term, n.id⟩) ∧ n'.votesGranted = 1 ∧
      n'.votedServers = [n.id]) ∨
    (∃ m reqType, inp = .resp m .resp reqType ∧ m.type = .voteResponse ∧ m.term = n.state.term ∧
      m.src ∉ n.votedServers ∧ m.src ∈ n.peerIds ∧ n.electionCompleted = false ∧
      n' = { n with votedServers := n.votedServers ++ [m.src],
                    votesGranted := n.votesGranted + if m.accepted then 1 else 0 }) ∨
    ∃ m h env, inp = .req m h env ∧ m.type = .joinClusterRequest := by
  cases h with
  | newTerm _ _ _ => exact .inr (.inl rfl)
  | stand _ => exact .inr (.inl rfl)
  | selfVote _ => exact .inr (.inr (.inl ⟨rfl, rfl, rfl⟩))
  | @count m reqType h1 h2 h3 h4 h5 h6 _ =>
      exact .inr (.inr (.inr (.inl ⟨m, reqType, h1, h2, h3, h5, h6, h4, rfl⟩)))
  | @join m h env h1 h2 _ _ _ => exact .inr (.inr (.inr (.inr ⟨m, h, env, h1, h2⟩)))
  | complete => exact .inl ⟨rfl, rfl, rfl, by simp⟩
  | win _ _ => exact .inl ⟨rfl, rfl, rfl, by simp⟩
  | bulk h => cases h <;> exact .inl ⟨rfl, rfl, rfl, id⟩
  | _ => exact .inl ⟨rfl, rfl, rfl, id⟩

theorem NodeStep.leads {inp : Input} {n₀ n n' : Core} {o : Option Output}
    (h : NodeStep inp n₀ n o n') (hr : n'.role = .leader) :
    n'.state.term = n.state.term ∧ (n.role = .leader ∨
      n.electionCompleted = false ∧ (n.peers.length + 1) / 2 < n.votesGranted) := by
  cases h with
  | newTerm _ _ _ => cases hr
  | demote _ _ _ _ => cases hr
  | stand _ => cases hr
  | selfVote hn =>
      rw [hn] at hr
      cases hr
  | join _ _ _ _ _ => cases hr
  | win h1 h2 => exact ⟨rfl, .inr ⟨h1, h2⟩⟩
  | bulk h => cases h <;> exact ⟨rfl, .inl hr⟩
  | _ => exact ⟨rfl, .inl hr⟩

theorem NodeStep.becomeLeader_out {inp : Input} {n₀ n n' : Core} {t : Nat}
    (h : NodeStep inp n₀ n (some (.becomeLeader t)) n') :
    n.role = .leader ∧ t = n.state.term ∧ n' = n := by
  cases h with
  | quiet h => exact h.elim
  | announce hr => exact ⟨hr, rfl, rfl⟩
  | write _ _ _ _ _ ho => rcases ho with ho | ho <;> cases ho
  | bulk h => cases h

theorem NodeStep.leader_request {ext : List MsgType} {inp : Input} {n₀ n n' : Core} {m : ReqMsg}
    {h : RpcHandler} (hext : NoAdd ext) (hk : InputKind ext inp)
    (hs : NodeStep inp n₀ n (some (.send (.req m h))) n')
    (ht : m.type = .appendEntriesRequest ∨ m.type = .installSnapshotRequest) :
    MayLead inp n₀ n ∧ m.term = n.state.term ∧ m.src = n.id ∧ m.dst ∈ n.peerIds ∧ n' = n := by
  cases hs with
  | quiet hq =>
      have hno : ∀ t : MsgType, m.type = t → t ≠ .appendEntriesRequest →
          t ≠ .installSnapshotRequest → False := by
        rintro t rfl h1 h2
        exact ht.elim h1 h2
      rcases hq with ⟨hq, -⟩ | ⟨hq, -⟩ | ⟨hq, -⟩ | ⟨hq, -⟩ | ⟨hinp, -⟩
      · exact (hno _ hq (by decide) (by decide)).elim
      · exact (hno _ hq (by decide) (by decide)).elim
      · exact (hno _ hq (by decide) (by decide)).elim
      · exact absurd hq (hk.not_adds hext)
      · subst hinp
        rcases Kind.exResp hk with hq | ⟨hq, -⟩
        · exact (hno _ hq (by decide) (by decide)).elim
        · exact (hno _ hq (by decide) (by decide)).elim
  | sendAppend hl ha => exact ⟨hl, ha.term, ha.src, ha.dst, rfl⟩
  | sendInstall hl _ _ h2 h3 h4 => exact ⟨hl, h2, h3, h4, rfl⟩
  | sendVoteReq _ _ hm _ _ _ _ _ =>
      rw [hm] at ht
      rcases ht with ht | ht <;> cases ht
  | write _ _ _ _ _ ho => rcases ho with ho | ho <;> cases ho
  | bulk hb => cases hb

theorem NodeStep.vote_src {inp : Input} {n₀ n n' : Core} {r : RespMsg} {h : RpcHandler}
    {reqType : MsgType} (hs : NodeStep inp n₀ n (some (.send (.resp r h reqType))) n')
    (ht : r.type = .voteResponse) (ha : r.accepted = true) : r.src = n.id := by
  cases hs with
  | quiet hq => exact absurd ht (hq.2 ha).1
  | sendVote _ h2 _ _ => exact h2
  | sendAck _ _ h3 _ _ _ _ _ =>
      rw [h3] at ht
      cases ht
  | write _ _ _ _ _ ho => rcases ho with ho | ho <;> cases ho
  | bulk hb => cases hb

/-! ## The invariant -/

/-- A majority of the members has taken the stance for `i` in term `t`. -/
def Won (S : List SrvConfig) (hist : Hist) (t : Nat) (i : SrvId) : Prop :=
  ∃ Q, IsMajority (memberIds S) Q ∧ ∀ v ∈ Q, ⟨t, i⟩ ∈ stancesOf v hist

/-- The votes a candidate has counted are there. -/
def Counted (S : List SrvConfig) (hist : Hist) (i : SrvId) (n : Core) : Prop :=
  n.electionCompleted = false → ∃ G ⊆ memberIds S, G.card = n.votesGranted ∧
    ∀ v ∈ G, v ∈ n.votedServers ∧ ⟨n.state.term, i⟩ ∈ stancesOf v hist

structure Election (S : List SrvConfig) (w : World) : Prop where
  ballots : Ballots w
  member : ∀ i n, w.node i = some n → Member S i n
  counted : ∀ i n, w.node i = some n → Counted S w.hist i n
  led : ∀ i n, w.node i = some n → n.role = .leader → Won S w.hist n.state.term i
  announced : ∀ i t, (i, .becomeLeader t) ∈ w.hist → i ∈ memberIds S ∧ Won S w.hist t i
  requests : ∀ i m h, (i, .send (.req m h)) ∈ w.hist →
    m.type = .appendEntriesRequest ∨ m.type = .installSnapshotRequest →
    m.src ∈ memberIds S ∧ m.src ≠ m.dst ∧ Won S w.hist m.term m.src
  voters : ∀ i r h reqType, (i, .send (.resp r h reqType)) ∈ w.hist → r.type = .voteResponse →
    r.accepted = true → r.src = i
  peaceful : ∀ i, (i, .exit .anotherLeader) ∉ w.hist

variable {ext : List MsgType} {S : List SrvConfig} {i : SrvId} {inp : Input} {n₀ : Core}
  {w w' : World}

theorem Won.mono {hist hist' : Hist} (h : hist <+: hist') {t : Nat} (hw : Won S hist t i) :
    Won S hist' t i := by
  obtain ⟨Q, hQ, hall⟩ := hw
  exact ⟨Q, hQ, fun v hv => stancesOf_mono v h (hall v hv)⟩

theorem Counted.mono {hist hist' : Hist} (h : hist <+: hist') {n : Core}
    (hc : Counted S hist i n) : Counted S hist' i n := by
  intro hopen
  obtain ⟨G, h1, h2, h3⟩ := hc hopen
  exact ⟨G, h1, h2, fun v hv => ⟨(h3 v hv).1, stancesOf_mono v h (h3 v hv).2⟩⟩

theorem Ballots.one_winner (hb : Ballots w) (hno : noServer ∉ memberIds S) {j : SrvId} {t : Nat}
    (hi : i ∈ memberIds S) (hj : j ∈ memberIds S) (hwi : Won S w.hist t i)
    (hwj : Won S w.hist t j) : i = j := by
  obtain ⟨Q, hQ, hallQ⟩ := hwi
  obtain ⟨R, hR, hallR⟩ := hwj
  obtain ⟨v, hvQ, hvR⟩ := hQ.meet hR
  refine hb.unique (hallQ v hvQ) (hallR v hvR) ?_ ?_
  · rintro rfl
    exact hno hi
  · rintro rfl
    exact hno hj

/-- A vote that is counted was cast. -/
theorem Counted.step {n n' : Core} {o : Option Output} (hext : NoAdd ext)
    (hk : InputKind ext inp) (hocc : CanOccur ext w.hist i inp) (hel : Election S w)
    (hn : w.node i = some n) (hs : NodeStep inp n₀ n o n') :
    Counted S (w.hist ++ o.toList.map (i, ·)) i n' := by
  have hmem := hel.member i n hn
  have hgrow : w.hist <+: w.hist ++ o.toList.map (i, ·) := List.prefix_append _ _
  have hold := (hel.counted i n hn).mono hgrow
  rcases hs.tally with ⟨h1, h2, h3, h4⟩ | h | ⟨rfl, h2, h3⟩ | ⟨m, rt, rfl, h2, h3, h4, h5, h6, rfl⟩ |
    ⟨m, h, env, rfl, hm⟩
  · intro hopen
    rw [h1, h2, h3]
    exact hold (h4 hopen)
  · exact fun _ => ⟨∅, by simp, by simp [h], by simp⟩
  · -- its own vote
    intro _
    refine ⟨{i}, by simpa using hmem.mem, by simp [h2], fun v hv => ?_⟩
    rw [Finset.mem_singleton] at hv
    subst hv
    rw [h3, hmem.id]
    refine ⟨by simp, ?_⟩
    rw [stancesOf_append_self]
    exact List.mem_append_right _ (by simp [stances, Output.stance])
  · intro _
    obtain ⟨G, hG, hcard, hall⟩ := hold h6
    have hsub : ∀ v ∈ G, v ∈ n.votedServers ++ [m.src] ∧
        ⟨n.state.term, i⟩ ∈ stancesOf v (w.hist ++ o.toList.map (i, ·)) :=
      fun v hv => ⟨List.mem_append_left _ (hall v hv).1, (hall v hv).2⟩
    by_cases hacc : m.accepted = true
    · have hnot : m.src ∉ G := fun hG' => h4 (hall _ hG').1
      obtain ⟨hsent, hdst, -⟩ := hocc
      obtain ⟨⟨j, o'⟩, hx, ho'⟩ := List.mem_map.mp hsent
      obtain rfl : o' = .send (.resp m .resp rt) := ho'
      obtain rfl : m.src = j := hel.voters j m .resp rt hx h2 hacc
      have hcast : ⟨n.state.term, i⟩ ∈ stancesOf m.src w.hist := by
        rw [← h3, ← hdst]
        exact mem_stancesOf hx (by simp [Output.stance, h2, hacc])
      refine ⟨insert m.src G, ?_, ?_, fun v hv => ?_⟩
      · refine Finset.insert_subset ?_ hG
        rw [mem_memberIds]
        exact ((hmem.peers m.src).mp h5).1
      · rw [Finset.card_insert_of_notMem hnot, hcard]
        simp [hacc]
      · rcases Finset.mem_insert.mp hv with rfl | hv
        · exact ⟨by simp, stancesOf_mono _ hgrow hcast⟩
        · exact hsub v hv
    · exact ⟨G, hG, by simp [hacc, hcard], hsub⟩
  · exact absurd hm (InputKind.not_join hext hk)

/-- The end of a process leaves the rest as it is. -/
theorem Election.gone {os : List Output} (hel : Election S w)
    (hballots : Ballots (w.put i none os))
    (hos : ∀ o ∈ os, ∃ r, o = .exit r ∧ r ≠ .anotherLeader) : Election S (w.put i none os) := by
  have hgrow : w.hist <+: (w.put i none os).hist := List.prefix_append _ _
  have hnode : ∀ {j n}, (w.put i none os).node j = some n → w.node j = some n := by
    intro j n hn
    by_cases hj : j = i
    · subst hj
      simp at hn
    · rwa [World.put_node_of_ne _ hj] at hn
  have hhist : ∀ {x}, x ∈ (w.put i none os).hist →
      x ∈ w.hist ∨ ∃ r, x = (i, .exit r) ∧ r ≠ .anotherLeader := by
    intro x hx
    rw [World.put_hist, List.mem_append] at hx
    refine hx.imp id fun hx => ?_
    obtain ⟨o, ho, rfl⟩ := List.mem_map.mp hx
    obtain ⟨r, rfl, hr⟩ := hos o ho
    exact ⟨r, rfl, hr⟩
  refine ⟨hballots, fun j n hn => hel.member j n (hnode hn),
    fun j n hn => (hel.counted j n (hnode hn)).mono hgrow,
    fun j n hn hr => (hel.led j n (hnode hn) hr).mono hgrow, fun j t hj => ?_,
    fun j m h hj ht => ?_, fun j r h rt hj ht ha => ?_, fun j hj => ?_⟩
  · rcases hhist hj with hj | ⟨r, hx, -⟩
    · exact ⟨(hel.announced j t hj).1, (hel.announced j t hj).2.mono hgrow⟩
    · cases hx
  · rcases hhist hj with hj | ⟨r, hx, -⟩
    · obtain ⟨h1, h2, h3⟩ := hel.requests j m h hj ht
      exact ⟨h1, h2, h3.mono hgrow⟩
    · cases hx
  · rcases hhist hj with hj | ⟨r, hx, -⟩
    · exact hel.voters j r h rt hj ht ha
    · cases hx
  · rcases hhist hj with hj | ⟨r, hx, hr⟩
    · exact hel.peaceful j hj
    · cases hx
      exact hr rfl

theorem Election.step (hext : NoAdd ext) (hk : InputKind ext inp)
    (hlead : ∀ n, MayLead inp n₀ n → n.role = .leader) (hocc : CanOccur ext w.hist i inp)
    (h₀ : Member S i n₀) (hkeep : KeepsMembers S n₀ inp) (hclient : .appendEntriesRequest ∉ ext)
    (hclient' : .installSnapshotRequest ∉ ext) (hno : noServer ∉ memberIds S)
    (hel : Election S w) (hs : World.Step i inp n₀ w w') : Election S w' := by
  have hballots := hel.ballots.step hext hk hs
  -- the other servers and the old history
  have hgrow : w.hist <+: w'.hist := by cases hs <;> exact List.prefix_append _ _
  have hother : ∀ {j n}, j ≠ i → w'.node j = some n → w.node j = some n := by
    intro j n hj hn
    cases hs <;> rwa [World.put_node_of_ne _ hj] at hn
  have hwon : ∀ {j n}, w.node j = some n → n.role = .leader → Won S w'.hist n.state.term j :=
    fun hn hr => (hel.led _ _ hn hr).mono hgrow
  cases hs with
  | @node n n' o hn h =>
      have hmem := hel.member i n hn
      have hmem' := h₀.step hext hk hkeep hmem h
      have hcounted := Counted.step hext hk hocc hel hn h
      have hsplit : ∀ {x}, x ∈ (w.put i (some n') o.toList).hist →
          x ∈ w.hist ∨ ∃ o', o = some o' ∧ x = (i, o') := by
        intro x hx
        rw [World.put_hist, List.mem_append] at hx
        refine hx.imp id fun hx => ?_
        obtain ⟨o', ho', rfl⟩ := List.mem_map.mp hx
        exact ⟨o', Option.mem_toList.mp ho', rfl⟩
      refine ⟨hballots, fun j m hj => ?_, fun j m hj => ?_, fun j m hj hr => ?_,
        fun j t hj => ?_, fun j m h' hj ht => ?_, fun j r h' rt hj ht ha => ?_, fun j hj => ?_⟩
      · by_cases hji : j = i
        · subst hji
          rw [World.put_node_self] at hj
          exact Option.some.inj hj ▸ hmem'
        · exact hel.member j m (hother hji hj)
      · by_cases hji : j = i
        · subst hji
          rw [World.put_node_self] at hj
          exact Option.some.inj hj ▸ hcounted
        · exact (hel.counted j m (hother hji hj)).mono hgrow
      · by_cases hji : j = i
        · subst hji
          rw [World.put_node_self] at hj
          obtain rfl : n' = m := Option.some.inj hj
          obtain ⟨hterm, hlead' | ⟨hopen, hmaj⟩⟩ := h.leads hr
          · rw [hterm]
            exact hwon hn hlead'
          · -- more than half of the members have voted for it
            obtain ⟨G, hG, hcard, hall⟩ := (hel.counted j n hn) hopen
            rw [hterm]
            refine ⟨G, ⟨hG, ?_⟩, fun v hv => stancesOf_mono v hgrow (hall v hv).2⟩
            rw [hmem.card, hcard]
            omega
        · exact hwon (hother hji hj) hr
      · rcases hsplit hj with hj | ⟨o', rfl, hx⟩
        · exact ⟨(hel.announced j t hj).1, (hel.announced j t hj).2.mono hgrow⟩
        · obtain ⟨rfl, rfl⟩ := Prod.mk.inj hx
          obtain ⟨hr, rfl, -⟩ := h.becomeLeader_out
          exact ⟨by simpa using hmem.mem, hwon hn hr⟩
      · rcases hsplit hj with hj | ⟨o', rfl, hx⟩
        · obtain ⟨h1, h2, h3⟩ := hel.requests j m h' hj ht
          exact ⟨h1, h2, h3.mono hgrow⟩
        · obtain ⟨rfl, rfl⟩ := Prod.mk.inj hx
          obtain ⟨hl, h1, h2, h3, -⟩ := h.leader_request hext hk ht
          rw [h1, h2, hmem.id]
          exact ⟨by simpa using hmem.mem, ((hmem.peers _).mp h3).2.symm, hwon hn (hlead n hl)⟩
      · rcases hsplit hj with hj | ⟨o', rfl, hx⟩
        · exact hel.voters j r h' rt hj ht ha
        · obtain ⟨rfl, rfl⟩ := Prod.mk.inj hx
          exact (h.vote_src ht ha).trans hmem.id
      · rcases hsplit hj with hj | ⟨o', rfl, hx⟩
        · exact hel.peaceful j hj
        · obtain ⟨rfl, rfl⟩ := Prod.mk.inj hx
          cases h with
          | quiet h => exact h
          | write _ _ _ _ _ ho => rcases ho with ho | ho <;> cases ho
          | bulk hb => cases hb
  | @exit n r hn hok =>
      refine hel.gone hballots ?_
      intro o ho
      refine ⟨r, List.mem_singleton.mp ho, fun hr => ?_⟩
      -- a leader of the same term exists only once
      obtain ⟨m, h', env, rfl, ht, hterm, hrole⟩ := hok hr
      rcases hocc with ⟨hsent, hdst⟩ | ⟨hmem, -⟩
      · obtain ⟨⟨j, o'⟩, hx, ho'⟩ := List.mem_map.mp hsent
        obtain rfl : o' = .send (.req m h') := ho'
        obtain ⟨h1, h2, h3⟩ := hel.requests j m h' hx ht
        have hi : i ∈ memberIds S := by simpa using (hel.member i n hn).mem
        have hled := hel.led i n hn hrole
        rw [← hterm] at hled
        exact h2 ((hel.ballots.one_winner hno h1 hi h3 hled).trans hdst.symm)
      · rcases ht with ht | ht
        · exact hclient (ht ▸ hmem)
        · exact hclient' (ht ▸ hmem)
  | die => exact hel.gone hballots (by simp)

/-! ## Configurations under way -/

def EntryKeeps (S : List SrvConfig) (e : LogEntry) : Prop := ∀ c ∈ e.conf?, c.servers = S

/-- Every configuration in a log or in a request has the members `S`. -/
structure Confs (S : List SrvConfig) (w : World) : Prop where
  log : ∀ i n, w.node i = some n → ∀ e ∈ n.log.entries, EntryKeeps S e
  sent : ∀ i m h, (i, .send (.req m h)) ∈ w.hist → m.type = .appendEntriesRequest →
    ∀ e ∈ m.logEntries, EntryKeeps S e
  client : ∀ i m h, (i, .send (.req m h)) ∈ w.hist → m.type = .clientRequest →
    ∀ e ∈ m.logEntries, e.conf? = none

/-- What comes from outside carries no other members: a client's request no
configuration at all, a snapshot one with the members `S`. -/
def Ordinary (S : List SrvConfig) (hist : Hist) : Input → Prop
  | .req m h _ =>
      (m.type = .clientRequest → ¬ Sent hist (.req m h) → ∀ e ∈ m.logEntries, e.conf? = none) ∧
        (m.type = .installSnapshotRequest → ∀ c ∈ m.payload.snapshotConf?, c.servers = S)
  | _ => True

theorem EntryKeeps.of_val {e e' : LogEntry} (hv : e.val = e'.val) (h : EntryKeeps S e') :
    EntryKeeps S e := by
  have hc : e.conf? = e'.conf? := by
    unfold LogEntry.conf?
    rw [hv]
  unfold EntryKeeps
  rwa [hc]

theorem LogStore.mem_of_compact {l l' : LogStore} {idx : Nat} (h : l.compact idx = some l')
    {e : LogEntry} (he : e ∈ l'.entries) : e ∈ l.entries := by
  unfold LogStore.compact at h
  split at h
  · cases h
  · cases h
    exact List.mem_of_mem_drop he

/-- The entries of a log after a step were there, were created with the members
`S`, or came with an append request. -/
theorem NodeStep.entries_keep {n n' : Core} {o : Option Output} (hext : NoAdd ext)
    (hrem : .removeServerRequest ∉ ext) (hk : InputKind ext inp) (hmem : Member S i n)
    (happ : ∀ m h env, inp = .req m h env →
      m.type = .appendEntriesRequest ∨ m.type = .clientRequest →
      ∀ e ∈ m.logEntries, EntryKeeps S e)
    (hlog : ∀ e ∈ n.log.entries, EntryKeeps S e) (hs : NodeStep inp n₀ n o n') :
    ∀ e ∈ n'.log.entries, EntryKeeps S e := by
  cases hs with
  | @create e c _ _ hfrom _ =>
      intro x hx
      rcases List.mem_append.mp hx with hx | hx
      · exact hlog x hx
      · rw [List.mem_singleton.mp hx]
        rcases hfrom with ⟨c', hc, hc'⟩ | ⟨_, _, -, hc⟩ | ⟨m, h, env, hinp, hm, e', he', hv⟩
        · intro c'' hc''
          obtain rfl : c' = c'' := by simpa [LogEntry.conf?, hc] using hc''
          rcases hc' with hc' | hc' | hc'
          · exact hc'.trans hmem.config
          · exact absurd hc' (hk.not_adds hext)
          · exact absurd (hk.removes hc') hrem
        · intro c'' hc''
          simp [LogEntry.conf?, hc] at hc''
        · exact (happ m h env hinp (.inr hm) e' he').of_val hv
  | @write m h env j e o hinp hm he _ _ _ =>
      intro x hx
      rcases List.mem_append.mp hx with hx | hx
      · exact hlog x (List.mem_of_mem_take hx)
      · rw [List.mem_singleton.mp hx]
        exact happ m h env hinp (.inl hm.type) e (List.mem_of_getElem? he)
  | compact _ _ _ _ hl => exact fun x hx => hlog x (LogStore.mem_of_compact hl hx)
  | bulk hb =>
      cases hb with
      | pack hinp ht _ _ _ =>
          subst hinp
          exact absurd ht (Kind.ne_of_noAdd hext hk).2.2
      | snapCompact _ _ _ _ _ _ hl => exact fun x hx => hlog x (LogStore.mem_of_compact hl hx)
      | _ => exact hlog
  | _ => exact hlog

theorem NodeStep.request_keeps {n n' : Core} {m : ReqMsg} {h : RpcHandler} (hext : NoAdd ext)
    (hk : InputKind ext inp) (hlog : ∀ e ∈ n.log.entries, EntryKeeps S e)
    (hcli : ∀ m h env, inp = .req m h env → m.type = .clientRequest →
      ∀ e ∈ m.logEntries, e.conf? = none)
    (hs : NodeStep inp n₀ n (some (.send (.req m h))) n') :
    (m.type = .appendEntriesRequest → ∀ e ∈ m.logEntries, EntryKeeps S e) ∧
      (m.type = .clientRequest → ∀ e ∈ m.logEntries, e.conf? = none) := by
  have hno : ∀ {t : MsgType}, m.type = t → t ≠ .appendEntriesRequest → t ≠ .clientRequest →
      (m.type = .appendEntriesRequest → ∀ e ∈ m.logEntries, EntryKeeps S e) ∧
        (m.type = .clientRequest → ∀ e ∈ m.logEntries, e.conf? = none) := by
    rintro t rfl h1 h2
    exact ⟨fun h => absurd h h1, fun h => absurd h h2⟩
  cases hs with
  | quiet hq =>
      rcases hq with ⟨hq, -⟩ | ⟨hq, -, m', h', env, hinp, hm', hpay⟩ | ⟨hq, -⟩ | ⟨hq, -⟩ |
        ⟨hinp, -⟩
      · exact hno hq (by decide) (by decide)
      · have hes : m.logEntries = m'.logEntries := by
          unfold ReqMsg.logEntries
          rw [hpay]
        refine ⟨fun h => ?_, fun _ => ?_⟩
        · rw [hq] at h
          cases h
        · rw [hes]
          exact hcli m' h' env hinp hm'
      · exact hno hq (by decide) (by decide)
      · exact absurd hq (hk.not_adds hext)
      · subst hinp
        rcases Kind.exResp hk with hq | ⟨hq, -⟩
        · exact hno hq (by decide) (by decide)
        · exact hno hq (by decide) (by decide)
  | sendAppend _ ha =>
      refine ⟨fun _ e he => hlog e ?_, fun h => ?_⟩
      · obtain ⟨k, hpay⟩ := ha.entries
        simp only [ReqMsg.logEntries, hpay] at he
        exact List.mem_of_mem_drop (List.mem_of_mem_take he)
      · rw [ha.type] at h
        cases h
  | sendInstall _ _ h1 _ _ _ => exact hno h1 (by decide) (by decide)
  | sendVoteReq _ _ h1 _ _ _ _ _ => exact hno h1 (by decide) (by decide)
  | write _ _ _ _ _ ho => rcases ho with ho | ho <;> cases ho
  | bulk hb => cases hb

/-- Entries of a delivered request. -/
theorem Confs.delivered (hext : NoAdd ext) (hc : Confs S w) (hocc : CanOccur ext w.hist i inp)
    (hord : Ordinary S w.hist inp) :
    (∀ m h env, inp = .req m h env →
      m.type = .appendEntriesRequest ∨ m.type = .clientRequest →
      ∀ e ∈ m.logEntries, EntryKeeps S e) ∧
    ∀ m h env, inp = .req m h env → m.type = .clientRequest →
      ∀ e ∈ m.logEntries, e.conf? = none := by
  have hcli : ∀ m h env, inp = .req m h env → m.type = .clientRequest →
      ∀ e ∈ m.logEntries, e.conf? = none := by
    rintro m h env rfl ht
    by_cases hsent : Sent w.hist (.req m h)
    · obtain ⟨⟨j, o⟩, hx, ho⟩ := List.mem_map.mp hsent
      obtain rfl : o = .send (.req m h) := ho
      exact hc.client j m h hx ht
    · exact hord.1 ht hsent
  refine ⟨?_, hcli⟩
  rintro m h env rfl (ht | ht) e he
  · rcases hocc with ⟨hsent, -⟩ | ⟨hmem, -⟩
    · obtain ⟨⟨j, o⟩, hx, ho⟩ := List.mem_map.mp hsent
      obtain rfl : o = .send (.req m h) := ho
      exact hc.sent j m h hx ht e he
    · rw [ht] at hmem
      rcases hext _ hmem with h | h <;> cases h
  · intro c hc'
    rw [hcli m h env rfl ht e he] at hc'
    cases hc'

theorem Confs.step (hext : NoAdd ext) (hrem : .removeServerRequest ∉ ext) (hk : InputKind ext inp)
    (hmem : ∀ i n, w.node i = some n → Member S i n) (hocc : CanOccur ext w.hist i inp)
    (hord : Ordinary S w.hist inp) (hc : Confs S w) (hs : World.Step i inp n₀ w w') :
    Confs S w' := by
  obtain ⟨hdel, hcli⟩ := hc.delivered hext hocc hord
  have hgone : ∀ os : List Output, (∀ o ∈ os, ∃ r, o = .exit r) → Confs S (w.put i none os) := by
    intro os hos
    have hhist : ∀ {j m h}, (j, Output.send (.req m h)) ∈ (w.put i none os).hist →
        (j, Output.send (.req m h)) ∈ w.hist := by
      intro j m h hx
      rw [World.put_hist, List.mem_append] at hx
      rcases hx with hx | hx
      · exact hx
      · obtain ⟨o, ho, heq⟩ := List.mem_map.mp hx
        obtain ⟨r, rfl⟩ := hos o ho
        cases heq
    refine ⟨fun j n hn => ?_, fun j m h hx => hc.sent j m h (hhist hx),
      fun j m h hx => hc.client j m h (hhist hx)⟩
    by_cases hj : j = i
    · subst hj
      simp at hn
    · rw [World.put_node_of_ne _ hj] at hn
      exact hc.log j n hn
  cases hs with
  | @node n n' o hn h =>
      have hsplit : ∀ {j m h'}, (j, Output.send (.req m h')) ∈ (w.put i (some n') o.toList).hist →
          (j, Output.send (.req m h')) ∈ w.hist ∨ o = some (.send (.req m h')) := by
        intro j m h' hx
        rw [World.put_hist, List.mem_append] at hx
        refine hx.imp id fun hx => ?_
        obtain ⟨o', ho', heq⟩ := List.mem_map.mp hx
        rw [Option.mem_toList, (Prod.mk.inj heq).2] at ho'
        exact ho'
      refine ⟨fun j m hj => ?_, fun j m h' hx ht => ?_, fun j m h' hx ht => ?_⟩
      · by_cases hji : j = i
        · subst hji
          rw [World.put_node_self] at hj
          obtain rfl : n' = m := Option.some.inj hj
          exact h.entries_keep hext hrem hk (hmem j n hn) hdel (hc.log j n hn)
        · rw [World.put_node_of_ne _ hji] at hj
          exact hc.log j m hj
      · rcases hsplit hx with hx | rfl
        · exact hc.sent j m h' hx ht
        · exact (h.request_keeps hext hk (hc.log i n hn) hcli).1 ht
      · rcases hsplit hx with hx | rfl
        · exact hc.client j m h' hx ht
        · exact (h.request_keeps hext hk (hc.log i n hn) hcli).2 ht
  | exit _ _ => exact hgone _ (by simp)
  | die => exact hgone _ (by simp)

/-- The configurations a server may apply are those in its log. -/
theorem keepsMembers_of_ordinary (hext : NoAdd ext) (hrem : .removeServerRequest ∉ ext)
    (hk : InputKind ext inp) {hist : Hist} (hlog : ∀ e ∈ n₀.log.entries, EntryKeeps S e)
    (hord : Ordinary S hist inp) : KeepsMembers S n₀ inp := by
  cases inp with
  | commitInBg =>
      intro c hc
      obtain ⟨e, he, hec⟩ := Option.bind_eq_some_iff.mp hc
      refine hlog e ?_ c hec
      unfold LogStore.entryAt at he
      split at he
      · cases he
      · exact List.mem_of_getElem? he
  | req m h env => exact hord.2
  | rpcError m h =>
      intro ht
      rw [InputKind, ht] at hk
      rcases hk with ⟨h | h | h, -⟩ | ⟨h, -⟩ | ⟨h, -⟩ | ⟨-, -, h⟩ | ⟨h, -⟩
      · cases h
      · cases h
      · cases h
      · cases h
      · cases h
      · exact absurd h hrem
      · rcases hext _ h with h | h <;> cases h
  | _ => trivial

/-! ## Runs -/

/-- A start or a restart with the configuration `S`, the saved state and any log. -/
structure StartsWith (S : List SrvConfig) (hist : Hist) (b : Boot) : Prop where
  mem : b.id ∈ S.map (·.id)
  config : b.config.servers = S
  state : b.state = lastSaved b.id hist
  log : ∀ e ∈ b.logStore.entries, EntryKeeps S e

/-- The steps of a cluster with the fixed members `S`: timers, packets in any
order, client requests, crashes in the middle of a handler and restarts. -/
def FixedStep (S : List SrvConfig) (c : Cluster) : Event → Prop
  | .act i inp => CanOccur [.clientRequest] c.hist i inp ∧ Ordinary S c.hist inp
  | .crash i inp _ => CanOccur [.clientRequest] c.hist i inp ∧ Ordinary S c.hist inp
  | .restart b => StartsWith S c.hist b

structure FixedInv (S : List SrvConfig) (w : World) : Prop where
  kinds : Kinds [.clientRequest] w.hist
  election : Election S w
  confs : Confs S w

theorem Ordinary.mono {hist hist' : Hist} (h : hist <+: hist') (ho : Ordinary S hist inp) :
    Ordinary S hist' inp := by
  cases inp with
  | req m h' env => exact ⟨fun ht hs => ho.1 ht fun hsent => hs (hsent.mono h), ho.2⟩
  | _ => trivial

theorem noAdd_client : NoAdd [.clientRequest] := by simp [NoAdd]

theorem FixedInv.step {c : Cluster} {s : RaftServer} {w₁ w₂ : World} (hno : noServer ∉ memberIds S)
    (hc : FixedInv S c.world) (hs : c.srv i = some s)
    (hok : CanOccur [.clientRequest] c.hist i inp ∧ Ordinary S c.hist inp)
    (hgrow : c.hist <+: w₁.hist) (hw : FixedInv S w₁) (h : World.Step i inp s.core w₁ w₂) :
    FixedInv S w₂ := by
  have hrem : MsgType.removeServerRequest ∉ [MsgType.clientRequest] := by decide
  have hk : InputKind [.clientRequest] inp := .of_canOccur hc.kinds hok.1
  have hnode : c.world.node i = some s.core := by simp [Cluster.world, hs]
  have hkeep := keepsMembers_of_ordinary noAdd_client hrem hk (hc.confs.log i _ hnode) hok.2
  have hocc := hok.1.mono hgrow
  exact ⟨hw.kinds.step noAdd_client hk h,
    hw.election.step noAdd_client hk (fun _ hl => hk.mayLead noAdd_client hrem hl) hocc
      (hc.election.member i _ hnode) hkeep (by decide) (by decide) hno h,
    hw.confs.step noAdd_client hrem hk hw.election.member hocc (hok.2.mono hgrow) h⟩

/-- A server that is up is the one that has started, or was up before. -/
theorem Cluster.node_of_start {c : Cluster} {b : Boot} {j : SrvId} {n : Core}
    (hn : (c.setSrv b.id (some (RaftServer.start b))).world.node j = some n) :
    (j = b.id ∧ n = (RaftServer.start b).core) ∨ c.world.node j = some n := by
  simp only [Cluster.world, Cluster.setSrv] at hn ⊢
  by_cases hj : j = b.id
  · rw [if_pos hj, Option.map_some, Option.some.injEq] at hn
    exact .inl ⟨hj, hn.symm⟩
  · rw [if_neg hj] at hn
    exact .inr hn

theorem FixedInv.restart {c : Cluster} {b : Boot} (hS : (S.map (·.id)).Nodup)
    (hc : FixedInv S c.world) (hb : StartsWith S c.hist b) :
    FixedInv S (c.setSrv b.id (some (RaftServer.start b))).world := by
  refine ⟨hc.kinds, ⟨⟨hc.election.ballots.order, hc.election.ballots.last, fun j n hn => ?_⟩,
    fun j n hn => ?_, fun j n hn => ?_, fun j n hn hr => ?_, hc.election.announced,
    hc.election.requests, hc.election.voters, hc.election.peaceful⟩,
    ⟨fun j n hn => ?_, hc.confs.sent, hc.confs.client⟩⟩
  · rcases Cluster.node_of_start hn with ⟨rfl, rfl⟩ | hn
    · show b.state.getD ⟨0, noServer⟩ = _
      rw [hb.state]
      rfl
    · exact hc.election.ballots.state j n hn
  · rcases Cluster.node_of_start hn with ⟨rfl, rfl⟩ | hn
    · exact Member.start hS hb.mem hb.config
    · exact hc.election.member j n hn
  · rcases Cluster.node_of_start hn with ⟨rfl, rfl⟩ | hn
    · exact fun h => absurd h (by simp [RaftServer.start, RaftServer.core])
    · exact hc.election.counted j n hn
  · rcases Cluster.node_of_start hn with ⟨rfl, rfl⟩ | hn
    · cases hr
    · exact hc.election.led j n hn hr
  · rcases Cluster.node_of_start hn with ⟨rfl, rfl⟩ | hn
    · exact hb.log
    · exact hc.confs.log j n hn

/-- No server up, nothing done. -/
def Cluster.down : Cluster := ⟨fun _ => none, []⟩

theorem fixedInv_of_reachable {c : Cluster} (hS : (S.map (·.id)).Nodup)
    (hno : noServer ∉ memberIds S)
    (h : Transition.Reachable Cluster.step (FixedStep S) .down c) : FixedInv S c.world := by
  refine h.invariant (P := fun c => FixedInv S c.world) ?_ fun c ev hc hok => ?_
  · refine ⟨by simp [Kinds, Cluster.world, Cluster.down], ?_, ?_⟩
    · constructor
      · constructor <;> simp [Cluster.world, Cluster.down, stancesOf, stances, outputsOf]
      all_goals simp [Cluster.world, Cluster.down]
    · constructor <;> simp [Cluster.world, Cluster.down]
  · cases ev with
    | act i inp =>
        exact Cluster.act_invariant hc fun s w₁ w₂ hs hg hw => hc.step hno hs hok hg hw
    | crash i inp k =>
        exact Cluster.crash_invariant hc fun s w₁ w₂ hs hg hw => hc.step hno hs hok hg hw
    | restart b =>
        simp only [Cluster.step, Cluster.restart]
        split
        · exact hc.restart hS hok
        · exact hc

/-- Election safety: a term has one leader, and no server ever meets another
leader of its own term. -/
theorem one_leader_per_term {c : Cluster} (hS : (S.map (·.id)).Nodup)
    (hno : noServer ∉ memberIds S)
    (h : Transition.Reachable Cluster.step (FixedStep S) .down c) :
    (∀ i j t, (i, .becomeLeader t) ∈ c.hist → (j, .becomeLeader t) ∈ c.hist → i = j) ∧
      ∀ i, (i, .exit .anotherLeader) ∉ c.hist := by
  have hinv := (fixedInv_of_reachable hS hno h).election
  refine ⟨fun i j t hi hj => ?_, hinv.peaceful⟩
  obtain ⟨h1, h2⟩ := hinv.announced i t hi
  obtain ⟨h3, h4⟩ := hinv.announced j t hj
  exact hinv.ballots.one_winner hno h1 h3 h2 h4

instance (e : LogEntry) : Decidable (EntryKeeps S e) :=
  inferInstanceAs (Decidable (∀ c ∈ _, _))

instance (hist : Hist) : DecidablePred (Ordinary S hist)
  | .req .. => inferInstanceAs (Decidable (_ ∧ _))
  | .electionTimeout | .hbTimeout _ | .commitInBg | .resp .. | .rpcError .. | .retry _
  | .snapshotCompleted _ | .replicateLog .. => inferInstanceAs (Decidable True)

instance (hist : Hist) (b : Boot) : Decidable (StartsWith S hist b) :=
  decidable_of_iff (b.id ∈ S.map (·.id) ∧ b.config.servers = S ∧ b.state = lastSaved b.id hist ∧
      ∀ e ∈ b.logStore.entries, EntryKeeps S e)
    ⟨fun ⟨h1, h2, h3, h4⟩ => ⟨h1, h2, h3, h4⟩, fun ⟨h1, h2, h3, h4⟩ => ⟨h1, h2, h3, h4⟩⟩

instance (c : Cluster) : DecidablePred (FixedStep S c)
  | .act .. | .crash .. => inferInstanceAs (Decidable (_ ∧ _))
  | .restart b => inferInstanceAs (Decidable (StartsWith S c.hist b))

namespace ThreeServers

def servers : List SrvConfig := [⟨1, "a"⟩, ⟨2, "b"⟩, ⟨3, "c"⟩]

def boot (i : SrvId) : Boot := { id := i, config := ⟨0, 0, servers⟩ }

/-- Server 1 wins term 1, dies while it sends a heartbeat, comes back with its
saved vote, and loses term 2 to server 2. -/
def schedule : List (Cluster → Event) :=
  [fun _ => .restart (boot 1), fun _ => .restart (boot 2), fun _ => .restart (boot 3), timeout 1,
   deliver 0, deliver 2, fun _ => .crash 1 (.hbTimeout 2) 0,
   fun _ => .restart { boot 1 with state := some ⟨1, 1⟩ }, timeout 2, deliver 6, deliver 7]

def cluster : Cluster := Transition.follow Cluster.step .down schedule

end ThreeServers

open ThreeServers in
theorem one_leader_per_term_three :
    ((1, .becomeLeader 1) ∈ cluster.hist ∧ (2, .becomeLeader 2) ∈ cluster.hist) ∧
    (∀ i j t, (i, .becomeLeader t) ∈ cluster.hist → (j, .becomeLeader t) ∈ cluster.hist → i = j) ∧
      ∀ i, (i, .exit .anotherLeader) ∉ cluster.hist :=
  ⟨by decide +kernel, one_leader_per_term (S := servers) (by decide) (by decide)
    (Transition.reachable_of_follows (by decide +kernel))⟩

end Ns3Raft.Raft
