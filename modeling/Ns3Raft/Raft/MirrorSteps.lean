import Ns3Raft.Raft.Mirror

/-! # The steps of a server on the replicated log

One lemma for each kind of step: a later term, a vote, a victory, an entry of a leader, an entry that a
follower takes, and the packets that speak of them.
-/

namespace Ns3Raft.Raft

open Majority Replication

variable {ext : List MsgType} {S : List SrvConfig} {i j : SrvId} {inp : Input} {n₀ n n' : Core}
  {o : Option Output} {w w' : World} {a a' : LogState} {hist : Hist}

/-! ## Steps that change neither log nor vote -/

/-- An output that is neither a stance nor a change of the log, and no packet that entries rest on. -/
def Output.Still : Output → Prop
  | .send (.req m _) =>
      m.type ≠ .appendEntriesRequest ∧ m.type ≠ .voteRequest ∧ m.type ≠ .installSnapshotRequest
  | .send (.resp r _ reqType) =>
      r.accepted = true → r.type ≠ .voteResponse ∧ reqType ≠ .appendEntriesRequest
  | .saveState _ | .append .. | .writeAt .. | .applyPack .. | .compact _ => False
  | _ => True

theorem Quiet.still (hext : NoAdd ext) (hk : InputKind ext inp) {o : Output} (h : Quiet inp o) : o.Still := by
  have hno : ∀ {m : ReqMsg} {t : MsgType}, m.type = t →
      t ∉ [MsgType.appendEntriesRequest, .voteRequest, .installSnapshotRequest] →
      m.type ≠ .appendEntriesRequest ∧ m.type ≠ .voteRequest ∧ m.type ≠ .installSnapshotRequest := by
    rintro m t rfl h
    simpa using h
  cases o with
  | send p =>
      cases p with
      | req m h' =>
          rcases h with ⟨ht, -⟩ | ⟨ht, -⟩ | ⟨ht, -⟩ | ⟨hadds, -⟩ | ⟨rfl, -⟩
          · exact hno ht (by decide)
          · exact hno ht (by decide)
          · exact hno ht (by decide)
          · exact absurd hadds (hk.not_adds hext)
          · rcases Kind.exResp hk with ht | ⟨ht, -⟩
            · exact hno ht (by decide)
            · exact hno ht (by decide)
      | resp r h' reqType => exact h.2
  | saveState | append | writeAt | applyPack | compact => exact h.elim
  | _ => trivial

namespace Output.Still

variable {x : Output}

theorem replay (h : x.Still) (l : LogStore) : x.replay l = l := by
  cases x with
  | append | writeAt | applyPack | compact => exact h.elim
  | _ => rfl

theorem saved (h : x.Still) : x.saved? = none := by
  cases x with
  | saveState => exact h.elim
  | _ => rfl

theorem stance (h : x.Still) : x.stance = none := by
  cases x with
  | saveState => exact h.elim
  | send p =>
      cases p with
      | req => rfl
      | resp r h' reqType => exact if_neg fun hr => (h hr.2).1 hr.1
  | _ => rfl

theorem carries (h : x.Still) (a : LogState) (i : SrvId) : Carries a i x := by
  cases x with
  | send p =>
      cases p with
      | req m h' => exact ⟨fun ht => absurd ht h.2.1, fun ht => absurd ht h.1, h.2.2⟩
      | resp r h' reqType => exact fun ht hacc => absurd ht (h hacc).2
  | _ => trivial

end Output.Still

theorem savedState_append_none (i : SrvId) (hist : Hist) (h : ∀ x ∈ o, x.saved? = none) :
    savedState i (hist ++ o.toList.map (i, ·)) = savedState i hist :=
  savedState_append_quiet i i hist fun x hx => h x (Option.mem_toList.mp hx)

theorem stancesOf_append_option (i : SrvId) (hist : Hist) (o : Option Output) :
    stancesOf i (hist ++ o.toList.map (i, ·)) = stancesOf i hist ++ (o.bind Output.stance).toList := by
  rw [stancesOf_append_self]
  cases o with
  | none => rfl
  | some x => cases hx : x.stance <;> simp [stances, hx]

theorem storedLog_append_option (hs : n.log = storedLog i hist) (h : NodeStep inp n₀ n o n') :
    storedLog i (hist ++ o.toList.map (i, ·)) = n'.log := by
  rw [storedLog_append_self, ← hs, h.replay]

/-- The log grows or is cut, and the saved state stays. -/
theorem Stored.write (hs : Stored a hist i) (hstart : n'.log.startIndex = 1)
    (hdisk : storedLog i (hist ++ o.toList.map (i, ·)) = n'.log) (hlog : a'.log i = n'.log.entries)
    (hterm : a'.term i = a.term i) (hballot : ∀ t, a'.ballot i t = a.ballot i t)
    (hsaved : ∀ x ∈ o, x.saved? = none)
    (hstance : ∀ x ∈ o, ∀ st ∈ x.stance, st = savedState i hist) :
    Stored a' (hist ++ o.toList.map (i, ·)) i := by
  refine ⟨?_, ?_, ?_, fun c hc => ?_, fun st hst hne => ?_⟩
  · rwa [hdisk]
  · rw [hdisk, hlog]
  · rw [savedState_append_none i hist hsaved, hterm, hs.term]
  · rw [savedState_append_none i hist hsaved, hterm, hballot]
    exact hs.voted c hc
  · rw [stancesOf_append_option, List.mem_append, Option.mem_toList] at hst
    rw [hballot]
    rcases hst with hst | hst
    · exact hs.stance st hst hne
    · obtain ⟨x, hx, hx'⟩ := Option.bind_eq_some_iff.mp hst
      obtain rfl := hstance x hx st hx'
      rw [← hs.term]
      exact (hs.voted _ hne).mp rfl

/-- A step that leaves the log and the state as they are. -/
theorem Mirrors.keep (hm : Mirrors S w a) (hn : w.node i = some n) (h : NodeStep inp n₀ n o n')
    (hlog : n'.log = n.log) (hstate : n'.state = n.state)
    (hrole : n'.role = n.role ∨ n'.role = .follower)
    (hopen : n'.electionCompleted = false → n.electionCompleted = false)
    (hsaved : ∀ x ∈ o, x.saved? = none)
    (hstance : ∀ x ∈ o, ∀ st ∈ x.stance, st = savedState i w.hist) (hcarries : ∀ x ∈ o, Carries a i x) :
    Mirrors S (w.put i (some n') o.toList) a := by
  have hplays := hm.plays i n hn
  have hstored := hm.stored i
  have hdisk := storedLog_append_option hplays.disk h
  refine hm.put hm.inv (Own.refl i a) (hm.candidate i) ?_ ?_ hcarries
  · refine hstored.write ?_ hdisk ?_ rfl (fun _ => rfl) hsaved hstance
    · rw [hlog, hplays.disk]
      exact hstored.start
    · rw [hlog, hplays.disk, hstored.log]
  · refine ⟨hdisk.symm, fun hr hv => ?_, fun hc => ?_, fun hr => ?_⟩
    · rw [hstate] at hv ⊢
      rw [hlog]
      refine hplays.standing ?_ hv
      rcases hrole with hrole | hrole
      · rwa [← hrole]
      · rw [hrole] at hr
        cases hr
    · rw [hstate]
      exact hplays.unfinished (hopen hc)
    · rw [hstate]
      refine hplays.leads ?_
      rcases hrole with hrole | hrole
      · rwa [← hrole]
      · rw [hrole] at hr
        cases hr

theorem Mirrors.still (hm : Mirrors S w a) (hn : w.node i = some n) (h : NodeStep inp n₀ n o n')
    (hlog : n'.log = n.log) (hstate : n'.state = n.state)
    (hrole : n'.role = n.role ∨ n'.role = .follower)
    (hopen : n'.electionCompleted = false → n.electionCompleted = false) (ho : ∀ x ∈ o, x.Still) :
    Mirrors S (w.put i (some n') o.toList) a :=
  hm.keep hn h hlog hstate hrole hopen (fun x hx => (ho x hx).saved)
    (fun x hx st hst => by simp [(ho x hx).stance] at hst) fun x hx => (ho x hx).carries a i

theorem storedLog_append_still (i : SrvId) (hist : Hist) (ho : ∀ x ∈ o, x.Still) :
    storedLog i (hist ++ o.toList.map (i, ·)) = storedLog i hist := by
  rw [storedLog_append_self]
  cases o with
  | none => rfl
  | some x => exact (ho x rfl).replay _

/-- The end of a process. -/
theorem Mirrors.gone (hm : Mirrors S w a) (ho : ∀ x ∈ o, x.Still) : Mirrors S (w.put i none o.toList) a := by
  have hown := Own.refl i a
  have hself : Stored a (w.hist ++ o.toList.map (i, ·)) i := by
    have hs := hm.stored i
    have hlog := storedLog_append_still i w.hist ho
    have hsaved := savedState_append_none i w.hist fun x hx => (ho x hx).saved
    refine ⟨?_, ?_, ?_, fun c hc => ?_, fun st hst hne => ?_⟩
    · rw [hlog]
      exact hs.start
    · rw [hlog]
      exact hs.log
    · rw [hsaved]
      exact hs.term
    · rw [hsaved]
      exact hs.voted c hc
    · rw [stancesOf_append_option, List.mem_append, Option.mem_toList] at hst
      rcases hst with hst | hst
      · exact hs.stance st hst hne
      · obtain ⟨x, hx, hx'⟩ := Option.bind_eq_some_iff.mp hst
        simp [(ho x hx).stance] at hx'
  refine ⟨hm.inv, hm.candidate, fun j => ?_, fun j n hn => ?_, fun x hx => ?_⟩
  · by_cases hj : j = i
    · subst hj
      exact hself
    · exact (hm.stored j).other hown hj _
  · by_cases hj : j = i
    · subst hj
      simp at hn
    · rw [World.put_node_of_ne _ hj] at hn
      exact (hm.plays j n hn).other hown hj _
  · rw [World.put_hist, List.mem_append] at hx
    rcases hx with hx | hx
    · exact hm.carries x hx
    · obtain ⟨x', hx', rfl⟩ := List.mem_map.mp hx
      exact (ho x' (Option.mem_toList.mp hx')).carries a i

/-! ## Steps that save a state -/

theorem savedState_append_saved (i : SrvId) (hist : Hist) (st : SrvState) :
    savedState i (hist ++ (some (Output.saveState st)).toList.map (i, ·)) = st :=
  savedState_append_save i hist st

/-- A later term, with no vote yet. -/
theorem Mirrors.newTerm (hm : Mirrors S w a) (hno : i ≠ noServer) (hstate : n.state = savedState i w.hist)
    (hn : w.node i = some n) {t : Nat} (ht : n.state.term < t)
    (h : NodeStep inp n₀ n (some (.saveState ⟨t, noServer⟩)) n') (hlog : n'.log = n.log)
    (hstate' : n'.state = ⟨t, noServer⟩) (hrole : n'.role ≠ .leader) :
    ∃ a', Moved S i a a' ∧ Mirrors S (w.put i (some n') (some (Output.saveState ⟨t, noServer⟩)).toList) a' := by
  have hplays := hm.plays i n hn
  have hs := hm.stored i
  have hlt : a.term i < t := by
    rw [hs.term, ← hstate]
    exact ht
  have hdisk := storedLog_append_option hplays.disk h
  have hown : Own i a (a.advance i t) := own_advance hlt
  refine ⟨a.advance i t, ⟨.inr (.advance i t hlt), hown, fun v _ => List.prefix_refl _⟩, ?_⟩
  refine hm.put (hm.inv.advance hlt) hown (hm.candidate i) ?_ ?_ fun x hx => ?_
  · refine ⟨?_, ?_, ?_, fun c hc => ?_, fun st hst hne => ?_⟩
    · rw [hdisk, hlog, hplays.disk]
      exact hs.start
    · rw [hdisk, hlog, hplays.disk]
      exact hs.log
    · rw [savedState_append_saved]
      simp
    · rw [savedState_append_saved]
      refine ⟨fun h => absurd h.symm hc, fun ⟨l, hl⟩ => ?_⟩
      -- nobody votes in a term to come
      have hle := hm.inv.ballot_le i _ c l hl
      simp only [State.advance_term, Function.update_self] at hle
      omega
    · rw [stancesOf_append_option, List.mem_append, Option.mem_toList] at hst
      rcases hst with hst | hst
      · exact hs.stance st hst hne
      · obtain rfl := Option.some.inj hst
        exact absurd rfl hne
  · refine ⟨hdisk.symm, fun _ hv => ?_, fun _ hw => ?_, fun hr => absurd hr hrole⟩
    · rw [hstate'] at hv
      exact absurd hv.symm hno
    · rw [hstate'] at hw
      have hle : t ≤ a.term i := hm.inv.winner_term _ _ hw
      omega
  · obtain rfl := Option.mem_some_iff.mp hx
    trivial

/-- The first vote of a term. -/
theorem Mirrors.vote (hm : Mirrors S w a) (hstate : n.state = savedState i w.hist)
    (hn : w.node i = some n) {c : SrvId} {l : List LogEntry} (hc : c ≠ noServer)
    (hnone : n.state.votedFor = noServer)
    (hcand : (c = i ∧ l = a.log i ∧ ∀ e ∈ l, e.term < a.term i) ∨ a.ballot c (a.term i) = some (c, l))
    (hup : UpToDate LogEntry.term l (a.log i))
    (h : NodeStep inp n₀ n (some (.saveState ⟨n.state.term, c⟩)) n') (hlog : n'.log = n.log)
    (hstate' : n'.state = ⟨n.state.term, c⟩) (hrole : n'.role = n.role)
    (hopen : n'.electionCompleted = n.electionCompleted) :
    ∃ a', Moved S i a a' ∧
      Mirrors S (w.put i (some n') (some (Output.saveState ⟨n.state.term, c⟩)).toList) a' := by
  have hplays := hm.plays i n hn
  have hs := hm.stored i
  have hterm : a.term i = n.state.term := by rw [hs.term, hstate]
  have hb : a.ballot i (a.term i) = none := by
    by_contra hne
    obtain ⟨⟨c', l'⟩, hl'⟩ := Option.ne_none_iff_exists'.mp hne
    have hc' := hm.candidate i _ c' l' hl'
    have hv := (hs.voted c' hc').mpr ⟨l', hl'⟩
    rw [← hstate, hnone] at hv
    exact hc' hv.symm
  have hdisk := storedLog_append_option hplays.disk h
  have hown : Own i a (a.vote i c) := own_vote c hb
  have hcast : (a.vote i c).ballot i (a.term i) = some (c, a.log i) := by simp
  refine ⟨a.vote i c, ⟨.inr (.vote i c l hb hcand hup), hown, fun v _ => List.prefix_refl _⟩, ?_⟩
  refine hm.put (hm.inv.vote hb hcand hup) hown (fun t c' l' hl' => ?_) ?_ ?_ fun x hx => ?_
  · by_cases ht : t = a.term i
    · rw [ht, hcast, Option.some.injEq, Prod.mk.injEq] at hl'
      exact hl'.1 ▸ hc
    · exact hm.candidate i t c' l' (by simpa [Function.update_of_ne ht] using hl')
  · refine ⟨?_, ?_, ?_, fun c' hc' => ?_, fun st hst hne => ?_⟩
    · rw [hdisk, hlog, hplays.disk]
      exact hs.start
    · rw [hdisk, hlog, hplays.disk]
      exact hs.log
    · rw [savedState_append_saved]
      exact hterm
    · rw [savedState_append_saved, State.vote_term, hcast]
      exact ⟨fun h => ⟨a.log i, by rw [← h]⟩, fun ⟨l', hl'⟩ => congrArg Prod.fst (Option.some.inj hl')⟩
    · rw [stancesOf_append_option, List.mem_append, Option.mem_toList] at hst
      rcases hst with hst | hst
      · obtain ⟨l', hl'⟩ := hs.stance st hst hne
        exact ⟨l', hown.ballot _ _ _ hl'⟩
      · obtain rfl := Option.some.inj hst
        exact ⟨a.log i, by rw [← hterm]; exact hcast⟩
  · refine ⟨hdisk.symm, fun _ hv => ?_, fun hc' => ?_, fun hr => ?_⟩
    · rw [hstate'] at hv ⊢
      rw [← hterm, hlog, hplays.disk, ← hs.log, hcast]
      exact congrArg (fun v => some (v, a.log i)) hv
    · rw [hstate']
      exact hplays.unfinished (hopen ▸ hc')
    · rw [hstate']
      exact hplays.leads (hrole ▸ hr)
  · obtain rfl := Option.mem_some_iff.mp hx
    trivial

/-! ## Steps of a leader -/

/-- More than half of the members have voted for the server. -/
theorem Mirrors.win (hm : Mirrors S w a) (hel : Election S w) (hno : noServer ∉ memberIds S)
    (hn : w.node i = some n) (h : NodeStep inp n₀ n none n') (hopen : n.electionCompleted = false)
    (hmaj : (n.peers.length + 1) / 2 < n.votesGranted)
    (hn' : n' = { n with role := .leader, electionCompleted := true }) :
    ∃ a', Moved S i a a' ∧ Mirrors S (w.put i (some n') []) a' := by
  have hplays := hm.plays i n hn
  have hs := hm.stored i
  have hmem := hel.member i n hn
  have hi : i ≠ noServer := by
    rintro rfl
    exact hno (by simpa using hmem.mem)
  have hterm : a.term i = n.state.term := by rw [hs.term, hel.ballots.state i n hn]
  obtain ⟨G, hG, hcard, hall⟩ := hel.counted i n hn hopen
  have hmajority : IsMajority (memberIds S) G := by
    refine ⟨hG, ?_⟩
    rw [hmem.card, hcard]
    omega
  have hvotes : ∀ u ∈ G, ∃ l, a.ballot u (a.term i) = some (i, l) := by
    intro u hu
    rw [hterm]
    exact (hm.stored u).stance _ (hall u hu).2 hi
  have hnone : a.winner (a.term i) = none := by
    by_contra hne
    obtain ⟨v, hv⟩ := Option.ne_none_iff_exists'.mp hne
    obtain ⟨Q, hQ, hvotes'⟩ := hm.inv.elected _ _ hv
    obtain ⟨u, huG, huQ⟩ := hmajority.meet hQ
    obtain ⟨l, hl⟩ := hvotes u huG
    obtain ⟨l', hl', -⟩ := hvotes' u huQ
    obtain rfl : i = v := by
      rw [hl, Option.some.injEq, Prod.mk.injEq] at hl'
      exact hl'.1
    exact hplays.unfinished hopen (hterm ▸ hv)
  have hown : Own i a (a.win i) := own_win hnone
  have hdisk := storedLog_append_option hplays.disk h
  refine ⟨a.win i, ⟨.inr (.win i G hnone hmajority hvotes), hown, fun v _ => List.prefix_refl _⟩, ?_⟩
  refine hm.put (o := none) (hm.inv.win hnone hmajority hvotes) hown (hm.candidate i) ?_ ?_ (by simp)
  · refine hs.write ?_ hdisk ?_ rfl (fun _ => rfl) (by simp) (by simp)
    · rw [hn', hplays.disk]
      exact hs.start
    · rw [hn', hplays.disk]
      exact hs.log
  · refine ⟨hdisk.symm, fun hr => ?_, fun hc => ?_, fun _ => ?_⟩
    · rw [hn'] at hr
      cases hr
    · rw [hn'] at hc
      cases hc
    · rw [hn', ← hterm]
      simp

theorem Mirrors.winner_of_leader (hm : Mirrors S w a) (hstate : n.state = savedState i w.hist)
    (hn : w.node i = some n) (hr : n.role = .leader) : a.term i = n.state.term ∧ a.winner (a.term i) = some i := by
  have hterm : a.term i = n.state.term := by rw [(hm.stored i).term, hstate]
  exact ⟨hterm, hterm ▸ (hm.plays i n hn).leads hr⟩

/-- A leader appends an entry of its term. -/
theorem Mirrors.create (hm : Mirrors S w a) (hstate : n.state = savedState i w.hist)
    (hn : w.node i = some n) (hr : n.role = .leader) {e : LogEntry} (he : e.term = n.state.term)
    {c : ClusterConfig}
    (h : NodeStep inp n₀ n (some (.append n.role n.state.term n.log.nextSlot e)) n')
    (hn' : n' = { n with log := n.log.append e, config := c }) :
    ∃ a', Moved S i a a' ∧ Mirrors S
      (w.put i (some n') (some (Output.append n.role n.state.term n.log.nextSlot e)).toList) a' := by
  have hplays := hm.plays i n hn
  have hs := hm.stored i
  obtain ⟨hterm, hw⟩ := hm.winner_of_leader hstate hn hr
  have hown : Own i a (a.extend i e) := own_extend i e
  have hdisk := storedLog_append_option hplays.disk h
  have hlog : a.log i = n.log.entries := by rw [hs.log, hplays.disk]
  refine ⟨a.extend i e, ⟨.inr (.extend i e hw (he.trans hterm.symm)), hown, fun v _ => ?_⟩, ?_⟩
  · by_cases hv : v = i
    · subst hv
      simp
    · exact (hown.other v hv).1 ▸ List.prefix_refl _
  refine hm.put (hm.inv.extend hw (he.trans hterm.symm)) hown (hm.candidate i) ?_ ?_ fun x hx => ?_
  · refine hs.write ?_ hdisk ?_ rfl (fun _ => rfl) (by simp [Output.saved?]) (by simp [Output.stance])
    · rw [hn', LogStore.append_startIndex, hplays.disk]
      exact hs.start
    · rw [hn', State.extend_log, Function.update_self, hlog]
      rfl
  · refine ⟨hdisk.symm, fun hr' => ?_, fun hc => ?_, fun hr' => ?_⟩
    · rw [hn', hr] at hr'
      cases hr'
    · rw [hn'] at hc ⊢
      exact hplays.unfinished hc
    · rw [hn']
      exact hplays.leads hr
  · obtain rfl := Option.mem_some_iff.mp hx
    trivial

/-! ## Entries that a follower takes -/

theorem LogStore.entryAt_succ {l : LogStore} (hs : l.startIndex = 1) (p : Nat) : l.entryAt (p + 1) = l.entries[p]? := by
  rw [LogStore.entryAt, hs, if_neg (by omega), Nat.add_sub_cancel]

theorem LogStore.termAt_succ {l : LogStore} (hs : l.startIndex = 1) (p : Nat) :
    l.termAt (p + 1) = (l.entries[p]?).map (·.term) := by
  rw [LogStore.termAt, LogStore.entryAt_succ hs]

theorem FromLead.getElem? {m : ReqMsg} (hf : FromLead a m) {k : Nat} {e : LogEntry}
    (he : m.logEntries[k]? = some e) : (a.lead m.term)[m.lastLogIdx + k]? = some e := by
  obtain ⟨hk, -⟩ := List.getElem?_eq_some_iff.mp he
  obtain ⟨z, hz⟩ := hf.entries
  have hlen : ((a.lead m.term).take m.lastLogIdx).length = m.lastLogIdx := by
    rw [List.length_take, Nat.min_eq_left hf.le]
  rw [← hz, List.getElem?_append_left (by rw [List.length_append, hlen]; omega),
    List.getElem?_append_right (by omega), hlen, Nat.add_sub_cancel_left, he]

theorem FromLead.add_length_le {m : ReqMsg} (hf : FromLead a m) :
    m.lastLogIdx + m.logEntries.length ≤ (a.lead m.term).length := by
  have hle := hf.entries.length_le
  rw [List.length_append, List.length_take, Nat.min_eq_left hf.le] at hle
  exact hle

/-- Where the terms agree up to, the entries do. -/
theorem FromLead.take {m : ReqMsg} (hf : FromLead a m) (hi : Inv LogEntry.term (memberIds S) a)
    (hterm : m.term = a.term i) (hlog : n.log.entries = a.log i) (hstart : n.log.startIndex = 1) {k : Nat}
    (hmat : n.Matches m k) :
    (a.log i).take (m.lastLogIdx + k) = (a.lead m.term).take (m.lastLogIdx + k) := by
  have hw : a.winner (a.term i) ≠ none := by simp [← hterm, hf.won]
  cases k with
  | zero =>
      rcases Nat.eq_zero_or_pos m.lastLogIdx with hz | hpos
      · simp [hz]
      · obtain ⟨p, hp⟩ := Nat.exists_eq_add_of_lt hpos
        have hprev := hf.prev (by omega)
        have hown := (hmat.prev (by omega)).2
        rw [Core.termForLog, if_neg (by omega), if_pos (by omega)] at hown
        rw [show m.lastLogIdx = p + 1 by omega] at hprev hown ⊢
        rw [LogStore.termAt_succ hstart, hlog] at hown
        rw [hterm] at hprev ⊢
        exact hi.take_of_term hw hown hprev
  | succ k =>
      have hlt : k < m.logEntries.length := hmat.le_length
      have he := List.getElem?_eq_getElem hlt
      have hown := hmat.entries k _ (Nat.lt_succ_self k) he
      rw [show m.lastLogIdx + 1 + k = m.lastLogIdx + k + 1 by omega, LogStore.termAt_succ hstart, hlog] at hown
      have hlead := congrArg (Option.map LogEntry.term) (hf.getElem? he)
      rw [hterm] at hlead ⊢
      exact hi.take_of_term hw hown hlead

/-- A delivered append request comes from the one who won its term, who is someone else. -/
theorem Mirrors.delivered (hm : Mirrors S w a) (hel : Election S w) (hext : NoAdd ext) {m : ReqMsg}
    {h : RpcHandler} {env : Env} (hocc : CanOccur ext w.hist i (.req m h env))
    (ht : m.type = .appendEntriesRequest) : FromLead a m ∧ m.src ∈ memberIds S ∧ m.src ≠ i := by
  rcases hocc with ⟨hsent, hdst⟩ | ⟨hmem, -⟩
  · obtain ⟨⟨j, o⟩, hx, ho⟩ := List.mem_map.mp hsent
    obtain rfl : o = .send (.req m h) := ho
    obtain ⟨h1, h2, -⟩ := hel.requests j m h hx (.inl ht)
    exact ⟨(hm.carries _ hx).2.1 ht, h1, hdst ▸ h2⟩
  · rw [ht] at hmem
    rcases hext _ hmem with h | h <;> cases h

theorem Mirrors.accept (hm : Mirrors S w a) (hstate : n.state = savedState i w.hist)
    (hn : w.node i = some n) {m : ReqMsg} (hf : FromLead a m) (hsrc : m.src ∈ memberIds S) (hne : m.src ≠ i)
    (hi : i ∈ memberIds S) (hterm : m.term = n.state.term) (hr : n.role = .follower) {k : Nat}
    (hk : k ≤ (a.lead m.term).length)
    (hadopts : Adopts (a.log i) ((a.lead m.term).take k) n'.log.entries)
    (h : NodeStep inp n₀ n o n') (hstate' : n'.state = n.state) (hrole : n'.role = n.role)
    (hopen : n'.electionCompleted = n.electionCompleted) (hstart : n'.log.startIndex = 1)
    (hsaved : ∀ x ∈ o, x.saved? = none) (hstance : ∀ x ∈ o, x.stance = none)
    (hcarries : ∀ x ∈ o, Carries (a.accept i k n'.log.entries) i x) :
    ∃ a', Moved S i a a' ∧ Mirrors S (w.put i (some n') o.toList) a' := by
  have hplays := hm.plays i n hn
  have hs := hm.stored i
  have hterm' : m.term = a.term i := by rw [hs.term, ← hstate, hterm]
  rw [hterm'] at hk hadopts
  have hw : a.winner (a.term i) = some m.src := hterm' ▸ hf.won
  have hown : Own i a (a.accept i k n'.log.entries) := own_accept i k _
  have hdisk := storedLog_append_option hplays.disk h
  refine ⟨_, ⟨.inr (.accept i m.src k _ hw hne hk hadopts), hown, fun v hv => ?_⟩, ?_⟩
  · -- a single member has nobody to take entries from
    rw [hv, Finset.mem_singleton] at hsrc hi
    exact absurd (hsrc.trans hi.symm) hne
  refine hm.put (hm.inv.accept hw hne hk hadopts) hown (hm.candidate i) ?_ ?_ hcarries
  · refine hs.write hstart hdisk ?_ rfl (fun _ => rfl) hsaved fun x hx st hst => ?_
    · simp
    · rw [hstance x hx] at hst
      cases hst
  · refine ⟨hdisk.symm, fun hr' => ?_, fun hc => ?_, fun hr' => ?_⟩
    · rw [hrole, hr] at hr'
      cases hr'
    · rw [hstate']
      exact hplays.unfinished (hopen ▸ hc)
    · rw [hrole, hr] at hr'
      cases hr'

/-- An entry of the request goes into the log. -/
theorem Mirrors.write (hm : Mirrors S w a) (hel : Election S w) (hext : NoAdd ext)
    (hn : w.node i = some n) {m : ReqMsg} {h' : RpcHandler} {env : Env}
    (hocc : CanOccur ext w.hist i (.req m h' env)) {k : Nat} {e : LogEntry} {x : Output}
    (hmat : n.Matches m k) (he : m.logEntries[k]? = some e)
    (hdiff : n.log.termAt (m.lastLogIdx + 1 + k) ≠ some e.term)
    (hx : x = .writeAt (m.lastLogIdx + 1 + k) e ∨
      x = .append n.role n.state.term (m.lastLogIdx + 1 + k) e)
    (h : NodeStep inp n₀ n (some x) { n with log := n.log.writeAt (m.lastLogIdx + 1 + k) e }) :
    ∃ a', Moved S i a a' ∧ Mirrors S
      (w.put i (some { n with log := n.log.writeAt (m.lastLogIdx + 1 + k) e }) (some x).toList) a' := by
  have hplays := hm.plays i n hn
  have hs := hm.stored i
  have hstate := hel.ballots.state i n hn
  obtain ⟨hf, hsrc, hne⟩ := hm.delivered hel hext hocc hmat.type
  have hstart : n.log.startIndex = 1 := by rw [hplays.disk, hs.start]
  have hlog : n.log.entries = a.log i := by rw [hplays.disk, hs.log]
  have hterm : m.term = a.term i := by rw [hs.term, ← hstate, hmat.term]
  have hlead := hf.getElem? he
  have hadopts : Adopts (a.log i) ((a.lead m.term).take (m.lastLogIdx + k + 1))
      (n.log.writeAt (m.lastLogIdx + 1 + k) e).entries := by
    have htake := hf.take hm.inv hterm hlog hstart hmat
    rw [show m.lastLogIdx + 1 + k = m.lastLogIdx + k + 1 by omega, LogStore.termAt_succ hstart, hlog] at hdiff
    simp only [LogStore.writeAt, hstart, hlog]
    rw [show m.lastLogIdx + 1 + k - 1 = m.lastLogIdx + k by omega]
    rw [hterm] at htake hlead ⊢
    exact adopts_write htake hlead hdiff
  have hk : m.lastLogIdx + k + 1 ≤ (a.lead m.term).length := (List.getElem?_eq_some_iff.mp hlead).1
  refine hm.accept hstate hn hf hsrc hne (by simpa using (hel.member i n hn).mem) hmat.term hmat.role hk hadopts
    h rfl rfl rfl hstart ?_ ?_ ?_
  · rcases hx with rfl | rfl <;> simp [Output.saved?]
  · rcases hx with rfl | rfl <;> simp [Output.stance]
  · rcases hx with rfl | rfl <;> simp [Carries]

/-- The follower has all entries of the request. -/
theorem Mirrors.sendAck (hm : Mirrors S w a) (hel : Election S w) (hext : NoAdd ext)
    (hn : w.node i = some n) {m : ReqMsg} {h' : RpcHandler} {env : Env}
    (hocc : CanOccur ext w.hist i (.req m h' env)) (hmat : n.Matches m m.logEntries.length) {r : RespMsg}
    (htype : r.type = .appendEntriesResponse) (hrterm : r.term = n.state.term)
    (hnext : r.nextIdx = m.lastLogIdx + m.logEntries.length + 1)
    (h : NodeStep inp n₀ n (some (.send (.resp r h' .appendEntriesRequest))) n) :
    ∃ a', Moved S i a a' ∧ Mirrors S
      (w.put i (some n) (some (Output.send (.resp r h' .appendEntriesRequest))).toList) a' := by
  have hplays := hm.plays i n hn
  have hs := hm.stored i
  have hstate := hel.ballots.state i n hn
  obtain ⟨hf, hsrc, hne⟩ := hm.delivered hel hext hocc hmat.type
  have hstart : n.log.startIndex = 1 := by rw [hplays.disk, hs.start]
  have hlog : n.log.entries = a.log i := by rw [hplays.disk, hs.log]
  have hterm : m.term = a.term i := by rw [hs.term, ← hstate, hmat.term]
  have hadopts : Adopts (a.log i) ((a.lead m.term).take (m.lastLogIdx + m.logEntries.length)) n.log.entries := by
    refine .inl ⟨?_, hlog⟩
    rw [← hf.take hm.inv hterm hlog hstart hmat]
    exact List.take_prefix _ _
  refine hm.accept hstate hn hf hsrc hne (by simpa using (hel.member i n hn).mem) hmat.term hmat.role
    hf.add_length_le hadopts h rfl rfl rfl hstart ?_ ?_ ?_
  · simp [Output.saved?]
  · simp [Output.stance, htype]
  · intro x hx
    obtain rfl := Option.mem_some_iff.mp hx
    intro _ _
    rw [hrterm, ← hmat.term, hterm]
    refine ⟨by simp [← hterm, hf.won], ?_⟩
    simp only [State.accept_acked, Function.update_self]
    omega

/-! ## Packets of a leader and of a candidate -/

theorem Mirrors.sendAppend (hm : Mirrors S w a) (hel : Election S w) (hn : w.node i = some n)
    (hr : n.role = .leader) {m : ReqMsg} (hmsg : n.IsAppend m) {h' : RpcHandler}
    (h : NodeStep inp n₀ n (some (.send (.req m h'))) n) :
    Mirrors S (w.put i (some n) (some (Output.send (.req m h'))).toList) a := by
  have hplays := hm.plays i n hn
  have hs := hm.stored i
  obtain ⟨hterm, hw⟩ := hm.winner_of_leader (hel.ballots.state i n hn) hn hr
  have hstart : n.log.startIndex = 1 := by rw [hplays.disk, hs.start]
  have hlead : a.lead m.term = n.log.entries := by
    rw [hmsg.term, ← hterm, ← hm.inv.winner_log i hw, hs.log, hplays.disk]
  have hprev := hmsg.prev_lt
  rw [LogStore.nextSlot, hstart] at hprev
  refine hm.keep hn h rfl rfl (.inl rfl) id (by simp [Output.saved?]) (by simp [Output.stance]) fun x hx => ?_
  obtain rfl := Option.mem_some_iff.mp hx
  refine ⟨fun ht => ?_, fun _ => ⟨?_, ?_, ?_, fun hne => ?_⟩, ?_⟩
  · rw [hmsg.type] at ht
    cases ht
  · rw [hmsg.term, ← hterm, hw, hmsg.src, (hel.member i n hn).id]
  · rw [hlead]
    omega
  · obtain ⟨k, hk⟩ := hmsg.entries
    simp only [ReqMsg.logEntries, hk, hlead, hstart, Nat.add_sub_cancel]
    rw [← List.take_add]
    exact List.take_prefix _ _
  · have hown := hmsg.prev_term
    obtain ⟨p, hp⟩ := Nat.exists_eq_succ_of_ne_zero hne
    rw [Core.termForLog, if_neg hne, if_pos (by omega), hp, Nat.succ_eq_add_one, LogStore.termAt_succ hstart] at hown
    rw [hlead, hp, Nat.succ_eq_add_one, Nat.add_sub_cancel]
    exact hown
  · rw [hmsg.type]
    decide

theorem Mirrors.sendVoteReq (hm : Mirrors S w a) (hn : w.node i = some n) (hr : n.role = .candidate)
    (hi : n.id = i) {m : ReqMsg} (hstate : n.state = ⟨m.term, n.id⟩) (htype : m.type = .voteRequest)
    (hsrc : m.src = n.id) (hidx : m.lastLogIdx = n.log.lastIndex)
    (hlast : n.termForLog m.lastLogIdx = some m.lastLogTerm) {h' : RpcHandler}
    (h : NodeStep inp n₀ n (some (.send (.req m h'))) n) :
    Mirrors S (w.put i (some n) (some (Output.send (.req m h'))).toList) a := by
  have hplays := hm.plays i n hn
  have hstart : n.log.startIndex = 1 := by rw [hplays.disk, (hm.stored i).start]
  have hlen : n.log.lastIndex = n.log.entries.length := by
    rw [LogStore.lastIndex, LogStore.nextSlot, hstart]
    omega
  have hballot := hplays.standing hr (by rw [hstate]; exact hi)
  refine hm.keep hn h rfl rfl (.inl rfl) id (by simp [Output.saved?]) (by simp [Output.stance]) fun x hx => ?_
  obtain rfl := Option.mem_some_iff.mp hx
  refine ⟨fun _ => ⟨n.log.entries, ?_, by rw [hidx, hlen], ?_⟩, fun ht => ?_, ?_⟩
  · rw [hsrc, hi]
    rw [hstate] at hballot
    exact hballot
  · rw [hidx, hlen] at hlast
    rw [lastTerm, List.getLast?_eq_getElem?]
    rcases Nat.eq_zero_or_pos n.log.entries.length with hz | hpos
    · rw [Core.termForLog, if_pos hz] at hlast
      obtain hnil := List.length_eq_zero_iff.mp hz
      rw [hnil]
      exact Option.some.inj hlast
    · rw [Core.termForLog, if_neg (by omega), if_pos (by omega)] at hlast
      obtain ⟨p, hp⟩ := Nat.exists_eq_succ_of_ne_zero (Nat.ne_of_gt hpos)
      rw [hp, Nat.succ_eq_add_one, LogStore.termAt_succ hstart] at hlast
      rw [hp, Nat.succ_eq_add_one, Nat.add_sub_cancel, hlast, Option.getD_some]
  · rw [htype] at ht
    cases ht
  · rw [htype]
    decide

/-- A vote for the sender of a request. -/
theorem Mirrors.grant (hm : Mirrors S w a) (hel : Election S w) (hext : NoAdd ext) (hn : w.node i = some n)
    {m : ReqMsg} {h' : RpcHandler} {env : Env} (hocc : CanOccur ext w.hist i (.req m h' env))
    (htype : m.type = .voteRequest) (hterm : m.term = n.state.term)
    (hvote : n.state.votedFor = m.src ∨ n.state.votedFor = noServer) (hokay : n.voteLogOkay m)
    (h : NodeStep inp n₀ n (some (.saveState ⟨n.state.term, m.src⟩))
      { n with state := ⟨n.state.term, m.src⟩ }) :
    ∃ a', Moved S i a a' ∧ Mirrors S (w.put i (some { n with state := ⟨n.state.term, m.src⟩ })
      (some (Output.saveState ⟨n.state.term, m.src⟩)).toList) a' := by
  have hplays := hm.plays i n hn
  have hs := hm.stored i
  have hstate := hel.ballots.state i n hn
  have hterm' : m.term = a.term i := by rw [hs.term, ← hstate, hterm]
  obtain ⟨l, hl, hlen, hlast⟩ : ∃ l, a.ballot m.src m.term = some (m.src, l) ∧
      l.length = m.lastLogIdx ∧ lastTerm LogEntry.term l = m.lastLogTerm := by
    rcases hocc with ⟨hsent, -⟩ | ⟨hmem, -⟩
    · obtain ⟨⟨j, o⟩, hx, ho⟩ := List.mem_map.mp hsent
      obtain rfl : o = .send (.req m h') := ho
      exact (hm.carries _ hx).1 htype
    · rw [htype] at hmem
      rcases hext _ hmem with h | h <;> cases h
  have hsrc := hm.candidate _ _ _ _ hl
  by_cases hvoted : n.state.votedFor = m.src
  · -- the vote is given again
    have hsame : (⟨n.state.term, m.src⟩ : SrvState) = n.state := by rw [← hvoted]
    refine ⟨a, Moved.refl S i a, ?_⟩
    have hdisk := storedLog_append_option hplays.disk h
    rw [hsame] at hdisk ⊢
    have hlog : storedLog i (w.hist ++ (some (Output.saveState n.state)).toList.map (i, ·)) = storedLog i w.hist := by
      rw [hdisk, ← hplays.disk]
    have hsaved : savedState i (w.hist ++ (some (Output.saveState n.state)).toList.map (i, ·)) =
        savedState i w.hist := by
      rw [savedState_append_saved, hstate]
    refine hm.put hm.inv (Own.refl i a) (hm.candidate i) ⟨?_, ?_, ?_, ?_, fun st hst hne => ?_⟩
      ⟨hdisk.symm, hplays.standing, hplays.unfinished, hplays.leads⟩ fun x hx => ?_
    · rw [hlog]
      exact hs.start
    · rw [hlog]
      exact hs.log
    · rw [hsaved]
      exact hs.term
    · rw [hsaved]
      exact hs.voted
    · rw [stancesOf_append_option, List.mem_append, Option.mem_toList] at hst
      rcases hst with hst | hst
      · exact hs.stance st hst hne
      · obtain rfl := Option.some.inj hst
        rw [hstate] at hne ⊢
        rw [← hs.term]
        exact (hs.voted _ hne).mp rfl
    · obtain rfl := Option.mem_some_iff.mp hx
      trivial
  · have hnone := hvote.resolve_left hvoted
    have hlog : n.log.entries = a.log i := by rw [hplays.disk, hs.log]
    have hup : UpToDate LogEntry.term l (a.log i) := by
      have hlastterm : lastTerm LogEntry.term (a.log i) = n.log.lastEntry.term := by
        rw [lastTerm, LogStore.lastEntry, hlog]
        cases (a.log i).getLast? <;> rfl
      have hidx : n.log.lastIndex = (a.log i).length := by
        rw [LogStore.lastIndex, LogStore.nextSlot, ← hlog, hplays.disk, hs.start]
        omega
      rcases hokay with hokay | ⟨hokay, hle⟩
      · refine .inl ?_
        rwa [hlast, hlastterm]
      · refine .inr ⟨?_, ?_⟩
        · rw [hlast, hlastterm, hokay]
        · rwa [hlen, ← hidx]
    exact hm.vote hstate hn hsrc hnone (.inr (hterm' ▸ hl)) hup h rfl rfl rfl rfl

/-! ## Every step -/

/-- Every step of a server is one of the replicated log, or leaves it as it is. -/
theorem Mirrors.node (hext : NoAdd ext) (hk : InputKind ext inp) (hocc : CanOccur ext w.hist i inp)
    (hno : noServer ∉ memberIds S) (hlead : ∀ n, MayLead inp n₀ n → n.role = .leader)
    (hsnp : n₀.snpInProgress = none) (hlow : ∀ e ∈ n₀.log.entries, e.term ≤ n₀.state.term)
    (hel : Election S w) (hm : Mirrors S w a) (hn : w.node i = some n) (h : NodeStep inp n₀ n o n') :
    ∃ a', Moved S i a a' ∧ Mirrors S (w.put i (some n') o.toList) a' := by
  have hmem := hel.member i n hn
  have hstate := hel.ballots.state i n hn
  have hi : i ≠ noServer := by
    rintro rfl
    exact hno (by simpa using hmem.mem)
  have hplays := hm.plays i n hn
  have hstay : Mirrors S (w.put i (some n') o.toList) a →
      ∃ a', Moved S i a a' ∧ Mirrors S (w.put i (some n') o.toList) a' :=
    fun h => ⟨a, Moved.refl S i a, h⟩
  have hquiet : ∀ x ∈ (none : Option Output), x.Still := fun x hx => by cases hx
  have h' := h
  cases h with
  | quiet hq =>
      refine hstay (hm.still hn h' rfl rfl (.inl rfl) id fun x hx => ?_)
      exact Option.mem_some_iff.mp hx ▸ hq.still hext hk
  | newTerm _ hlt _ => exact hm.newTerm hi hstate hn hlt h' rfl rfl (by simp)
  | demote _ _ _ _ => exact hstay (hm.still hn h' rfl rfl (.inr rfl) id hquiet)
  | stand _ => exact hm.newTerm hi hstate hn (Nat.lt_succ_self _) h' rfl rfl (by simp)
  | selfVote hstood =>
      have hs := hm.stored i
      have hterm : a.term i = n₀.state.term + 1 := by rw [hs.term, ← hstate, hstood]
      have hlog : a.log i = n₀.log.entries := by rw [hs.log, ← hplays.disk, hstood]
      refine hm.vote (l := a.log i) hstate hn (hmem.id.symm ▸ hi) (by rw [hstood])
        (.inl ⟨hmem.id, rfl, fun e he => ?_⟩) (.inr ⟨rfl, Nat.le_refl _⟩) h' rfl rfl rfl rfl
      have := hlow e (hlog ▸ he)
      omega
  | grant hinp htype hterm hvote hokay =>
      subst hinp
      exact hm.grant hel hext hn hocc htype hterm hvote hokay h'
  | sendVote htype hsrc hst _ =>
      refine hstay (hm.keep hn h' rfl rfl (.inl rfl) id (by simp [Output.saved?]) ?_ ?_)
      · intro x hx st hx'
        obtain rfl := Option.mem_some_iff.mp hx
        rw [Output.stance] at hx'
        split at hx'
        · rw [← hstate, hst]
          exact (Option.some.inj hx').symm
        · cases hx'
      · intro x hx
        obtain rfl := Option.mem_some_iff.mp hx
        exact fun ht => by cases ht
  | win hopen hmaj => exact hm.win hel hno hn h' hopen hmaj rfl
  | complete => exact hstay (hm.still hn h' rfl rfl (.inl rfl) (by simp) hquiet)
  | create hl he _ _ => exact hm.create hstate hn (hlead n hl) he h' rfl
  | sendAppend hl hmsg => exact hstay (hm.sendAppend hel hn (hlead n hl) hmsg h')
  | sendInstall _ hstart _ _ _ _ =>
      rw [hplays.disk, (hm.stored i).start] at hstart
      omega
  | sendVoteReq hr hst htype hsrc _ hidx hlast _ =>
      exact hstay (hm.sendVoteReq hn hr hmem.id hst htype hsrc hidx hlast h')
  | write hinp hmat he _ hdiff hx =>
      subst hinp
      exact hm.write hel hext hn hocc hmat he hdiff hx h'
  | sendAck hinp hmat htype _ _ _ hrterm hnext =>
      subst hinp
      exact hm.sendAck hel hext hn hocc hmat htype hrterm hnext h'
  | compact _ hsome _ _ _ =>
      rw [hsnp] at hsome
      cases hsome
  | join hinp htype _ _ _ => exact absurd htype (InputKind.not_join hext (hinp ▸ hk))
  | joinConf hinp htype _ => exact absurd htype (InputKind.not_join hext (hinp ▸ hk))
  | bulk hb =>
      have hbulk := hb.bulk
      cases inp with
      | req m h env =>
          rcases hbulk with ht | ht
          · exact absurd ht (Kind.ne_of_noAdd hext hk).2.2
          · rcases hocc with ⟨hsent, -⟩ | ⟨hext', -⟩
            · obtain ⟨⟨j, x⟩, hx, hx'⟩ := List.mem_map.mp hsent
              obtain rfl : x = .send (.req m h) := hx'
              exact absurd ht (hm.carries _ hx).2.2
            · rw [ht] at hext'
              rcases hext _ hext' with h | h <;> cases h
      | _ => exact hbulk.elim
  | announce _ => exact hstay (hm.still hn h' rfl rfl (.inl rfl) id (by simp [Output.Still]))
  | reach _ _ _ _ _ => exact hstay (hm.still hn h' rfl rfl (.inl rfl) id (by simp [Output.Still]))
  | snapStart _ _ _ _ => exact hstay (hm.still hn h' rfl rfl (.inl rfl) id (by simp [Output.Still]))
  | _ => exact hstay (hm.still hn h' rfl rfl (.inl rfl) id hquiet)

theorem Mirrors.step (hext : NoAdd ext) (hk : InputKind ext inp) (hocc : CanOccur ext w.hist i inp)
    (hno : noServer ∉ memberIds S) (hlead : ∀ n, MayLead inp n₀ n → n.role = .leader)
    (hsnp : n₀.snpInProgress = none) (hlow : ∀ e ∈ n₀.log.entries, e.term ≤ n₀.state.term)
    (hel : Election S w) (hm : Mirrors S w a) (h : World.Step i inp n₀ w w') :
    ∃ a', Moved S i a a' ∧ Mirrors S w' a' := by
  cases h with
  | node hn h => exact hm.node hext hk hocc hno hlead hsnp hlow hel hn h
  | exit _ _ => exact ⟨a, Moved.refl S i a, hm.gone (o := some (.exit _)) (by simp [Output.Still])⟩
  | die => exact ⟨a, Moved.refl S i a, hm.gone (o := none) (by simp)⟩

end Ns3Raft.Raft
