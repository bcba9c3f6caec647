import Ns3Raft.Raft.MirrorSteps

/-! # What a cluster has committed

Whatever a server applies is part of a prefix that a majority has taken from one leader, as long as a
leader counts what was acknowledged to it in its own term, and a follower is told of no more than it has
compared with its leader's log.
-/

namespace Ns3Raft.Raft

open Majority Replication

/-! ## Right counts -/

/-- An accepted append request of term `t` that ended behind index `k`. -/
def Output.acks (t k : Nat) : Output → Bool
  | .send (.resp r _ reqType) =>
      decide (reqType = .appendEntriesRequest) && r.accepted && decide (r.term = t) && decide (k < r.nextIdx)
  | _ => false

/-- Server `v` has acknowledged index `k` in term `t`. -/
def Acknowledged (hist : Hist) (v : SrvId) (t k : Nat) : Prop := ∃ x ∈ hist, x.1 = v ∧ x.2.acks t k = true

instance (hist : Hist) (v : SrvId) (t k : Nat) : Decidable (Acknowledged hist v t k) :=
  inferInstanceAs (Decidable (∃ x ∈ hist, _))

/-- If the response raises the commit index, then that of a leader, to an entry of its own term that a
majority has acknowledged in this term. -/
def Core.CountsRight (S : List SrvConfig) (hist : Hist) (n : Core) (m : RespMsg) : Prop :=
  n.quick < (n.ack m.src m.nextIdx).majorityIndex →
    n.role = .leader ∧ n.log.termAt (n.ack m.src m.nextIdx).majorityIndex = some n.state.term ∧
      (memberIds S).card < 2 * ((memberIds S).filter fun v =>
        v = n.id ∨ Acknowledged hist v n.state.term (n.ack m.src m.nextIdx).majorityIndex).card

/-- If the request raises the commit index, then to an entry it has come to, or there are no entries
behind it, or it replaces some. -/
def Core.FollowsRight (n : Core) (m : ReqMsg) : Prop :=
  n.quick < m.commitIdx → n.state.term ≤ m.term →
    (m.lastLogIdx ≠ 0 → n.log.termAt m.lastLogIdx = some m.lastLogTerm) →
      m.commitIdx ≤ m.lastLogIdx + m.logEntries.length ∨
        n.log.lastIndex ≤ m.lastLogIdx + m.logEntries.length ∨
          ∃ k < m.logEntries.length,
            n.log.termAt (m.lastLogIdx + 1 + k) ≠ (m.logEntries[k]?).map (·.term)

/-- What the handlers ask of the commit rules. -/
def RightFor (S : List SrvConfig) (hist : Hist) (n : Core) : Input → Prop
  | .req m _ _ => m.type = .appendEntriesRequest → n.FollowsRight m
  | .resp m h _ => h = .resp → m.type = .appendEntriesResponse → m.accepted = true →
      m.src ∈ n.peerIds → m.term ≤ n.state.term → n.CountsRight S hist m
  | _ => True

/-! ## What is committed -/

structure Committed (S : List SrvConfig) (w : World) (a : LogState) : Prop where
  quick : ∀ i n, w.node i = some n → Firm LogEntry.term (memberIds S) a i n.quick
  sm : ∀ i n, w.node i = some n → n.sm ≤ n.quick ∧ n.sm ≤ n.log.entries.length
  reached : ∀ i k e, (i, .reach k e) ∈ w.hist → i ∈ memberIds S ∧ 0 < k ∧
    Firm LogEntry.term (memberIds S) a i k ∧ (a.log i)[k - 1]? = some e
  told : ∀ i m h, (i, .send (.req m h)) ∈ w.hist → m.type = .appendEntriesRequest →
    memberIds S = {m.src} ∨ m.commitIdx = 0 ∨
      ∃ t k, Chosen LogEntry.term (memberIds S) a t k ∧ m.commitIdx ≤ k ∧ t ≤ m.term

variable {ext : List MsgType} {S : List SrvConfig} {i j : SrvId} {inp : Input} {n₀ n n' : Core}
  {o : Option Output} {w w' : World} {a a' : LogState} {hist : Hist}

theorem Moved.firm (hmoved : Moved S i a a') (hi : Inv LogEntry.term (memberIds S) a) {v : SrvId} {q : Nat}
    (h : Firm LogEntry.term (memberIds S) a v q) : Firm LogEntry.term (memberIds S) a' v q := by
  rcases hmoved.step with rfl | hstep
  · exact h
  · exact h.step hi hstep

theorem Moved.keeps (hmoved : Moved S i a a') (hi : Inv LogEntry.term (memberIds S) a) {v : SrvId} {q : Nat}
    (h : Firm LogEntry.term (memberIds S) a v q) (hq : q ≤ (a.log v).length) :
    q ≤ (a'.log v).length ∧ (a'.log v).take q = (a.log v).take q := by
  rcases hmoved.step with rfl | hstep
  · exact ⟨hq, rfl⟩
  · exact h.keeps hi hstep (hmoved.alone v) hq

theorem Moved.reached (hmoved : Moved S i a a') (hi : Inv LogEntry.term (memberIds S) a) {v : SrvId} {k : Nat}
    {e : LogEntry} (hk : 0 < k) (h : Firm LogEntry.term (memberIds S) a v k)
    (he : (a.log v)[k - 1]? = some e) : (a'.log v)[k - 1]? = some e := by
  obtain ⟨hlt, -⟩ := List.getElem?_eq_some_iff.mp he
  obtain ⟨-, htake⟩ := hmoved.keeps hi h (by omega)
  rw [← List.getElem?_take_of_lt (show k - 1 < k by omega), htake, List.getElem?_take_of_lt (by omega), he]

/-- What server `i` knows and says is all there is to see to. -/
theorem Committed.put (hc : Committed S w a) (hi : Inv LogEntry.term (memberIds S) a) (hmoved : Moved S i a a')
    {m : Option Core}
    (hquick : ∀ n ∈ m, Firm LogEntry.term (memberIds S) a' i n.quick)
    (hsm : ∀ n ∈ m, n.sm ≤ n.quick ∧ n.sm ≤ n.log.entries.length)
    (hreached : ∀ k e, o = some (.reach k e) → i ∈ memberIds S ∧ 0 < k ∧
      Firm LogEntry.term (memberIds S) a' i k ∧ (a'.log i)[k - 1]? = some e)
    (htold : ∀ r h, o = some (.send (.req r h)) → r.type = .appendEntriesRequest →
      memberIds S = {r.src} ∨ r.commitIdx = 0 ∨
        ∃ t k, Chosen LogEntry.term (memberIds S) a' t k ∧ r.commitIdx ≤ k ∧ t ≤ r.term) :
    Committed S (w.put i m o.toList) a' := by
  have hsplit : ∀ {x}, x ∈ (w.put i m o.toList).hist → x ∈ w.hist ∨ ∃ y, o = some y ∧ x = (i, y) := by
    intro x hx
    rw [World.put_hist, List.mem_append] at hx
    refine hx.imp id fun hx => ?_
    obtain ⟨y, hy, rfl⟩ := List.mem_map.mp hx
    exact ⟨y, Option.mem_toList.mp hy, rfl⟩
  refine ⟨fun j n hn => ?_, fun j n hn => ?_, fun j k e hx => ?_, fun j r h hx ht => ?_⟩
  · by_cases hj : j = i
    · subst hj
      rw [World.put_node_self] at hn
      exact hquick n hn
    · rw [World.put_node_of_ne _ hj] at hn
      exact hmoved.firm hi (hc.quick j n hn)
  · by_cases hj : j = i
    · subst hj
      rw [World.put_node_self] at hn
      exact hsm n hn
    · rw [World.put_node_of_ne _ hj] at hn
      exact hc.sm j n hn
  · rcases hsplit hx with hx | ⟨y, hy, hxy⟩
    · obtain ⟨hmem, hk, hfirm, he⟩ := hc.reached j k e hx
      exact ⟨hmem, hk, hmoved.firm hi hfirm, hmoved.reached hi hk hfirm he⟩
    · obtain ⟨rfl, rfl⟩ := Prod.mk.inj hxy
      exact hreached k e hy
  · rcases hsplit hx with hx | ⟨y, hy, hxy⟩
    · refine (hc.told j r h hx ht).imp id (Or.imp id ?_)
      rintro ⟨t, k, hchosen, hk, ht⟩
      exact ⟨t, k, hchosen.mono hmoved.own.toEvolves, hk, ht⟩
    · obtain ⟨rfl, rfl⟩ := Prod.mk.inj hxy
      exact htold r h hy ht

/-! ## What one handler does -/

/-- Since the beginning of the handler. -/
structure Since (inp : Input) (n₀ n : Core) : Prop where
  term : n₀.state.term ≤ n.state.term
  quick : n₀.quick ≤ n.quick
  log : ∀ m h env, inp = .req m h env → m.type = .appendEntriesRequest →
    n.role = .leader ∨ n.log = n₀.log ∨ n.log.lastIndex ≤ m.lastLogIdx + m.logEntries.length

theorem Since.refl (inp : Input) (n : Core) : Since inp n n where
  term := Nat.le_refl _
  quick := Nat.le_refl _
  log _ _ _ _ _ := .inr (.inl rfl)

theorem Mirrors.not_bulk (hm : Mirrors S w a) (hext : NoAdd ext) (hk : InputKind ext inp)
    (hocc : CanOccur ext w.hist i inp) : ¬ inp.Bulk := by
  intro hbulk
  cases inp with
  | req m h env =>
      rcases hbulk with ht | ht
      · exact absurd ht (Kind.ne_of_noAdd hext hk).2.2
      · rcases hocc with ⟨hsent, -⟩ | ⟨hext', -⟩
        · obtain ⟨⟨j, x⟩, hx, hx'⟩ := List.mem_map.mp hsent
          obtain rfl : x = .send (.req m h) := hx'
          exact absurd ht (hm.carries _ hx).2.2
        · rw [ht] at hext'
          rcases hext _ hext' with h | h <;> cases h
  | _ => exact hbulk.elim

theorem NodeStep.quick_le (hext : NoAdd ext) (hk : InputKind ext inp) (hbulk : ¬ inp.Bulk)
    (h : NodeStep inp n₀ n o n') : n.quick ≤ n'.quick := by
  cases h with
  | follow _ _ hlt => exact hlt.le
  | majority _ _ _ _ _ _ hlt => exact hlt.le
  | alone _ hlt _ => exact hlt.le
  | join hinp ht _ _ _ => exact absurd ht (InputKind.not_join hext (hinp ▸ hk))
  | bulk hb => exact absurd hb.bulk hbulk
  | _ => exact Nat.le_refl _

theorem Since.step (hext : NoAdd ext) (hk : InputKind ext inp) (hbulk : ¬ inp.Bulk)
    (hsnp : n₀.snpInProgress = none) (hs : Since inp n₀ n) (h : NodeStep inp n₀ n o n') :
    Since inp n₀ n' := by
  have hterm : n.state.term ≤ n'.state.term := by
    rcases h.join_or_precedes with ⟨hp, -⟩ | ⟨m, h', env, e, c, rfl, hm, -⟩
    · exact hp.term_le
    · exact absurd hm (InputKind.not_join hext hk)
  refine ⟨hs.term.trans hterm, hs.quick.trans (h.quick_le hext hk hbulk), fun m h' env hinp ht => ?_⟩
  have hlog := hs.log m h' env hinp ht
  cases h with
  | newTerm heq _ _ => exact .inr (.inl (by rw [heq]))
  | demote _ hr _ _ => exact .inr (hlog.resolve_left (by simp [hr]))
  | stand heq => exact .inr (.inl (by rw [heq]))
  | selfVote heq => exact .inr (.inl (by rw [heq]))
  | win _ _ => exact .inl rfl
  | create hl _ _ _ =>
      refine .inl (hl.elim id fun ⟨hadds, _⟩ => ?_)
      rcases hadds with hadds | hadds
      · exact absurd hadds (hk.not_adds hext)
      · rw [hinp] at hadds
        exact hadds.elim
  | @write m' h' env' k e x hinp' hmat he hle _ _ =>
      rw [hinp] at hinp'
      obtain ⟨rfl, -, -⟩ := Input.req.inj hinp'
      refine .inr (.inr ?_)
      have hstart := hmat.start_le fun hnil => by simp [hnil] at he
      have hlt := (List.getElem?_eq_some_iff.mp he).1
      show (n.log.writeAt (m.lastLogIdx + 1 + k) e).nextSlot - 1 ≤ _
      rw [LogStore.writeAt_nextSlot_of_le _ _ (by omega) hle]
      omega
  | compact _ hsome _ _ _ =>
      rw [hsnp] at hsome
      cases hsome
  | join hinp ht _ _ _ => exact absurd ht (InputKind.not_join hext (hinp ▸ hk))
  | bulk hb => exact absurd hb.bulk hbulk
  | _ => exact hlog

/-! ## What a step commits -/

theorem NodeStep.reach_out {k : Nat} {e : LogEntry} (h : NodeStep inp n₀ n (some (.reach k e)) n') :
    k = n.sm + 1 ∧ n.sm < n.quick ∧ n.log.entryAt (n.sm + 1) = some e ∧ n' = { n with sm := n.sm + 1 } := by
  cases h with
  | quiet hq => exact hq.elim
  | reach _ hquick _ he _ => exact ⟨rfl, hquick, he, rfl⟩
  | write _ _ _ _ _ ho => rcases ho with ho | ho <;> cases ho
  | bulk hb => cases hb

theorem NodeStep.append_out (hext : NoAdd ext) (hk : InputKind ext inp) {m : ReqMsg} {h' : RpcHandler}
    (h : NodeStep inp n₀ n (some (.send (.req m h'))) n') (ht : m.type = .appendEntriesRequest) :
    MayLead inp n₀ n ∧ n.IsAppend m ∧ n' = n := by
  cases h with
  | quiet hq => exact absurd ht (hq.still hext hk).1
  | sendAppend hl hmsg => exact ⟨hl, hmsg, rfl⟩
  | sendInstall _ _ h1 _ _ _ =>
      rw [h1] at ht
      cases ht
  | sendVoteReq _ _ h1 _ _ _ _ _ =>
      rw [h1] at ht
      cases ht
  | write _ _ _ _ _ ho => rcases ho with ho | ho <;> cases ho
  | bulk hb => cases hb

/-- The commit indexes move in four ways. -/
theorem NodeStep.commits (hext : NoAdd ext) (hk : InputKind ext inp) (hbulk : ¬ inp.Bulk)
    (h : NodeStep inp n₀ n o n') :
    (n'.sm = n.sm ∧ n'.quick = n.quick) ∨
    (∃ m h env, inp = .req m h env ∧ n.Matches m m.logEntries.length ∧ n.quick < m.commitIdx ∧
      n' = { n with quick := m.commitIdx }) ∨
    (∃ m t, inp = .resp m .resp t ∧ m.type = .appendEntriesResponse ∧ m.accepted = true ∧
      m.src ∈ n₀.peerIds ∧ m.term ≤ n.state.term ∧ n = n₀.ack m.src m.nextIdx ∧
      n.quick < n.majorityIndex ∧ n' = { n with quick := n.majorityIndex }) ∨
    (n.peers = [] ∧ n.quick < n.log.lastIndex ∧ n' = { n with quick := n.log.lastIndex }) ∨
    n.sm < n.quick ∧ n.sm < n.log.lastIndex ∧ n' = { n with sm := n.sm + 1 } := by
  cases h with
  | @follow m h env hinp hmat hlt => exact .inr (.inl ⟨m, h, env, hinp, hmat, hlt, rfl⟩)
  | @majority m t hinp h1 h2 h3 h4 h5 h6 =>
      exact .inr (.inr (.inl ⟨m, t, hinp, h1, h2, h3, h4, h5, h6, rfl⟩))
  | alone hpeers hlt _ => exact .inr (.inr (.inr (.inl ⟨hpeers, hlt, rfl⟩)))
  | reach _ hquick hlast _ _ => exact .inr (.inr (.inr (.inr ⟨hquick, hlast, rfl⟩)))
  | join hinp ht _ _ _ => exact absurd ht (InputKind.not_join hext (hinp ▸ hk))
  | bulk hb => exact absurd hb.bulk hbulk
  | _ => exact .inl ⟨rfl, rfl⟩

theorem Acknowledged.mono (h : Acknowledged hist j k q) {hist' : Hist} (hgrow : hist <+: hist') :
    Acknowledged hist' j k q := by
  obtain ⟨x, hx, h⟩ := h
  exact ⟨x, hgrow.subset hx, h⟩

/-- Who has acknowledged an index holds the entries up to there. -/
theorem Mirrors.acknowledged (hm : Mirrors S w a) {t k : Nat} (h : Acknowledged w.hist j t k) :
    k ≤ a.acked j t := by
  obtain ⟨⟨v, x⟩, hx, rfl, hacks⟩ := h
  cases x with
  | send p =>
      cases p with
      | req m h' => cases hacks
      | resp r h' reqType =>
          simp only [Output.acks, Bool.and_eq_true, decide_eq_true_eq] at hacks
          obtain ⟨⟨⟨htype, hacc⟩, rfl⟩, hlt⟩ := hacks
          have hcarries : r.nextIdx ≤ a.acked v r.term + 1 := (hm.carries _ hx htype hacc).2
          show k ≤ a.acked v r.term
          omega
  | _ => cases hacks

/-- A right count chooses a prefix. -/
theorem Mirrors.chosen_of_count (hm : Mirrors S w a) (hn : w.node i = some n)
    (hid : n.id = i) (hr : n.role = .leader) (hterm : a.term i = n.state.term) {k : Nat}
    (hentry : n.log.termAt k = some n.state.term)
    (hcount : (memberIds S).card < 2 * ((memberIds S).filter fun v =>
      v = n.id ∨ Acknowledged w.hist v n.state.term k).card) :
    Firm LogEntry.term (memberIds S) a i k := by
  have hplays := hm.plays i n hn
  have hs := hm.stored i
  have hw : a.winner (a.term i) = some i := hterm ▸ hplays.leads hr
  have hstart : n.log.startIndex = 1 := by rw [hplays.disk, hs.start]
  have hlead : a.lead (a.term i) = n.log.entries := by
    rw [← hm.inv.winner_log i hw, hs.log, hplays.disk]
  have hpos : k ≠ 0 := by
    rintro rfl
    rw [LogStore.termAt, LogStore.entryAt, hstart, if_pos (by omega)] at hentry
    cases hentry
  obtain ⟨p, rfl⟩ := Nat.exists_eq_succ_of_ne_zero hpos
  rw [Nat.succ_eq_add_one, LogStore.termAt_succ hstart, Option.map_eq_some_iff] at hentry
  obtain ⟨e, he, het⟩ := hentry
  obtain ⟨hp, rfl⟩ := List.getElem?_eq_some_iff.mp he
  refine hm.inv.firm_of_chosen hw ⟨⟨by rw [hlead]; omega, by omega, ?_⟩, _, ⟨Finset.filter_subset _ _, hcount⟩,
    fun v hv => ⟨by simp [hw], by rw [hlead]; omega, ?_⟩⟩
  · simp only [hlead, Nat.succ_eq_add_one, Nat.add_sub_cancel]
    rw [het, hterm]
  · rcases (Finset.mem_filter.mp hv).2 with rfl | hack
    · exact .inr (hid ▸ hw)
    · exact .inl (hterm ▸ hm.acknowledged hack)

/-- A follower is told of what it has. -/
theorem Committed.firm_of_told (hc : Committed S w a) (hm : Mirrors S w a) (hel : Election S w)
    (hext : NoAdd ext) (hn : w.node i = some n) {m : ReqMsg} {h' : RpcHandler} {env : Env}
    (hocc : CanOccur ext w.hist i (.req m h' env)) (hmat : n.Matches m m.logEntries.length)
    (hright : m.commitIdx ≤ m.lastLogIdx + m.logEntries.length ∨
      n.log.lastIndex ≤ m.lastLogIdx + m.logEntries.length) :
    Firm LogEntry.term (memberIds S) a i m.commitIdx := by
  have hplays := hm.plays i n hn
  have hs := hm.stored i
  obtain ⟨hf, hsrc, hne⟩ := hm.delivered hel hext hocc hmat.type
  have hi : i ∈ memberIds S := by simpa using (hel.member i n hn).mem
  have hstart : n.log.startIndex = 1 := by rw [hplays.disk, hs.start]
  have hlog : n.log.entries = a.log i := by rw [hplays.disk, hs.log]
  have hterm : m.term = a.term i := by rw [hs.term, ← hel.ballots.state i n hn, hmat.term]
  have htake := hf.take hm.inv hterm hlog hstart hmat
  rw [hterm] at htake
  have hagree : (a.log i).take m.commitIdx <+: a.lead (a.term i) := by
    rcases hright with hle | hle
    · rw [← Nat.min_eq_left hle, ← List.take_take, htake]
      exact (List.take_prefix _ _).trans (List.take_prefix _ _)
    · have hall : (a.log i).take (m.lastLogIdx + m.logEntries.length) = a.log i := by
        refine List.take_of_length_le ?_
        rw [LogStore.lastIndex, LogStore.nextSlot, hstart, hlog] at hle
        omega
      rw [← hall, htake]
      exact (List.take_prefix _ _).trans (List.take_prefix _ _)
  obtain ⟨x, hx, hx'⟩ : ∃ x ∈ w.hist, x.2 = .send (.req m h') := by
    rcases hocc with ⟨hsent, -⟩ | ⟨hmem, -⟩
    · exact List.mem_map.mp hsent
    · rw [hmat.type] at hmem
      rcases hext _ hmem with h | h <;> cases h
  obtain ⟨j, y⟩ := x
  obtain rfl : y = .send (.req m h') := hx'
  rcases hc.told j m h' hx hmat.type with hall | hzero | ⟨t, k, hchosen, hk, ht⟩
  · rw [hall, Finset.mem_singleton] at hi
    exact absurd hi.symm hne
  · exact .inr (.inl hzero)
  · exact hm.inv.firm_of_agree (by simp [← hterm, hf.won]) hchosen (hterm ▸ ht) hk hagree

theorem Committed.node (hext : NoAdd ext) (hk : InputKind ext inp) (hocc : CanOccur ext w.hist i inp)
    (hgrow : hist <+: w.hist) (hright : RightFor S hist n₀ inp)
    (hlead : ∀ n, MayLead inp n₀ n → n.role = .leader) (hsince : Since inp n₀ n)
    (hel : Election S w) (hel' : Election S (w.put i (some n') o.toList)) (hm : Mirrors S w a)
    (hmoved : Moved S i a a') (hm' : Mirrors S (w.put i (some n') o.toList) a') (hc : Committed S w a)
    (hn : w.node i = some n) (h : NodeStep inp n₀ n o n') :
    Committed S (w.put i (some n') o.toList) a' := by
  have hmem := hel.member i n hn
  have hi : i ∈ memberIds S := by simpa using hmem.mem
  have hplays := hm.plays i n hn
  have hn' : (w.put i (some n') o.toList).node i = some n' := World.put_node_self ..
  have hplays' := hm'.plays i n' hn'
  have hlog : a.log i = n.log.entries := by rw [(hm.stored i).log, hplays.disk]
  have hlog' : a'.log i = n'.log.entries := by rw [(hm'.stored i).log, hplays'.disk]
  have hbulk := hm.not_bulk hext hk hocc
  have hfirm := hc.quick i n hn
  obtain ⟨hsmq, hsml⟩ := hc.sm i n hn
  -- what is applied is not cut
  have hkept : n.sm ≤ n'.log.entries.length := by
    rw [← hlog']
    exact (hmoved.keeps hm.inv (hfirm.anti hsmq) (hlog ▸ hsml)).1
  have hquick : Firm LogEntry.term (memberIds S) a' i n'.quick := by
    rcases h.commits hext hk hbulk with ⟨-, heq⟩ | ⟨m, h₁, env, rfl, hmat, hlt, rfl⟩ |
      ⟨m, t, rfl, htype, hacc, hsrc, hle, rfl, hlt, rfl⟩ | ⟨hpeers, hlt, rfl⟩ | ⟨-, -, rfl⟩
    · rw [heq]
      exact hmoved.firm hm.inv hfirm
    · refine hmoved.firm hm.inv (hc.firm_of_told hm hel hext hn hocc hmat ?_)
      rcases hsince.log m h₁ env rfl hmat.type with hr | hsame | hle
      · rw [hmat.role] at hr
        cases hr
      · have hstart : n.log.startIndex = 1 := by rw [hplays.disk, (hm.stored i).start]
        have hprev : m.lastLogIdx ≠ 0 → n₀.log.termAt m.lastLogIdx = some m.lastLogTerm := by
          intro hne
          have hterm := (hmat.prev hne).2
          rwa [Core.termForLog, if_neg hne, if_pos (by omega), hsame] at hterm
        have hcase := hright hmat.type (hsince.quick.trans_lt hlt) (hmat.term ▸ hsince.term) hprev
        rw [← hsame] at hcase
        refine hcase.imp id (Or.resolve_right · ?_)
        rintro ⟨k, hk, hdiff⟩
        have he := List.getElem?_eq_getElem hk
        rw [he, Option.map_some] at hdiff
        exact hdiff (hmat.entries k _ hk he)
      · exact .inr hle
    · have hcount := hright rfl htype hacc hsrc hle hlt
      obtain ⟨hr, hentry, hcard⟩ := hcount
      refine hmoved.firm hm.inv (hm.chosen_of_count hn hmem.id hr ?_ hentry ?_)
      · rw [(hm.stored i).term, ← hel.ballots.state i _ hn]
      · refine hcard.trans_le (Nat.mul_le_mul_left 2 (Finset.card_le_card fun v hv => ?_))
        rw [Finset.mem_filter] at hv ⊢
        exact ⟨hv.1, hv.2.imp id fun hack => hack.mono hgrow⟩
    · -- there is nobody else
      have hcard := hmem.card
      rw [hpeers, List.length_nil] at hcard
      obtain ⟨v, hv⟩ := Finset.card_eq_one.mp hcard
      rw [hv, Finset.mem_singleton] at hi
      exact .inl (hi ▸ hv)
    · exact hmoved.firm hm.inv hfirm
  refine hc.put hm.inv hmoved (fun m hn₁ => ?_) (fun m hn₁ => ?_) (fun k e ho => ?_) fun r h₁ ho ht => ?_
  · exact Option.mem_some_iff.mp hn₁ ▸ hquick
  · obtain rfl := Option.mem_some_iff.mp hn₁
    have hle := h.quick_le hext hk hbulk
    rcases h.commits hext hk hbulk with ⟨hsm, -⟩ | ⟨m, h₁, env, -, -, -, rfl⟩ |
      ⟨m, t, -, -, -, -, -, -, -, rfl⟩ | ⟨-, -, rfl⟩ | ⟨hlt, hlast, rfl⟩
    · rw [hsm]
      exact ⟨hsmq.trans hle, hkept⟩
    · exact ⟨hsmq.trans hle, hkept⟩
    · exact ⟨hsmq.trans hle, hkept⟩
    · exact ⟨hsmq.trans hle, hkept⟩
    · have hstart : n.log.startIndex = 1 := by rw [hplays.disk, (hm.stored i).start]
      rw [LogStore.lastIndex, LogStore.nextSlot, hstart] at hlast
      refine ⟨hlt, ?_⟩
      show n.sm + 1 ≤ n.log.entries.length
      omega
  · subst ho
    obtain ⟨rfl, hlt, he, rfl⟩ := h.reach_out
    have hstart : n.log.startIndex = 1 := by rw [hplays.disk, (hm.stored i).start]
    rw [LogStore.entryAt_succ hstart] at he
    refine ⟨hi, Nat.succ_pos _, hmoved.firm hm.inv (hfirm.anti hlt), ?_⟩
    rw [hlog', Nat.add_sub_cancel]
    exact he
  · subst ho
    obtain ⟨hl, hmsg, rfl⟩ := h.append_out hext hk ht
    have hterm : a'.term i = r.term := by
      rw [(hm'.stored i).term, ← hel'.ballots.state i _ hn', hmsg.term]
    have hsrc : r.src = i := hmsg.src.trans hmem.id
    rw [hsrc, hmsg.commit, ← hterm]
    rcases hquick with hall | hzero | ⟨t, k, hchosen, hk, ht, -⟩
    · exact .inl hall
    · exact .inr (.inl hzero)
    · exact .inr (.inr ⟨t, k, hchosen, hk, ht⟩)

end Ns3Raft.Raft
