import Ns3Raft.Lib.Replication.Safety
import Ns3Raft.Raft.Election

/-! # The cluster as a replicated log

The logs, terms and votes of the servers, as they are stored, are those of a `Replication.State`, also
of the servers that are down. Every step of a server is a step there or leaves it alone.
-/

namespace Ns3Raft.Raft

open Majority Replication

/-! ## Stored logs -/

/-- What a call on the log store makes of what is stored. -/
def Output.replay (l : LogStore) : Output → LogStore
  | .append _ _ idx e => l.writeAt idx e
  | .writeAt idx e => l.writeAt idx e
  | .applyPack idx es => (l.applyPack idx es).getD l
  | .compact idx => (l.compact idx).getD l
  | _ => l

/-- What the log store of a server holds, whether it is up or not. -/
def storedLog (i : SrvId) (hist : Hist) : LogStore := (outputsOf i hist).foldl Output.replay .empty

theorem storedLog_append_of_ne {i j : SrvId} (h : j ≠ i) (hist : Hist) (os : List Output) :
    storedLog i (hist ++ os.map (j, ·)) = storedLog i hist := by
  rw [storedLog, outputsOf_append, outputsOf_map_of_ne h, List.append_nil, storedLog]

theorem storedLog_append_self (i : SrvId) (hist : Hist) (os : List Output) :
    storedLog i (hist ++ os.map (i, ·)) = os.foldl Output.replay (storedLog i hist) := by
  rw [storedLog, outputsOf_append, outputsOf_map_self, List.foldl_append, storedLog]

theorem Quiet.replay {inp : Input} {o : Output} (h : Quiet inp o) (l : LogStore) : o.replay l = l := by
  cases o with
  | append | writeAt | applyPack | compact => exact h.elim
  | _ => rfl

/-- The log of a server that is up is what its log store holds. -/
theorem NodeStep.replay {inp : Input} {n₀ n n' : Core} {o : Option Output} (h : NodeStep inp n₀ n o n') :
    n'.log = o.toList.foldl Output.replay n.log := by
  cases h with
  | quiet h => exact (h.replay n.log).symm
  | create _ _ _ _ => exact n.log.append_eq_writeAt _
  | write _ _ _ _ _ ho => rcases ho with rfl | rfl <;> rfl
  | compact _ _ _ _ hl =>
      simp only [Option.toList_some, List.foldl_cons, List.foldl_nil, Output.replay]
      rw [hl, Option.getD_some]
  | bulk hb =>
      cases hb with
      | pack _ _ _ _ hl =>
          simp only [Option.toList_some, List.foldl_cons, List.foldl_nil, Output.replay]
          rw [hl, Option.getD_some]
      | snapCompact _ _ _ _ _ _ hl =>
          simp only [Option.toList_some, List.foldl_cons, List.foldl_nil, Output.replay]
          rw [hl, Option.getD_some]
      | _ => rfl
  | _ => rfl

/-! ## The replicated log of a cluster -/

abbrev LogState := Replication.State SrvId LogEntry

/-- What server `i` has stored. -/
structure Stored (a : LogState) (hist : Hist) (i : SrvId) : Prop where
  start : (storedLog i hist).startIndex = 1
  log : a.log i = (storedLog i hist).entries
  term : a.term i = (savedState i hist).term
  voted : ∀ c, c ≠ noServer →
    ((savedState i hist).votedFor = c ↔ ∃ l, a.ballot i (a.term i) = some (c, l))
  stance : ∀ st ∈ stancesOf i hist, st.votedFor ≠ noServer →
    ∃ l, a.ballot i st.term = some (st.votedFor, l)

/-- What server `i` knows while it is up. -/
structure Plays (a : LogState) (hist : Hist) (i : SrvId) (n : Core) : Prop where
  disk : n.log = storedLog i hist
  standing : n.role = .candidate → n.state.votedFor = i →
    a.ballot i n.state.term = some (i, n.log.entries)
  unfinished : n.electionCompleted = false → a.winner n.state.term ≠ some i
  leads : n.role = .leader → a.winner n.state.term = some i

/-- An append request holds entries of the one who won its term. -/
structure FromLead (a : LogState) (m : ReqMsg) : Prop where
  won : a.winner m.term = some m.src
  le : m.lastLogIdx ≤ (a.lead m.term).length
  entries : (a.lead m.term).take m.lastLogIdx ++ m.logEntries <+: a.lead m.term
  prev : m.lastLogIdx ≠ 0 → ((a.lead m.term)[m.lastLogIdx - 1]?).map (·.term) = some m.lastLogTerm

/-- What is behind the packets that server `i` has sent. -/
def Carries (a : LogState) (i : SrvId) : Output → Prop
  | .send (.req m _) =>
      (m.type = .voteRequest → ∃ l, a.ballot m.src m.term = some (m.src, l) ∧
        l.length = m.lastLogIdx ∧ lastTerm LogEntry.term l = m.lastLogTerm) ∧
      (m.type = .appendEntriesRequest → FromLead a m) ∧ m.type ≠ .installSnapshotRequest
  | .send (.resp r _ reqType) => reqType = .appendEntriesRequest → r.accepted = true →
      a.winner r.term ≠ none ∧ r.nextIdx ≤ a.acked i r.term + 1
  | _ => True

structure Mirrors (S : List SrvConfig) (w : World) (a : LogState) : Prop where
  inv : Inv LogEntry.term (memberIds S) a
  candidate : ∀ v t c l, a.ballot v t = some (c, l) → c ≠ noServer
  stored : ∀ i, Stored a w.hist i
  plays : ∀ i n, w.node i = some n → Plays a w.hist i n
  carries : ∀ x ∈ w.hist, Carries a x.1 x.2

/-- A step of server `i`, or none. -/
structure Moved (S : List SrvConfig) (i : SrvId) (a a' : LogState) : Prop where
  step : a' = a ∨ Replication.Step LogEntry.term (memberIds S) a a'
  own : Own i a a'
  alone : ∀ v, memberIds S = {v} → a.log v <+: a'.log v

theorem Moved.refl (S : List SrvConfig) (i : SrvId) (a : LogState) : Moved S i a a where
  step := .inl rfl
  own := Own.refl i a
  alone _ _ := List.prefix_refl _

variable {ext : List MsgType} {S : List SrvConfig} {i j : SrvId} {inp : Input} {n₀ n n' : Core}
  {o : Option Output} {w w' : World} {a a' : LogState} {hist : Hist}

/-! ## What the other servers keep -/

theorem Stored.other (hs : Stored a hist j) (hown : Own i a a') (hj : j ≠ i) (os : List Output) :
    Stored a' (hist ++ os.map (i, ·)) j := by
  obtain ⟨hlog, hterm, hballot⟩ := hown.other j hj
  refine ⟨?_, ?_, ?_, fun c hc => ?_, fun st hst hne => ?_⟩
  · rw [storedLog_append_of_ne hj.symm]
    exact hs.start
  · rw [storedLog_append_of_ne hj.symm, hlog]
    exact hs.log
  · rw [savedState_append_of_ne hj.symm, hterm]
    exact hs.term
  · rw [savedState_append_of_ne hj.symm, hterm, hballot]
    exact hs.voted c hc
  · rw [stancesOf_append_of_ne hj.symm] at hst
    rw [hballot]
    exact hs.stance st hst hne

theorem Plays.other (hp : Plays a hist j n) (hown : Own i a a') (hj : j ≠ i) (os : List Output) :
    Plays a' (hist ++ os.map (i, ·)) j n where
  disk := by
    rw [storedLog_append_of_ne hj.symm]
    exact hp.disk
  standing hr hv := hown.ballot _ _ _ (hp.standing hr hv)
  unfinished hopen hw := hp.unfinished hopen (hown.won j _ hj hw)
  leads hr := hown.winner _ _ (hp.leads hr)

theorem FromLead.mono {m : ReqMsg} (h : FromLead a m) (hev : Evolves a a') : FromLead a' m := by
  have hp := hev.lead m.term (by simp [h.won])
  have htake : (a'.lead m.term).take m.lastLogIdx = (a.lead m.term).take m.lastLogIdx := by
    obtain ⟨z, hz⟩ := hp
    rw [← hz, List.take_append_of_le_length h.le]
  refine ⟨hev.winner _ _ h.won, h.le.trans hp.length_le, ?_, fun hne => ?_⟩
  · rw [htake]
    exact h.entries.trans hp
  · have hlt : m.lastLogIdx - 1 < (a.lead m.term).length := by
      have := h.le
      omega
    obtain ⟨z, hz⟩ := hp
    rw [← hz, List.getElem?_append_left hlt]
    exact h.prev hne

theorem Carries.mono {x : Output} (h : Carries a j x) (hown : Own i a a') : Carries a' j x := by
  cases x with
  | send p =>
      cases p with
      | req m h' =>
          obtain ⟨hvote, happend, hinstall⟩ := h
          refine ⟨fun ht => ?_, fun ht => (happend ht).mono hown.toEvolves, hinstall⟩
          obtain ⟨l, hl, hlen, hlast⟩ := hvote ht
          exact ⟨l, hown.ballot _ _ _ hl, hlen, hlast⟩
      | resp r h' reqType =>
          intro ht hacc
          obtain ⟨hw, hle⟩ := h ht hacc
          have hacked := hown.acked j r.term
          exact ⟨hown.toEvolves.winner_ne hw, by omega⟩
  | _ => trivial

/-- What server `i` stores, knows and sends is all there is to see to. -/
theorem Mirrors.put (hm : Mirrors S w a) (hinv : Inv LogEntry.term (memberIds S) a') (hown : Own i a a')
    (hcand : ∀ t c l, a'.ballot i t = some (c, l) → c ≠ noServer)
    (hstored : Stored a' (w.hist ++ o.toList.map (i, ·)) i)
    (hplays : Plays a' (w.hist ++ o.toList.map (i, ·)) i n') (hcarries : ∀ x ∈ o, Carries a' i x) :
    Mirrors S (w.put i (some n') o.toList) a' := by
  refine ⟨hinv, fun v t c l hb => ?_, fun j => ?_, fun j n hn => ?_, fun x hx => ?_⟩
  · by_cases hv : v = i
    · subst hv
      exact hcand t c l hb
    · rw [(hown.other v hv).2.2] at hb
      exact hm.candidate v t c l hb
  · by_cases hj : j = i
    · subst hj
      exact hstored
    · exact (hm.stored j).other hown hj _
  · by_cases hj : j = i
    · subst hj
      rw [World.put_node_self] at hn
      exact Option.some.inj hn ▸ hplays
    · rw [World.put_node_of_ne _ hj] at hn
      exact (hm.plays j n hn).other hown hj _
  · rw [World.put_hist, List.mem_append] at hx
    rcases hx with hx | hx
    · exact (hm.carries x hx).mono hown
    · obtain ⟨x', hx', rfl⟩ := List.mem_map.mp hx
      exact hcarries x' (Option.mem_toList.mp hx')

end Ns3Raft.Raft
