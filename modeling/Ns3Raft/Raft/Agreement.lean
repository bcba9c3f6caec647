import Ns3Raft.Raft.Committed

/-! # Agreement of the state machines

A cluster of fixed members without snapshots. When every count of acknowledgements is right and every
follower commits what it has compared, all servers apply the same entry at an index.
-/

namespace Ns3Raft.Raft

open Majority Replication

/-! ## The steps of the cluster -/

def Output.reached? : Output → Option Nat
  | .reach k _ => some k
  | _ => none

/-- A start or a restart with the saved state and the stored log, as far as the state machine has come. -/
structure Restarts (S : List SrvConfig) (hist : Hist) (b : Boot) : Prop where
  mem : b.id ∈ S.map (·.id)
  config : b.config.servers = S
  state : b.state = lastSaved b.id hist
  log : b.logStore = storedLog b.id hist
  applied : b.smCommitIndex = 0 ∨ ∃ x ∈ hist, x.1 = b.id ∧ x.2.reached? = some b.smCommitIndex
  noSnapshots : b.params.snapshotDistance = 0

/-- The steps of a cluster with the fixed members `S` that makes no snapshots: timers, packets in any
order, client requests, crashes in the middle of a handler and restarts. -/
def ReplicaStep (S : List SrvConfig) (c : Cluster) : Event → Prop
  | .act i inp => CanOccur [.clientRequest] c.hist i inp ∧ Ordinary S c.hist inp
  | .crash i inp _ => CanOccur [.clientRequest] c.hist i inp ∧ Ordinary S c.hist inp
  | .restart b => Restarts S c.hist b

/-- The handler that takes the input commits by the rules. -/
def CommitsRight (S : List SrvConfig) (c : Cluster) : Event → Prop
  | .act i inp => ∀ s ∈ c.srv i, RightFor S c.hist s.core inp
  | .crash i inp _ => ∀ s ∈ c.srv i, RightFor S c.hist s.core inp
  | .restart _ => True

def RightStep (S : List SrvConfig) (c : Cluster) (ev : Event) : Prop := ReplicaStep S c ev ∧ CommitsRight S c ev

variable {S : List SrvConfig} {i : SrvId} {inp : Input} {n₀ n n' : Core} {o : Option Output}
  {w w' : World} {a a' a'' : LogState} {c c' : Cluster} {ev : Event}

/-! ## Without snapshots -/

theorem NodeStep.params (h : NodeStep inp n₀ n o n') : n'.params = n.params := by
  cases h with
  | bulk hb => cases hb <;> rfl
  | _ => rfl

theorem NodeStep.no_snapshot (h : NodeStep inp n₀ n o n') (hd : n.params.snapshotDistance = 0)
    (hsnp : n.snpInProgress = none) : n'.snpInProgress = none := by
  cases h with
  | snapStart _ hne _ _ => exact absurd hd hne
  | snapDone _ => rfl
  | snapFail => rfl
  | bulk hb => cases hb <;> exact hsnp
  | _ => exact hsnp

/-! ## The invariant -/

/-- What holds however servers count and commit. -/
structure Replicates (S : List SrvConfig) (w : World) (a : LogState) : Prop where
  fixed : FixedInv S w
  plain : ∀ i n, w.node i = some n → n.params.snapshotDistance = 0 ∧ n.snpInProgress = none
  kept : ∀ i, ∀ e ∈ (storedLog i w.hist).entries, EntryKeeps S e
  mirrors : Mirrors S w a

structure Agrees (S : List SrvConfig) (w : World) (a : LogState) : Prop where
  fixed : FixedInv S w
  plain : ∀ i n, w.node i = some n → n.params.snapshotDistance = 0 ∧ n.snpInProgress = none
  kept : ∀ i, ∀ e ∈ (storedLog i w.hist).entries, EntryKeeps S e
  mirrors : Mirrors S w a
  committed : Committed S w a

/-- The replicated log some steps later. -/
structure Later (S : List SrvConfig) (a a' : LogState) : Prop where
  evolves : Evolves a a'
  alone : ∀ v, memberIds S = {v} → a.log v <+: a'.log v

theorem Later.refl (S : List SrvConfig) (a : LogState) : Later S a a where
  evolves := Evolves.refl a
  alone _ _ := List.prefix_refl _

theorem Later.trans (h : Later S a a') (h' : Later S a' a'') : Later S a a'' where
  evolves := h.evolves.trans h'.evolves
  alone v hv := (h.alone v hv).trans (h'.alone v hv)

theorem Later.moved (h : Later S a a') (hmoved : Moved S i a' a'') : Later S a a'' where
  evolves := h.evolves.trans hmoved.own.toEvolves
  alone v hv := (h.alone v hv).trans (hmoved.alone v hv)

theorem Agrees.replicates (h : Agrees S w a) : Replicates S w a := ⟨h.fixed, h.plain, h.kept, h.mirrors⟩

theorem Replicates.log_eq (h : Replicates S c.world a) {s : RaftServer} (hs : c.srv i = some s) :
    s.logStore.startIndex = 1 ∧ s.logStore.entries = a.log i := by
  have hn : c.world.node i = some s.core := by simp [Cluster.world, hs]
  have hdisk : s.logStore = storedLog i c.hist := (h.mirrors.plays i _ hn).disk
  have hstored : Stored a c.hist i := h.mirrors.stored i
  exact ⟨by rw [hdisk, hstored.start], by rw [hdisk, hstored.log]⟩

theorem Agrees.settled (h : Agrees S c.world a) {s : RaftServer} (hs : c.srv i = some s) {k : Nat} {x : LogEntry}
    (hk : k ≤ s.quickCommitIdx) (hx : s.logStore.entryAt k = some x) :
    0 < k ∧ Settled LogEntry.term (memberIds S) a (k - 1) x := by
  have hn : c.world.node i = some s.core := by simp [Cluster.world, hs]
  obtain ⟨hstart, hlog⟩ := h.replicates.log_eq hs
  have hpos : k ≠ 0 := by
    rintro rfl
    rw [LogStore.entryAt, hstart, if_pos (by omega)] at hx
    cases hx
  obtain ⟨p, rfl⟩ := Nat.exists_eq_succ_of_ne_zero hpos
  rw [Nat.succ_eq_add_one, LogStore.entryAt_succ hstart, hlog] at hx
  exact ⟨Nat.succ_pos p, (h.committed.quick i _ hn).settled (Nat.lt_of_succ_le hk) hx⟩

/-- What is settled is in the log of every server that has applied as much. -/
theorem Agrees.applied (h : Agrees S c.world a) {s : RaftServer} (hs : c.srv i = some s) {k : Nat} {x : LogEntry}
    (hpos : 0 < k) (hk : k ≤ s.smCommitIndex) (hx : Settled LogEntry.term (memberIds S) a (k - 1) x) :
    s.logStore.entryAt k = some x := by
  have hn : c.world.node i = some s.core := by simp [Cluster.world, hs]
  obtain ⟨hstart, hlog⟩ := h.replicates.log_eq hs
  have hi : i ∈ memberIds S := by simpa using (h.fixed.election.member i _ hn).mem
  obtain ⟨hquick, hlen⟩ := h.committed.sm i _ hn
  obtain ⟨p, rfl⟩ := Nat.exists_eq_succ_of_ne_zero (Nat.ne_of_gt hpos)
  rw [Nat.succ_eq_add_one, LogStore.entryAt_succ hstart, hlog]
  refine hx.agree h.mirrors.inv hi (h.committed.quick i _ hn) (Nat.lt_of_succ_le (hk.trans hquick)) ?_
  rw [← hlog]
  exact Nat.lt_of_succ_le (hk.trans hlen)

/-! ## Handlers -/

theorem Replicates.handler (hno : noServer ∉ memberIds S) (hc : Replicates S c.world a) {s : RaftServer}
    (hs : c.srv i = some s) (hok : CanOccur [.clientRequest] c.hist i inp ∧ Ordinary S c.hist inp)
    (hgrow : c.hist <+: w.hist) (hw : Replicates S w a') (h : World.Step i inp s.core w w') :
    ∃ a'', Moved S i a' a'' ∧ Replicates S w' a'' := by
  have hrem : MsgType.removeServerRequest ∉ [MsgType.clientRequest] := by decide
  have hk : InputKind [.clientRequest] inp := .of_canOccur hc.fixed.kinds hok.1
  have hlead : ∀ n, MayLead inp s.core n → n.role = .leader := fun _ hl => hk.mayLead noAdd_client hrem hl
  have hnode : c.world.node i = some s.core := by simp [Cluster.world, hs]
  have hlow : ∀ e ∈ s.core.log.entries, e.term ≤ s.core.state.term := by
    rw [hc.fixed.election.ballots.state i _ hnode, ← (hc.mirrors.stored i).term]
    exact (hc.log_eq hs).2 ▸ hc.mirrors.inv.log_le i
  have hfixed := hc.fixed.step hno hs hok hgrow hw.fixed h
  obtain ⟨a'', hmoved, hmirrors⟩ := hw.mirrors.step noAdd_client hk (hok.1.mono hgrow) hno hlead
    (hc.plain i _ hnode).2 hlow hw.fixed.election h
  have hother : ∀ {j n}, j ≠ i → w'.node j = some n → w.node j = some n := by
    intro j n hj hn
    cases h <;> rwa [World.put_node_of_ne _ hj] at hn
  cases h with
  | @node n n' o hn h =>
      have hn' : (w.put i (some n') o.toList).node i = some n' := World.put_node_self ..
      refine ⟨a'', hmoved, hfixed, fun j m hm => ?_, fun j e he => ?_, hmirrors⟩
      · by_cases hj : j = i
        · subst hj
          obtain rfl : n' = m := Option.some.inj (hn'.symm.trans hm)
          obtain ⟨hd, hsnp⟩ := hw.plain j n hn
          exact ⟨h.params ▸ hd, h.no_snapshot hd hsnp⟩
        · exact hw.plain j m (hother hj hm)
      · by_cases hj : j = i
        · subst hj
          rw [← (hmirrors.plays j _ hn').disk] at he
          exact hfixed.confs.log j n' hn' e he
        · rw [World.put_hist, storedLog_append_of_ne (Ne.symm hj)] at he
          exact hw.kept j e he
  | @exit n r hn _ =>
      have hstill : ∀ x ∈ some (Output.exit r), x.Still := by simp [Output.Still]
      refine ⟨a'', hmoved, hfixed, fun j m hm => ?_, fun j e he => ?_, hmirrors⟩
      · by_cases hj : j = i
        · subst hj
          simp at hm
        · exact hw.plain j m (hother hj hm)
      · refine hw.kept j e ?_
        by_cases hj : j = i
        · subst hj
          rwa [World.put_hist, ← Option.toList_some, storedLog_append_still j w.hist hstill] at he
        · rwa [World.put_hist, storedLog_append_of_ne (Ne.symm hj)] at he
  | die =>
      refine ⟨a'', hmoved, hfixed, fun j m hm => ?_, fun j e he => ?_, hmirrors⟩
      · by_cases hj : j = i
        · subst hj
          simp at hm
        · exact hw.plain j m (hother hj hm)
      · refine hw.kept j e ?_
        simpa using he

theorem Agrees.handler (hno : noServer ∉ memberIds S) (hc : Agrees S c.world a) {s : RaftServer}
    (hs : c.srv i = some s) (hok : CanOccur [.clientRequest] c.hist i inp ∧ Ordinary S c.hist inp)
    (hright : RightFor S c.hist s.core inp) (hgrow : c.hist <+: w.hist) (hw : Agrees S w a')
    (hsince : ∀ n, w.node i = some n → Since inp s.core n) (h : World.Step i inp s.core w w') :
    ∃ a'', Moved S i a' a'' ∧ Agrees S w' a'' ∧ ∀ n, w'.node i = some n → Since inp s.core n := by
  have hrem : MsgType.removeServerRequest ∉ [MsgType.clientRequest] := by decide
  have hk : InputKind [.clientRequest] inp := .of_canOccur hc.fixed.kinds hok.1
  have hlead : ∀ n, MayLead inp s.core n → n.role = .leader := fun _ hl => hk.mayLead noAdd_client hrem hl
  have hnode : c.world.node i = some s.core := by simp [Cluster.world, hs]
  have hocc := hok.1.mono hgrow
  obtain ⟨a'', hmoved, hfixed, hplain, hkept, hmirrors⟩ :=
    hc.replicates.handler hno hs hok hgrow hw.replicates h
  cases h with
  | @node n n' o hn h =>
      have hn' : (w.put i (some n') o.toList).node i = some n' := World.put_node_self ..
      refine ⟨a'', hmoved, ⟨hfixed, hplain, hkept, hmirrors, ?_⟩, fun m hm => ?_⟩
      · exact hw.committed.node noAdd_client hk hocc hgrow hright hlead (hsince n hn) hw.fixed.election
          hfixed.election hw.mirrors hmoved hmirrors hn h
      · obtain rfl : n' = m := Option.some.inj (hn'.symm.trans hm)
        exact (hsince n hn).step noAdd_client hk (hw.mirrors.not_bulk noAdd_client hk hocc) (hc.plain i _ hnode).2 h
  | @exit n r hn _ =>
      refine ⟨a'', hmoved, ⟨hfixed, hplain, hkept, hmirrors, ?_⟩, fun m hm => ?_⟩
      · exact hw.committed.put (o := some (.exit r)) hw.mirrors.inv hmoved (by simp) (by simp) (by simp) (by simp)
      · simp at hm
  | die =>
      refine ⟨a'', hmoved, ⟨hfixed, hplain, hkept, hmirrors, ?_⟩, fun m hm => ?_⟩
      · exact hw.committed.put (o := none) hw.mirrors.inv hmoved (by simp) (by simp) (by simp) (by simp)
      · simp at hm

/-! ## Runs -/

theorem Replicates.restart (hS : (S.map (·.id)).Nodup) (hc : Replicates S c.world a) {b : Boot}
    (hb : Restarts S c.hist b) : Replicates S (c.setSrv b.id (some (RaftServer.start b))).world a := by
  refine ⟨hc.fixed.restart hS ⟨hb.mem, hb.config, hb.state, fun e he => ?_⟩, fun j n hn => ?_, hc.kept,
    hc.mirrors.inv, hc.mirrors.candidate, hc.mirrors.stored, fun j n hn => ?_, hc.mirrors.carries⟩
  · exact hc.kept b.id e (hb.log ▸ he)
  · rcases Cluster.node_of_start hn with ⟨rfl, rfl⟩ | hn
    · exact ⟨hb.noSnapshots, rfl⟩
    · exact hc.plain j n hn
  · rcases Cluster.node_of_start hn with ⟨rfl, rfl⟩ | hn
    · have hrole : (RaftServer.start b).core.role = .follower := rfl
      have hdone : (RaftServer.start b).core.electionCompleted = true := rfl
      refine ⟨hb.log, fun hcand => ?_, fun hopen => ?_, fun hlead => ?_⟩
      · cases hrole.symm.trans hcand
      · cases hdone.symm.trans hopen
      · cases hrole.symm.trans hlead
    · exact hc.mirrors.plays j n hn

theorem Agrees.restart (hS : (S.map (·.id)).Nodup) (hc : Agrees S c.world a) {b : Boot}
    (hb : Restarts S c.hist b) : Agrees S (c.setSrv b.id (some (RaftServer.start b))).world a := by
  obtain ⟨hfixed, hplain, hkept, hmirrors⟩ := hc.replicates.restart hS hb
  have happlied : Firm LogEntry.term (memberIds S) a b.id b.smCommitIndex ∧
      b.smCommitIndex ≤ b.logStore.entries.length := by
    rcases hb.applied with hzero | ⟨⟨j, x⟩, hx, rfl, hreached⟩
    · exact ⟨.inr (.inl hzero), by omega⟩
    · cases x with
      | reach k e =>
          obtain rfl := Option.some.inj hreached
          obtain ⟨-, hpos, hfirm, he⟩ := hc.committed.reached b.id b.smCommitIndex e hx
          rw [(hc.mirrors.stored b.id).log] at he
          have hlt := (List.getElem?_eq_some_iff.mp he).1
          rw [hb.log]
          exact ⟨hfirm, by simp only [Cluster.world] at hlt; omega⟩
      | _ => cases hreached
  refine ⟨hfixed, hplain, hkept, hmirrors, fun j n hn => ?_, fun j n hn => ?_, hc.committed.reached,
    hc.committed.told⟩
  · rcases Cluster.node_of_start hn with ⟨rfl, rfl⟩ | hn
    · exact happlied.1
    · exact hc.committed.quick j n hn
  · rcases Cluster.node_of_start hn with ⟨rfl, rfl⟩ | hn
    · exact ⟨Nat.le_refl _, happlied.2⟩
    · exact hc.committed.sm j n hn

theorem Replicates.down (S : List SrvConfig) : Replicates S Cluster.down.world (Replication.State.empty _ _) := by
  have hfixed : FixedInv S Cluster.down.world := by
    refine ⟨by simp [Kinds, Cluster.world, Cluster.down], ?_, ?_⟩
    · constructor
      · constructor <;> simp [Cluster.world, Cluster.down, stancesOf, stances, outputsOf]
      all_goals simp [Cluster.world, Cluster.down]
    · constructor <;> simp [Cluster.world, Cluster.down]
  refine ⟨hfixed, by simp [Cluster.world, Cluster.down], ?_, .empty, ?_, fun i => ?_, ?_, ?_⟩
  · simp [storedLog, outputsOf, Cluster.world, Cluster.down]
  · simp [State.empty]
  · constructor <;> simp [State.empty, storedLog, savedState, lastSaved, stancesOf, stances, outputsOf,
      Cluster.world, Cluster.down, eq_comm]
  · simp [Cluster.world, Cluster.down]
  · simp [Cluster.world, Cluster.down]

theorem Agrees.down (S : List SrvConfig) : Agrees S Cluster.down.world (Replication.State.empty _ _) := by
  obtain ⟨hfixed, hplain, hkept, hmirrors⟩ := Replicates.down S
  refine ⟨hfixed, hplain, hkept, hmirrors, ?_⟩
  constructor <;> simp [Cluster.world, Cluster.down]

theorem Replicates.next (hS : (S.map (·.id)).Nodup) (hno : noServer ∉ memberIds S)
    (hc : Replicates S c.world a) (hok : ReplicaStep S c ev) :
    ∃ a', Later S a a' ∧ Replicates S (c.step ev).world a' := by
  have hhandler : ∀ i inp s, c.srv i = some s →
      CanOccur [.clientRequest] c.hist i inp ∧ Ordinary S c.hist inp → ∀ w₁ w₂, c.hist <+: w₁.hist →
      (∃ a', Later S a a' ∧ Replicates S w₁ a') → World.Step i inp s.core w₁ w₂ →
      ∃ a', Later S a a' ∧ Replicates S w₂ a' := by
    rintro i inp s hs hocc w₁ w₂ hgrow ⟨a', hlater, hw⟩ hstep
    obtain ⟨a'', hmoved, hw'⟩ := hc.handler hno hs hocc hgrow hw hstep
    exact ⟨a'', hlater.moved hmoved, hw'⟩
  have hstay : ∃ a', Later S a a' ∧ Replicates S c.world a' := ⟨a, Later.refl S a, hc⟩
  cases ev with
  | act i inp =>
      exact Cluster.act_invariant hstay fun s w₁ w₂ hs hg hw hstep => hhandler i inp s hs hok w₁ w₂ hg hw hstep
  | crash i inp k =>
      exact Cluster.crash_invariant (k := k) hstay fun s w₁ w₂ hs hg hw hstep =>
        hhandler i inp s hs hok w₁ w₂ hg hw hstep
  | restart b =>
      simp only [Cluster.step, Cluster.restart]
      split
      · exact ⟨a, Later.refl S a, hc.restart hS hok⟩
      · exact hstay

theorem Replicates.run (hS : (S.map (·.id)).Nodup) (hno : noServer ∉ memberIds S) (hc : Replicates S c.world a)
    (h : Transition.Reachable Cluster.step (ReplicaStep S) c c') :
    ∃ a', Later S a a' ∧ Replicates S c'.world a' := by
  refine h.invariant (P := fun c' => ∃ a', Later S a a' ∧ Replicates S c'.world a') ⟨a, Later.refl S a, hc⟩ ?_
  rintro c₁ ev ⟨a₁, hlater, h₁⟩ hok
  obtain ⟨a₂, hlater', h₂⟩ := h₁.next hS hno hok
  exact ⟨a₂, hlater.trans hlater', h₂⟩

theorem Agrees.next (hS : (S.map (·.id)).Nodup) (hno : noServer ∉ memberIds S) (hc : Agrees S c.world a)
    (hok : RightStep S c ev) : ∃ a', Later S a a' ∧ Agrees S (c.step ev).world a' := by
  have hhandler : ∀ i inp s, c.srv i = some s →
      CanOccur [.clientRequest] c.hist i inp ∧ Ordinary S c.hist inp → RightFor S c.hist s.core inp →
      ∀ w₁ w₂, c.hist <+: w₁.hist →
      (∃ a', Later S a a' ∧ Agrees S w₁ a' ∧ ∀ n, w₁.node i = some n → Since inp s.core n) →
      World.Step i inp s.core w₁ w₂ →
      ∃ a', Later S a a' ∧ Agrees S w₂ a' ∧ ∀ n, w₂.node i = some n → Since inp s.core n := by
    rintro i inp s hs hocc hright w₁ w₂ hgrow ⟨a', hlater, hw, hsince⟩ hstep
    obtain ⟨a'', hmoved, hw', hsince'⟩ := hc.handler hno hs hocc hright hgrow hw hsince hstep
    exact ⟨a'', hlater.moved hmoved, hw', hsince'⟩
  have hbegin : ∀ i inp s, c.srv i = some s →
      ∃ a', Later S a a' ∧ Agrees S c.world a' ∧ ∀ n, c.world.node i = some n → Since inp s.core n := by
    intro i inp s hs
    refine ⟨a, Later.refl S a, hc, fun n hn => ?_⟩
    have hn' : some s.core = some n := by rw [← hn]; simp [Cluster.world, hs]
    exact Option.some.inj hn' ▸ Since.refl inp s.core
  have hstay : ∃ a', Later S a a' ∧ Agrees S c.world a' := ⟨a, Later.refl S a, hc⟩
  cases ev with
  | act i inp =>
      cases hs : c.srv i with
      | none => simpa [Cluster.step, Cluster.act, hs] using hstay
      | some s =>
          obtain ⟨a', hlater, hw, -⟩ := Cluster.act_invariant (hbegin i inp s hs) fun s' w₁ w₂ hs' hg hw hstep => by
            obtain rfl := Option.some.inj (hs.symm.trans hs')
            exact hhandler i inp s hs hok.1 (hok.2 s hs) w₁ w₂ hg hw hstep
          exact ⟨a', hlater, hw⟩
  | crash i inp k =>
      cases hs : c.srv i with
      | none => simpa [Cluster.step, Cluster.crash, hs] using hstay
      | some s =>
          obtain ⟨a', hlater, hw, -⟩ :=
            Cluster.crash_invariant (k := k) (hbegin i inp s hs) fun s' w₁ w₂ hs' hg hw hstep => by
              obtain rfl := Option.some.inj (hs.symm.trans hs')
              exact hhandler i inp s hs hok.1 (hok.2 s hs) w₁ w₂ hg hw hstep
          exact ⟨a', hlater, hw⟩
  | restart b =>
      simp only [Cluster.step, Cluster.restart]
      split
      · exact ⟨a, Later.refl S a, hc.restart hS hok.1⟩
      · exact hstay

theorem Agrees.run (hS : (S.map (·.id)).Nodup) (hno : noServer ∉ memberIds S) (hc : Agrees S c.world a)
    (h : Transition.Reachable Cluster.step (RightStep S) c c') : ∃ a', Later S a a' ∧ Agrees S c'.world a' := by
  refine h.invariant (P := fun c' => ∃ a', Later S a a' ∧ Agrees S c'.world a') ⟨a, Later.refl S a, hc⟩ ?_
  rintro c₁ ev ⟨a₁, hlater, h₁⟩ hok
  obtain ⟨a₂, hlater', h₂⟩ := h₁.next hS hno hok
  exact ⟨a₂, hlater.trans hlater', h₂⟩

/-- All servers apply the same entries, and what one of them has committed is, in this and in every later
state, the entry that each server has at the index once it has applied as much. -/
theorem state_machine_safety (hS : (S.map (·.id)).Nodup) (hno : noServer ∉ memberIds S)
    (h : Transition.Reachable Cluster.step (RightStep S) .down c) :
    (∀ i j k x y, (i, .reach k x) ∈ c.hist → (j, .reach k y) ∈ c.hist → x = y) ∧
      ∀ c', Transition.Reachable Cluster.step (RightStep S) c c' → ∀ i s k x, c.srv i = some s →
        k ≤ s.quickCommitIdx → s.logStore.entryAt k = some x → ∀ j s', c'.srv j = some s' →
          k ≤ s'.smCommitIndex → s'.logStore.entryAt k = some x := by
  obtain ⟨a, -, ha⟩ := (Agrees.down S).run hS hno h
  constructor
  · intro i j k x y hx hy
    obtain ⟨-, hpos, hfirm, hx'⟩ := ha.committed.reached i k x hx
    obtain ⟨hj, -, hfirm', hy'⟩ := ha.committed.reached j k y hy
    have hagree := (hfirm.settled (by omega) hx').agree ha.mirrors.inv hj hfirm' (by omega)
      (List.getElem?_eq_some_iff.mp hy').1
    exact Option.some.inj (hagree.symm.trans hy')
  · intro c' h' i s k x hs hk hx j s' hs' hk'
    obtain ⟨hpos, hsettled⟩ := ha.settled hs hk hx
    obtain ⟨a', hlater, ha'⟩ := ha.run hS hno h'
    exact ha'.applied hs' hpos hk' (hsettled.mono hlater.evolves hlater.alone)

/-! ## Three servers -/

instance (S : List SrvConfig) (hist : Hist) (n : Core) (m : RespMsg) : Decidable (n.CountsRight S hist m) :=
  inferInstanceAs (Decidable (_ → _))

instance (n : Core) (m : ReqMsg) : Decidable (n.FollowsRight m) :=
  inferInstanceAs (Decidable (_ → _ → (_ → _) → _ ∨ _ ∨ _))

instance (S : List SrvConfig) (hist : Hist) (n : Core) : DecidablePred (RightFor S hist n)
  | .req .. => inferInstanceAs (Decidable (_ → _))
  | .resp .. => inferInstanceAs (Decidable (_ → _ → _ → _ → _ → _))
  | .electionTimeout | .hbTimeout _ | .commitInBg | .rpcError .. | .retry _
  | .snapshotCompleted _ | .replicateLog .. => inferInstanceAs (Decidable True)

instance (S : List SrvConfig) (hist : Hist) (b : Boot) : Decidable (Restarts S hist b) :=
  decidable_of_iff (b.id ∈ S.map (·.id) ∧ b.config.servers = S ∧ b.state = lastSaved b.id hist ∧
      b.logStore = storedLog b.id hist ∧
      (b.smCommitIndex = 0 ∨ ∃ x ∈ hist, x.1 = b.id ∧ x.2.reached? = some b.smCommitIndex) ∧
      b.params.snapshotDistance = 0)
    ⟨fun ⟨h1, h2, h3, h4, h5, h6⟩ => ⟨h1, h2, h3, h4, h5, h6⟩,
      fun ⟨h1, h2, h3, h4, h5, h6⟩ => ⟨h1, h2, h3, h4, h5, h6⟩⟩

instance (S : List SrvConfig) (c : Cluster) : DecidablePred (ReplicaStep S c)
  | .act .. | .crash .. => inferInstanceAs (Decidable (_ ∧ _))
  | .restart b => inferInstanceAs (Decidable (Restarts S c.hist b))

instance (S : List SrvConfig) (c : Cluster) : DecidablePred (CommitsRight S c)
  | .act i _ | .crash i _ _ => inferInstanceAs (Decidable (∀ s ∈ c.srv i, _))
  | .restart _ => inferInstanceAs (Decidable True)

instance (S : List SrvConfig) (c : Cluster) (ev : Event) : Decidable (RightStep S c ev) :=
  inferInstanceAs (Decidable (_ ∧ _))

namespace ThreeServers

def write (i : SrvId) (data : List UInt8) (_ : Cluster) : Event :=
  .act i (.req
    { term := 0, type := .clientRequest, src := 0, dst := i, lastLogTerm := 0, lastLogIdx := 0,
      commitIdx := 0, payload := .entries [⟨0, .appLog data⟩] } .client {})

/-- Server 1 wins term 1, commits the configuration, and server 2 follows. -/
def firstCommit : List (Cluster → Event) :=
  [fun _ => .restart (boot 1), fun _ => .restart (boot 2), fun _ => .restart (boot 3), timeout 1,
   deliver 0, deliver 2, deliver 3, deliver 4, deliver 5, deliver 6, deliver 7, background 1, background 2]

/-- Server 3 dies and comes back with what it has stored. -/
def recovered : Cluster :=
  Transition.follow Cluster.step .down (firstCommit ++ [fun _ => .crash 3 .electionTimeout 0,
    fun c => .restart { boot 3 with state := lastSaved 3 c.hist, logStore := storedLog 3 c.hist }, deliver 8])

/-- After that server 1 logs a write that nobody gets, and server 2 another one in term 2. Server 1 wins
term 3, gets its entry of term 1 to server 3 and counts it. Server 2 wins term 4 with the entry of term 2,
puts it in the place of the one that server 3 has, and counts it as well. -/
def replaced : Cluster :=
  Transition.follow Cluster.step .down (firstCommit ++ [write 1 [1], timeout 2, deliver 12, deliver 13,
    write 2 [2], deliver 11, timeout 1, deliver 19, deliver 20, deliver 22, deliver 23, deliver 24, deliver 25,
    background 1, deliver 18, timeout 2, deliver 29, deliver 30, deliver 32, deliver 33, deliver 34, deliver 35,
    background 2])

end ThreeServers

open ThreeServers in
theorem state_machine_safety_three :
    ((∃ x, (1, .reach 1 x) ∈ recovered.hist ∧ (2, .reach 1 x) ∈ recovered.hist) ∧
      ∀ i j k x y, (i, .reach k x) ∈ recovered.hist → (j, .reach k y) ∈ recovered.hist → x = y) ∧
      ∀ c', Transition.Reachable Cluster.step (RightStep servers) recovered c' → ∀ i s k x,
        recovered.srv i = some s → k ≤ s.quickCommitIdx → s.logStore.entryAt k = some x → ∀ j s',
          c'.srv j = some s' → k ≤ s'.smCommitIndex → s'.logStore.entryAt k = some x :=
  have hsafe := state_machine_safety (S := servers) (by decide) (by decide)
    (c := recovered) (Transition.reachable_of_follows (by decide +kernel))
  ⟨⟨⟨⟨1, .conf ⟨1, 0, servers⟩⟩, by decide +kernel⟩, hsafe.1⟩, hsafe.2⟩

open ThreeServers in
theorem state_machines_diverge :
    Transition.Reachable Cluster.step (ReplicaStep servers) .down replaced ∧
      (1, .reach 2 ⟨1, .appLog [1]⟩) ∈ replaced.hist ∧ (2, .reach 2 ⟨2, .appLog [2]⟩) ∈ replaced.hist :=
  ⟨Transition.reachable_of_follows (by decide +kernel), by decide +kernel, by decide +kernel⟩

end Ns3Raft.Raft
