import Ns3Raft.Raft.Stepped
import Ns3Raft.Raft.TermVote

/-! # The configuration flag

`config_changing_` is meant to say that a configuration is in the log and not
yet applied. The flag follows single entries: the one that is written, the one
that is overwritten, the one that is applied. Entries that come or go in bulk do
not reach it.
-/

namespace Ns3Raft.Raft

namespace LogStore

variable {l l' : LogStore} {e : LogEntry} {es : List LogEntry} {a b i idx k : Nat}

def confAt (l : LogStore) (idx : Nat) : Bool := (l.entryAt idx).any (·.isConf)

/-- There is a configuration entry at an index strictly between the two. -/
def ConfBetween (l : LogStore) (a b : Nat) : Prop := ∃ i < b, a < i ∧ l.confAt i = true

instance (l : LogStore) (a b : Nat) : Decidable (l.ConfBetween a b) :=
  inferInstanceAs (Decidable (∃ i < b, _))

def ConfAbove (l : LogStore) (a : Nat) : Prop := l.ConfBetween a l.nextSlot

instance (l : LogStore) (a : Nat) : Decidable (l.ConfAbove a) :=
  inferInstanceAs (Decidable (l.ConfBetween a l.nextSlot))

/-- The log up to an index, and other entries from there on. -/
def splice (l : LogStore) (idx : Nat) (es : List LogEntry) : LogStore :=
  { l with entries := l.entries.take (idx - l.startIndex) ++ es }

theorem confAt_lt (h : l.confAt idx = true) : idx < l.nextSlot := by
  by_contra hge
  have hnone : l.entryAt idx = none := (l.entryAt_eq_none_iff idx).mpr (.inr (by omega))
  simp [confAt, hnone] at h

theorem confAbove_iff : l.ConfAbove a ↔ ∃ i, a < i ∧ l.confAt i = true :=
  ⟨fun ⟨i, _, ha, hc⟩ => ⟨i, ha, hc⟩, fun ⟨i, ha, hc⟩ => ⟨i, confAt_lt hc, ha, hc⟩⟩

theorem ConfBetween.above (h : l.ConfBetween a b) : l.ConfAbove a :=
  have ⟨i, _, ha, hc⟩ := h
  confAbove_iff.mpr ⟨i, ha, hc⟩

theorem entryAt_splice_of_lt (hs : l.startIndex ≤ idx) (hn : idx ≤ l.nextSlot) (hi : i < idx) :
    (l.splice idx es).entryAt i = l.entryAt i := by
  unfold nextSlot at hn
  unfold entryAt splice
  dsimp only
  split
  · rfl
  · rw [List.getElem?_append_left (by rw [List.length_take]; omega),
      List.getElem?_take_of_lt (by omega)]

theorem entryAt_splice_add (hs : l.startIndex ≤ idx) (hn : idx ≤ l.nextSlot) (j : Nat) :
    (l.splice idx es).entryAt (idx + j) = es[j]? := by
  unfold nextSlot at hn
  unfold entryAt splice
  dsimp only
  rw [if_neg (by omega), List.getElem?_append_right (by rw [List.length_take]; omega),
    List.length_take, Nat.min_eq_left (by omega)]
  congr 1
  omega

/-- After a splice a configuration is above `k` below the splice or in it. -/
theorem confAbove_splice (hs : l.startIndex ≤ idx) (hn : idx ≤ l.nextSlot) :
    (l.splice idx es).ConfAbove k ↔
      l.ConfBetween k idx ∨ ∃ j e, es[j]? = some e ∧ k < idx + j ∧ e.isConf = true := by
  rw [confAbove_iff]
  constructor
  · rintro ⟨i, hk, hc⟩
    rcases Nat.lt_or_ge i idx with hi | hi
    · unfold confAt at hc
      rw [entryAt_splice_of_lt hs hn hi] at hc
      exact .inl ⟨i, hi, hk, hc⟩
    · obtain ⟨j, rfl⟩ := Nat.exists_eq_add_of_le hi
      unfold confAt at hc
      rw [entryAt_splice_add hs hn] at hc
      obtain ⟨e, he, hconf⟩ := (Option.any_eq_true _ _).mp hc
      exact .inr ⟨j, e, he, hk, hconf⟩
  · rintro (⟨i, hi, hk, hc⟩ | ⟨j, e, he, hk, hconf⟩)
    · refine ⟨i, hk, ?_⟩
      unfold confAt
      rwa [entryAt_splice_of_lt hs hn hi]
    · refine ⟨idx + j, hk, ?_⟩
      unfold confAt
      rw [entryAt_splice_add hs hn, he]
      exact hconf

theorem append_eq_splice (l : LogStore) (e : LogEntry) :
    l.append e = l.splice l.nextSlot [e] := by
  simp [append, splice, nextSlot]

theorem confAbove_append :
    (l.append e).ConfAbove k ↔ l.ConfAbove k ∨ (k < l.nextSlot ∧ e.isConf = true) := by
  have hs : l.startIndex ≤ l.nextSlot := l.startIndex.le_add_right _
  rw [append_eq_splice, confAbove_splice hs le_rfl]
  refine or_congr_right ⟨?_, fun h => ⟨0, e, rfl, h⟩⟩
  rintro ⟨j, e', he', h⟩
  obtain ⟨rfl, rfl⟩ : j = 0 ∧ e = e' := by
    cases j with
    | zero => simpa using he'
    | succ j => simp at he'
  exact h

end LogStore

namespace RaftServer

variable {s s' : RaftServer}

/-- The flag says what it is meant to say. -/
def FlagRight (s : RaftServer) : Prop :=
  s.configChanging = true ↔ s.logStore.ConfAbove s.smCommitIndex

theorem FlagRight.of_untouched {s₀ : RaftServer} (hu : Untouched s₀ s) (h : s₀.FlagRight) :
    s.FlagRight := by
  have hflag : s.configChanging = s₀.configChanging := congrArg Footing.configChanging hu
  have hlog : s.logStore = s₀.logStore := congrArg Footing.logStore hu
  have hsm : s.smCommitIndex = s₀.smCommitIndex := congrArg Footing.smCommitIndex hu
  unfold FlagRight
  rwa [hflag, hlog, hsm]

/-- The flag read off the kept fields. -/
theorem FlagRight.of_kept {k : Kept} (hk : s.kept = k)
    (h : k.configChanging = true ↔ k.logStore.ConfAbove k.smCommitIndex) : s.FlagRight := by
  subst hk
  exact h

theorem foldl_appendReceived_kept (es : List LogEntry) (s : RaftServer) :
    (es.foldl appendReceived s).kept = { s.kept with
      logStore := { s.logStore with entries := s.logStore.entries ++ es }
      configChanging := s.configChanging || es.any (·.isConf) } := by
  induction es generalizing s with
  | nil => simp [kept]
  | cons e es ih =>
      have hone := appendReceived_kept s e
      have hlog : (s.appendReceived e).logStore = s.logStore.append e := congrArg Kept.logStore hone
      have hflag : (s.appendReceived e).configChanging = (s.configChanging || e.isConf) :=
        congrArg Kept.configChanging hone
      rw [List.foldl_cons, ih, hone, hlog, hflag]
      simp [LogStore.append, Bool.or_assoc]

/-- What an append request writes: the log from the first index that differs,
and the flag by the one entry that is overwritten and all that come in. -/
theorem writeEntries_splice (s : RaftServer) {idx : Nat} {es : List LogEntry}
    (hs : es ≠ [] → s.logStore.startIndex ≤ idx) (hn : idx ≤ s.logStore.nextSlot) :
    ∃ i rest, skipOverlap s.logStore idx es = (i, rest) ∧ i ≤ s.logStore.nextSlot ∧
      (rest = [] → (s.writeEntries idx es).kept = s.kept) ∧
      (rest ≠ [] → s.logStore.startIndex ≤ i ∧
        (s.writeEntries idx es).kept = { s.kept with
          logStore := s.logStore.splice i rest
          configChanging :=
            (s.configChanging && !s.logStore.confAt i) || rest.any (·.isConf) }) := by
  obtain ⟨k, -, heq, -, hnext, -⟩ := skipOverlap_spec s.logStore idx es
  refine ⟨idx + k, es.drop k, heq, hnext hn, fun hnil => ?_, fun hne => ?_⟩
  · unfold writeEntries
    rw [heq]
    dsimp only
    rw [hnil]
    rfl
  · have hstart : s.logStore.startIndex ≤ idx + k :=
      (hs fun hes => hne (by simp [hes])).trans (Nat.le_add_right _ _)
    refine ⟨hstart, ?_⟩
    unfold writeEntries
    rw [heq]
    dsimp only
    cases hdrop : es.drop k with
    | nil => exact absurd hdrop hne
    | cons e rest =>
        rw [overwriteLoop_eq s e rest hstart]
        split
        · have hone := overwriteAt_kept s (idx + k) e
          have hlog : (s.overwriteAt (idx + k) e).logStore = s.logStore.writeAt (idx + k) e :=
            congrArg Kept.logStore hone
          have hflag : (s.overwriteAt (idx + k) e).configChanging = _ :=
            congrArg Kept.configChanging hone
          rw [foldl_appendReceived_kept, hone, hlog, hflag]
          simp [LogStore.writeAt, LogStore.splice, LogStore.confAt, Bool.or_assoc]
        · have hend : idx + k = s.logStore.nextSlot := Nat.le_antisymm (hnext hn) (by omega)
          have hnone : s.logStore.confAt (idx + k) = false := by
            cases hc : s.logStore.confAt (idx + k) with
            | false => rfl
            | true => exact absurd (LogStore.confAt_lt hc) (by omega)
          rw [foldl_appendReceived_kept, hnone]
          simp [LogStore.splice, hend, LogStore.nextSlot]

/-! ## What each input must find -/

/-- An entry logged next goes in above the commit index. -/
def LogsAbove (s : RaftServer) : Prop := s.smCommitIndex < s.logStore.nextSlot

/-- The request leaves the flag right: with a new configuration one is above the
commit index afterwards; if instead a configuration is overwritten, it was the
only one up to there; else no configuration is dropped behind the last that stays. -/
def OverwritesInStep (s : RaftServer) (m : ReqMsg) : Prop :=
  let r := skipOverlap s.logStore (m.lastLogIdx + 1) m.logEntries
  r.2 ≠ [] →
    if r.2.any (·.isConf) then (s.logStore.splice r.1 r.2).ConfAbove s.smCommitIndex
    else if s.logStore.confAt r.1 then ¬ s.logStore.ConfBetween s.smCommitIndex r.1
    else s.logStore.ConfAbove s.smCommitIndex → s.logStore.ConfBetween s.smCommitIndex r.1

/-- With the new log and the new index a configuration is pending just when one was. -/
def SamePending (s : RaftServer) (l : LogStore) (smCommitIndex : Nat) : Prop :=
  l.ConfAbove smCommitIndex ↔ s.logStore.ConfAbove s.smCommitIndex

/-- A request whose handler brings entries in, or sets the index, in bulk. -/
def BulkInStep (s : RaftServer) (m : ReqMsg) : Prop :=
  match m.payload with
  | .logPack es => m.type = .syncLogRequest → s.catchingUp = true →
      ∀ l ∈ s.logStore.applyPack (m.lastLogIdx + 1) es, s.SamePending l s.smCommitIndex
  | .snpSyncReq r => m.type = .installSnapshotRequest →
      s.smCommitIndex < r.snapshot.lastLogIdx →
      ∀ l ∈ s.logStore.compact r.snapshot.lastLogIdx, s.SamePending l r.snapshot.lastLogIdx
  | .entries _ => s.AcceptsJoin m → s.SamePending s.logStore 0

instance (s : RaftServer) : Decidable s.LogsAbove := inferInstanceAs (Decidable (_ < _))

instance (s : RaftServer) (m : ReqMsg) : Decidable (s.OverwritesInStep m) := by
  unfold OverwritesInStep
  infer_instance

instance (s : RaftServer) (l : LogStore) (k : Nat) : Decidable (s.SamePending l k) :=
  inferInstanceAs (Decidable (_ ↔ _))

instance (s : RaftServer) (m : ReqMsg) : Decidable (s.BulkInStep m) := by
  dsimp only [BulkInStep]
  exact match m.payload with
  | .entries _ | .logPack _ | .snpSyncReq _ => inferInstance

end RaftServer

/-- The condition on one step. -/
def InStep (s : RaftServer) (inp : Input) : Prop :=
  match inp with
  | .commitInBg => s.smCommitIndex < s.quickCommitIdx →
      s.logStore.confAt (s.smCommitIndex + 1) = true →
      ¬ s.logStore.ConfAbove (s.smCommitIndex + 1)
  | .req m _ env =>
      (s.TakesEntries m → s.OverwritesInStep m) ∧ s.BulkInStep m ∧
        (m.type = .clientRequest → s.isLeader env.leaseOk = true →
          (∃ e ∈ m.logEntries, e.isConf = true) → s.configChanging = true)
  | .rpcError m h => (inp.EndsExchange → s.LogsAbove) ∧
      (h = .exResp → s.GivesUp m → ¬ s.logStore.ConfAbove s.smCommitIndex)
  | .snapshotCompleted (some _) => ∀ snp ∈ s.snpInProgress,
      ∀ l ∈ s.logStore.compact (snp.lastLogIdx - s.params.reservedLogItems),
        s.SamePending l s.smCommitIndex
  | _ => (inp.EndsExchange ∨ inp.Elects ∧ s.config.logIdx = 0) → s.LogsAbove

instance (s : RaftServer) : DecidablePred (InStep s)
  | .commitInBg => inferInstanceAs (Decidable (_ → _))
  | .req .. => inferInstanceAs (Decidable (_ ∧ _))
  | .rpcError .. => inferInstanceAs (Decidable (_ ∧ _))
  | .snapshotCompleted (some _) => inferInstanceAs (Decidable (∀ snp ∈ s.snpInProgress, _))
  | .snapshotCompleted none | .electionTimeout | .hbTimeout _ | .resp .. | .retry _
  | .replicateLog .. =>
      inferInstanceAs (Decidable (_ → _))

/-! ## One step -/

namespace RaftServer

variable {s s₀ s' : RaftServer} {inp : Input}

theorem FlagRight.appendLog {e : LogEntry} (hflag : s.configChanging = true)
    (hlog : s.LogsAbove) (he : e.isConf = true) : (s.appendLog e).FlagRight :=
  .of_kept (appendLog_kept s e)
    (iff_of_true hflag (LogStore.confAbove_append.mpr (.inr ⟨hlog, he⟩)))

theorem FlagRight.create (h : s.FlagRight) {e : LogEntry}
    (he : e.isConf = true → s.configChanging = true) : (s.appendLog e).FlagRight := by
  refine .of_kept (appendLog_kept s e) (Iff.trans ?_ LogStore.confAbove_append.symm)
  constructor
  · exact fun hflag => .inl (h.mp hflag)
  · rintro (habove | ⟨-, hconf⟩)
    · exact h.mpr habove
    · exact he hconf

theorem FlagRight.write (h : s.FlagRight) {m : ReqMsg}
    (hprev : m.lastLogIdx + 1 ≤ s.logStore.nextSlot)
    (hstart : m.logEntries ≠ [] → s.logStore.startIndex ≤ m.lastLogIdx + 1)
    (hok : s.OverwritesInStep m) :
    ({ s.writeEntries (m.lastLogIdx + 1) m.logEntries with leader := m.src }).FlagRight := by
  obtain ⟨i, rest, heq, hi, hnil, hcons⟩ :=
    s.writeEntries_splice hstart hprev
  by_cases hrest : rest = []
  · exact FlagRight.of_kept (s := s.writeEntries _ _) (hnil hrest) h
  obtain ⟨hs, hkept⟩ := hcons hrest
  unfold OverwritesInStep at hok
  rw [heq] at hok
  replace hok := hok hrest
  have hgoal : ((s.configChanging && !s.logStore.confAt i) || rest.any (·.isConf)) = true ↔
      (s.logStore.splice i rest).ConfAbove s.smCommitIndex := by
    cases hnew : rest.any (·.isConf) with
    | true =>
        rw [if_pos hnew] at hok
        exact iff_of_true (by simp) hok
    | false =>
        -- without a new configuration only those below the splice stay
        have hstay : (s.logStore.splice i rest).ConfAbove s.smCommitIndex ↔
            s.logStore.ConfBetween s.smCommitIndex i := by
          rw [LogStore.confAbove_splice hs hi]
          refine or_iff_left ?_
          rintro ⟨j, e, he, -, hconf⟩
          have hmem := List.any_eq_false.mp hnew e (List.mem_of_getElem? he)
          exact hmem hconf
        rw [if_neg (by simp [hnew])] at hok
        rw [hstay, Bool.or_false]
        cases hold : s.logStore.confAt i with
        | true =>
            rw [if_pos hold] at hok
            exact iff_of_false (by simp) hok
        | false =>
            rw [if_neg (by simp [hold])] at hok
            rw [Bool.not_false, Bool.and_true]
            exact h.trans ⟨hok, LogStore.ConfBetween.above⟩
  exact FlagRight.of_kept (s := s.writeEntries _ _) hkept hgoal

theorem FlagRight.reached (h : s.FlagRight) {e : LogEntry}
    (he : s.logStore.entryAt (s.smCommitIndex + 1) = some e)
    (hok : s.logStore.confAt (s.smCommitIndex + 1) = true →
      ¬ s.logStore.ConfAbove (s.smCommitIndex + 1)) : (s.reached e).FlagRight := by
  have hat : s.logStore.confAt (s.smCommitIndex + 1) = e.isConf := by
    unfold LogStore.confAt
    rw [he]
    rfl
  refine .of_kept (reached_kept s e) ?_
  dsimp only
  cases hc : e.isConf with
  | true => exact iff_of_false (by simp) (hok (hat.trans hc))
  | false =>
      rw [Bool.not_false, Bool.and_true]
      refine h.trans (LogStore.confAbove_iff.trans (Iff.trans ?_ LogStore.confAbove_iff.symm))
      constructor
      · rintro ⟨i, hi, hconf⟩
        refine ⟨i, ?_, hconf⟩
        by_contra hle
        obtain rfl : i = s.smCommitIndex + 1 := by omega
        exact absurd (hconf.symm.trans (hat.trans hc)) (by decide)
      · rintro ⟨i, hi, hconf⟩
        exact ⟨i, by omega, hconf⟩

theorem OverwritesInStep.of_untouched (hu : Untouched s₀ s) {m : ReqMsg}
    (h : s₀.OverwritesInStep m) : s.OverwritesInStep m := by
  have hlog : s.logStore = s₀.logStore := congrArg Footing.logStore hu
  have hsm : s.smCommitIndex = s₀.smCommitIndex := congrArg Footing.smCommitIndex hu
  unfold OverwritesInStep
  rwa [hlog, hsm]

theorem LogsAbove.of_untouched (hu : Untouched s₀ s) (h : s₀.LogsAbove) : s.LogsAbove := by
  have hlog : s.logStore = s₀.logStore := congrArg Footing.logStore hu
  have hsm : s.smCommitIndex = s₀.smCommitIndex := congrArg Footing.smCommitIndex hu
  unfold LogsAbove
  rwa [hlog, hsm]

/-- The flag of a server whose log and index are replaced. -/
theorem FlagRight.replace (h : s.FlagRight) (hlog : s.logStore = s₀.logStore)
    (hsm : s.smCommitIndex = s₀.smCommitIndex) {l : LogStore} {k : Nat}
    (hpend : s₀.SamePending l k) (hk : s'.kept.footing =
      { s.kept.footing with logStore := l, smCommitIndex := k }) : s'.FlagRight := by
  have hflag : s'.configChanging = s.configChanging := congrArg Footing.configChanging hk
  have hlog' : s'.logStore = l := congrArg Footing.logStore hk
  have hsm' : s'.smCommitIndex = k := congrArg Footing.smCommitIndex hk
  unfold SamePending at hpend
  unfold FlagRight at h ⊢
  rw [hflag, hlog', hsm', h, hlog, hsm, hpend]

end RaftServer

theorem InStep.logsAbove_of_endsExchange {s : RaftServer} {inp : Input} (h : InStep s inp)
    (hend : inp.EndsExchange) : s.LogsAbove := by
  cases inp with
  | resp m h' t => exact h (.inl hend)
  | rpcError m h' => exact h.1 hend
  | _ => exact hend.elim

theorem InStep.logsAbove_of_elects {s : RaftServer} {inp : Input} (h : InStep s inp)
    (hel : inp.Elects) (hconf : s.config.logIdx = 0) : s.LogsAbove := by
  cases inp with
  | electionTimeout => exact h (.inr ⟨hel, hconf⟩)
  | resp m h' t => exact h (.inr ⟨hel, hconf⟩)
  | _ => exact hel.elim

theorem Move.flagRight {inp : Input} {s₀ s s' : RaftServer} (h : Move inp s₀ s s')
    (hs : s.FlagRight) (hok : InStep s₀ inp) : s'.exited = true ∨ s'.FlagRight := by
  cases h with
  | sends h => exact .inr (.of_kept h.kept hs)
  | config => exact .inr hs
  | again _ => exact .inr (.of_kept (RaftServer.emit_kept s _) hs)
  | restart =>
      obtain ⟨b, hb⟩ := RaftServer.restartElectionTimer_kept s
      exact .inr (.of_kept hb hs)
  | grant _ => exact .inr (.of_kept (RaftServer.saveState_kept s _) hs)
  | stepDown _ _ =>
      obtain ⟨b, r, st, hb⟩ := RaftServer.updateTerm_kept s _
      exact .inr (.of_kept hb hs)
  | demote _ =>
      obtain ⟨b, hb⟩ := RaftServer.becomeFollower_kept s
      exact .inr (.of_kept hb hs)
  | stand h =>
      have hstand : s.standing.FlagRight := .of_kept (RaftServer.standing_kept s) hs
      obtain ⟨b, hb⟩ := RaftServer.restartElectionTimer_kept _
      exact .inr (.of_kept hb (RaftServer.FlagRight.of_kept h.kept hstand))
  | @lead s₁ s₂ s' hel h₁ h₂ h₃ hu =>
      have hfirst : s₁.kept.footing = s.kept.footing := by
        rcases h₁ with rfl | rfl
        · rfl
        · have hstand := congrArg Kept.footing (RaftServer.standing_kept s)
          exact hstand
      have hstop := congrArg Kept.footing (s₂.stopElectionTimer_kept.trans h₂.kept)
      have hlast : s'.kept.footing = s.kept.footing :=
        (congrArg Kept.footing h₃.kept).trans (hstop.trans hfirst)
      have hu' : Untouched s₀ s' := hlast.trans hu
      refine .inr (.of_kept s'.logInitialConfig_kept ?_)
      split
      · rename_i hconf
        have hconfig : s'.config = s₀.config := congrArg Footing.config hu'
        have habove : s'.LogsAbove := .of_untouched hu'
          (hok.logsAbove_of_elects hel (hconfig ▸ hconf))
        exact iff_of_true rfl (LogStore.confAbove_append.mpr (.inr ⟨habove, rfl⟩))
      · exact RaftServer.FlagRight.of_untouched hlast hs
  | @write m _ _ hinp htake _ _ hu =>
      have hlog : s.logStore = s₀.logStore := congrArg Footing.logStore hu
      subst hinp
      refine .inr (hs.write ?_ (hlog ▸ htake.2.2.2.2) (.of_untouched hu (hok.1 htake)))
      have hpos := s₀.logStore.nextSlot_pos
      rw [hlog]
      rcases htake.prev with h0 | hlt
      · omega
      · omega
  | @create e _ _ hflag hfrom =>
      refine .inr (hs.create fun hconf => ?_)
      rcases hfrom with ⟨data, _, -, hval⟩ | ⟨m, h, env, rfl, ht, hl, e', he', hval⟩
      · simp [LogEntry.isConf, LogEntry.conf?, hval] at hconf
      · have hconf' : e'.isConf = true := by
          unfold LogEntry.isConf LogEntry.conf? at hconf ⊢
          rwa [← hval]
        exact hflag.trans (hok.2.2 ht hl ⟨e', he', hconf'⟩)
  | newConfig hend hu =>
      have habove : s.LogsAbove := .of_untouched hu (hok.logsAbove_of_endsExchange hend)
      exact .inr (RaftServer.FlagRight.appendLog (s := { s with configChanging := true }) rfl
        habove rfl)
  | giveUp hinp hgive hu =>
      subst hinp
      refine .inr (.of_kept rfl (iff_of_false (fun h => Bool.noConfusion h) ?_))
      have hlog : s.logStore = s₀.logStore := congrArg Footing.logStore hu
      have hsm : s.smCommitIndex = s₀.smCommitIndex := congrArg Footing.smCommitIndex hu
      have hnone := hok.2 rfl hgive
      rw [← hlog, ← hsm] at hnone
      exact hnone
  | @pack m _ _ es l hinp ht hpay hcatch hl heq =>
      subst hinp heq
      have hpend := hok.2.1
      unfold RaftServer.BulkInStep at hpend
      rw [hpay] at hpend
      exact .inr (hs.replace rfl rfl (hpend ht hcatch l hl)
        (congrArg Kept.footing (RaftServer.emit_kept _ _)))
  | @join m _ _ t c hinp ht hpay hcatch heq =>
      subst hinp heq
      have hpend := hok.2.1
      unfold RaftServer.BulkInStep at hpend
      rw [hpay] at hpend
      have hacc : s.AcceptsJoin m :=
        ⟨ht, hcatch, by rw [(m.conf?_eq_some_iff c).mpr ⟨t, hpay⟩]; rfl⟩
      exact .inr (hs.replace rfl rfl (hpend hacc)
        (congrArg Kept.footing (RaftServer.saveState_kept _ _)))
  | @reach e _ hinp heq hquick hlast he h =>
      subst hinp heq
      exact .inr (.of_kept h.kept (hs.reached he (hok hquick)))
  | lost _ => exact .inl (RaftServer.exit_exited _ _)
  | complete _ _ _ => exact .inr hs
  | @compact bytes snp l hinp hsnp heq hl =>
      subst hinp heq
      have hpend := hok snp hsnp l hl
      have hemit := congrArg Kept.footing (RaftServer.emit_kept
        { s₀.completed snp bytes with logStore := l }
        (.compact (snp.lastLogIdx - s₀.params.reservedLogItems)))
      exact .inr (hs.replace rfl rfl hpend hemit)
  | receive _ _ _ _ => exact .inr (.of_kept (RaftServer.saveSnapshotData_kept s _) hs)
  | @install m _ _ r l c c' s₁ s₂ hinp ht hpay _ _ habove _ hu hl h₁ h₂ =>
      subst hinp
      have hlog : s.logStore = s₀.logStore := congrArg Footing.logStore hu
      have hsm : s.smCommitIndex = s₀.smCommitIndex := congrArg Footing.smCommitIndex hu
      have hpend := hok.2.1
      unfold RaftServer.BulkInStep at hpend
      rw [hpay] at hpend
      have hover : (s.overtaken r.snapshot l).FlagRight :=
        hs.replace hlog hsm (hpend ht (hsm ▸ habove) l (hlog ▸ hl))
          (congrArg Kept.footing (s.overtaken_kept r.snapshot l))
      have hset : RaftServer.FlagRight
          { s.overtaken r.snapshot l with config := c, smSnapshot := some r.snapshot } := hover
      have hsaved : (s₁.saveState s₁.state).FlagRight :=
        .of_kept (s₁.saveState_kept _) (RaftServer.FlagRight.of_kept h₁.kept hset)
      obtain ⟨b, hb⟩ := s₂.restartElectionTimer_kept
      exact .inr (.of_kept hb (RaftServer.FlagRight.of_kept h₂.kept hsaved))
  | halt => exact .inl (RaftServer.exit_exited _ _)

namespace RaftServer

variable {s : RaftServer} {inp : Input}

/-- The condition does not look at what was emitted before. -/
theorem inStep_clear (h : InStep s inp) : InStep { s with out := [] } inp := by
  cases inp with
  | rpcError m h' =>
      refine ⟨h.1, fun hex hgive => h.2 hex ⟨hgive.1, ?_⟩⟩
      have hjoin : RpcHandler.exResp = .exResp ∧
          m.type ∈ [.joinClusterRequest, .syncLogRequest, .installSnapshotRequest] := by
        have ht := hgive.1
        simp only [List.mem_cons, List.not_mem_nil, or_false] at ht ⊢
        tauto
      have hretry := hgive.2
      unfold handleRpcResult at hretry ⊢
      rw [if_pos hjoin] at hretry ⊢
      exact hretry
  | snapshotCompleted data => cases data <;> exact h
  | _ => exact h

theorem step_flagRight (hflag : s.FlagRight) (hok : InStep s inp)
    (hlive : (s.step inp).exited = false) : (s.step inp).FlagRight := by
  have hmoves := step_moves s inp
  have hok' := inStep_clear hok
  have hend : (s.step inp).exited = true ∨ (s.step inp).FlagRight := by
    generalize s.step inp = s' at hmoves
    induction hmoves with
    | refl => exact .inr hflag
    | tail _ hmove ih =>
        rcases ih with hx | hright
        · exact .inl (hmove.exited hx)
        · exact hmove.flagRight hright hok'
  exact hend.resolve_left (by simp [hlive])

/-- The constructor's scan finds the configurations above the index. -/
theorem uncommittedConf_iff (l : LogStore) (k : Nat) :
    uncommittedConf l k = true ↔ l.ConfAbove k := by
  unfold uncommittedConf
  rw [LogStore.confAbove_iff, List.any_eq_true]
  constructor
  · rintro ⟨e, he, hconf⟩
    obtain ⟨i, hi⟩ := List.mem_iff_getElem?.mp he
    rw [List.getElem?_drop] at hi
    refine ⟨max (k + 1) l.startIndex + i, by omega, ?_⟩
    unfold LogStore.confAt LogStore.entryAt
    rw [if_neg (by omega), show max (k + 1) l.startIndex + i - l.startIndex =
      max (k + 1) l.startIndex - l.startIndex + i by omega, hi]
    exact hconf
  · rintro ⟨i, hk, hc⟩
    obtain ⟨e, he, hconf⟩ := (Option.any_eq_true _ _).mp hc
    have hs : l.startIndex ≤ i := ((l.entryAt_isSome_iff i).mp (by rw [he]; rfl)).1
    refine ⟨e, List.mem_iff_getElem?.mpr ⟨i - max (k + 1) l.startIndex, ?_⟩, hconf⟩
    unfold LogStore.entryAt at he
    rw [if_neg (by omega)] at he
    rw [List.getElem?_drop, ← he]
    congr 1
    omega

end RaftServer

/-! ## Runs -/

def LiveInStep (s : RaftServer) (inp : Input) : Prop := Live s inp ∧ InStep s inp

instance (s : RaftServer) (inp : Input) : Decidable (LiveInStep s inp) :=
  inferInstanceAs (Decidable (_ ∧ _))

/-- In a run whose steps all meet the condition the flag is set just when a
configuration is in the log above the commit index. -/
theorem config_changing_iff_of_in_step {b : Boot} {tr : List (RaftServer × Input)}
    {s : RaftServer} (h : Transition.Run RaftServer.step LiveInStep (RaftServer.start b) tr s)
    (hlive : s.exited = false) :
    s.configChanging = true ↔
      ∃ idx e, s.smCommitIndex < idx ∧ s.logStore.entryAt idx = some e ∧ e.isConf = true := by
  have hright : s.FlagRight := by
    induction h with
    | nil => exact RaftServer.uncommittedConf_iff _ _
    | snoc _ hok ih => exact RaftServer.step_flagRight (ih hok.1) hok.2 hlive
  refine hright.trans (LogStore.confAbove_iff.trans (exists_congr fun idx => ?_))
  unfold LogStore.confAt
  rw [Option.any_eq_true]
  exact ⟨fun ⟨h1, e, h2, h3⟩ => ⟨e, h1, h2, h3⟩, fun ⟨e, h1, h2, h3⟩ => ⟨h1, e, h2, h3⟩⟩

/-! A follower takes two entries of term 1, the second a configuration, and then
an entry of term 2 that overwrites the first; and one that takes two
configurations and applies the first. -/

namespace StuckFlag

open RetriedJoin

def first : LogEntry := ⟨1, .conf ⟨1, 0, servers⟩⟩

def second : LogEntry := ⟨1, .conf ⟨2, 1, servers ++ [⟨3, "c"⟩]⟩⟩

/-- One configuration comes in and is applied. -/
def calm : List Input :=
  [request .appendEntriesRequest 1 1 0 0 1 [first, ⟨1, .appLog []⟩], .commitInBg]

def truncated : List Input :=
  [request .appendEntriesRequest 1 1 0 0 0 [⟨1, .appLog []⟩, second],
   request .appendEntriesRequest 2 2 0 0 0 [⟨2, .appLog []⟩]]

def twice : List Input :=
  [request .appendEntriesRequest 1 1 0 0 1 [first, second], .commitInBg]

def after (inputs : List Input) : RaftServer :=
  inputs.foldl RaftServer.step (RaftServer.start joiner)

end StuckFlag

open StuckFlag in
theorem config_changing_of_calm :
    (after calm).configChanging = true ↔ ∃ idx e, (after calm).smCommitIndex < idx ∧
      (after calm).logStore.entryAt idx = some e ∧ e.isConf = true := by
  have hrun := Transition.run_of_passes RaftServer.step LiveInStep
    (RaftServer.start RetriedJoin.joiner) calm (by decide +kernel)
  exact config_changing_iff_of_in_step hrun (by decide +kernel)

open StuckFlag in
theorem config_changing_wrong :
    (Transition.Passes RaftServer.step Live
        (RaftServer.start RetriedJoin.joiner) truncated ∧
      (after truncated).exited = false ∧ (after truncated).configChanging = true ∧
      ¬ (after truncated).logStore.ConfAbove (after truncated).smCommitIndex) ∧
    (Transition.Passes RaftServer.step Live
        (RaftServer.start RetriedJoin.joiner) twice ∧
      (after twice).exited = false ∧ (after twice).configChanging = false ∧
      (after twice).logStore.ConfAbove (after twice).smCommitIndex) :=
  ⟨⟨by decide +kernel, by decide +kernel, by decide +kernel, by decide +kernel⟩,
    ⟨by decide +kernel, by decide +kernel, by decide +kernel, by decide +kernel⟩⟩

end Ns3Raft.Raft
