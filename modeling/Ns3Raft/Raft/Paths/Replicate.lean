import Ns3Raft.Raft.Paths.Roles

/-! # The replication handlers follow the protocol steps

For a request handler the path includes the response that goes back.
-/

namespace Ns3Raft.Raft

theorem Core.Matches.write {n : Core} {m : ReqMsg} {j : Nat} {e : LogEntry}
    (h : n.Matches m j) (he : m.logEntries[j]? = some e)
    (hle : m.lastLogIdx + 1 + j ≤ n.log.nextSlot) :
    { n with log := n.log.writeAt (m.lastLogIdx + 1 + j) e }.Matches m (j + 1) := by
  have hne : m.logEntries ≠ [] := by
    intro h
    simp [h] at he
  have hstart : n.log.startIndex ≤ m.lastLogIdx + 1 + j := by
    have := h.start_le hne
    omega
  have hlow : ∀ i, i < m.lastLogIdx + 1 + j →
      (n.log.writeAt (m.lastLogIdx + 1 + j) e).termAt i = n.log.termAt i := by
    intro i hi
    simp only [LogStore.termAt, n.log.entryAt_writeAt_of_lt e hstart hle hi]
  refine ⟨h.type, h.term, h.role, fun hp => ?_, h.start_le, ?_, fun i e' hi he' => ?_⟩
  · obtain ⟨-, h2⟩ := h.prev hp
    refine ⟨?_, ?_⟩
    · rw [n.log.writeAt_nextSlot_of_le e hstart hle]
      omega
    · simpa only [Core.termForLog, LogStore.writeAt_startIndex,
        hlow m.lastLogIdx (by omega)] using h2
  · have := (List.getElem?_eq_some_iff.mp he).1
    omega
  · rcases Nat.lt_or_eq_of_le (Nat.lt_succ_iff.mp hi) with hi | rfl
    · rw [hlow _ (by omega)]
      exact h.entries i e' hi he'
    · obtain rfl : e = e' := by simpa [he] using he'
      simp only [LogStore.termAt, n.log.entryAt_writeAt_self e hstart hle, Option.map_some]

namespace RaftServer

variable {inp : Input} {n₀ : Core} {s : RaftServer}

/-! ## Writing received entries -/

theorem skipOverlap_spec (l : LogStore) (idx : Nat) (es : List LogEntry) :
    ∃ k, k ≤ es.length ∧ skipOverlap l idx es = (idx + k, es.drop k) ∧
      (∀ i e, i < k → es[i]? = some e → l.termAt (idx + i) = some e.term) ∧
      (idx ≤ l.nextSlot → idx + k ≤ l.nextSlot) ∧
      ∀ e, es[k]? = some e → l.termAt (idx + k) ≠ some e.term := by
  induction es generalizing idx with
  | nil => exact ⟨0, by simp [skipOverlap]⟩
  | cons e es ih =>
      unfold skipOverlap
      split
      · rename_i h
        obtain ⟨k, hk, heq, hall, hnext, hstop⟩ := ih (idx + 1)
        refine ⟨k + 1, by simpa using hk, ?_, ?_, fun _ => ?_, ?_⟩
        · rw [heq]
          simp [Nat.add_assoc, Nat.add_comm 1]
        · intro i e' hi he'
          cases i with
          | zero =>
              obtain rfl : e = e' := by simpa using he'
              exact h.2
          | succ i =>
              have := hall i e' (by omega) (by simpa using he')
              rwa [Nat.add_assoc, Nat.add_comm 1] at this
        · have := hnext (by omega)
          omega
        · intro e' he'
          have := hstop e' (by simpa using he')
          rwa [Nat.add_assoc, Nat.add_comm 1] at this
      · rename_i h
        refine ⟨0, by simp, by simp, by simp, fun h => h, ?_⟩
        intro e' he' hterm
        obtain rfl : e = e' := by simpa using he'
        refine h ⟨?_, hterm⟩
        by_contra hge
        have hnone := (l.entryAt_eq_none_iff idx).mpr (.inr (by omega))
        simp [LogStore.termAt, hnone] at hterm

@[simp] theorem rollbackAt_core (s : RaftServer) (idx : Nat) :
    (s.rollbackAt idx).core = s.core := by
  unfold rollbackAt
  split
  · rfl
  · split
    · exact emit_core _ _
    · rfl
    · rfl

theorem rollbackAt_traces {m : ReqMsg} {h : RpcHandler} {env : Env} (idx : Nat)
    (hinp : inp = .req m h env) (htype : m.type = .appendEntriesRequest) :
    Traces inp n₀ s (s.rollbackAt idx) := by
  unfold rollbackAt
  split
  · exact .refl s
  · split
    · exact .emit (o := .rollback _ _) ⟨m, h, env, hinp, htype⟩
    · exact .soft rfl rfl rfl
    · exact .refl s

@[simp] theorem noteReceived_core (s : RaftServer) (idx : Nat) (e : LogEntry) :
    (s.noteReceived idx e).core = s.core := by
  unfold noteReceived
  split
  · exact emit_core _ _
  · rfl
  · rfl

theorem noteReceived_traces {m : ReqMsg} {h : RpcHandler} {env : Env} (idx : Nat) (e : LogEntry)
    (hinp : inp = .req m h env) (htype : m.type = .appendEntriesRequest) :
    Traces inp n₀ s (s.noteReceived idx e) := by
  unfold noteReceived
  split
  · exact .emit (o := .preCommit _ _) ⟨m, h, env, hinp, .inl htype⟩
  · exact .soft rfl rfl rfl
  · exact .refl s

theorem overwriteAt_core (s : RaftServer) (idx : Nat) (e : LogEntry) :
    (s.overwriteAt idx e).core = { s.core with log := s.logStore.writeAt idx e } := by
  have hcore := rollbackAt_core s idx
  unfold overwriteAt
  generalize s.rollbackAt idx = s₁ at hcore
  have hlog : s₁.logStore = s.logStore := congrArg Core.log hcore
  dsimp only
  rw [noteReceived_core, emit_core, ← hcore, ← hlog]
  rfl

theorem overwriteAt_traces {m : ReqMsg} {h : RpcHandler} {env : Env} {j : Nat} {e : LogEntry}
    (hinp : inp = .req m h env) (hm : s.core.Matches m j) (he : m.logEntries[j]? = some e)
    (hle : m.lastLogIdx + 1 + j ≤ s.logStore.nextSlot)
    (hne : s.logStore.termAt (m.lastLogIdx + 1 + j) ≠ some e.term) :
    Traces inp n₀ s (s.overwriteAt (m.lastLogIdx + 1 + j) e) := by
  have hcore := rollbackAt_core s (m.lastLogIdx + 1 + j)
  unfold overwriteAt
  refine (rollbackAt_traces (m.lastLogIdx + 1 + j) hinp hm.type).trans ?_
  generalize s.rollbackAt (m.lastLogIdx + 1 + j) = s₁ at hcore
  have hlog : s₁.logStore = s.logStore := congrArg Core.log hcore
  rw [← hlog] at hle hne
  have hwrite : Traces inp n₀ s₁
      ({ s₁ with logStore := s₁.logStore.writeAt (m.lastLogIdx + 1 + j) e }.emit
        (.writeAt (m.lastLogIdx + 1 + j) e)) :=
    .loud (.write hinp (hcore ▸ hm) he hle hne (.inl rfl)) rfl rfl
  exact hwrite.trans (noteReceived_traces _ e hinp hm.type)

theorem overwriteLoop_eq (s : RaftServer) {idx : Nat} (e : LogEntry) (es : List LogEntry)
    (hs : s.logStore.startIndex ≤ idx) :
    s.overwriteLoop idx (e :: es) =
      if idx < s.logStore.nextSlot then (s.overwriteAt idx e, es) else (s, e :: es) := by
  unfold overwriteLoop
  split
  · rename_i h
    -- the first overwrite truncates the log, so the loop ends
    have hlog : (s.overwriteAt idx e).logStore = s.logStore.writeAt idx e :=
      congrArg Core.log (overwriteAt_core s idx e)
    have hnext := s.logStore.writeAt_nextSlot_of_le e hs h.le
    cases es with
    | nil => rfl
    | cons e' es =>
        unfold overwriteLoop
        rw [if_neg (by rw [hlog, hnext]; omega)]
  · rfl

theorem appendReceived_core (s : RaftServer) (e : LogEntry) :
    (s.appendReceived e).core = { s.core with log := s.logStore.append e } :=
  (noteReceived_core _ _ _).trans (appendLog_core s e)

theorem appendReceived_traces {m : ReqMsg} {h : RpcHandler} {env : Env} {j : Nat} {e : LogEntry}
    (hinp : inp = .req m h env) (hm : s.core.Matches m j) (he : m.logEntries[j]? = some e)
    (hnext : s.logStore.nextSlot = m.lastLogIdx + 1 + j) :
    Traces inp n₀ s (s.appendReceived e) := by
  have happ : Traces inp n₀ s (s.appendLog e) := by
    have hstep : NodeStep inp n₀ s.core
        (some (.append s.role s.state.term s.logStore.nextSlot e))
        { s.core with log := s.logStore.append e } := by
      rw [LogStore.append_eq_writeAt, hnext]
      refine .write hinp hm he hnext.ge ?_ (.inr rfl)
      have hnone := (s.logStore.entryAt_eq_none_iff (m.lastLogIdx + 1 + j)).mpr (.inr hnext.le)
      simp [LogStore.termAt, hnone]
    exact .loud hstep rfl rfl
  exact happ.trans (noteReceived_traces _ e hinp hm.type)

/-- The third loop: from the end of the log on, every entry is appended. -/
theorem appendReceived_foldl (n₀ : Core) {m : ReqMsg} {h : RpcHandler} {env : Env}
    (hinp : inp = .req m h env) (es : List LogEntry) :
    ∀ (j : Nat) (s : RaftServer), es = m.logEntries.drop j → s.core.Matches m j →
      s.logStore.nextSlot = m.lastLogIdx + 1 + j →
      Traces inp n₀ s (es.foldl appendReceived s) ∧
        (es.foldl appendReceived s).core.Matches m m.logEntries.length ∧
        ∃ l, (es.foldl appendReceived s).core = { s.core with log := l } := by
  induction es with
  | nil =>
      intro j s hes hm _
      have hj : m.logEntries.length ≤ j := List.drop_eq_nil_iff.mp hes.symm
      obtain rfl : j = m.logEntries.length := le_antisymm hm.le_length hj
      exact ⟨.refl s, hm, s.logStore, rfl⟩
  | cons e es ih =>
      intro j s hes hm hnext
      have he : m.logEntries[j]? = some e := by
        have : (m.logEntries.drop j)[0]? = some e := by rw [← hes]; rfl
        simpa using this
      have hes' : es = m.logEntries.drop (j + 1) := by
        rw [← List.tail_drop, ← hes]
        rfl
      have hcore := appendReceived_core s e
      rw [LogStore.append_eq_writeAt, hnext] at hcore
      have hm' : (s.appendReceived e).core.Matches m (j + 1) :=
        hcore ▸ hm.write he (by rw [core_log, hnext])
      have hnext' : (s.appendReceived e).logStore.nextSlot = m.lastLogIdx + 1 + (j + 1) := by
        have hlog : (s.appendReceived e).logStore = s.logStore.append e :=
          congrArg Core.log (appendReceived_core s e)
        rw [hlog, LogStore.append_nextSlot, hnext]
        omega
      obtain ⟨htr, hend, l, hl⟩ := ih (j + 1) (s.appendReceived e) hes' hm' hnext'
      refine ⟨(appendReceived_traces hinp hm he hnext).trans htr, hend, l, ?_⟩
      exact hl.trans (by rw [hcore])

theorem writeEntries_traces (n₀ : Core) {m : ReqMsg} {h : RpcHandler} {env : Env}
    (hinp : inp = .req m h env) (hm : s.core.Matches m 0)
    (hprev : m.lastLogIdx + 1 ≤ s.logStore.nextSlot) :
    Traces inp n₀ s (s.writeEntries (m.lastLogIdx + 1) m.logEntries) ∧
      (s.writeEntries (m.lastLogIdx + 1) m.logEntries).core.Matches m m.logEntries.length ∧
      ∃ l, (s.writeEntries (m.lastLogIdx + 1) m.logEntries).core = { s.core with log := l } := by
  obtain ⟨k, hk, heq, hall, hnext, hstop⟩ :=
    skipOverlap_spec s.logStore (m.lastLogIdx + 1) m.logEntries
  have hmk : s.core.Matches m k := { hm with le_length := hk, entries := hall }
  unfold writeEntries
  rw [heq]
  dsimp only
  rcases hdrop : m.logEntries.drop k with _ | ⟨e, es⟩
  · obtain rfl : k = m.logEntries.length :=
      le_antisymm hk (List.drop_eq_nil_iff.mp hdrop)
    exact ⟨.refl s, hmk, s.logStore, rfl⟩
  have he : m.logEntries[k]? = some e := by
    have : (m.logEntries.drop k)[0]? = some e := by rw [hdrop]; rfl
    simpa using this
  have hes : es = m.logEntries.drop (k + 1) := by
    rw [← List.tail_drop, hdrop]
    rfl
  have hstart : s.logStore.startIndex ≤ m.lastLogIdx + 1 + k := by
    have := hm.start_le (by rintro h; simp [h] at he)
    simp only [core_log] at this
    omega
  have hle := hnext hprev
  rw [overwriteLoop_eq s e es hstart]
  split
  · have hcore := overwriteAt_core s (m.lastLogIdx + 1 + k) e
    have hm' : (s.overwriteAt (m.lastLogIdx + 1 + k) e).core.Matches m (k + 1) :=
      hcore ▸ hmk.write he hle
    have hnext' : (s.overwriteAt (m.lastLogIdx + 1 + k) e).logStore.nextSlot =
        m.lastLogIdx + 1 + (k + 1) := by
      have hlog : (s.overwriteAt (m.lastLogIdx + 1 + k) e).logStore =
          s.logStore.writeAt (m.lastLogIdx + 1 + k) e := congrArg Core.log hcore
      rw [hlog, s.logStore.writeAt_nextSlot_of_le e hstart hle]
      omega
    obtain ⟨htr, hend, l, hl⟩ := appendReceived_foldl n₀ hinp es (k + 1) _ hes hm' hnext'
    refine ⟨(overwriteAt_traces hinp hmk he hle (hstop e he)).trans htr, hend, l, ?_⟩
    exact hl.trans (by rw [hcore])
  · exact appendReceived_foldl n₀ hinp (e :: es) k s hdrop.symm hmk (by omega)

end RaftServer

end Ns3Raft.Raft
