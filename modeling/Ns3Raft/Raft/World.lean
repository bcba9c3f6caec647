import Ns3Raft.Raft.Paths.Step

/-! # The cluster by protocol steps

`World` is the protocol view of a cluster. A step of a server is a chain of
world steps, so an invariant that every world step preserves holds of every
cluster that can be reached. The last part is about the kinds of packets under
way when no server is being added.
-/

namespace Ns3Raft.Raft

structure World where
  node : SrvId → Option Core
  hist : List (SrvId × Output)

def Cluster.world (c : Cluster) : World := ⟨fun i => (c.srv i).map RaftServer.core, c.hist⟩

namespace World

def put (w : World) (i : SrvId) (n : Option Core) (os : List Output) : World :=
  ⟨fun j => if j = i then n else w.node j, w.hist ++ os.map (i, ·)⟩

@[simp] theorem put_node_self (w : World) (i : SrvId) (n : Option Core) (os : List Output) :
    (w.put i n os).node i = n := by simp [put]

theorem put_node_of_ne (w : World) {i j : SrvId} (h : j ≠ i) (n : Option Core)
    (os : List Output) : (w.put i n os).node j = w.node j := by simp [put, h]

@[simp] theorem put_hist (w : World) (i : SrvId) (n : Option Core) (os : List Output) :
    (w.put i n os).hist = w.hist ++ os.map (i, ·) := rfl

theorem put_put (w : World) (i : SrvId) (n n' : Option Core) (os os' : List Output) :
    (w.put i n os).put i n' os' = w.put i n' (os ++ os') := by
  unfold put
  congr 1
  · funext j
    by_cases h : j = i <;> simp [h]
  · simp

theorem put_self (w : World) {i : SrvId} {n : Option Core} (h : w.node i = n) :
    w.put i n [] = w := by
  unfold put
  cases w
  congr 1
  · funext j
    by_cases hj : j = i
    · simp only [hj, ↓reduceIte]
      exact h.symm
    · simp [hj]
  · simp

/-- One protocol step of server `i`, the end of its process, or its silent death. -/
inductive Step (i : SrvId) (inp : Input) (n₀ : Core) (w : World) : World → Prop where
  | node {n n' : Core} {o : Option Output} : w.node i = some n → NodeStep inp n₀ n o n' →
      Step i inp n₀ w (w.put i (some n') o.toList)
  | exit {n : Core} {r : ExitReason} : w.node i = some n → ExitOk inp n r →
      Step i inp n₀ w (w.put i none [.exit r])
  | die : Step i inp n₀ w (w.put i none [])

abbrev Steps (i : SrvId) (inp : Input) (n₀ : Core) : World → World → Prop :=
  Relation.ReflTransGen (Step i inp n₀)

theorem steps_of_path {i : SrvId} {inp : Input} {n₀ n n' : Core} {os : List Output}
    (h : Path inp n₀ n os n') {w : World} (hw : w.node i = some n) :
    Steps i inp n₀ w (w.put i (some n') os) := by
  induction h generalizing w with
  | nil => rw [put_self w hw]
  | @cons a b c o os hs _ ih =>
      have hrest := ih (put_node_self w i (some b) o.toList)
      rw [put_put] at hrest
      exact .head (.node hw hs) hrest

theorem Path.take {inp : Input} {n₀ n n' : Core} {os : List Output} (h : Path inp n₀ n os n')
    (k : Nat) : ∃ n'', Path inp n₀ n (os.take k) n'' := by
  induction h generalizing k with
  | nil => exact ⟨_, by simpa using Path.nil⟩
  | @cons a b c o os hs _ ih =>
      cases o with
      | none =>
          obtain ⟨n'', h⟩ := ih k
          exact ⟨n'', .cons hs h⟩
      | some o =>
          cases k with
          | zero => exact ⟨a, .nil⟩
          | succ k =>
              obtain ⟨n'', h⟩ := ih k
              exact ⟨n'', .cons hs h⟩

/-- What a step of the server emits and where it ends, as world steps. -/
theorem steps_of_traces {i : SrvId} {inp : Input} {s s' : RaftServer}
    (h : Traces inp s.core s s') (hs : s.out = []) {w : World} (hw : w.node i = some s.core) :
    Steps i inp s.core w
      (w.put i (if s'.exited then none else some s'.core) s'.out) := by
  cases h with
  | frozen _ h2 h3 =>
      rw [h2, h3, hs]
      exact .single .die
  | live _ h2 h3 h4 =>
      rw [h2, h4, hs]
      exact steps_of_path h3 hw
  | @died os n r _ h2 h3 h4 h5 =>
      rw [h2, h5, hs]
      have hexit : Step i inp s.core (w.put i (some n) os) _ :=
        .exit (put_node_self w i (some n) os) h4
      rw [put_put] at hexit
      exact .tail (steps_of_path h3 hw) hexit

theorem steps_of_traces_take {i : SrvId} {inp : Input} {s s' : RaftServer}
    (h : Traces inp s.core s s') (hs : s.out = []) (k : Nat) {w : World}
    (hw : w.node i = some s.core) : Steps i inp s.core w (w.put i none (s'.out.take k)) := by
  have hkill : ∀ {n : Core} {os : List Output}, Path inp s.core s.core os n →
      Steps i inp s.core w (w.put i none (os.take k)) := by
    intro n os hp
    obtain ⟨n'', hp'⟩ := Path.take hp k
    refine .tail (steps_of_path hp' hw) ?_
    have hdie : Step i inp s.core (w.put i (some n'') (os.take k)) _ := .die
    rwa [put_put, List.append_nil] at hdie
  cases h with
  | frozen _ _ h3 =>
      rw [h3, hs]
      have hdie : Step i inp s.core w _ := .die
      simpa using Relation.ReflTransGen.single hdie
  | live _ _ h3 h4 =>
      rw [h4, hs]
      exact hkill h3
  | @died os n r _ _ h3 h4 h5 =>
      rw [h5, hs, List.nil_append]
      by_cases hk : k ≤ os.length
      · rw [List.take_append_of_le_length hk]
        exact hkill h3
      · rw [List.take_of_length_le (by simp; omega)]
        have hexit : Step i inp s.core (w.put i (some n) os) _ :=
          .exit (put_node_self w i (some n) os) h4
        rw [put_put] at hexit
        exact .tail (steps_of_path h3 hw) hexit

end World

namespace Cluster

theorem act_steps {c : Cluster} {i : SrvId} {s : RaftServer} (inp : Input)
    (hs : c.srv i = some s) : World.Steps i inp s.core c.world (c.act i inp).world := by
  have hw : c.world.node i = some s.core := by simp [world, hs]
  have h := World.steps_of_traces (s := { s with out := [] })
    (RaftServer.handle_traces { s with out := [] } inp) rfl hw
  have heq : (c.act i inp).world =
      c.world.put i (if (s.step inp).exited then none else some (s.step inp).core)
        (s.step inp).out := by
    simp only [act, hs, world, World.put, setSrv, record]
    congr 1
    funext j
    by_cases hj : j = i
    · simp only [hj, ↓reduceIte]
      split <;> rfl
    · simp [hj]
  rw [heq]
  exact h

theorem crash_steps {c : Cluster} {i : SrvId} {s : RaftServer} (inp : Input) (k : Nat)
    (hs : c.srv i = some s) : World.Steps i inp s.core c.world (c.crash i inp k).world := by
  have hw : c.world.node i = some s.core := by simp [world, hs]
  have h := World.steps_of_traces_take (s := { s with out := [] })
    (RaftServer.handle_traces { s with out := [] } inp) rfl k hw
  have heq : (c.crash i inp k).world = c.world.put i none ((s.step inp).out.take k) := by
    simp only [crash, hs, world, World.put, setSrv, record]
    congr 1
    funext j
    by_cases hj : j = i <;> simp [hj]
  rw [heq]
  exact h

/-- An invariant of the world that each of its steps preserves, while the history
only grows. -/
theorem invariant_of_steps {P : World → Prop} {i : SrvId} {inp : Input} {n₀ : Core} {w w' : World}
    (h : World.Steps i inp n₀ w w') (hw : P w)
    (hstep : ∀ w₁ w₂, w.hist <+: w₁.hist → P w₁ → World.Step i inp n₀ w₁ w₂ → P w₂) :
    P w' := by
  suffices w.hist <+: w'.hist ∧ P w' from this.2
  induction h with
  | refl => exact ⟨List.prefix_refl _, hw⟩
  | tail _ hs ih =>
      refine ⟨ih.1.trans ?_, hstep _ _ ih.1 ih.2 hs⟩
      cases hs <;> exact List.prefix_append _ _

theorem act_invariant {P : World → Prop} {c : Cluster} {i : SrvId} {inp : Input} (hw : P c.world)
    (hstep : ∀ s w₁ w₂, c.srv i = some s → c.hist <+: w₁.hist → P w₁ →
      World.Step i inp s.core w₁ w₂ → P w₂) : P (c.act i inp).world := by
  cases hs : c.srv i with
  | none => simpa [act, hs] using hw
  | some s => exact invariant_of_steps (act_steps inp hs) hw fun w₁ w₂ => hstep s w₁ w₂ hs

theorem crash_invariant {P : World → Prop} {c : Cluster} {i : SrvId} {inp : Input} {k : Nat}
    (hw : P c.world)
    (hstep : ∀ s w₁ w₂, c.srv i = some s → c.hist <+: w₁.hist → P w₁ →
      World.Step i inp s.core w₁ w₂ → P w₂) : P (c.crash i inp k).world := by
  cases hs : c.srv i with
  | none => simpa [crash, hs] using hw
  | some s => exact invariant_of_steps (crash_steps inp k hs) hw fun w₁ w₂ => hstep s w₁ w₂ hs

end Cluster

/-! ## Kinds of packets when no server is being added -/

/-- The request types, each with the handler its response goes to, when clients
send requests of the kinds in `ext` only. -/
def Kind (ext : List MsgType) (t : MsgType) (h : RpcHandler) : Prop :=
  ((t = .appendEntriesRequest ∨ t = .voteRequest ∨ t = .installSnapshotRequest) ∧ h = .resp) ∨
    (t = .prevoteRequest ∧ h = .exResp) ∨ (t = .clientRequest ∧ h = .client) ∨
    (t = .leaveClusterRequest ∧ h = .exResp ∧ .removeServerRequest ∈ ext) ∨ (t ∈ ext ∧ h = .client)

def OutputKind (ext : List MsgType) : Output → Prop
  | .send (.req m h) => Kind ext m.type h
  | .send (.resp r h reqType) => Kind ext reqType h ∧ r.type = reqType.response
  | .schedule (.retry m) => Kind ext m.type .exResp
  | _ => True

def InputKind (ext : List MsgType) : Input → Prop
  | .req m h _ => Kind ext m.type h
  | .resp r h reqType => Kind ext reqType h ∧ r.type = reqType.response ∧ h ≠ .client
  | .rpcError m h => Kind ext m.type h
  | .retry m => Kind ext m.type .exResp
  | _ => True

def Kinds (ext : List MsgType) (hist : List (SrvId × Output)) : Prop :=
  ∀ x ∈ hist, OutputKind ext x.2

variable {ext : List MsgType} {inp : Input}

theorem InputKind.of_canOccur {hist : List (SrvId × Output)} {i : SrvId} (hk : Kinds ext hist)
    (h : CanOccur ext hist i inp) : InputKind ext inp := by
  have hsent : ∀ p, Sent hist p → OutputKind ext (.send p) := by
    intro p hp
    obtain ⟨x, hx, hxp⟩ := List.mem_map.mp hp
    exact hxp ▸ hk x hx
  cases inp with
  | req m h' env =>
      rcases h with ⟨h, -⟩ | ⟨h1, h2⟩
      · exact hsent _ h
      · exact .inr (.inr (.inr (.inr ⟨h1, h2⟩)))
  | resp m h' reqType => exact ⟨(hsent _ h.1).1, (hsent _ h.1).2, h.2.2⟩
  | rpcError m h' => exact hk _ h
  | retry m => exact hk _ h
  | _ => trivial

/-- Clients send ordinary requests and at most removals. -/
def NoAdd (ext : List MsgType) : Prop := ∀ t ∈ ext, t = .clientRequest ∨ t = .removeServerRequest

theorem Kind.ne_of_noAdd (hext : NoAdd ext) {t : MsgType} {h : RpcHandler} (hk : Kind ext t h) :
    t ≠ .addServerRequest ∧ t ≠ .joinClusterRequest ∧ t ≠ .syncLogRequest := by
  rcases hk with ⟨h | h | h, -⟩ | ⟨h, -⟩ | ⟨h, -⟩ | ⟨h, -⟩ | ⟨h, -⟩
  · simp [h]
  · simp [h]
  · simp [h]
  · simp [h]
  · simp [h]
  · simp [h]
  · rcases hext t h with h | h
    · simp [h]
    · simp [h]

theorem Kind.exResp {t : MsgType} (hk : Kind ext t .exResp) :
    t = .prevoteRequest ∨ (t = .leaveClusterRequest ∧ .removeServerRequest ∈ ext) := by
  rcases hk with ⟨-, h⟩ | ⟨h, -⟩ | ⟨-, h⟩ | ⟨h, -, h'⟩ | ⟨-, h⟩
  · cases h
  · exact .inl h
  · cases h
  · exact .inr ⟨h, h'⟩
  · cases h

theorem InputKind.not_adds (hext : NoAdd ext) (hk : InputKind ext inp) : ¬ inp.Adds := by
  intro hadds
  cases inp with
  | req m h env => exact (Kind.ne_of_noAdd hext hk).1 hadds
  | resp m h reqType =>
      obtain ⟨rfl, hmem⟩ := hadds
      obtain ⟨hk, htype, -⟩ := hk
      rcases hk.exResp with rfl | ⟨rfl, -⟩
      · simp [htype, MsgType.response] at hmem
      · simp [htype, MsgType.response] at hmem
  | _ => exact hadds

theorem InputKind.removes (hk : InputKind ext inp) (h : inp.Removes) :
    .removeServerRequest ∈ ext := by
  cases inp with
  | resp m h' reqType =>
      obtain ⟨rfl, htype, -⟩ := h
      obtain ⟨hk, htype', -⟩ := hk
      rcases hk.exResp with rfl | ⟨rfl, hmem⟩
      · rw [htype'] at htype
        cases htype
      · exact hmem
  | rpcError m h' =>
      obtain ⟨rfl, htype⟩ := h
      rcases Kind.exResp hk with hpre | ⟨-, hmem⟩
      · rw [hpre] at htype
        cases htype
      · exact hmem
  | _ => exact h.elim

theorem InputKind.not_join (hext : NoAdd ext) {m : ReqMsg} {h : RpcHandler} {env : Env}
    (hk : InputKind ext (.req m h env)) : m.type ≠ .joinClusterRequest :=
  (Kind.ne_of_noAdd hext hk).2.1

theorem InputKind.mayLead (hext : NoAdd ext) (hrem : .removeServerRequest ∉ ext)
    (hk : InputKind ext inp) {n₀ n : Core} (h : MayLead inp n₀ n) : n.role = .leader := by
  rcases h with h | ⟨h | h, -⟩
  · exact h
  · exact absurd h (hk.not_adds hext)
  · exact absurd (hk.removes h) hrem

theorem OutputKind.of_quiet (hext : NoAdd ext) (hk : InputKind ext inp) {o : Output}
    (h : Quiet inp o) : OutputKind ext o := by
  cases o with
  | send p =>
      cases p with
      | req m h' =>
          rcases h with h | ⟨h1, h2, -⟩ | ⟨h1, h2, r, h3, env, hinp, hr⟩ | ⟨h, -⟩ | ⟨hinp, rfl⟩
          · exact .inr (.inl h)
          · exact .inr (.inr (.inl ⟨h1, h2⟩))
          · subst hinp
            have hmem : .removeServerRequest ∈ ext := by
              rcases hk with ⟨h | h | h, -⟩ | ⟨h, -⟩ | ⟨h, -⟩ | ⟨h, -⟩ | ⟨h, -⟩ <;>
                simp_all
            exact .inr (.inr (.inr (.inl ⟨h1, h2, hmem⟩)))
          · exact absurd h (hk.not_adds hext)
          · subst hinp
            exact hk
      | resp r h' reqType =>
          obtain ⟨⟨m, env, hinp, hreq, htype⟩, -⟩ := h
          subst hinp
          exact ⟨hreq ▸ hk, hreq ▸ htype⟩
  | schedule t =>
      cases t with
      | retry m =>
          have hinp : inp = .rpcError m .exResp := h
          subst hinp
          exact hk
      | _ => trivial
  | _ => trivial

theorem OutputKind.of_nodeStep (hext : NoAdd ext) (hk : InputKind ext inp) {n₀ n n' : Core}
    {o : Output} (h : NodeStep inp n₀ n (some o) n') : OutputKind ext o := by
  cases h with
  | quiet h => exact .of_quiet hext hk h
  | sendVote h1 _ _ h4 =>
      obtain ⟨m, env, rfl, hm⟩ := h4
      exact ⟨hm ▸ hk, h1⟩
  | sendAppend _ h => exact .inl ⟨.inl h.type, rfl⟩
  | sendInstall _ _ h => exact .inl ⟨.inr (.inr h), rfl⟩
  | sendVoteReq _ _ h => exact .inl ⟨.inr (.inl h), rfl⟩
  | sendAck hinp hm h =>
      subst hinp
      exact ⟨hm.type ▸ hk, h⟩
  | write _ _ _ _ _ ho =>
      rcases ho with rfl | rfl
      · trivial
      · trivial
  | bulk h => cases h <;> trivial
  | _ => trivial

theorem Kinds.step (hext : NoAdd ext) (hk : InputKind ext inp) {i : SrvId} {n₀ : Core}
    {w w' : World} (h : w.Step i inp n₀ w') (hw : Kinds ext w.hist) : Kinds ext w'.hist := by
  intro x hx
  cases h with
  | node _ hs =>
      rw [World.put_hist, List.mem_append] at hx
      rcases hx with hx | hx
      · exact hw x hx
      · obtain ⟨o, ho, rfl⟩ := List.mem_map.mp hx
        rw [Option.mem_toList] at ho
        subst ho
        exact .of_nodeStep hext hk hs
  | exit _ _ =>
      rw [World.put_hist, List.mem_append] at hx
      rcases hx with hx | hx
      · exact hw x hx
      · simp only [List.map_cons, List.map_nil, List.mem_singleton] at hx
        subst hx
        trivial
  | die =>
      rw [World.put_hist, List.map_nil, List.append_nil] at hx
      exact hw x hx

end Ns3Raft.Raft
