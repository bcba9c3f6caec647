import Ns3Raft.Traffic.FqCoDel

/-! # The lists of FqCoDel

What the loops of `DoDequeue` do to the two lists are steps of deficit round robin, and each list holds
exactly the flows of its status.
-/

namespace Ns3Raft.Traffic.FqCoDelQueueDisc

open Ns3Raft.Lib

variable {s s' : FqCoDelQueueDisc} {f f' : FqCoDelFlow} {i fuel : Nat} {o : Option Nat} {M : Nat}

/-- The deficit of a flow. -/
def deficit (s : FqCoDelQueueDisc) (i : Nat) : Int := (s.classes[i]?.map (·.deficit)).getD 0

/-- The lists and the deficits, without the queues. -/
def roundRobin (s : FqCoDelQueueDisc) : RoundRobin Nat := ⟨s.newFlows, s.oldFlows, s.deficit⟩

/-- The arithmetic of `SetDeficit` and `IncreaseDeficit`. -/
def rules (quantum : Nat) : RoundRobin.Rules :=
  ⟨int32 quantum, fun d => int32 (d + int32 quantum), fun d n => int32 (d + int32 (-n))⟩

/-- The quantum is a positive `int32_t`, packets have at most `M` bytes, and the bytes of a full disc can be counted. -/
structure Limits (quantum maxSize M : Nat) : Prop where
  quantum_pos : 0 < quantum
  quantum_lt : quantum < 2 ^ 31
  bytes_pos : 0 < M
  bytes_lt : M < 2 ^ 31
  room : (maxSize + 1) * M < 2 ^ 32

theorem int32_eq {n : Int} (hlow : -2 ^ 31 ≤ n) (hhigh : n < 2 ^ 31) : int32 n = n := by
  rw [int32, Int.emod_eq_of_lt (by omega) (by omega)]
  omega

theorem Limits.exact {quantum maxSize : Nat} (h : Limits quantum maxSize M) :
    RoundRobin.Exact (rules quantum) quantum M := by
  obtain ⟨hpos, hlt, hbytes, hbytes', -⟩ := h
  have hquantum : int32 quantum = quantum := int32_eq (by omega) (by omega)
  refine ⟨by omega, hquantum, fun d hlow hd => ?_, fun d n hd hle hn => ?_⟩
  · show int32 (d + int32 quantum) = _
    rw [hquantum, int32_eq (by omega) (by omega)]
  · show int32 (d + int32 (-n)) = _
    rw [int32_eq (n := -(n : Int)) (by omega) (by omega), int32_eq (by omega) (by omega)]
    rfl

/-- The flows of each list are those of its status, and a flow without a list has no packets. -/
structure Lists (s : FqCoDelQueueDisc) : Prop where
  nodup : (s.newFlows ++ s.oldFlows).Nodup
  inside : ∀ i ∈ s.newFlows ++ s.oldFlows, i < s.classes.length
  new_iff : ∀ i f, s.classes[i]? = some f → (f.status = .newFlow ↔ i ∈ s.newFlows)
  old_iff : ∀ i f, s.classes[i]? = some f → (f.status = .oldFlow ↔ i ∈ s.oldFlows)
  idle : ∀ f ∈ s.classes, f.status = .inactive → f.queueDisc.queue.packets = []

/-- The queue discs of the flows. -/
def queues (s : FqCoDelQueueDisc) : List CoDelQueueDisc := s.classes.map (·.queueDisc)

/-! ## One flow -/

theorem lt_of_flow (hf : s.classes[i]? = some f) : i < s.classes.length := (List.getElem?_eq_some_iff.1 hf).choose

theorem deficit_eq (hf : s.classes[i]? = some f) : s.deficit i = f.deficit := by
  rw [deficit, hf]
  rfl

theorem deficit_set (hf : s.classes[i]? = some f) (f' : FqCoDelFlow) :
    (s.setFlow i f').deficit = Function.update s.deficit i f'.deficit := by
  funext j
  have hget : (s.classes.set i f')[j]? = if i = j then some f' else s.classes[j]? := by
    rw [List.getElem?_set]
    split
    · rw [if_pos (lt_of_flow hf)]
    · rfl
  show ((s.classes.set i f')[j]?.map (·.deficit)).getD 0 = _
  rw [hget]
  by_cases hij : i = j
  · rw [if_pos hij, ← hij, Function.update_self]
    rfl
  · rw [if_neg hij, Function.update_of_ne (Ne.symm hij)]
    rfl

theorem flow_set (hf : s.classes[i]? = some f) (f' : FqCoDelFlow) (j : Nat) :
    (s.setFlow i f').classes[j]? = if i = j then some f' else s.classes[j]? := by
  show (s.classes.set i f')[j]? = _
  rw [List.getElem?_set]
  split
  · rw [if_pos (lt_of_flow hf)]
  · rfl

theorem queues_setFlow (s : FqCoDelQueueDisc) (i : Nat) (f : FqCoDelFlow) :
    (s.setFlow i f).queues = s.queues.set i f.queueDisc := List.map_set

theorem queue_of_flow (hf : s.classes[i]? = some f) : s.queues[i]? = some f.queueDisc := by
  rw [queues, List.getElem?_map, hf, Option.map_some]

theorem queues_setFlow_self (hf : s.classes[i]? = some f) (hqueue : f'.queueDisc = f.queueDisc) :
    (s.setFlow i f').queues = s.queues := by
  obtain ⟨hlt, heq⟩ := List.getElem?_eq_some_iff.1 (queue_of_flow hf)
  rw [queues_setFlow, hqueue, ← heq, List.set_getElem_self]

theorem mem_set_flow {g : FqCoDelFlow} (hg : g ∈ (s.setFlow i f').classes) : g = f' ∨ g ∈ s.classes :=
  (List.mem_or_eq_of_mem_set hg).symm

/-- One flow changes, and the lists with its status. -/
theorem Lists.set (h : Lists s) (hf : s.classes[i]? = some f) (f' : FqCoDelFlow) {newFlows oldFlows : List Nat}
    (hnodup : (newFlows ++ oldFlows).Nodup)
    (hnew : ∀ j, j ≠ i → (j ∈ newFlows ↔ j ∈ s.newFlows)) (hold : ∀ j, j ≠ i → (j ∈ oldFlows ↔ j ∈ s.oldFlows))
    (hnew' : f'.status = .newFlow ↔ i ∈ newFlows) (hold' : f'.status = .oldFlow ↔ i ∈ oldFlows)
    (hidle : f'.status = .inactive → f'.queueDisc.queue.packets = []) :
    Lists { s.setFlow i f' with newFlows, oldFlows } := by
  have hlength : (s.setFlow i f').classes.length = s.classes.length := List.length_set
  have hclasses : ({ s.setFlow i f' with newFlows, oldFlows } : FqCoDelQueueDisc).classes =
      (s.setFlow i f').classes := rfl
  refine ⟨hnodup, fun j hj => ?_, fun j g hg => ?_, fun j g hg => ?_, fun g hg => ?_⟩
  · show j < (s.setFlow i f').classes.length
    rw [hlength]
    by_cases hij : j = i
    · exact hij ▸ lt_of_flow hf
    · refine h.inside j ?_
      rcases List.mem_append.1 hj with hmem | hmem
      · exact List.mem_append_left _ ((hnew j hij).1 hmem)
      · exact List.mem_append_right _ ((hold j hij).1 hmem)
  · rw [hclasses, flow_set hf] at hg
    by_cases hij : i = j
    · rw [if_pos hij] at hg
      rw [← Option.some.inj hg, ← hij]
      exact hnew'
    · rw [if_neg hij] at hg
      exact (h.new_iff j g hg).trans (hnew j (Ne.symm hij)).symm
  · rw [hclasses, flow_set hf] at hg
    by_cases hij : i = j
    · rw [if_pos hij] at hg
      rw [← Option.some.inj hg, ← hij]
      exact hold'
    · rw [if_neg hij] at hg
      exact (h.old_iff j g hg).trans (hold j (Ne.symm hij)).symm
  · rcases mem_set_flow hg with rfl | hmem
    · exact hidle
    · exact h.idle g hmem

/-- The first of the new flows becomes the last of the old ones. -/
theorem Lists.demote (h : Lists s) {rest : List Nat} (hnew : s.newFlows = i :: rest) (hf : s.classes[i]? = some f)
    (hstatus : f'.status = .oldFlow) :
    Lists { s.setFlow i f' with newFlows := rest, oldFlows := s.oldFlows ++ [i] } := by
  have hnodup := h.nodup
  rw [hnew] at hnodup
  have hnot : i ∉ rest ++ s.oldFlows := (List.nodup_cons.1 hnodup).1
  apply h.set hf f' ((RoundRobin.perm_demote i rest s.oldFlows).nodup_iff.2 hnodup)
  · intro j hij
    rw [hnew, List.mem_cons, or_iff_right hij]
  · intro j hij
    rw [List.mem_append, List.mem_singleton, or_iff_left hij]
  · rw [hstatus]
    exact iff_of_false FlowStatus.noConfusion fun hmem => hnot (List.mem_append_left _ hmem)
  · exact iff_of_true hstatus (List.mem_append_right _ (List.mem_singleton.2 rfl))
  · intro hinactive
    rw [hstatus] at hinactive
    exact FlowStatus.noConfusion hinactive

/-! ## The two inner loops -/

/-- Nothing changes but the lists, the deficits and the status of flows. -/
structure Reordered (s s' : FqCoDelQueueDisc) : Prop where
  rest : s' = { s with classes := s'.classes, newFlows := s'.newFlows, oldFlows := s'.oldFlows }
  queues : s'.queues = s.queues

theorem Reordered.trans {s'' : FqCoDelQueueDisc} (h : Reordered s s') (h' : Reordered s' s'') : Reordered s s'' := by
  refine ⟨?_, h'.queues.trans h.queues⟩
  rw [h'.rest, h.rest]

/-- One turn of an inner loop. -/
structure Turn (s s' : FqCoDelQueueDisc) : Prop where
  lists : Lists s'
  reordered : Reordered s s'
  step : RoundRobin.Internal (rules s.quantum) s.roundRobin s'.roundRobin
  waits : ∀ j, j ∈ s'.newFlows ++ s'.oldFlows → j ∈ s.newFlows ++ s.oldFlows
  stays : ∀ j, j ∈ s.oldFlows → j ∈ s'.oldFlows
  work : ∀ {M : Nat}, Limits s.quantum s.maxSize M → RoundRobin.Ranged s.quantum M s.roundRobin →
    s'.roundRobin.work s.quantum < s.roundRobin.work s.quantum

theorem turns_refill {M : Nat} (hlimits : Limits s.quantum s.maxSize M)
    (hranged : RoundRobin.Ranged s.quantum M s.roundRobin) (hmem : i ∈ s.newFlows ++ s.oldFlows)
    (hd : s.deficit i ≤ 0) :
    RoundRobin.turns s.quantum ((rules s.quantum).refill (s.deficit i)) < RoundRobin.turns s.quantum (s.deficit i) := by
  have hrefill : (rules s.quantum).refill (s.deficit i) = s.deficit i + s.quantum :=
    hlimits.exact.refill _ (hranged i hmem).1 hd
  rw [hrefill]
  exact RoundRobin.turns_refill hlimits.exact.pos hd

theorem turn_new (hs : Lists s) {newFlows : List Nat} (hnew : s.newFlows = i :: newFlows) (hf : s.classes[i]? = some f)
    (hd : f.deficit ≤ 0) :
    Turn s { s.setFlow i { f.increaseDeficit s.quantum with status := .oldFlow } with
      oldFlows := s.oldFlows ++ [i], newFlows } := by
  have hnodup := hs.nodup
  rw [hnew] at hnodup
  have hdeficit : s.deficit i ≤ 0 := (deficit_eq hf).symm ▸ hd
  have hfrom : s.roundRobin = ⟨i :: newFlows, s.oldFlows, s.deficit⟩ := by rw [roundRobin, hnew]
  have hto : ({ s.setFlow i { f.increaseDeficit s.quantum with status := .oldFlow } with
      oldFlows := s.oldFlows ++ [i], newFlows } : FqCoDelQueueDisc).roundRobin =
        ⟨newFlows, s.oldFlows ++ [i], Function.update s.deficit i ((rules s.quantum).refill (s.deficit i))⟩ := by
    rw [deficit_eq hf]
    exact congrArg (RoundRobin.mk _ _) (deficit_set hf _)
  refine ⟨hs.demote hnew hf rfl, ⟨rfl, queues_setFlow_self hf rfl⟩, ?_, fun j hj => ?_,
    fun j hj => List.mem_append_left _ hj, fun hlimits hranged => ?_⟩
  · rw [hfrom, hto]
    exact .demote i hdeficit
  · rw [hnew]
    exact (RoundRobin.perm_demote i newFlows s.oldFlows).subset hj
  · have hturns := turns_refill hlimits hranged (hnew ▸ List.mem_cons_self) hdeficit
    rw [hfrom, hto]
    exact RoundRobin.work_demote hnodup hturns

theorem turn_old (hs : Lists s) {oldFlows : List Nat} (hnew : s.newFlows = []) (hold : s.oldFlows = i :: oldFlows)
    (hf : s.classes[i]? = some f) (hd : f.deficit ≤ 0) :
    Turn s { s.setFlow i (f.increaseDeficit s.quantum) with oldFlows := oldFlows ++ [i] } := by
  have hnodup := hs.nodup
  rw [hnew, hold, List.nil_append] at hnodup
  have hnot : i ∉ oldFlows := (List.nodup_cons.1 hnodup).1
  have hstatus : f.status = .oldFlow := (hs.old_iff i f hf).2 (hold ▸ List.mem_cons_self)
  have hdeficit : s.deficit i ≤ 0 := (deficit_eq hf).symm ▸ hd
  have hfrom : s.roundRobin = ⟨[], i :: oldFlows, s.deficit⟩ := by rw [roundRobin, hnew, hold]
  have hto : ({ s.setFlow i (f.increaseDeficit s.quantum) with
      oldFlows := oldFlows ++ [i] } : FqCoDelQueueDisc).roundRobin =
        ⟨[], oldFlows ++ [i], Function.update s.deficit i ((rules s.quantum).refill (s.deficit i))⟩ := by
    rw [deficit_eq hf, ← hnew]
    exact congrArg (RoundRobin.mk _ _) (deficit_set hf _)
  have hperm : (oldFlows ++ [i]).Perm (i :: oldFlows) := List.perm_append_singleton i _
  refine ⟨?_, ⟨rfl, queues_setFlow_self hf rfl⟩, ?_, fun j hj => ?_, fun j hj => ?_, fun hlimits hranged => ?_⟩
  · have hnodup' : (s.newFlows ++ (oldFlows ++ [i])).Nodup := by
      rw [hnew]
      exact hperm.nodup_iff.2 hnodup
    refine hs.set hf (f.increaseDeficit s.quantum) hnodup' (fun j _ => Iff.rfl) (fun j _ => ?_) ?_ ?_ fun h => ?_
    · rw [hold]
      exact hperm.mem_iff
    · exact hs.new_iff i f hf
    · exact iff_of_true hstatus (List.mem_append_right _ (List.mem_singleton.2 rfl))
    · exact absurd (hstatus.symm.trans h) (by decide)
  · rw [hfrom, hto]
    exact .rotate i hdeficit
  · rw [hold]
    rcases List.mem_append.1 hj with hmem | hmem
    · exact List.mem_append_left _ hmem
    · exact List.mem_append_right _ (hperm.subset hmem)
  · rw [hold] at hj
    exact hperm.symm.subset hj
  · have hturns := turns_refill hlimits hranged (List.mem_append_right _ (hold ▸ List.mem_cons_self)) hdeficit
    rw [hfrom, hto]
    exact RoundRobin.work_rotate hnodup hturns

/-- Any number of turns. -/
inductive Turns : FqCoDelQueueDisc → FqCoDelQueueDisc → Prop where
  | refl (s : FqCoDelQueueDisc) : Turns s s
  | head {s t u : FqCoDelQueueDisc} (h : Turn s t) (h' : Turns t u) : Turns s u

theorem Turns.trans {t u : FqCoDelQueueDisc} (h : Turns s t) (h' : Turns t u) : Turns s u := by
  induction h with
  | refl => exact h'
  | head hturn _ ih => exact .head hturn (ih h')

theorem Turns.reordered (h : Turns s s') : Reordered s s' := by
  induction h with
  | refl => exact ⟨rfl, rfl⟩
  | head hturn _ ih => exact hturn.reordered.trans ih

theorem Reordered.quantum (h : Reordered s s') : s'.quantum = s.quantum := by rw [h.rest]

theorem Reordered.maxSize (h : Reordered s s') : s'.maxSize = s.maxSize := by rw [h.rest]

theorem Turns.path {P : RoundRobin Nat → Prop} (h : Turns s s') :
    RoundRobin.Path (rules s.quantum) P s.roundRobin [] s'.roundRobin := by
  induction h with
  | refl => exact .refl _
  | @head s t u hturn _ ih =>
      rw [hturn.reordered.quantum] at ih
      exact ((RoundRobin.Path.refl _).internal hturn.step).trans ih

theorem Turns.ranged (hlimits : Limits s.quantum s.maxSize M) (hranged : RoundRobin.Ranged s.quantum M s.roundRobin)
    (h : Turns s s') : RoundRobin.Ranged s.quantum M s'.roundRobin :=
  (h.path (P := fun _ => True)).ranged (Int.natCast_nonneg M) hlimits.exact hranged nofun

theorem Turns.waits (h : Turns s s') : ∀ j, j ∈ s'.newFlows ++ s'.oldFlows → j ∈ s.newFlows ++ s.oldFlows := by
  induction h with
  | refl => exact fun _ hj => hj
  | head hturn _ ih => exact fun j hj => hturn.waits j (ih j hj)

theorem Turns.stays (h : Turns s s') : ∀ j, j ∈ s.oldFlows → j ∈ s'.oldFlows := by
  induction h with
  | refl => exact fun _ hj => hj
  | head hturn _ ih => exact fun j hj => ih j (hturn.stays j hj)

theorem Turns.work (hlimits : Limits s.quantum s.maxSize M) (hranged : RoundRobin.Ranged s.quantum M s.roundRobin)
    (h : Turns s s') : s'.roundRobin.work s.quantum ≤ s.roundRobin.work s.quantum := by
  induction h with
  | refl => exact Nat.le_refl _
  | @head s t u hturn _ ih =>
      have hquantum := hturn.reordered.quantum
      have hlimits' : Limits t.quantum t.maxSize M := by
        rw [hquantum, hturn.reordered.maxSize]
        exact hlimits
      have hranged' : RoundRobin.Ranged t.quantum M t.roundRobin := by
        rw [hquantum]
        exact hranged.internal (Int.natCast_nonneg M) hlimits.exact hturn.step
      have hrest := ih hlimits' hranged'
      rw [hquantum] at hrest
      exact Nat.le_trans hrest (Nat.le_of_lt (hturn.work hlimits hranged))

/-- A flow with a positive deficit is at the front. -/
def Front (s : FqCoDelQueueDisc) (i : Nat) : Prop :=
  0 < s.deficit i ∧ ((∃ rest, s.newFlows = i :: rest) ∨ s.newFlows = [] ∧ ∃ rest, s.oldFlows = i :: rest)

theorem selectNew_turns (hs : Lists s) (h : selectNew fuel s = some (o, s')) :
    Turns s s' ∧ Lists s' ∧ (o = none → s'.newFlows = []) ∧ ∀ i ∈ o, Front s' i := by
  induction fuel generalizing s with
  | zero => exact nomatch h
  | succ fuel ih =>
      rw [selectNew] at h
      split at h
      · next hnew =>
        obtain ⟨rfl, rfl⟩ := Prod.mk.inj (Option.some.inj h)
        exact ⟨.refl s, hs, fun _ => hnew, nofun⟩
      · next i newFlows hnew =>
        obtain ⟨f, hf, hrest⟩ := Option.bind_eq_some_iff.1 h
        split at hrest
        · next hd =>
          have hturn := turn_new hs hnew hf hd
          obtain ⟨hturns, hlists, hends⟩ := ih hturn.lists hrest
          exact ⟨.head hturn hturns, hlists, hends⟩
        · next hd =>
          obtain ⟨rfl, rfl⟩ := Prod.mk.inj (Option.some.inj hrest)
          refine ⟨.refl s, hs, nofun, fun j hj => ?_⟩
          obtain rfl := Option.some.inj hj
          exact ⟨deficit_eq hf ▸ Int.not_le.1 hd, .inl ⟨newFlows, hnew⟩⟩

theorem selectOld_turns (hs : Lists s) (hnew : s.newFlows = []) (h : selectOld fuel s = some (o, s')) :
    Turns s s' ∧ Lists s' ∧ (o = none → s'.newFlows = [] ∧ s'.oldFlows = []) ∧ ∀ i ∈ o, Front s' i := by
  induction fuel generalizing s with
  | zero => exact nomatch h
  | succ fuel ih =>
      rw [selectOld] at h
      split at h
      · next hold =>
        obtain ⟨rfl, rfl⟩ := Prod.mk.inj (Option.some.inj h)
        exact ⟨.refl s, hs, fun _ => ⟨hnew, hold⟩, nofun⟩
      · next i oldFlows hold =>
        obtain ⟨f, hf, hrest⟩ := Option.bind_eq_some_iff.1 h
        split at hrest
        · next hd =>
          have hturn := turn_old hs hnew hold hf hd
          obtain ⟨hturns, hlists, hends⟩ := ih hturn.lists hnew hrest
          exact ⟨.head hturn hturns, hlists, hends⟩
        · next hd =>
          obtain ⟨rfl, rfl⟩ := Prod.mk.inj (Option.some.inj hrest)
          refine ⟨.refl s, hs, nofun, fun j hj => ?_⟩
          obtain rfl := Option.some.inj hj
          exact ⟨deficit_eq hf ▸ Int.not_le.1 hd, .inr ⟨hnew, oldFlows, hold⟩⟩

theorem select_turns (hs : Lists s) (h : select fuel s = some (o, s')) :
    Turns s s' ∧ Lists s' ∧ (o = none → s'.newFlows = [] ∧ s'.oldFlows = []) ∧ ∀ i ∈ o, Front s' i := by
  obtain ⟨⟨o₁, s₁⟩, hfirst, hrest⟩ := Option.bind_eq_some_iff.1 h
  obtain ⟨hturns, hlists, hnone, hfront⟩ := selectNew_turns hs hfirst
  cases o₁ with
  | some i =>
      obtain ⟨rfl, rfl⟩ := Prod.mk.inj (Option.some.inj hrest)
      exact ⟨hturns, hlists, nofun, hfront⟩
  | none =>
      obtain ⟨hturns', hlists', hends⟩ := selectOld_turns hlists (hnone rfl) hrest
      exact ⟨hturns.trans hturns', hlists', hends⟩

end Ns3Raft.Traffic.FqCoDelQueueDisc
