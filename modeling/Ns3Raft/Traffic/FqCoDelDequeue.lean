import Ns3Raft.Traffic.FqCoDelEnqueue

/-! # Dequeue in FqCoDel

What `DoDequeue` does to the lists and to the queues, and that its loops end.
-/

namespace Ns3Raft.Traffic.FqCoDelQueueDisc

open Ns3Raft.Lib

variable {s s' : FqCoDelQueueDisc} {f f' : FqCoDelFlow} {i j fuel now M : Nat} {taken : List QueueDiscItem}
  {log : List QueueEvent}

/-! ## Dequeue -/

/-- What `DoDequeue` does. A flow that is old before and afterwards has been old at every selection. -/
structure Served (M : Nat) (s : FqCoDelQueueDisc) (log : List QueueEvent) (s' : FqCoDelQueueDisc) : Prop where
  sound : Sound M s'
  same : SameDisc s s'
  order : InOrder s.queues log s'.queues
  path : RoundRobin.Path (rules s.quantum) (fun t => ∀ j ∈ s.oldFlows, j ∈ s'.oldFlows → j ∈ t.old) s.roundRobin
    (transmissions log) s'.roundRobin
  bytes : ∀ x ∈ transmissions log, x.2 ≤ M
  takes : ∀ h i item, .accepted h i item ∉ log
  waits : ∀ j ∈ s'.newFlows ++ s'.oldFlows, j ∈ s.newFlows ++ s.oldFlows
  stays : ∀ j ∈ s.oldFlows, j ∈ s'.newFlows ++ s'.oldFlows → j ∈ s'.oldFlows

theorem Served.trans {s'' : FqCoDelQueueDisc} {log' : List QueueEvent} (h : Served M s log s')
    (h' : Served M s' log' s'') :
    Served M s (log ++ log') s'' := by
  have hmiddle : ∀ j ∈ s.oldFlows, j ∈ s''.newFlows ++ s''.oldFlows → j ∈ s'.oldFlows := fun j hj hlast =>
    h.stays j hj (h'.waits j hlast)
  have hpath := h'.path
  rw [h.same.quantum] at hpath
  have hevents : transmissions (log ++ log') = transmissions log ++ transmissions log' := List.filterMap_append
  refine ⟨h'.sound, h.same.trans h'.same, h.order.trans h'.order, ?_, fun x hx => ?_, fun k i x hx => ?_,
    fun j hj => h.waits j (h'.waits j hj), fun j hj hlast => h'.stays j (hmiddle j hj hlast) hlast⟩
  · rw [hevents]
    refine (h.path.mono fun t ht j hj hlast => ?_).trans (hpath.mono fun t ht j hj hlast => ?_)
    · exact ht j hj (hmiddle j hj (List.mem_append_right _ hlast))
    · exact ht j (hmiddle j hj (List.mem_append_right _ hlast)) hlast
  · rw [hevents] at hx
    exact (List.mem_append.1 hx).elim (h.bytes x) (h'.bytes x)
  · exact (List.mem_append.1 hx).elim (h.takes k i x) (h'.takes k i x)

theorem Turns.served (hs : Sound M s) (h : Turns s s') (hlists : Lists s') : Served M s [] s' := by
  have hsame := h.reordered
  have hlength : s'.classes.length = s.classes.length := by
    have hqueues := congrArg List.length hsame.queues
    rwa [queues, queues, List.length_map, List.length_map] at hqueues
  have hcounters : s'.counters = s.counters := by rw [hsame.rest]
  refine ⟨hs.next hsame.same hlength hlists (h.ranged hs.limits hs.ranged) ?_, hsame.same, ?_, h.path,
    fun _ hx => absurd hx List.not_mem_nil, fun _ _ _ => List.not_mem_nil, h.waits, fun j hj _ => h.stays j hj⟩
  · rw [hsame.queues, hcounters]
    exact hs.holding
  · rw [hsame.queues]
    exact .refl _

/-- One flow is selected, and what is taken from its queue is dropped or sent. -/
theorem Sound.replace (hs : Sound M s) (hf : s.classes[i]? = some f) (htakes : f.queueDisc.Takes taken f'.queueDisc)
    {newFlows oldFlows : List Nat} (hlists : Lists { s.setFlow i f' with newFlows, oldFlows }) {o : Option (Nat × Nat)}
    (hselect : RoundRobin.Select (rules s.quantum) s.roundRobin o
      ⟨newFlows, oldFlows, Function.update s.deficit i f'.deficit⟩)
    (ho : ∀ x ∈ o, x.2 ≤ M) (horder : InOrder s.queues log (s.queues.set i f'.queueDisc))
    (hlog : transmissions log = o.toList) (htaken : ∀ h i item, .accepted h i item ∉ log)
    (hwaits : ∀ j ∈ newFlows ++ oldFlows, j ∈ s.newFlows ++ s.oldFlows)
    (hstays : ∀ j ∈ s.oldFlows, j ∈ newFlows ++ oldFlows → j ∈ oldFlows) :
    Served M s log { (s.countDequeued taken).setFlow i f' with newFlows, oldFlows } := by
  have hrobin : ({ (s.countDequeued taken).setFlow i f' with newFlows, oldFlows } : FqCoDelQueueDisc).roundRobin =
      ⟨newFlows, oldFlows, Function.update s.deficit i f'.deficit⟩ :=
    congrArg (RoundRobin.mk newFlows oldFlows) (deficit_set hf f')
  have hqueues : ({ (s.countDequeued taken).setFlow i f' with newFlows, oldFlows } : FqCoDelQueueDisc).queues =
      s.queues.set i f'.queueDisc := queues_setFlow s i f'
  have hqueue := queue_of_flow hf
  refine ⟨hs.next rfl List.length_set ⟨hlists.nodup, hlists.inside, hlists.new_iff, hlists.old_iff, hlists.idle⟩ ?_ ?_,
    rfl, hqueues ▸ horder, ?_, fun x hx => ?_, htaken, hwaits, hstays⟩
  · rw [hrobin]
    exact hs.ranged.select hs.limits.exact hselect fun x hx => Int.ofNat_le.2 (ho x hx)
  · rw [hqueues]
    exact (hs.holding.take hqueue htakes).mono (Nat.le_trans (hs.holding.take hqueue htakes).room (Nat.sub_le _ _))
  · rw [hrobin, hlog]
    exact (RoundRobin.Path.refl _).select (fun j hj _ => hj) hselect
  · rw [hlog] at hx
    exact ho x (Option.mem_toList.1 hx)

/-- A flow without packets goes to another list, or leaves. -/
theorem Sound.moves (hs : Sound M s) (hf : s.classes[i]? = some f) {d : CoDelQueueDisc.Dequeuing}
    (hd : f.queueDisc.DequeuedFrom d) (hnone : d.item = none) {status : FlowStatus} {newFlows oldFlows : List Nat}
    (hlists : Lists { s.setFlow i { f with queueDisc := d.disc, status } with newFlows, oldFlows })
    (hselect : RoundRobin.Select (rules s.quantum) s.roundRobin none ⟨newFlows, oldFlows, s.deficit⟩)
    (hwork : RoundRobin.work s.quantum ⟨newFlows, oldFlows, s.deficit⟩ < s.roundRobin.work s.quantum)
    (hwaits : ∀ j ∈ newFlows ++ oldFlows, j ∈ s.newFlows ++ s.oldFlows)
    (hstays : ∀ j ∈ s.oldFlows, j ∈ newFlows ++ oldFlows → j ∈ oldFlows)
    (hs' : s' = { (s.countDequeued (d.dropped ++ d.item.toList)).setFlow i
      { f with queueDisc := d.disc, status } with newFlows, oldFlows }) :
    Served M s (d.dropped.map (.dropped i)) s' ∧ s'.roundRobin.work s.quantum < s.roundRobin.work s.quantum := by
  have hdeficit : Function.update s.deficit i f.deficit = s.deficit := by
    rw [← deficit_eq hf]
    exact Function.update_eq_self i s.deficit
  have horder := InOrder.dequeued (queue_of_flow hf) hd.takes
  rw [hnone, Option.map_none, Option.toList_none, List.append_nil] at horder
  rw [← hdeficit] at hselect
  have hrobin : s'.roundRobin = ⟨newFlows, oldFlows, s.deficit⟩ := by
    rw [hs', ← hdeficit]
    exact congrArg (RoundRobin.mk newFlows oldFlows) (deficit_set hf _)
  rw [hrobin]
  refine ⟨?_, hwork⟩
  rw [hs']
  exact hs.replace hf hd.takes hlists hselect nofun horder (transmissions_dropped i d.dropped)
    (not_accepted_dropped i d.dropped) hwaits hstays

theorem Sound.idleNew (hs : Sound M s) (hf : s.classes[i]? = some f) {d : CoDelQueueDisc.Dequeuing}
    (hd : f.queueDisc.DequeuedFrom d) (hnone : d.item = none) {rest : List Nat} (hnew : s.newFlows = i :: rest)
    (hpos : 0 < s.deficit i)
    (hs' : (s.countDequeued (d.dropped ++ d.item.toList)).putBack i { f with queueDisc := d.disc } = s') :
    Served M s (d.dropped.map (.dropped i)) s' ∧ s'.roundRobin.work s.quantum < s.roundRobin.work s.quantum := by
  have hrobin : s.roundRobin = ⟨i :: rest, s.oldFlows, s.deficit⟩ := by rw [roundRobin, hnew]
  have hlists : Lists { s.setFlow i { f with queueDisc := d.disc, status := .oldFlow } with
      newFlows := rest, oldFlows := s.oldFlows ++ [i] } := hs.lists.demote hnew hf rfl
  have hne : (s.countDequeued (d.dropped ++ d.item.toList)).newFlows ≠ [] := by
    show s.newFlows ≠ []
    rw [hnew]
    exact List.cons_ne_nil i rest
  have htail : (s.countDequeued (d.dropped ++ d.item.toList)).newFlows.tail = rest := congrArg List.tail hnew
  refine hs.moves hf hd hnone hlists ?_ ?_ (fun j hj => ?_) (fun j hj _ => List.mem_append_left _ hj) ?_
  · rw [hrobin]
    exact .idleFresh i hpos
  · rw [hrobin]
    exact RoundRobin.work_idleFresh
  · rw [hnew]
    exact (RoundRobin.perm_demote i rest s.oldFlows).subset hj
  · rw [← hs', putBack, if_pos hne, htail]
    rfl

theorem Sound.idleOld (hs : Sound M s) (hf : s.classes[i]? = some f) {d : CoDelQueueDisc.Dequeuing}
    (hd : f.queueDisc.DequeuedFrom d) (hnone : d.item = none) (hnew : s.newFlows = []) {rest : List Nat}
    (hold : s.oldFlows = i :: rest) (hpos : 0 < s.deficit i)
    (hs' : (s.countDequeued (d.dropped ++ d.item.toList)).putBack i { f with queueDisc := d.disc } = s') :
    Served M s (d.dropped.map (.dropped i)) s' ∧ s'.roundRobin.work s.quantum < s.roundRobin.work s.quantum := by
  have hempty := hd.none (hs.holding.flow (queue_of_flow hf)) hnone
  have hnodup := hs.lists.nodup
  rw [hnew, hold, List.nil_append] at hnodup
  obtain ⟨hnot, hrest⟩ := List.nodup_cons.1 hnodup
  have hrobin : s.roundRobin = ⟨[], i :: rest, s.deficit⟩ := by rw [roundRobin, hnew, hold]
  have hlists : Lists { s.setFlow i { f with queueDisc := d.disc, status := .inactive } with
      newFlows := [], oldFlows := rest } := by
    refine hs.lists.set hf _ hrest (fun j hij => ?_) (fun j hij => ?_) ?_ ?_ fun _ => hempty
    · rw [hnew]
    · rw [hold, List.mem_cons, or_iff_right hij]
    · exact iff_of_false FlowStatus.noConfusion List.not_mem_nil
    · exact iff_of_false FlowStatus.noConfusion hnot
  have hnil : ¬(s.countDequeued (d.dropped ++ d.item.toList)).newFlows ≠ [] := not_not_intro hnew
  have htail : (s.countDequeued (d.dropped ++ d.item.toList)).oldFlows.tail = rest := congrArg List.tail hold
  refine hs.moves hf hd hnone hlists ?_ ?_ (fun j hj => ?_) (fun j _ hj => hj) ?_
  · rw [hrobin]
    exact .idleOld i hpos
  · rw [hrobin]
    exact RoundRobin.work_idleOld
  · rw [hnew, hold]
    exact List.mem_cons_of_mem i hj
  · rw [← hs', putBack, if_neg hnil, htail, ← hnew]
    rfl

/-- The flow at the front sends a packet, which its deficit pays for. -/
theorem Sound.serve (hs : Sound M s) (hfront : Front s i) (hf : s.classes[i]? = some f) {d : CoDelQueueDisc.Dequeuing}
    {item : QueueDiscItem} (hd : f.queueDisc.DequeuedFrom d) (hsome : d.item = some item) :
    Served M s (d.dropped.map (.dropped i) ++ [.sent i item])
      ((s.countDequeued (d.dropped ++ d.item.toList)).setFlow i
        ({ f with queueDisc := d.disc }.increaseDeficit (-item.size))) := by
  have hqueue := queue_of_flow hf
  have horder := InOrder.dequeued hqueue hd.takes
  rw [hsome, Option.map_some, Option.toList_some] at horder
  have hsize : item.size ≤ M := by
    refine (hs.holding.sized item (mem_stored_of_mem hqueue ?_)).2
    rw [hd.takes.packets, hsome]
    exact List.mem_append_left _ (List.mem_append_right _ (List.mem_singleton.2 rfl))
  have hlog : transmissions (d.dropped.map (.dropped i) ++ [.sent i item]) = (some (i, item.size)).toList := by
    rw [transmissions, List.filterMap_append]
    exact congrArg (· ++ [(i, item.size)]) (transmissions_dropped i d.dropped)
  have htaken : ∀ h k x, .accepted h k x ∉ d.dropped.map (QueueEvent.dropped i) ++ [.sent i item] := by
    intro h k x hmem
    rcases List.mem_append.1 hmem with hmem | hmem
    · exact not_accepted_dropped i d.dropped h k x hmem
    · exact nomatch List.mem_singleton.1 hmem
  have hlists : Lists { s.setFlow i ({ f with queueDisc := d.disc }.increaseDeficit (-item.size)) with
      newFlows := s.newFlows, oldFlows := s.oldFlows } := by
    refine hs.lists.set hf _ hs.lists.nodup (fun _ _ => Iff.rfl) (fun _ _ => Iff.rfl) (hs.lists.new_iff i f hf)
      (hs.lists.old_iff i f hf) fun hinactive => ?_
    -- a flow at the front is not inactive
    obtain ⟨-, ⟨rest, hnew⟩ | ⟨-, rest, hold⟩⟩ := hfront
    · have hstatus : f.status = .newFlow := (hs.lists.new_iff i f hf).2 (hnew ▸ List.mem_cons_self)
      exact absurd (hstatus.symm.trans hinactive) (by decide)
    · have hstatus : f.status = .oldFlow := (hs.lists.old_iff i f hf).2 (hold ▸ List.mem_cons_self)
      exact absurd (hstatus.symm.trans hinactive) (by decide)
  have hselect : RoundRobin.Select (rules s.quantum) s.roundRobin (some (i, item.size))
      ⟨s.newFlows, s.oldFlows, Function.update s.deficit i ((rules s.quantum).charge f.deficit item.size)⟩ := by
    rw [← deficit_eq hf]
    obtain ⟨hpos, ⟨rest, hnew⟩ | ⟨hnew, rest, hold⟩⟩ := hfront
    · rw [roundRobin, hnew]
      exact .serveFresh i item.size hpos
    · rw [roundRobin, hnew, hold]
      exact .serveOld i item.size hpos
  refine hs.replace hf hd.takes hlists hselect (fun x hx => ?_) horder hlog htaken (fun _ hj => hj) (fun _ hj _ => hj)
  rw [← Option.some.inj hx]
  exact hsize

/-- Without flows in the lists there are no packets. -/
theorem Lists.empty (h : Lists s) (hnew : s.newFlows = []) (hold : s.oldFlows = []) : stored s.queues = [] := by
  refine List.flatMap_eq_nil_iff.2 fun qd hqd => ?_
  obtain ⟨f, hf, rfl⟩ := List.mem_map.1 hqd
  obtain ⟨i, hi⟩ := List.mem_iff_getElem?.1 hf
  refine h.idle f hf ?_
  cases hstatus : f.status with
  | inactive => rfl
  | newFlow => exact absurd ((h.new_iff i f hi).1 hstatus) (hnew ▸ List.not_mem_nil)
  | oldFlow => exact absurd ((h.old_iff i f hi).1 hstatus) (hold ▸ List.not_mem_nil)

/-- A packet is sent last, or the discs are empty. -/
def Answers (sent : Option QueueDiscItem) (log : List QueueEvent) (s' : FqCoDelQueueDisc) : Prop :=
  match sent with
  | some item => ∃ i log', log = log' ++ [.sent i item]
  | none => stored s'.queues = []

/-- One round: without a packet it comes closer to the end of the loop. -/
theorem Sound.dequeueFrom (hs : Sound M s) (hfront : Front s i) (hf : s.classes[i]? = some f)
    {sent : Option QueueDiscItem} (h : s.dequeueFrom now i f = (sent, log, s')) :
    Served M s log s' ∧ (sent = none → s'.roundRobin.work s.quantum < s.roundRobin.work s.quantum) ∧
      ∀ item ∈ sent, ∃ log', log = log' ++ [.sent i item] := by
  have hd := CoDelQueueDisc.dequeuedFrom_doDequeue f.queueDisc now
  rw [FqCoDelQueueDisc.dequeueFrom] at h
  split at h
  · next hnone =>
    obtain ⟨rfl, hrest⟩ := Prod.mk.inj h
    obtain ⟨rfl, hs'⟩ := Prod.mk.inj hrest
    obtain ⟨hpos, ⟨rest, hnew⟩ | ⟨hnew, rest, hold⟩⟩ := hfront
    · have hidle := hs.idleNew hf hd hnone hnew hpos hs'
      exact ⟨hidle.1, fun _ => hidle.2, nofun⟩
    · have hidle := hs.idleOld hf hd hnone hnew hold hpos hs'
      exact ⟨hidle.1, fun _ => hidle.2, nofun⟩
  · next item hsome =>
    have hserve := hs.serve hfront hf hd hsome
    obtain ⟨rfl, hrest⟩ := Prod.mk.inj h
    obtain ⟨rfl, rfl⟩ := Prod.mk.inj hrest
    refine ⟨hserve, nofun, fun x hx => ?_⟩
    rw [← Option.some.inj hx]
    exact ⟨_, rfl⟩

theorem dequeueLoop_served (hs : Sound M s) {events events' : List QueueEvent} {sent : Option QueueDiscItem}
    (h : dequeueLoop now fuel s events = some (sent, events', s')) :
    ∃ log, events' = events ++ log ∧ Served M s log s' ∧ Answers sent log s' := by
  induction fuel generalizing s events with
  | zero => exact nomatch h
  | succ fuel ih =>
      obtain ⟨⟨o, s₁⟩, hselect, hrest⟩ := Option.bind_eq_some_iff.1 h
      obtain ⟨hturns, hlists, hends, hfront⟩ := select_turns hs.lists hselect
      have hserved := hturns.served hs hlists
      cases o with
      | none =>
          obtain ⟨rfl, hrest'⟩ := Prod.mk.inj (Option.some.inj hrest)
          obtain ⟨rfl, rfl⟩ := Prod.mk.inj hrest'
          exact ⟨[], (List.append_nil _).symm, hserved, hlists.empty (hends rfl).1 (hends rfl).2⟩
      | some i =>
          obtain ⟨f, hf, hcall⟩ := Option.bind_eq_some_iff.1 hrest
          rcases hround : s₁.dequeueFrom now i f with ⟨item, out, s₂⟩
          obtain ⟨hserved', -, hlast⟩ := hserved.sound.dequeueFrom (hfront i rfl) hf hround
          rw [hround] at hcall
          cases item with
          | none =>
              obtain ⟨log, rfl, hlater, hanswers⟩ := ih hserved'.sound hcall
              refine ⟨out ++ log, List.append_assoc _ _ _, (hserved.trans hserved').trans hlater, ?_⟩
              cases sent with
              | none => exact hanswers
              | some item =>
                  obtain ⟨k, log', rfl⟩ := hanswers
                  exact ⟨k, out ++ log', (List.append_assoc _ _ _).symm⟩
          | some item =>
              obtain ⟨rfl, hrest'⟩ := Prod.mk.inj (Option.some.inj hcall)
              obtain ⟨rfl, rfl⟩ := Prod.mk.inj hrest'
              exact ⟨out, rfl, hserved.trans hserved', i, hlast item rfl⟩

/-! ## The loops end -/

theorem flow_of_mem (hs : Lists s) (hmem : i ∈ s.newFlows ++ s.oldFlows) : ∃ f, s.classes[i]? = some f :=
  ⟨_, List.getElem?_eq_getElem (hs.inside i hmem)⟩

theorem selectNew_some (hlimits : Limits s.quantum s.maxSize M) (hs : Lists s)
    (hranged : RoundRobin.Ranged s.quantum M s.roundRobin) (hfuel : s.roundRobin.work s.quantum < fuel) :
    ∃ r, selectNew fuel s = some r := by
  induction fuel generalizing s with
  | zero => exact absurd hfuel (Nat.not_lt_zero _)
  | succ fuel ih =>
      rw [selectNew]
      split
      · exact ⟨_, rfl⟩
      · next i newFlows hnew =>
        obtain ⟨f, hf⟩ := flow_of_mem hs (i := i) (by rw [hnew]; exact List.mem_cons_self)
        rw [hf, Option.bind_eq_bind, Option.bind_some]
        split
        · next hd =>
          have hturn := turn_new hs hnew hf hd
          have hwork := hturn.work hlimits hranged
          have hranged' := hranged.internal (Int.natCast_nonneg M) hlimits.exact hturn.step
          exact ih hlimits hturn.lists hranged' (Nat.lt_of_lt_of_le hwork (Nat.le_of_lt_succ hfuel))
        · exact ⟨_, rfl⟩

theorem selectOld_some (hlimits : Limits s.quantum s.maxSize M) (hs : Lists s) (hnew : s.newFlows = [])
    (hranged : RoundRobin.Ranged s.quantum M s.roundRobin) (hfuel : s.roundRobin.work s.quantum < fuel) :
    ∃ r, selectOld fuel s = some r := by
  induction fuel generalizing s with
  | zero => exact absurd hfuel (Nat.not_lt_zero _)
  | succ fuel ih =>
      rw [selectOld]
      split
      · exact ⟨_, rfl⟩
      · next i oldFlows hold =>
        obtain ⟨f, hf⟩ := flow_of_mem hs (i := i) (by rw [hnew, hold]; exact List.mem_cons_self)
        rw [hf, Option.bind_eq_bind, Option.bind_some]
        split
        · next hd =>
          have hturn := turn_old hs hnew hold hf hd
          have hwork := hturn.work hlimits hranged
          have hranged' := hranged.internal (Int.natCast_nonneg M) hlimits.exact hturn.step
          exact ih hlimits hturn.lists hnew hranged' (Nat.lt_of_lt_of_le hwork (Nat.le_of_lt_succ hfuel))
        · exact ⟨_, rfl⟩

theorem select_some (hs : Sound M s) (hfuel : s.roundRobin.work s.quantum < fuel) : ∃ r, select fuel s = some r := by
  obtain ⟨⟨o, s₁⟩, hfirst⟩ := selectNew_some hs.limits hs.lists hs.ranged hfuel
  cases o with
  | some i => exact ⟨_, by rw [select, hfirst]; rfl⟩
  | none =>
      obtain ⟨hturns, hlists, hnone, -⟩ := selectNew_turns hs.lists hfirst
      have hs₁ := (hturns.served hs hlists).sound
      have hquantum := hturns.reordered.quantum
      have hwork := hturns.work hs.limits hs.ranged
      obtain ⟨r, hr⟩ := selectOld_some hs₁.limits hlists (hnone rfl) hs₁.ranged
        (by rw [hquantum]; exact Nat.lt_of_le_of_lt hwork hfuel)
      exact ⟨r, by rw [select, hfirst]; exact hr⟩

theorem dequeueLoop_some (now : Nat) (hs : Sound M s) (events : List QueueEvent)
    (hfuel : s.roundRobin.work s.quantum < fuel) :
    ∃ r, dequeueLoop now (fuel + 1) s events = some r := by
  induction fuel generalizing s events with
  | zero => exact absurd hfuel (Nat.not_lt_zero _)
  | succ fuel ih =>
      obtain ⟨⟨o, s₁⟩, hselect⟩ := select_some hs hfuel
      obtain ⟨hturns, hlists, -, hfront⟩ := select_turns hs.lists hselect
      have hserved := hturns.served hs hlists
      cases o with
      | none => exact ⟨_, by rw [dequeueLoop, hselect]; rfl⟩
      | some i =>
          have hmem : i ∈ s₁.newFlows ++ s₁.oldFlows := by
            obtain ⟨-, ⟨rest, hnew⟩ | ⟨-, rest, hold⟩⟩ := hfront i rfl
            · exact List.mem_append_left _ (hnew ▸ List.mem_cons_self)
            · exact List.mem_append_right _ (hold ▸ List.mem_cons_self)
          obtain ⟨f, hf⟩ := flow_of_mem hlists hmem
          rcases hround : s₁.dequeueFrom now i f with ⟨item, out, s₂⟩
          obtain ⟨hserved', hless, -⟩ := hserved.sound.dequeueFrom (hfront i rfl) hf hround
          rw [dequeueLoop, hselect, Option.bind_eq_bind, Option.bind_some]
          simp only [hf, Option.bind_eq_bind, Option.bind_some, hround]
          cases item with
          | some item => exact ⟨_, rfl⟩
          | none =>
              have hwork := hturns.work hs.limits hs.ranged
              have hless' := hless rfl
              rw [hturns.reordered.quantum] at hless'
              refine ih hserved'.sound _ ?_
              rw [hserved'.same.quantum, hturns.reordered.quantum]
              omega

/-- More fuel changes nothing. -/
theorem selectNew_succ {r : Option Nat × FqCoDelQueueDisc} (h : selectNew fuel s = some r) :
    selectNew (fuel + 1) s = some r := by
  induction fuel generalizing s with
  | zero => exact nomatch h
  | succ fuel ih =>
      rw [selectNew] at h ⊢
      split at h
      · exact h
      · next i newFlows hnew =>
        obtain ⟨f, hf, hrest⟩ := Option.bind_eq_some_iff.1 h
        rw [hf, Option.bind_eq_bind, Option.bind_some]
        split at hrest
        · next hd =>
          rw [if_pos hd]
          exact ih hrest
        · next hd =>
          rw [if_neg hd]
          exact hrest

theorem selectOld_succ {r : Option Nat × FqCoDelQueueDisc} (h : selectOld fuel s = some r) :
    selectOld (fuel + 1) s = some r := by
  induction fuel generalizing s with
  | zero => exact nomatch h
  | succ fuel ih =>
      rw [selectOld] at h ⊢
      split at h
      · exact h
      · next i oldFlows hold =>
        obtain ⟨f, hf, hrest⟩ := Option.bind_eq_some_iff.1 h
        rw [hf, Option.bind_eq_bind, Option.bind_some]
        split at hrest
        · next hd =>
          rw [if_pos hd]
          exact ih hrest
        · next hd =>
          rw [if_neg hd]
          exact hrest

theorem select_succ {r : Option Nat × FqCoDelQueueDisc} (h : select fuel s = some r) :
    select (fuel + 1) s = some r := by
  obtain ⟨⟨o, s₁⟩, hfirst, hrest⟩ := Option.bind_eq_some_iff.1 h
  rw [select, selectNew_succ hfirst, Option.bind_eq_bind, Option.bind_some]
  cases o with
  | some i => exact hrest
  | none => exact selectOld_succ hrest

theorem dequeueLoop_succ {events : List QueueEvent} {r : Dequeued}
    (h : dequeueLoop now fuel s events = some r) : dequeueLoop now (fuel + 1) s events = some r := by
  induction fuel generalizing s events with
  | zero => exact nomatch h
  | succ fuel ih =>
      obtain ⟨⟨o, s₁⟩, hselect, hrest⟩ := Option.bind_eq_some_iff.1 h
      rw [dequeueLoop, select_succ hselect, Option.bind_eq_bind, Option.bind_some]
      cases o with
      | none => exact hrest
      | some i =>
          obtain ⟨f, hf, hcall⟩ := Option.bind_eq_some_iff.1 hrest
          rcases hround : s₁.dequeueFrom now i f with ⟨item, out, s₂⟩
          rw [hround] at hcall
          simp only [hf, Option.bind_eq_bind, Option.bind_some, hround]
          cases item with
          | some item => exact hcall
          | none => exact ih hcall

end Ns3Raft.Traffic.FqCoDelQueueDisc
