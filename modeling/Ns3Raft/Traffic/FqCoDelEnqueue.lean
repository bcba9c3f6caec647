import Ns3Raft.Traffic.FqCoDelQueues

/-! # Enqueue in FqCoDel

What holds between two calls, and that `DoEnqueue` keeps it: the flow of the item is among those that
wait, and a disc that is too full drops packets of its fullest flow.
-/

namespace Ns3Raft.Traffic

variable {M n : Nat}

/-! ## The fat flow -/

theorem sizes_le {items : List QueueDiscItem} (h : ∀ item ∈ items, item.size ≤ M) : sizes items ≤ items.length * M := by
  induction items with
  | nil => exact Nat.zero_le _
  | cons item items ih =>
      have hitem := h item List.mem_cons_self
      have hrest := ih fun x hx => h x (List.mem_cons_of_mem item hx)
      rw [sizes_cons, List.length_cons, Nat.succ_mul]
      omega

theorem sizes_pos {items : List QueueDiscItem} {item : QueueDiscItem} (hmem : item ∈ items) (hpos : 0 < item.size) :
    0 < sizes items := by
  obtain ⟨before, after, rfl⟩ := List.append_of_mem hmem
  rw [sizes_append, sizes_cons]
  omega

theorem Holding.bytes_lt {qds : List CoDelQueueDisc} {c : QueueCounters} {qd : CoDelQueueDisc} {i : Nat}
    (h : Holding M n qds c) (hroom : n * M < 2 ^ 32) (hqd : qds[i]? = some qd) : sizes qd.queue.packets < 2 ^ 32 := by
  obtain ⟨before, after, hstored, -⟩ := stored_set hqd
  have hle := sizes_le fun item hitem => (h.sized item hitem).2
  have hlength : (stored qds).length * M ≤ n * M := Nat.mul_le_mul_right M h.room
  rw [hstored, sizes_append, sizes_append, ← hstored] at hle
  omega

theorem Holding.nBytes {qds : List CoDelQueueDisc} {c : QueueCounters} {qd : CoDelQueueDisc} {i : Nat}
    (h : Holding M n qds c) (hroom : n * M < 2 ^ 32) (hqd : qds[i]? = some qd) :
    qd.counters.nBytes = sizes qd.queue.packets := by
  have hvalid := h.flow hqd
  rw [hvalid.counters, hvalid.queue.counts.nBytes, Nat.mod_eq_of_lt (h.bytes_lt hroom hqd)]

namespace CoDelQueueDisc

variable {qd : CoDelQueueDisc} {now : Nat} {item : QueueDiscItem}

theorem Valid.new (maxSize : Nat) (interval target : Int) : (CoDelQueueDisc.new maxSize interval target).Valid :=
  ⟨⟨⟨rfl, rfl⟩, Nat.zero_lt_succ _⟩, rfl⟩

theorem Valid.enqueue (hqd : qd.Valid) (now : Nat) (item : QueueDiscItem) (hlt : qd.queue.packets.length + 1 < 2 ^ 32) :
    (∃ qd', qd.enqueue now item = (true, qd') ∧ qd'.Valid ∧
        qd'.queue.packets = qd.queue.packets ++ [{ item with timeStamp := now }]) ∨
      qd.enqueue now item = (false, qd) := by
  rw [CoDelQueueDisc.enqueue]
  split
  · exact .inr rfl
  · cases hq : qd.queue.enqueue { item with timeStamp := now } with
    | none => exact .inr rfl
    | some queue =>
        obtain ⟨hvalid, hpackets, -⟩ := hqd.queue.enqueue hlt hq
        refine .inl ⟨_, rfl, ⟨hvalid, ?_⟩, hpackets⟩
        rw [DropTailQueue.enqueue] at hq
        split at hq
        · cases hq
        · obtain rfl := Option.some.inj hq
          show qd.counters.packetEnqueued item = qd.queue.counters.packetEnqueued _
          rw [hqd.counters]
          rfl

theorem dequeueInternal_cons (hqd : qd.Valid) {packets : List QueueDiscItem}
    (hpackets : qd.queue.packets = item :: packets) :
    ∃ qd', qd.dequeueInternal = (some item, qd') ∧ qd'.queue.packets = packets := by
  have htakes := takes_dequeueInternal qd
  have hnone := @dequeueInternal_none qd hqd
  rcases hd : qd.dequeueInternal with ⟨o, qd'⟩
  rw [hd] at htakes hnone
  have heq := htakes.packets
  rw [hpackets] at heq
  cases o with
  | none =>
      rw [Option.toList_none, List.nil_append] at heq
      exact absurd (heq.trans (hnone rfl)) (List.cons_ne_nil _ _)
  | some x =>
      rw [Option.toList_some, List.singleton_append] at heq
      obtain ⟨rfl, rfl⟩ := List.cons.inj heq
      exact ⟨qd', rfl, rfl⟩

end CoDelQueueDisc

namespace FqCoDelQueueDisc

open Ns3Raft.Lib

variable {s s' : FqCoDelQueueDisc} {f f' : FqCoDelFlow} {i j fuel now : Nat} {taken : List QueueDiscItem}
  {log : List QueueEvent}

/-- The fat flow has the largest backlog of all. -/
theorem fatFlow_spec (k : Nat) (best : Nat × Nat) (fs : List FqCoDelFlow) :
    (fatFlow k best fs = best ∨
        ∃ j f, fs[j]? = some f ∧ fatFlow k best fs = (f.queueDisc.counters.nBytes, k + j)) ∧
      best.1 ≤ (fatFlow k best fs).1 ∧ ∀ f ∈ fs, f.queueDisc.counters.nBytes ≤ (fatFlow k best fs).1 := by
  induction fs generalizing k best with
  | nil => exact ⟨.inl rfl, Nat.le_refl _, nofun⟩
  | cons f fs ih =>
      obtain ⟨m, b⟩ := best
      rw [fatFlow]
      split
      · next hgt =>
        obtain ⟨hresult, hbest, hall⟩ := ih (k + 1) (f.queueDisc.counters.nBytes, k)
        refine ⟨.inr ?_, Nat.le_trans (Nat.le_of_lt hgt) hbest, List.forall_mem_cons.2 ⟨hbest, hall⟩⟩
        rcases hresult with heq | ⟨j, g, hg, heq⟩
        · exact ⟨0, f, rfl, heq⟩
        · exact ⟨j + 1, g, hg, heq.trans (by rw [Nat.add_right_comm, Nat.add_assoc])⟩
      · next hle =>
        obtain ⟨hresult, hbest, hall⟩ := ih (k + 1) (m, b)
        refine ⟨?_, hbest, List.forall_mem_cons.2 ⟨Nat.le_trans (Nat.not_lt.1 hle) hbest, hall⟩⟩
        rcases hresult with heq | ⟨j, g, hg, heq⟩
        · exact .inl heq
        · exact .inr ⟨j + 1, g, hg, heq.trans (by rw [Nat.add_right_comm, Nat.add_assoc])⟩

/-- Half of the backlog is reached before the queue is empty. -/
theorem dropRounds_spec (batch : Nat) {threshold fuel : Nat} (count len : Nat) {qd : CoDelQueueDisc}
    (dropped : List QueueDiscItem) (hqd : qd.Valid) (hne : qd.queue.packets ≠ [])
    (hfuel : qd.queue.packets.length < fuel)
    (hthreshold : threshold ≤ len + sizes qd.queue.packets) (hlt : len + sizes qd.queue.packets < 2 ^ 32) :
    ∃ qd' taken, dropRounds batch threshold fuel count len qd dropped = some (qd', dropped ++ taken) ∧
      qd.Takes taken qd' ∧ taken ≠ [] := by
  induction fuel generalizing count len qd dropped with
  | zero => exact absurd hfuel (Nat.not_lt_zero _)
  | succ fuel ih =>
      obtain ⟨item, packets, hpackets⟩ := List.exists_cons_of_ne_nil hne
      obtain ⟨qd', hd, hrest⟩ := CoDelQueueDisc.dequeueInternal_cons hqd hpackets
      have htakes := CoDelQueueDisc.takes_dequeueInternal qd
      rw [hd, Option.toList_some] at htakes
      rw [hpackets, List.length_cons] at hfuel
      rw [hpackets, sizes_cons] at hthreshold hlt
      have hlen : (len + item.size) % 2 ^ 32 = len + item.size := Nat.mod_eq_of_lt (by omega)
      simp only [dropRounds, hd, hlen]
      split
      · next hgo =>
        have hne' : qd'.queue.packets ≠ [] := by
          intro hnil
          rw [← hrest, hnil, sizes_nil] at hthreshold
          omega
        obtain ⟨qd'', taken, hrun, htakes', -⟩ := ih ((count + 1) % 2 ^ 32) (len + item.size) (dropped ++ [item])
          (htakes.valid hqd) hne' (by rw [hrest]; omega) (by rw [hrest]; omega) (by rw [hrest]; omega)
        refine ⟨qd'', item :: taken, ?_, htakes.trans htakes', List.cons_ne_nil _ _⟩
        rw [hrun, List.append_assoc, List.singleton_append]
      · exact ⟨qd', [item], rfl, htakes, List.cons_ne_nil _ _⟩

/-- A disc that holds packets has a fat flow, and drops at least one of its packets. -/
theorem fqCoDelDrop_spec (hs : Holding M n s.queues s.counters) (hroom : n * M < 2 ^ 32) (hne : stored s.queues ≠ []) :
    ∃ index f dropped qd', s.fqCoDelDrop = some (index, dropped.map (.dropped index),
        (s.countDequeued dropped).setFlow index { f with queueDisc := qd' }) ∧
      s.classes[index]? = some f ∧ f.queueDisc.Takes dropped qd' ∧ dropped ≠ [] := by
  obtain ⟨item, hitem⟩ := List.exists_mem_of_ne_nil _ hne
  obtain ⟨qd, hqd, hmem⟩ := List.mem_flatMap.1 hitem
  obtain ⟨g, hg, rfl⟩ := List.mem_map.1 hqd
  obtain ⟨k, hk⟩ := List.mem_iff_getElem?.1 hg
  have hpos : 0 < g.queueDisc.counters.nBytes := by
    rw [hs.nBytes hroom (queue_of_flow hk)]
    exact sizes_pos hmem (hs.sized item hitem).1
  obtain ⟨hresult, -, hall⟩ := fatFlow_spec 0 (0, 0) s.classes
  have hlarge := hall g hg
  rcases hresult with heq | ⟨index, f, hf, heq⟩
  · rw [heq] at hlarge
    exact absurd hlarge (Nat.not_le.2 hpos)
  · rw [Nat.zero_add] at heq
    have hqueue := queue_of_flow hf
    have hbytes := hs.nBytes hroom hqueue
    have hne' : f.queueDisc.queue.packets ≠ [] := by
      intro hnil
      rw [heq, hbytes, hnil] at hlarge
      exact absurd hlarge (Nat.not_le.2 hpos)
    have hhalf : f.queueDisc.counters.nBytes >>> 1 ≤ 0 + sizes f.queueDisc.queue.packets := by
      rw [hbytes, Nat.shiftRight_eq_div_pow]
      omega
    have hlt : 0 + sizes f.queueDisc.queue.packets < 2 ^ 32 := by
      rw [Nat.zero_add]
      exact hs.bytes_lt hroom hqueue
    obtain ⟨qd', taken, hrun, htakes, htaken⟩ :=
      dropRounds_spec s.dropBatchSize 0 0 [] (hs.flow hqueue) hne' (Nat.lt_succ_self _) hhalf hlt
    refine ⟨index, f, taken, qd', ?_, hf, htakes, htaken⟩
    simp only [fqCoDelDrop, heq, hf, hrun, Option.bind_eq_bind, Option.bind_some, List.nil_append]

/-! ## What holds between calls -/

/-- The flows are numbered in the order of their creation, one for each hash. -/
structure Indexed (s : FqCoDelQueueDisc) : Prop where
  flows : s.flowsIndices.map Prod.snd = List.range s.classes.length
  hashes : (s.flowsIndices.map Prod.fst).Nodup

structure Sound (M : Nat) (s : FqCoDelQueueDisc) : Prop where
  limits : Limits s.quantum s.maxSize M
  flows_pos : 0 < s.flows
  lists : Lists s
  ranged : RoundRobin.Ranged s.quantum M s.roundRobin
  holding : Holding M s.maxSize s.queues s.counters
  indexed : Indexed s

/-- A call changes the classes, the lists and the counters. -/
def SameDisc (s s' : FqCoDelQueueDisc) : Prop :=
  s' = { s with classes := s'.classes, newFlows := s'.newFlows, oldFlows := s'.oldFlows, counters := s'.counters }

theorem SameDisc.quantum (h : SameDisc s s') : s'.quantum = s.quantum := by rw [h]

theorem SameDisc.maxSize (h : SameDisc s s') : s'.maxSize = s.maxSize := by rw [h]

theorem SameDisc.flows (h : SameDisc s s') : s'.flows = s.flows := by rw [h]

theorem SameDisc.flowsIndices (h : SameDisc s s') : s'.flowsIndices = s.flowsIndices := by rw [h]

theorem SameDisc.trans {s'' : FqCoDelQueueDisc} (h : SameDisc s s') (h' : SameDisc s' s'') : SameDisc s s'' := by
  rw [SameDisc, h', h]

theorem Reordered.same (h : Reordered s s') : SameDisc s s' := by
  rw [SameDisc, h.rest]

theorem Sound.next (hs : Sound M s) (hsame : SameDisc s s') (hlength : s'.classes.length = s.classes.length)
    (hlists : Lists s') (hranged : RoundRobin.Ranged s.quantum M s'.roundRobin)
    (hholding : Holding M s.maxSize s'.queues s'.counters) : Sound M s' := by
  refine ⟨?_, hsame.flows ▸ hs.flows_pos, hlists, hsame.quantum ▸ hranged, hsame.maxSize ▸ hholding, ?_, ?_⟩
  · rw [hsame.quantum, hsame.maxSize]
    exact hs.limits
  · rw [hsame.flowsIndices, hlength]
    exact hs.indexed.flows
  · rw [hsame.flowsIndices]
    exact hs.indexed.hashes

/-! ## The flow of an item -/

theorem Sound.maxSize_lt (hs : Sound M s) : s.maxSize + 1 < 2 ^ 32 :=
  Nat.lt_of_le_of_lt (Nat.le_mul_of_pos_right _ hs.limits.bytes_pos) hs.limits.room

theorem lookup_mem {h : Nat} {l : List (Nat × Nat)} (hlookup : l.lookup h = some i) : (h, i) ∈ l := by
  induction l with
  | nil => exact nomatch hlookup
  | cons x l ih =>
      rw [List.lookup_cons] at hlookup
      split at hlookup
      · next heq =>
        obtain rfl := Option.some.inj hlookup
        rw [show h = x.1 from eq_of_beq heq]
        exact List.mem_cons_self
      · exact List.mem_cons_of_mem x (ih hlookup)

theorem not_mem_of_lookup {h : Nat} {l : List (Nat × Nat)} (hlookup : l.lookup h = none) : h ∉ l.map Prod.fst := by
  induction l with
  | nil => exact List.not_mem_nil
  | cons x l ih =>
      rw [List.lookup_cons] at hlookup
      split at hlookup
      · exact nomatch hlookup
      · next hne =>
        rw [List.map_cons, List.mem_cons, not_or]
        exact ⟨ne_of_beq_false hne, ih hlookup⟩

theorem Indexed.lt {h : Nat} (hs : Indexed s) (hmem : (h, i) ∈ s.flowsIndices) : i < s.classes.length := by
  have hrange : i ∈ s.flowsIndices.map Prod.snd := List.mem_map_of_mem (f := Prod.snd) hmem
  rw [hs.flows] at hrange
  exact List.mem_range.1 hrange

/-- One flow more, which has nothing to do yet. -/
def create (s : FqCoDelQueueDisc) (h : Nat) : FqCoDelQueueDisc :=
  { s with
    classes := s.classes ++ [.new (.new s.maxSize s.interval s.target)]
    flowsIndices := s.flowsIndices ++ [(h, s.classes.length)] }

theorem getElem?_create {h : Nat} {g : FqCoDelFlow} (hg : (s.create h).classes[j]? = some g) :
    s.classes[j]? = some g ∨ j = s.classes.length ∧ g = .new (.new s.maxSize s.interval s.target) := by
  have hlt : j < (s.create h).classes.length := lt_of_flow hg
  rw [create, List.length_append, List.length_singleton] at hlt
  rcases Nat.lt_or_eq_of_le (Nat.le_of_lt_succ hlt) with hlt' | rfl
  · rw [create, List.getElem?_append_left hlt'] at hg
    exact .inl hg
  · rw [create, List.getElem?_concat_length] at hg
    exact .inr ⟨rfl, (Option.some.inj hg).symm⟩

theorem deficit_create (s : FqCoDelQueueDisc) (h : Nat) : (s.create h).deficit = s.deficit := by
  funext j
  rw [deficit, deficit]
  rcases Nat.lt_trichotomy j s.classes.length with hlt | heq | hgt
  · rw [create, List.getElem?_append_left hlt]
  · rw [create, heq, List.getElem?_concat_length, List.getElem?_eq_none (Nat.le_refl _)]
    rfl
  · have hlast : (s.create h).classes.length ≤ j := by
      rw [create, List.length_append, List.length_singleton]
      exact hgt
    rw [List.getElem?_eq_none hlast, List.getElem?_eq_none (Nat.le_of_lt hgt)]

theorem Lists.create (hs : Lists s) (h : Nat) : Lists (s.create h) := by
  refine ⟨hs.nodup, fun j hj => ?_, fun j g hg => ?_, fun j g hg => ?_, fun g hg hstatus => ?_⟩
  · rw [FqCoDelQueueDisc.create, List.length_append]
    exact Nat.lt_of_lt_of_le (hs.inside j hj) (Nat.le_add_right _ _)
  · rcases getElem?_create hg with hold | ⟨rfl, rfl⟩
    · exact hs.new_iff j g hold
    · exact iff_of_false nofun fun hmem => Nat.lt_irrefl _ (hs.inside _ (List.mem_append_left _ hmem))
  · rcases getElem?_create hg with hold | ⟨rfl, rfl⟩
    · exact hs.old_iff j g hold
    · exact iff_of_false nofun fun hmem => Nat.lt_irrefl _ (hs.inside _ (List.mem_append_right _ hmem))
  · rcases List.mem_append.1 hg with hmem | hmem
    · exact hs.idle g hmem hstatus
    · rw [List.mem_singleton.1 hmem]
      rfl

theorem queues_create (s : FqCoDelQueueDisc) (h : Nat) :
    (s.create h).queues = s.queues ++ [.new s.maxSize s.interval s.target] := List.map_append

theorem Sound.create {h : Nat} (hs : Sound M s) (hnot : h ∉ s.flowsIndices.map Prod.fst) : Sound M (s.create h) := by
  have hrobin : (s.create h).roundRobin = s.roundRobin := congrArg (RoundRobin.mk _ _) (deficit_create s h)
  refine ⟨hs.limits, hs.flows_pos, hs.lists.create h, hrobin ▸ hs.ranged, ?_, ?_, ?_⟩
  · rw [queues_create]
    exact hs.holding.created (.new _ _ _) rfl
  · rw [FqCoDelQueueDisc.create, List.map_append, hs.indexed.flows, List.length_append, List.length_singleton,
      List.range_succ]
    rfl
  · rw [FqCoDelQueueDisc.create, List.map_append, List.nodup_append]
    refine ⟨hs.indexed.hashes, List.nodup_singleton _, fun x hx y hy heq => hnot ?_⟩
    have hy : y = h := List.mem_singleton.1 hy
    rw [← hy, ← heq]
    exact hx

theorem flowOf_cases (s : FqCoDelQueueDisc) (h : Nat) :
    (∃ i, (h, i) ∈ s.flowsIndices ∧ s.flowOf h = (i, s)) ∨
      h ∉ s.flowsIndices.map Prod.fst ∧ s.flowOf h = (s.classes.length, s.create h) := by
  rw [flowOf]
  cases hlookup : s.flowsIndices.lookup h with
  | some i => exact .inl ⟨i, lookup_mem hlookup, rfl⟩
  | none => exact .inr ⟨not_mem_of_lookup hlookup, rfl⟩

/-- What becomes of the disc when the flow of an item is looked up. -/
structure Looked (M : Nat) (s : FqCoDelQueueDisc) (h i : Nat) (s' : FqCoDelQueueDisc) : Prop where
  sound : Sound M s'
  quantum : s'.quantum = s.quantum
  maxSize : s'.maxSize = s.maxSize
  flow : (h, i) ∈ s'.flowsIndices
  grows : s.flowsIndices <+: s'.flowsIndices
  robin : s'.roundRobin = s.roundRobin
  order : InOrder s.queues [] s'.queues

theorem Sound.flowOf (hs : Sound M s) (h : Nat) : Looked M s h (s.flowOf h).1 (s.flowOf h).2 := by
  rcases flowOf_cases s h with ⟨i, hmem, heq⟩ | ⟨hnot, heq⟩
  · rw [heq]
    exact ⟨hs, rfl, rfl, hmem, List.prefix_refl _, rfl, .refl _⟩
  · rw [heq]
    refine ⟨hs.create hnot, rfl, rfl, ?_, List.prefix_append _ _, congrArg (RoundRobin.mk _ _) (deficit_create s h), ?_⟩
    · exact List.mem_append_right _ (List.mem_singleton.2 rfl)
    · rw [queues_create]
      exact .created rfl

/-! ## Enqueue -/

/-- An item is put into the queue of a flow that then waits, or it is refused. -/
structure Put (M n : Nat) (s : FqCoDelQueueDisc) (log : List QueueEvent) (s' : FqCoDelQueueDisc) : Prop where
  same : SameDisc s s'
  length : s'.classes.length = s.classes.length
  lists : Lists s'
  holding : Holding M n s'.queues s'.counters
  step : s'.roundRobin = s.roundRobin ∨ RoundRobin.Internal (rules s.quantum) s.roundRobin s'.roundRobin
  order : InOrder s.queues log s'.queues

/-- Where a flow waits after it has been activated. -/
structure Activated (s : FqCoDelQueueDisc) (i : Nat) (f : FqCoDelFlow) (newFlows : List Nat) (f' : FqCoDelFlow) :
    Prop where
  eq : s.activate i f = ({ s with newFlows }, f')
  queueDisc : f'.queueDisc = f.queueDisc
  active : f'.status ≠ .inactive
  nodup : (newFlows ++ s.oldFlows).Nodup
  others : ∀ j, j ≠ i → (j ∈ newFlows ↔ j ∈ s.newFlows)
  new_iff : f'.status = .newFlow ↔ i ∈ newFlows
  old_iff : f'.status = .oldFlow ↔ i ∈ s.oldFlows
  step : (⟨newFlows, s.oldFlows, Function.update s.deficit i f'.deficit⟩ : RoundRobin Nat) = s.roundRobin ∨
    RoundRobin.Internal (rules s.quantum) s.roundRobin ⟨newFlows, s.oldFlows, Function.update s.deficit i f'.deficit⟩

theorem Lists.activate (hs : Lists s) (hf : s.classes[i]? = some f) : ∃ newFlows f', Activated s i f newFlows f' := by
  have hnew := hs.new_iff i f hf
  have hold := hs.old_iff i f hf
  by_cases hstatus : f.status = .inactive
  · have hnot : i ∉ s.newFlows ++ s.oldFlows := by
      rw [List.mem_append, not_or, ← hnew, ← hold, hstatus]
      exact ⟨nofun, nofun⟩
    have hjoin : RoundRobin.Internal (rules s.quantum) s.roundRobin
        ⟨s.newFlows ++ [i], s.oldFlows, Function.update s.deficit i (rules s.quantum).initial⟩ := .join i hnot
    refine ⟨s.newFlows ++ [i], { f with status := .newFlow, deficit := int32 s.quantum }, ?_, rfl, nofun, ?_,
      fun j hij => ?_, ?_, ?_, .inr hjoin⟩
    · rw [FqCoDelQueueDisc.activate, if_pos hstatus]
      rfl
    · rw [List.append_assoc]
      exact List.perm_middle.nodup_iff.2 (List.nodup_cons.2 ⟨hnot, hs.nodup⟩)
    · rw [List.mem_append, List.mem_singleton, or_iff_left hij]
    · exact iff_of_true rfl (List.mem_append_right _ (List.mem_singleton.2 rfl))
    · exact iff_of_false nofun fun hmem => hnot (List.mem_append_right _ hmem)
  · refine ⟨s.newFlows, f, ?_, rfl, hstatus, hs.nodup, fun _ _ => Iff.rfl, hnew, hold, .inl ?_⟩
    · rw [FqCoDelQueueDisc.activate, if_neg hstatus]
    · rw [← deficit_eq hf, Function.update_eq_self]
      rfl

/-- The flow changes, with its queue. -/
theorem Activated.put {newFlows : List Nat} {qd : CoDelQueueDisc} {c : QueueCounters} {event : QueueEvent}
    (h : Activated s i f newFlows f') (hs : Sound M s) (hf : s.classes[i]? = some f)
    (hholding : Holding M (s.maxSize + 1) (s.queues.set i qd) c)
    (horder : InOrder s.queues [event] (s.queues.set i qd)) :
    Put M (s.maxSize + 1) s [event] { s.setFlow i { f' with queueDisc := qd } with newFlows, counters := c } := by
  have hlists := hs.lists.set hf { f' with queueDisc := qd } h.nodup h.others (fun _ _ => Iff.rfl) h.new_iff h.old_iff
    fun hinactive => absurd hinactive h.active
  have hqueues : ({ s.setFlow i { f' with queueDisc := qd } with newFlows, counters := c } : FqCoDelQueueDisc).queues =
      s.queues.set i qd := queues_setFlow s i _
  have hrobin : ({ s.setFlow i { f' with queueDisc := qd } with
      newFlows, counters := c } : FqCoDelQueueDisc).roundRobin =
        ⟨newFlows, s.oldFlows, Function.update s.deficit i f'.deficit⟩ :=
    congrArg (RoundRobin.mk newFlows s.oldFlows) (deficit_set hf { f' with queueDisc := qd })
  refine ⟨rfl, List.length_set, ⟨hlists.nodup, hlists.inside, hlists.new_iff, hlists.old_iff, hlists.idle⟩, ?_, ?_, ?_⟩
  · rw [hqueues]
    exact hholding
  · rw [hrobin]
    exact h.step
  · rw [hqueues]
    exact horder

theorem Sound.enqueueIn {newFlows : List Nat} {item : QueueDiscItem} (hs : Sound M s) (hf : s.classes[i]? = some f)
    (h : Activated s i f newFlows f') (now hash : Nat) (hsize : 0 < item.size ∧ item.size ≤ M) :
    ∃ event s', enqueueIn { s with newFlows } now hash i f' item = (event, s') ∧ Put M (s.maxSize + 1) s [event] s' ∧
      (event = .accepted hash i { item with timeStamp := now } ∨ event = .refused i item) := by
  have hqueue := queue_of_flow hf
  have hlt := hs.maxSize_lt
  have hshort : f.queueDisc.queue.packets.length + 1 < 2 ^ 32 := by
    obtain ⟨before, after, hstored, -⟩ := stored_set hqueue
    have hroom := hs.holding.room
    rw [hstored, List.length_append, List.length_append] at hroom
    omega
  rcases (hs.holding.flow hqueue).enqueue now item hshort with ⟨qd, henqueue, hvalid, hpackets⟩ | henqueue
  · refine ⟨_, _, ?_, h.put hs hf (hs.holding.put hqueue hvalid hpackets rfl hsize)
      (.accepted hqueue hpackets), .inl rfl⟩
    rw [FqCoDelQueueDisc.enqueueIn, h.queueDisc, henqueue]
    rfl
  · have hself : s.queues.set i f.queueDisc = s.queues := by
      obtain ⟨hlt', heq⟩ := List.getElem?_eq_some_iff.1 hqueue
      rw [← heq, List.set_getElem_self]
    refine ⟨_, { s.setFlow i { f' with queueDisc := f.queueDisc } with newFlows }, ?_, h.put hs hf ?_ ?_, .inr rfl⟩
    · rw [FqCoDelQueueDisc.enqueueIn, h.queueDisc, henqueue]
      rfl
    · rw [hself]
      exact hs.holding.mono (Nat.le_succ_of_le hs.holding.room)
    · rw [hself]
      exact fun k => List.append_nil _

theorem Put.sound (h : Put M s.maxSize s log s') (hs : Sound M s) : Sound M s' := by
  refine hs.next h.same h.length h.lists ?_ h.holding
  rcases h.step with heq | hstep
  · rw [heq]
    exact hs.ranged
  · exact hs.ranged.internal (Int.natCast_nonneg M) hs.limits.exact hstep

/-- The fullest flow makes room. -/
theorem Put.drop (h : Put M (s.maxSize + 1) s log s') (hs : Sound M s) (hfull : s.maxSize < (stored s'.queues).length) :
    ∃ (index : Nat) (items : List QueueDiscItem) (s'' : FqCoDelQueueDisc),
      s'.fqCoDelDrop = some (index, items.map (.dropped index), s'') ∧
      Put M s.maxSize s (log ++ items.map (.dropped index)) s'' := by
  have hne : stored s'.queues ≠ [] := List.ne_nil_of_length_pos (Nat.zero_lt_of_lt hfull)
  obtain ⟨index, g, items, qd, hdrop, hg, htakes, hitems⟩ := fqCoDelDrop_spec h.holding hs.limits.room hne
  have hqueue := queue_of_flow hg
  have hpos := List.length_pos_iff.2 hitems
  have hqueues : ((s'.countDequeued items).setFlow index { g with queueDisc := qd }).queues = s'.queues.set index qd :=
    queues_setFlow s' index _
  have hrobin : ((s'.countDequeued items).setFlow index { g with queueDisc := qd }).roundRobin = s'.roundRobin := by
    refine congrArg (RoundRobin.mk s'.newFlows s'.oldFlows) ((deficit_set hg _).trans ?_)
    rw [← deficit_eq hg, Function.update_eq_self]
  have hidle : g.status = .inactive → qd.queue.packets = [] := by
    intro hstatus
    have hempty := h.lists.idle g (List.mem_of_getElem? hg) hstatus
    rw [htakes.packets] at hempty
    exact (List.append_eq_nil_iff.1 hempty).2
  have hlists := h.lists.set hg { g with queueDisc := qd } h.lists.nodup (fun _ _ => Iff.rfl) (fun _ _ => Iff.rfl)
    (h.lists.new_iff index g hg) (h.lists.old_iff index g hg) hidle
  have hholding := h.holding.take hqueue htakes
  refine ⟨index, items, _, hdrop, h.same.trans rfl, List.length_set.trans h.length,
    ⟨hlists.nodup, hlists.inside, hlists.new_iff, hlists.old_iff, hlists.idle⟩, ?_, ?_, ?_⟩
  · rw [hqueues]
    exact hholding.mono (Nat.le_trans hholding.room (by omega))
  · rw [hrobin]
    exact h.step
  · rw [hqueues]
    exact h.order.trans (.dropped hqueue htakes.packets)

/-- What `DoEnqueue` does. -/
structure Entered (M : Nat) (s : FqCoDelQueueDisc) (log : List QueueEvent) (s' : FqCoDelQueueDisc) : Prop where
  sound : Sound M s'
  quantum : s'.quantum = s.quantum
  maxSize : s'.maxSize = s.maxSize
  order : InOrder s.queues log s'.queues
  silent : transmissions log = []
  step : s'.roundRobin = s.roundRobin ∨ RoundRobin.Internal (rules s.quantum) s.roundRobin s'.roundRobin
  grows : s.flowsIndices <+: s'.flowsIndices
  classified : ∀ h i item, .accepted h i item ∈ log → (h, i) ∈ s'.flowsIndices

theorem Looked.entered {h : Nat} {s₁ : FqCoDelQueueDisc} {event : QueueEvent} {item item' : QueueDiscItem}
    {index : Nat} {items : List QueueDiscItem} (hlooked : Looked M s h i s₁)
    (hput : Put M s₁.maxSize s₁ (event :: items.map (.dropped index)) s')
    (hevent : event = .accepted h i item ∨ event = .refused i item') :
    Entered M s (event :: items.map (.dropped index)) s' := by
  have hquantum := hput.same.quantum
  have hindices := hput.same.flowsIndices
  refine ⟨hput.sound hlooked.sound, hquantum.trans hlooked.quantum, hput.same.maxSize.trans hlooked.maxSize,
    hlooked.order.trans hput.order, ?_, ?_, hindices ▸ hlooked.grows, fun k j x hmem => ?_⟩
  · have hrest := transmissions_dropped index items
    rcases hevent with rfl | rfl
    · exact hrest
    · exact hrest
  · rw [← hlooked.robin, ← hlooked.quantum]
    exact hput.step
  · rw [hindices]
    rcases List.mem_cons.1 hmem with heq | hmem
    · rcases hevent with rfl | rfl
      · obtain ⟨rfl, rfl, -⟩ := QueueEvent.accepted.inj heq
        exact hlooked.flow
      · exact nomatch heq
    · exact absurd hmem (not_accepted_dropped index items k j x)

/-- Every item of a proper size can be handed to a sound disc. -/
theorem Sound.doEnqueue (hs : Sound M s) (now : Nat) (ret : Option Nat) {item : QueueDiscItem}
    (hsize : 0 < item.size ∧ item.size ≤ M) :
    ∃ answer log s', s.doEnqueue now ret item = some (answer, log, s') ∧ Entered M s log s' := by
  cases ret with
  | none =>
      refine ⟨_, _, _, rfl, hs, rfl, rfl, fun _ => List.append_nil _, rfl, .inl rfl, List.prefix_refl _, ?_⟩
      intro h i x hmem
      exact nomatch List.mem_singleton.1 hmem
  | some ret =>
      have hlooked := hs.flowOf (ret % s.flows)
      rw [FqCoDelQueueDisc.doEnqueue]
      dsimp only
      rw [if_neg (Nat.ne_of_gt hs.flows_pos)]
      rcases hflow : s.flowOf (ret % s.flows) with ⟨i, s₁⟩
      rw [hflow] at hlooked
      have hlt := hlooked.sound.indexed.lt hlooked.flow
      have hf := List.getElem?_eq_getElem hlt
      obtain ⟨newFlows, f, hact⟩ := hlooked.sound.lists.activate hf
      obtain ⟨event, s₂, henqueue, hput, hevent⟩ := hlooked.sound.enqueueIn hf hact now (ret % s.flows) hsize
      simp only [hf, Option.bind_eq_bind, Option.bind_some, hact.eq, henqueue]
      have hmax := hlooked.sound.maxSize_lt
      have hroom := hput.holding.room
      have hcount : s₂.counters.nPackets = (stored s₂.queues).length :=
        hput.holding.counts.nPackets.trans (Nat.mod_eq_of_lt (by omega))
      by_cases hfull : s₂.counters.nPackets > s₂.maxSize
      · rw [hcount, hput.same.maxSize] at hfull
        obtain ⟨index, items, s₃, hdrop, hput'⟩ := hput.drop hlooked.sound hfull
        rw [if_pos (by rw [hcount, hput.same.maxSize]; exact hfull), hdrop]
        exact ⟨_, _, _, rfl, hlooked.entered hput' hevent⟩
      · rw [if_neg hfull]
        rw [hcount, hput.same.maxSize] at hfull
        have hput' : Put M s₁.maxSize s₁ (event :: [].map (.dropped 0)) s₂ :=
          ⟨hput.same, hput.length, hput.lists, hput.holding.mono (Nat.le_of_not_lt hfull), hput.step, hput.order⟩
        exact ⟨_, _, _, rfl, hlooked.entered hput' hevent⟩

end FqCoDelQueueDisc

end Ns3Raft.Traffic
