import Ns3Raft.Traffic.FqCoDelLists

/-! # The queues of FqCoDel

What the flows' queue discs hold all together, the order in which items enter and leave the queue of
a flow, and what is dropped from the fullest one.
-/

namespace Ns3Raft.Traffic

/-! ## Events -/

namespace QueueEvent

def enters (i : Nat) : QueueEvent → Option QueueDiscItem
  | accepted _ j item => if j = i then some item else none
  | _ => none

def leaves (i : Nat) : QueueEvent → Option QueueDiscItem
  | dropped j item => if j = i then some item else none
  | sent j item => if j = i then some item else none
  | _ => none

/-- The flow and the number of bytes. -/
def transmission : QueueEvent → Option (Nat × Nat)
  | sent i item => some (i, item.size)
  | _ => none

end QueueEvent

/-- The items that are put into the queue of a flow, in order. -/
def arrivals (i : Nat) (log : List QueueEvent) : List QueueDiscItem := log.filterMap (·.enters i)

/-- The items that leave it, in order. -/
def departures (i : Nat) (log : List QueueEvent) : List QueueDiscItem := log.filterMap (·.leaves i)

def transmissions (log : List QueueEvent) : List (Nat × Nat) := log.filterMap QueueEvent.transmission

/-! ## All queues -/

variable {qds qds' qds'' : List CoDelQueueDisc} {qd qd' : CoDelQueueDisc} {c : QueueCounters} {i j M n : Nat}
  {taken items : List QueueDiscItem} {item : QueueDiscItem} {log log' : List QueueEvent}

def stored (qds : List CoDelQueueDisc) : List QueueDiscItem := qds.flatMap (·.queue.packets)

def queued (qds : List CoDelQueueDisc) (i : Nat) : List QueueDiscItem := (qds[i]?.map (·.queue.packets)).getD []

/-- At most `n` packets of at most `M` bytes, which the counters tell. -/
structure Holding (M n : Nat) (qds : List CoDelQueueDisc) (c : QueueCounters) : Prop where
  valid : ∀ qd ∈ qds, qd.Valid
  sized : ∀ item ∈ stored qds, 0 < item.size ∧ item.size ≤ M
  counts : c.Counts (stored qds).length (sizes (stored qds))
  room : (stored qds).length ≤ n

/-- The items that enter the queue of a flow leave it in the same order, and those that do not are queued. -/
def InOrder (qds : List CoDelQueueDisc) (log : List QueueEvent) (qds' : List CoDelQueueDisc) : Prop :=
  ∀ i, queued qds i ++ arrivals i log = departures i log ++ queued qds' i

theorem InOrder.refl (qds : List CoDelQueueDisc) : InOrder qds [] qds := fun _ => List.append_nil _

theorem InOrder.trans (h : InOrder qds log qds') (h' : InOrder qds' log' qds'') : InOrder qds (log ++ log') qds'' := by
  intro i
  calc queued qds i ++ arrivals i (log ++ log')
      = (queued qds i ++ arrivals i log) ++ arrivals i log' := by
        rw [arrivals, List.filterMap_append, ← List.append_assoc]
        rfl
    _ = departures i log ++ (queued qds' i ++ arrivals i log') := by rw [h i, List.append_assoc]
    _ = departures i (log ++ log') ++ queued qds'' i := by
        rw [h' i, ← List.append_assoc, departures, departures, departures, List.filterMap_append]

theorem queued_set (hqd : qds[i]? = some qd) (qd' : CoDelQueueDisc) (j : Nat) :
    queued (qds.set i qd') j = if i = j then qd'.queue.packets else queued qds j := by
  obtain ⟨hlt, -⟩ := List.getElem?_eq_some_iff.1 hqd
  by_cases hij : i = j
  · rw [if_pos hij, ← hij, queued, List.getElem?_set_self hlt]
    rfl
  · rw [if_neg hij, queued, List.getElem?_set_ne hij]
    rfl

theorem queued_eq (hqd : qds[i]? = some qd) : queued qds i = qd.queue.packets := by
  rw [queued, hqd]
  rfl

theorem stored_set (hqd : qds[i]? = some qd) : ∃ before after, stored qds = before ++ qd.queue.packets ++ after ∧
    ∀ qd', stored (qds.set i qd') = before ++ qd'.queue.packets ++ after := by
  obtain ⟨hlt, heq⟩ := List.getElem?_eq_some_iff.1 hqd
  have hset : ∀ qd', stored (qds.set i qd') =
      stored (qds.take i) ++ qd'.queue.packets ++ stored (qds.drop (i + 1)) := by
    intro qd'
    rw [List.set_eq_take_append_cons_drop, if_pos hlt, stored, List.flatMap_append, List.flatMap_cons,
      ← List.append_assoc]
    rfl
  refine ⟨stored (qds.take i), stored (qds.drop (i + 1)), ?_, hset⟩
  rw [← hset qd, ← heq, List.set_getElem_self]

theorem mem_stored_of_mem (hqd : qds[i]? = some qd) (hitem : item ∈ qd.queue.packets) : item ∈ stored qds :=
  List.mem_flatMap.2 ⟨qd, List.mem_of_getElem? hqd, hitem⟩

theorem Holding.flow (h : Holding M n qds c) (hqd : qds[i]? = some qd) : qd.Valid :=
  h.valid qd (List.mem_of_getElem? hqd)

theorem Holding.mono {n' : Nat} (h : Holding M n qds c) (hroom : (stored qds).length ≤ n') : Holding M n' qds c :=
  ⟨h.valid, h.sized, h.counts, hroom⟩

/-! ## Taking items from a queue -/

theorem Counts.foldl_dequeued {packets bytes : Nat} (h : c.Counts (taken.length + packets) (sizes taken + bytes)) :
    (taken.foldl QueueCounters.packetDequeued c).Counts packets bytes := by
  induction taken generalizing c with
  | nil =>
      rw [List.length_nil, Nat.zero_add, sizes_nil, Nat.zero_add] at h
      exact h
  | cons item taken ih =>
      rw [List.length_cons, Nat.add_right_comm, sizes_cons, Nat.add_assoc item.size] at h
      have hrest : (c.packetDequeued item).Counts (taken.length + packets) (sizes taken + bytes) := h.dequeued
      rw [List.foldl_cons]
      exact ih hrest

theorem Holding.take (h : Holding M n qds c) (hqd : qds[i]? = some qd) (htakes : qd.Takes taken qd') :
    Holding M (n - taken.length) (qds.set i qd') (taken.foldl QueueCounters.packetDequeued c) := by
  obtain ⟨before, after, hstored, hset⟩ := stored_set hqd
  have hsub : ∀ item ∈ stored (qds.set i qd'), item ∈ stored qds := by
    intro item hitem
    rw [hset, List.mem_append, List.mem_append] at hitem
    rw [hstored, htakes.packets, List.mem_append, List.mem_append, List.mem_append]
    exact hitem.imp_left fun h => h.imp_right Or.inr
  have hlength : (stored qds).length = taken.length + (stored (qds.set i qd')).length := by
    rw [hstored, hset, htakes.packets]
    simp only [List.length_append]
    omega
  have hbytes : sizes (stored qds) = sizes taken + sizes (stored (qds.set i qd')) := by
    rw [hstored, hset, htakes.packets]
    simp only [sizes_append]
    omega
  have hcounts := h.counts
  have hroom := h.room
  refine ⟨fun q hq => ?_, fun item hitem => h.sized item (hsub item hitem), ?_, by omega⟩
  · rcases List.mem_or_eq_of_mem_set hq with hmem | rfl
    · exact h.valid q hmem
    · exact htakes.valid (h.flow hqd)
  · rw [hlength, hbytes] at hcounts
    exact Counts.foldl_dequeued hcounts

theorem arrivals_dropped (i j : Nat) (items : List QueueDiscItem) : arrivals i (items.map (.dropped j)) = [] := by
  induction items with
  | nil => rfl
  | cons item items ih => exact ih

theorem departures_dropped (i j : Nat) (items : List QueueDiscItem) :
    departures i (items.map (.dropped j)) = if j = i then items else [] := by
  induction items with
  | nil => exact (ite_self _).symm
  | cons item items ih =>
      by_cases hij : j = i
      · rw [if_pos hij] at ih ⊢
        have hhead : (QueueEvent.dropped j item).leaves i = some item := if_pos hij
        rw [departures, List.map_cons, List.filterMap_cons_some hhead]
        exact congrArg (item :: ·) ih
      · rw [if_neg hij] at ih ⊢
        have hhead : (QueueEvent.dropped j item).leaves i = none := if_neg hij
        rw [departures, List.map_cons, List.filterMap_cons_none hhead]
        exact ih

theorem transmissions_dropped (i : Nat) (items : List QueueDiscItem) : transmissions (items.map (.dropped i)) = [] := by
  induction items with
  | nil => rfl
  | cons item items ih => exact ih

theorem not_accepted_dropped (i : Nat) (items : List QueueDiscItem) (h j : Nat) (x : QueueDiscItem) :
    .accepted h j x ∉ items.map (QueueEvent.dropped i) := by
  intro hmem
  obtain ⟨y, -, hy⟩ := List.mem_map.1 hmem
  exact nomatch hy

theorem InOrder.dropped (hqd : qds[i]? = some qd) (hpackets : qd.queue.packets = items ++ qd'.queue.packets) :
    InOrder qds (items.map (.dropped i)) (qds.set i qd') := by
  intro j
  rw [arrivals_dropped, departures_dropped, queued_set hqd, List.append_nil]
  by_cases hij : i = j
  · rw [if_pos hij, if_pos hij, ← hij, queued_eq hqd, hpackets]
  · rw [if_neg hij, if_neg hij, List.nil_append]

theorem InOrder.sent (hqd : qds[i]? = some qd) (hpackets : qd.queue.packets = item :: qd'.queue.packets) :
    InOrder qds [.sent i item] (qds.set i qd') := by
  intro j
  rw [show arrivals j [.sent i item] = [] from rfl, queued_set hqd, List.append_nil]
  by_cases hij : i = j
  · have hleaves : (QueueEvent.sent i item).leaves j = some item := if_pos hij
    rw [departures, List.filterMap_cons_some hleaves, if_pos hij, ← hij, queued_eq hqd, hpackets]
    rfl
  · have hleaves : (QueueEvent.sent i item).leaves j = none := if_neg hij
    rw [departures, List.filterMap_cons_none hleaves, if_neg hij]
    rfl

/-- What `Dequeue` of a flow takes is dropped, but for the item that it returns. -/
theorem InOrder.dequeued {d : CoDelQueueDisc.Dequeuing} (hqd : qds[i]? = some qd)
    (htakes : qd.Takes (d.dropped ++ d.item.toList) d.disc) :
    InOrder qds (d.dropped.map (.dropped i) ++ (d.item.map (.sent i)).toList) (qds.set i d.disc) := by
  have hpackets := htakes.packets
  cases hitem : d.item with
  | none =>
      rw [hitem, Option.toList_none, List.append_nil] at hpackets
      rw [Option.map_none, Option.toList_none, List.append_nil]
      exact .dropped hqd hpackets
  | some item =>
      rw [hitem, Option.toList_some, List.append_assoc] at hpackets
      -- The disc after the drops still has the item.
      obtain ⟨qd', hqd'⟩ : ∃ qd' : CoDelQueueDisc, qd'.queue.packets = [item] ++ d.disc.queue.packets :=
        ⟨{ qd with queue := { qd.queue with packets := _ } }, rfl⟩
      have hlt : i < qds.length := (List.getElem?_eq_some_iff.1 hqd).choose
      have hfirst : InOrder qds (d.dropped.map (.dropped i)) (qds.set i qd') := .dropped hqd (by rw [hqd', hpackets])
      have hget : (qds.set i qd')[i]? = some qd' := List.getElem?_set_self hlt
      have hsecond : InOrder (qds.set i qd') [.sent i item] ((qds.set i qd').set i d.disc) := .sent hget hqd'
      rw [List.set_set] at hsecond
      exact hfirst.trans hsecond

/-! ## Putting an item into a queue -/

theorem Holding.put {item' : QueueDiscItem} (h : Holding M n qds c) (hqd : qds[i]? = some qd) (hvalid : qd'.Valid)
    (hpackets : qd'.queue.packets = qd.queue.packets ++ [item']) (hsize : item'.size = item.size)
    (hitem : 0 < item.size ∧ item.size ≤ M) : Holding M (n + 1) (qds.set i qd') (c.packetEnqueued item) := by
  obtain ⟨before, after, hstored, hset⟩ := stored_set hqd
  have hlength : (stored (qds.set i qd')).length = (stored qds).length + 1 := by
    rw [hstored, hset, hpackets]
    simp only [List.length_append, List.length_singleton]
    omega
  have hbytes : sizes (stored (qds.set i qd')) = sizes (stored qds) + item.size := by
    rw [hstored, hset, hpackets]
    simp only [sizes_append, sizes_cons, sizes_nil, hsize]
    omega
  have hroom := h.room
  refine ⟨fun q hq => ?_, fun x hx => ?_, ?_, by omega⟩
  · rcases List.mem_or_eq_of_mem_set hq with hmem | rfl
    · exact h.valid q hmem
    · exact hvalid
  · rw [hset, hpackets, List.mem_append, List.mem_append, List.mem_append, List.mem_singleton] at hx
    have hold : x ∈ stored qds ∨ x = item' := by
      rw [hstored, List.mem_append, List.mem_append]
      tauto
    rcases hold with hmem | rfl
    · exact h.sized x hmem
    · rw [hsize]
      exact hitem
  · rw [hlength, hbytes]
    exact h.counts.enqueued item

theorem InOrder.accepted {h : Nat} (hqd : qds[i]? = some qd)
    (hpackets : qd'.queue.packets = qd.queue.packets ++ [item]) :
    InOrder qds [.accepted h i item] (qds.set i qd') := by
  intro j
  rw [show departures j [.accepted h i item] = [] from rfl, queued_set hqd, List.nil_append]
  by_cases hij : i = j
  · have henters : (QueueEvent.accepted h i item).enters j = some item := if_pos hij
    rw [arrivals, List.filterMap_cons_some henters, if_pos hij, ← hij, queued_eq hqd, hpackets]
    rfl
  · have henters : (QueueEvent.accepted h i item).enters j = none := if_neg hij
    rw [arrivals, List.filterMap_cons_none henters, if_neg hij]
    exact List.append_nil _

/-- A flow that is created has an empty queue. -/
theorem InOrder.created (hempty : qd.queue.packets = []) : InOrder qds [] (qds ++ [qd]) := by
  intro j
  rw [show arrivals j [] = [] from rfl, show departures j [] = [] from rfl, List.append_nil, List.nil_append, queued,
    queued]
  rcases Nat.lt_trichotomy j qds.length with hlt | heq | hgt
  · rw [List.getElem?_append_left hlt]
  · rw [heq, List.getElem?_concat_length, List.getElem?_eq_none (Nat.le_refl _), Option.map_some, Option.map_none,
      hempty]
    rfl
  · have hlast : (qds ++ [qd]).length ≤ j := by
      rw [List.length_append, List.length_singleton]
      exact hgt
    rw [List.getElem?_eq_none (Nat.le_of_lt hgt), List.getElem?_eq_none hlast]

theorem Holding.created (h : Holding M n qds c) (hvalid : qd.Valid) (hempty : qd.queue.packets = []) :
    Holding M n (qds ++ [qd]) c := by
  have hstored : stored (qds ++ [qd]) = stored qds := by
    rw [stored, List.flatMap_append, List.flatMap_singleton, hempty, List.append_nil]
    rfl
  refine ⟨fun q hq => ?_, hstored ▸ h.sized, hstored ▸ h.counts, hstored ▸ h.room⟩
  rcases List.mem_append.1 hq with hmem | hmem
  · exact h.valid q hmem
  · rw [List.mem_singleton.1 hmem]
    exact hvalid

end Ns3Raft.Traffic
