import Ns3Raft.Wifi.MacQueue

/-! # Insertion into the queue of a MAC

`WifiMacQueue::Insert` at a position. The items are in the nodes of a list, and an iterator is a
node, or the end.
-/

namespace Ns3Raft.Wifi

inductive DropPolicy where
  | dropNewest
  | dropOldest
  deriving DecidableEq, Repr

structure QueueNode where
  id : Nat
  item : WifiMacQueueItem
  deriving DecidableEq

/-- A node, or the end. -/
abbrev Position := Option Nat

inductive QueueFault where
  /-- The new maximum size is less than the current size. -/
  | abort
  /-- An iterator is used whose node has been removed. -/
  | dangling
  deriving DecidableEq, Repr

/-- Sizes are in packets. -/
structure WifiMacQueue where
  packets : List QueueNode
  nPackets : Nat
  /-- The maximum size of `QueueBase`. -/
  maxSize : Nat
  /-- The maximum size of `WifiMacQueue`. -/
  maxQueueSize : Nat
  maxDelay : Nat
  dropPolicy : DropPolicy
  deriving DecidableEq

/-- `begin`, of a list of nodes. -/
def beginOf (packets : List QueueNode) : Position := packets.head?.map QueueNode.id

/-- `insert` of the list. -/
def insertAt : Position → QueueNode → List QueueNode → Option (List QueueNode)
  | none, node, packets => some (packets ++ [node])
  | some _, _, [] => none
  | some id, node, n :: rest =>
      if n.id = id then some (node :: n :: rest) else (insertAt (some id) node rest).map (n :: ·)

namespace WifiMacQueue

/-- The test of `TtlExceeded`. -/
def expired (q : WifiMacQueue) (now : Nat) (n : QueueNode) : Bool := decide (n.item.tstamp + q.maxDelay < now)

/-- `QueueBase::SetMaxSize`. -/
def setMaxSize (q : WifiMacQueue) (size : Nat) : Except QueueFault WifiMacQueue :=
  if size = 0 then .ok q
  else if size < q.nPackets then .error .abort
  else .ok { q with maxSize := size }

def doEnqueue (q : WifiMacQueue) (pos : Position) (node : QueueNode) : Except QueueFault (Bool × WifiMacQueue) :=
  if q.nPackets + 1 > q.maxSize then .ok (false, q)
  else
    match insertAt pos node q.packets with
    | some packets => .ok (true, { q with packets, nPackets := q.nPackets + 1 })
    | none => .error .dangling

def doRemove (q : WifiMacQueue) (pos : Position) : WifiMacQueue :=
  if q.nPackets = 0 then q
  else { q with packets := q.packets.filter (some ·.id ≠ pos), nPackets := q.nPackets - 1 }

/-- The scan for stale packets, from a node on. An expired node is removed, and the iterator is at the
next one then. -/
def scan (q : WifiMacQueue) (now : Nat) (pos : Position) (node : QueueNode) :
    List QueueNode → Option (Except QueueFault (Bool × WifiMacQueue))
  | [] => none
  | n :: rest =>
      if some n.id = pos ∧ q.expired now n then some ((q.doRemove (some n.id)).doEnqueue (beginOf rest) node)
      else if q.expired now n then some ((q.doRemove (some n.id)).doEnqueue pos node)
      else scan q now pos node rest

/-- `Insert`. The result is what it returns, and the queue. -/
def insert (q : WifiMacQueue) (now : Nat) (pos : Position) (node : QueueNode) :
    Except QueueFault (Bool × WifiMacQueue) :=
  match q.setMaxSize q.maxQueueSize with
  | .error e => .error e
  | .ok q =>
      if q.nPackets < q.maxSize then q.doEnqueue pos node
      else
        match q.scan now pos node q.packets with
        | some result => result
        | none =>
            match q.dropPolicy with
            | .dropOldest => (q.doRemove (beginOf q.packets)).doEnqueue pos node
            | .dropNewest => q.doEnqueue pos node

def enqueue (q : WifiMacQueue) (now : Nat) (node : QueueNode) : Except QueueFault (Bool × WifiMacQueue) :=
  q.insert now none node

def pushFront (q : WifiMacQueue) (now : Nat) (node : QueueNode) : Except QueueFault (Bool × WifiMacQueue) :=
  q.insert now (beginOf q.packets) node

/-! ## Positions -/

variable {q : WifiMacQueue} {now : Nat} {pos : Position} {node n : QueueNode} {packets front back : List QueueNode}

/-- It is the end or a node of the list. -/
def Valid (pos : Position) (packets : List QueueNode) : Prop := ∀ id, pos = some id → id ∈ packets.map QueueNode.id

/-- The node is put in directly before the position. -/
def PlacedAt (pos : Position) (node : QueueNode) (packets result : List QueueNode) : Prop :=
  ∃ front back, packets = front ++ back ∧ result = front ++ node :: back ∧ beginOf back = pos

theorem insertAt_placed (h : Valid pos packets) :
    ∃ result, insertAt pos node packets = some result ∧ PlacedAt pos node packets result := by
  cases pos with
  | none => exact ⟨_, by rw [insertAt], packets, [], (List.append_nil _).symm, rfl, rfl⟩
  | some id =>
    have hmem := h id rfl
    induction packets with
    | nil => exact absurd hmem List.not_mem_nil
    | cons n rest ih =>
      rw [insertAt]
      split
      · rename_i heq
        exact ⟨_, rfl, [], n :: rest, rfl, rfl, congrArg some heq⟩
      · rename_i hne
        have hrest : id ∈ rest.map QueueNode.id := (List.mem_cons.1 hmem).resolve_left fun heq => hne heq.symm
        obtain ⟨result, hres, front, back, hsplit, hresult, hback⟩ :=
          ih (fun id' heq => by rw [← Option.some.inj heq]; exact hrest) hrest
        refine ⟨n :: result, by rw [hres]; rfl, n :: front, back, ?_, ?_, hback⟩
        · rw [hsplit, List.cons_append]
        · rw [hresult, List.cons_append]

theorem insertAt_eq_none {id : Nat} (h : id ∉ packets.map QueueNode.id) : insertAt (some id) node packets = none := by
  induction packets with
  | nil => rfl
  | cons n rest ih =>
    rw [List.map_cons, List.mem_cons, not_or] at h
    rw [insertAt, if_neg fun heq => h.1 heq.symm, ih h.2]
    rfl

/-- Removing a node leaves the others. -/
theorem filter_ne (h : ((front ++ n :: back).map QueueNode.id).Nodup) :
    (front ++ n :: back).filter (some ·.id ≠ some n.id) = front ++ back := by
  rw [List.map_append, List.map_cons] at h
  have hnodup := List.nodup_append.1 h
  have hfront : ∀ m ∈ front, m.id ≠ n.id := fun m hm =>
    hnodup.2.2 m.id (List.mem_map_of_mem hm) n.id List.mem_cons_self
  have hback : ∀ m ∈ back, m.id ≠ n.id := fun m hm heq =>
    (List.nodup_cons.1 hnodup.2.1).1 (heq ▸ List.mem_map_of_mem hm)
  have hkeep : ∀ xs : List QueueNode, (∀ m ∈ xs, m.id ≠ n.id) → xs.filter (some ·.id ≠ some n.id) = xs := by
    intro xs hxs
    refine List.filter_eq_self.2 fun m hm => ?_
    simpa using hxs m hm
  rw [List.filter_append, List.filter_cons, hkeep front hfront, hkeep back hback]
  simp

/-! ## What an insertion does -/

/-- The items that stay when one of them is removed or none, and what becomes of the position. -/
inductive Remaining (packets : List QueueNode) (pos : Position) : Option QueueNode → List QueueNode → Position → Prop
  | all : Remaining packets pos none packets pos
  | without (front back : List QueueNode) (n : QueueNode) (h : packets = front ++ n :: back) :
      Remaining packets pos (some n) (front ++ back) (if pos = some n.id then beginOf back else pos)

/-- The item that has to go: one that is expired if there is any, and else the oldest or none. -/
def ToRemove (q : WifiMacQueue) (now : Nat) : Option QueueNode → Prop
  | none => q.packets.length < q.maxQueueSize ∨
      (∀ n ∈ q.packets, q.expired now n = false) ∧ (q.dropPolicy = .dropOldest → q.packets = [])
  | some n => q.maxQueueSize ≤ q.packets.length ∧
      (q.expired now n = true ∨
        (∀ m ∈ q.packets, q.expired now m = false) ∧ q.dropPolicy = .dropOldest ∧ q.packets.head? = some n)

/-- The insertion stays within the capacity, never uses a position that has been removed, removes the right
item and puts the new one where it belongs. -/
def InsertRight (q : WifiMacQueue) (now : Nat) (pos : Position) (node : QueueNode) : Prop :=
  ∃ ok q', q.insert now pos node = .ok (ok, q') ∧ q'.packets.length ≤ q.maxQueueSize ∧
    ∃ removed kept target, Remaining q.packets pos removed kept target ∧ ToRemove q now removed ∧
      if ok then PlacedAt target node kept q'.packets else q'.packets = kept

/-- The state of a queue between calls. -/
structure Stable (q : WifiMacQueue) : Prop where
  count : q.nPackets = q.packets.length
  nodup : (q.packets.map QueueNode.id).Nodup
  le : q.packets.length ≤ q.maxQueueSize

theorem doEnqueue_placed (h : Valid pos q.packets) (hroom : q.nPackets + 1 ≤ q.maxSize) :
    ∃ packets, q.doEnqueue pos node = .ok (true, { q with packets, nPackets := q.nPackets + 1 }) ∧
      PlacedAt pos node q.packets packets := by
  obtain ⟨result, hres, hplaced⟩ := insertAt_placed h
  refine ⟨result, ?_, hplaced⟩
  rw [doEnqueue, if_neg (by omega), hres]

theorem PlacedAt.length {result : List QueueNode} (h : PlacedAt pos node packets result) :
    result.length = packets.length + 1 := by
  obtain ⟨front, back, rfl, rfl, -⟩ := h
  simp only [List.length_append, List.length_cons]
  omega

theorem doRemove_eq (h : q.packets = front ++ n :: back) (hnodup : (q.packets.map QueueNode.id).Nodup)
    (hcount : q.nPackets = q.packets.length) :
    q.doRemove (some n.id) = { q with packets := front ++ back, nPackets := q.nPackets - 1 } := by
  have hpos : q.nPackets ≠ 0 := by
    rw [hcount, h, List.length_append, List.length_cons]
    omega
  rw [h] at hnodup
  rw [doRemove, if_neg hpos]
  congr 1
  rw [h]
  exact filter_ne hnodup

/-- The removal of another node does not hurt the position. -/
theorem valid_without (h : Valid pos (front ++ n :: back)) :
    Valid (if pos = some n.id then beginOf back else pos) (front ++ back) := by
  split
  · intro id hid
    cases back with
    | nil => exact nomatch hid
    | cons m back =>
      rw [← Option.some.inj hid]
      exact List.mem_map_of_mem (List.mem_append_right front List.mem_cons_self)
  · rename_i hne
    intro id hid
    have hmem := h id hid
    rw [hid] at hne
    have hne' : id ≠ n.id := fun heq => hne (congrArg some heq)
    simp only [List.map_append, List.map_cons, List.mem_append, List.mem_cons] at hmem ⊢
    rcases hmem with hfront | heq | hback
    · exact .inl hfront
    · exact absurd heq hne'
    · exact .inr hback

/-- The scan ends at the first expired node. -/
theorem scan_spec (done rest : List QueueNode) (hdone : ∀ m ∈ done, q.expired now m = false)
    (hq : q.packets = done ++ rest) :
    (q.scan now pos node rest = none ∧ ∀ m ∈ q.packets, q.expired now m = false) ∨
      ∃ front n back, q.packets = front ++ n :: back ∧ q.expired now n = true ∧
        q.scan now pos node rest =
          some ((q.doRemove (some n.id)).doEnqueue (if pos = some n.id then beginOf back else pos) node) := by
  induction rest generalizing done with
  | nil =>
    rw [List.append_nil] at hq
    exact .inl ⟨rfl, hq ▸ hdone⟩
  | cons n rest ih =>
    by_cases hexp : q.expired now n = true
    · refine .inr ⟨done, n, rest, hq, hexp, ?_⟩
      by_cases hpos : pos = some n.id
      · rw [scan, if_pos ⟨hpos.symm, hexp⟩, if_pos hpos]
      · rw [scan, if_neg fun h => hpos h.1.symm, if_pos hexp, if_neg hpos]
    · have hdone' : ∀ m ∈ done ++ [n], q.expired now m = false := by
        intro m hm
        rcases List.mem_append.1 hm with hin | hin
        · exact hdone m hin
        · rw [List.mem_singleton.1 hin]
          exact eq_false_of_ne_true hexp
      rw [scan, if_neg fun h => hexp h.2, if_neg hexp]
      exact ih (done ++ [n]) hdone' (by rw [hq, List.append_assoc, List.singleton_append])

/-- The queue as it is scanned. -/
theorem insert_eq (h : Stable q) (hpos : q.maxQueueSize ≠ 0) :
    q.setMaxSize q.maxQueueSize = .ok { q with maxSize := q.maxQueueSize } := by
  have hle := h.le
  rw [setMaxSize, if_neg hpos, if_neg (by rw [h.count]; omega)]

/-- With a maximum size of zero `QueueBase` keeps its own. -/
theorem insertRight_zero (h : Stable q) (hzero : q.maxQueueSize = 0) (hvalid : Valid pos q.packets) :
    InsertRight q now pos node ↔ q.maxSize = 0 := by
  have hnil : q.packets = [] := List.eq_nil_of_length_eq_zero (Nat.le_zero.1 (hzero ▸ h.le))
  have hcount : q.nPackets = 0 := by rw [h.count, hnil]; rfl
  have hset : q.setMaxSize q.maxQueueSize = .ok q := if_pos hzero
  rcases Nat.eq_zero_or_pos q.maxSize with hmax | hmax
  · refine ⟨fun _ => hmax, fun _ => ?_⟩
    have hfull : ¬ q.nPackets < q.maxSize := by omega
    have hreject : q.doEnqueue pos node = .ok (false, q) := if_pos (by omega)
    have hremove : q.doRemove (beginOf q.packets) = q := if_pos hcount
    have hscan : q.scan now pos node q.packets = none := by rw [hnil]; rfl
    refine ⟨false, q, ?_, h.le, none, q.packets, pos, .all, .inr ⟨by rw [hnil]; exact List.forall_mem_nil _, fun _ => hnil⟩, rfl⟩
    simp only [insert, hset, if_neg hfull, hscan]
    cases q.dropPolicy with
    | dropNewest => exact hreject
    | dropOldest =>
      simp only [hremove]
      exact hreject
  · refine ⟨fun hright => ?_, fun hmax' => absurd hmax (by omega)⟩
    have hroom : q.nPackets < q.maxSize := by omega
    obtain ⟨packets, henq, hplaced⟩ : ∃ packets, q.doEnqueue pos node = .ok (true, { q with packets, nPackets := q.nPackets + 1 }) ∧
        PlacedAt pos node q.packets packets := doEnqueue_placed hvalid hroom
    obtain ⟨ok, q', hinsert, hle, -⟩ := hright
    simp only [insert, hset, if_pos hroom] at hinsert
    rw [henq] at hinsert
    rw [← (Prod.mk.inj (Except.ok.inj hinsert)).2, hzero] at hle
    have hlen := hplaced.length
    exact absurd (Nat.le_trans (hlen ▸ hle : q.packets.length + 1 ≤ 0) (Nat.le_refl 0)) (by omega)

theorem insertRight_room (h : Stable q) (hpos : q.maxQueueSize ≠ 0) (hvalid : Valid pos q.packets)
    (hroom : q.packets.length < q.maxQueueSize) : InsertRight q now pos node := by
  obtain ⟨packets, henq, hplaced⟩ := doEnqueue_placed (q := { q with maxSize := q.maxQueueSize }) hvalid
    (by show q.nPackets + 1 ≤ q.maxQueueSize; rw [h.count]; omega)
  refine ⟨true, { q with maxSize := q.maxQueueSize, packets, nPackets := q.nPackets + 1 }, ?_, ?_, none, q.packets, pos,
    .all, .inl hroom, hplaced⟩
  · have hroom' : q.nPackets < q.maxQueueSize := by rw [h.count]; exact hroom
    simp only [insert, insert_eq h hpos, if_pos hroom']
    exact henq
  · show packets.length ≤ q.maxQueueSize
    rw [hplaced.length]
    exact hroom

theorem insertRight_full (h : Stable q) (hpos : q.maxQueueSize ≠ 0) (hvalid : Valid pos q.packets)
    (hfull : q.packets.length = q.maxQueueSize) :
    InsertRight q now pos node ↔
      ¬ ((∀ n ∈ q.packets, q.expired now n = false) ∧ q.dropPolicy = .dropOldest ∧ pos = beginOf q.packets) := by
  have hcount := h.count
  have hfull' : ¬ q.nPackets < q.maxQueueSize := by omega
  obtain ⟨q₁, hq₁⟩ : ∃ q₁, q₁ = { q with maxSize := q.maxQueueSize } := ⟨_, rfl⟩
  have hinsert : q.insert now pos node = match q₁.scan now pos node q.packets with
      | some result => result
      | none => match q.dropPolicy with
        | .dropOldest => (q₁.doRemove (beginOf q.packets)).doEnqueue pos node
        | .dropNewest => q₁.doEnqueue pos node := by
    simp only [insert, insert_eq h hpos, if_neg hfull', hq₁]
  have hpackets : q₁.packets = q.packets := by rw [hq₁]
  have hcount₁ : q₁.nPackets = q₁.packets.length := by rw [hq₁]; exact hcount
  have hmax₁ : q₁.maxSize = q₁.packets.length := by rw [hpackets, hq₁]; exact hfull.symm
  have hexpired : ∀ n, q₁.expired now n = q.expired now n := fun n => by rw [hq₁]; rfl
  -- after a removal there is room for one
  have hwithout : ∀ front n back target, q.packets = front ++ n :: back → Valid target (front ++ back) →
      ∃ packets, (q₁.doRemove (some n.id)).doEnqueue target node =
          .ok (true, { q₁ with packets, nPackets := q₁.nPackets - 1 + 1 }) ∧ PlacedAt target node (front ++ back) packets := by
    intro front n back target hsplit htarget
    rw [doRemove_eq (hpackets.trans hsplit) (hpackets ▸ h.nodup) hcount₁]
    have hlen : q₁.nPackets = front.length + back.length + 1 := by
      rw [hcount₁, hpackets, hsplit, List.length_append, List.length_cons]
      omega
    refine doEnqueue_placed (q := { q₁ with packets := front ++ back, nPackets := q₁.nPackets - 1 }) htarget ?_
    show q₁.nPackets - 1 + 1 ≤ q₁.maxSize
    rw [hmax₁, ← hcount₁]
    omega
  rcases scan_spec (q := q₁) [] q.packets (List.forall_mem_nil _) hpackets with
    ⟨hscan, hfresh⟩ | ⟨front, n, back, hsplit, hexp, hscan⟩
  · have hfresh' : ∀ n ∈ q.packets, q.expired now n = false := fun n hn => by
      rw [← hexpired]
      exact hfresh n (hpackets ▸ hn)
    rw [hscan] at hinsert
    cases hpolicy : q.dropPolicy with
    | dropNewest =>
      refine ⟨fun _ hclash => (nomatch hclash.2.1), fun _ => ?_⟩
      rw [hpolicy] at hinsert
      refine ⟨false, q₁, hinsert.trans (if_pos (by omega)), ?_, none, q.packets, pos, .all,
        .inr ⟨hfresh', fun heq => (nomatch hpolicy.symm.trans heq)⟩, hpackets⟩
      rw [hpackets]
      exact h.le
    | dropOldest =>
      rw [hpolicy] at hinsert
      obtain ⟨n, rest, hcons⟩ : ∃ n rest, q.packets = n :: rest := by
        cases hp : q.packets with
        | nil =>
          rw [hp] at hfull
          exact absurd hfull.symm hpos
        | cons n rest => exact ⟨n, rest, rfl⟩
      have hbegin : beginOf q.packets = some n.id := by rw [hcons]; rfl
      rw [hbegin] at hinsert ⊢
      by_cases hclash : pos = some n.id
      · -- the position goes with the oldest item
        refine ⟨fun hright => ?_, fun hnot => absurd ⟨hfresh', rfl, hclash⟩ hnot⟩
        have hnotin : n.id ∉ rest.map QueueNode.id := by
          have hnodup := h.nodup
          rw [hcons, List.map_cons] at hnodup
          exact (List.nodup_cons.1 hnodup).1
        have hdangling : (q₁.doRemove (some n.id)).doEnqueue pos node = .error .dangling := by
          have hlen : q₁.nPackets = rest.length + 1 := by rw [hcount₁, hpackets, hcons]; rfl
          rw [doRemove_eq (show q₁.packets = [] ++ n :: rest from hpackets.trans hcons) (hpackets ▸ h.nodup) hcount₁, doEnqueue,
            if_neg (by show ¬ q₁.nPackets - 1 + 1 > q₁.maxSize; rw [hmax₁, ← hcount₁]; omega), hclash]
          show (match insertAt (some n.id) node rest with | some _ => _ | none => _) = _
          rw [insertAt_eq_none hnotin]
        obtain ⟨ok, q', hok, -⟩ := hright
        rw [hinsert] at hok
        exact nomatch hdangling.symm.trans hok
      · refine ⟨fun _ hbad => hclash hbad.2.2, fun _ => ?_⟩
        have htarget := valid_without (hcons ▸ hvalid : Valid pos ([] ++ n :: rest))
        rw [if_neg hclash] at htarget
        obtain ⟨packets, henq, hplaced⟩ := hwithout [] n rest pos hcons htarget
        refine ⟨true, _, hinsert.trans henq, ?_, some n, [] ++ rest, pos, ?_,
          ⟨Nat.le_of_eq hfull.symm, .inr ⟨hfresh', hpolicy, by rw [hcons]; rfl⟩⟩, hplaced⟩
        · show packets.length ≤ q.maxQueueSize
          rw [hplaced.length, ← hfull, hcons]
          exact Nat.le_refl _
        · have hremaining := @Remaining.without q.packets pos [] rest n hcons
          rw [if_neg hclash] at hremaining
          exact hremaining
  · have hexp' : q.expired now n = true := hexpired n ▸ hexp
    rw [hpackets] at hsplit
    rw [hscan] at hinsert
    obtain ⟨packets, henq, hplaced⟩ := hwithout front n back _ hsplit (valid_without (hsplit ▸ hvalid))
    refine ⟨fun _ hbad => ?_, fun _ => ⟨true, _, hinsert.trans henq, ?_, some n, front ++ back, _, .without front back n hsplit,
      ⟨Nat.le_of_eq hfull.symm, .inl hexp'⟩, hplaced⟩⟩
    · have hfalse := hbad.1 n (hsplit ▸ List.mem_append_right front List.mem_cons_self)
      rw [hexp'] at hfalse
      exact nomatch hfalse
    · show packets.length ≤ q.maxQueueSize
      rw [hplaced.length, ← hfull, hsplit, List.length_append, List.length_append, List.length_cons]
      omega

/-- An insertion is right unless the queue is full, nothing in it has expired, the oldest item is dropped and
the position is that item; and where the maximum size is zero, in both places. -/
theorem insertRight_iff (h : Stable q) (hvalid : Valid pos q.packets) :
    InsertRight q now pos node ↔
      (q.maxQueueSize = 0 → q.maxSize = 0) ∧
        ¬ (0 < q.maxQueueSize ∧ q.packets.length = q.maxQueueSize ∧ (∀ n ∈ q.packets, q.expired now n = false) ∧
          q.dropPolicy = .dropOldest ∧ pos = beginOf q.packets) := by
  by_cases hzero : q.maxQueueSize = 0
  · rw [insertRight_zero h hzero hvalid]
    exact ⟨fun hmax => ⟨fun _ => hmax, fun hclash => absurd hclash.1 (by omega)⟩, fun hcond => hcond.1 hzero⟩
  · have hle := h.le
    rcases Nat.lt_or_ge q.packets.length q.maxQueueSize with hroom | hge
    · exact ⟨fun _ => ⟨fun heq => absurd heq hzero, fun hclash => absurd hclash.2.1 (by omega)⟩,
        fun _ => insertRight_room h hzero hvalid hroom⟩
    · have hfull : q.packets.length = q.maxQueueSize := Nat.le_antisymm hle hge
      rw [insertRight_full h hzero hvalid hfull]
      exact ⟨fun hnot => ⟨fun heq => absurd heq hzero, fun hclash => hnot hclash.2.2⟩,
        fun hcond hbad => hcond.2 ⟨by omega, hfull, hbad⟩⟩

/-- An item from an address of zeros. -/
def itemAt (tstamp : Nat) : WifiMacQueueItem :=
  let addr : Mac48Address := .replicate 0
  ⟨[], ⟨false, false, false, addr, addr, addr, 0, false⟩, tstamp⟩

theorem insertRight_expired :
    InsertRight ⟨[⟨0, itemAt 5⟩, ⟨1, itemAt 1⟩], 2, 2, 2, 10, .dropOldest⟩ 12 (some 1) ⟨2, itemAt 12⟩ := by
  refine (insertRight_iff ⟨rfl, by decide, by decide⟩ ?_).2 ⟨by decide, ?_⟩
  · intro id hid
    rw [← Option.some.inj hid]
    decide
  · rintro ⟨-, -, hfresh, -⟩
    exact absurd (hfresh ⟨1, itemAt 1⟩ (by decide)) (by decide)

/-- `PushFront` on a full queue. -/
theorem not_insertRight_pushFront :
    WifiMacQueue.pushFront ⟨[⟨0, itemAt 5⟩], 1, 1, 1, 10, .dropOldest⟩ 6 ⟨1, itemAt 6⟩ = .error .dangling ∧
      ¬ InsertRight ⟨[⟨0, itemAt 5⟩], 1, 1, 1, 10, .dropOldest⟩ 6 (some 0) ⟨1, itemAt 6⟩ := by
  have hfault : WifiMacQueue.insert ⟨[⟨0, itemAt 5⟩], 1, 1, 1, 10, .dropOldest⟩ 6 (some 0) ⟨1, itemAt 6⟩ =
      .error .dangling := by rfl
  refine ⟨hfault, ?_⟩
  rintro ⟨ok, q', hok, -⟩
  rw [hfault] at hok
  exact nomatch hok

end WifiMacQueue

end Ns3Raft.Wifi
