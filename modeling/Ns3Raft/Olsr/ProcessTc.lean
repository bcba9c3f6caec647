import Ns3Raft.Net.SequenceWidths
import Ns3Raft.Olsr.State

/-! # Topology control messages

`ProcessTc` compares the sequence numbers of an originator as plain numbers. Its view is that of the
latest message as long as each new number is the greater one as a plain number too.
-/

namespace Ns3Raft.Olsr

/-- The part of a TC message that `ProcessTc` reads. -/
structure TcMessage where
  originatorAddress : UInt32
  vTime : Int
  ansn : UInt16
  neighborAddresses : List UInt32
  deriving DecidableEq, Repr

/-- The holding time of the first tuple of the pair. -/
def refreshTopologyTuple (destAddr lastAddr : UInt32) (expirationTime : Int) : List TopologyTuple → List TopologyTuple
  | [] => []
  | tuple :: topology =>
      if tuple.destAddr = destAddr ∧ tuple.lastAddr = lastAddr then { tuple with expirationTime } :: topology
      else tuple :: refreshTopologyTuple destAddr lastAddr expirationTime topology

namespace OlsrState

variable (s : OlsrState)

def findTopologyTuple (destAddr lastAddr : UInt32) : Option TopologyTuple :=
  s.topology.find? fun tuple => tuple.destAddr = destAddr ∧ tuple.lastAddr = lastAddr

def findNewerTopologyTuple (lastAddr : UInt32) (ansn : UInt16) : Option TopologyTuple :=
  s.topology.find? fun tuple => tuple.lastAddr = lastAddr ∧ tuple.sequenceNumber > ansn

def eraseOlderTopologyTuples (lastAddr : UInt32) (ansn : UInt16) : OlsrState :=
  { s with topology := s.topology.filter fun tuple => ¬ (tuple.lastAddr = lastAddr ∧ tuple.sequenceNumber < ansn) }

def insertTopologyTuple (tuple : TopologyTuple) : OlsrState := { s with topology := s.topology ++ [tuple] }

/-- Step 4 of `ProcessTc`, for one advertised neighbor. -/
def processAdvertised (now : Int) (msg : TcMessage) (addr : UInt32) : OlsrState :=
  match s.findTopologyTuple addr msg.originatorAddress with
  | some _ =>
      { s with topology := refreshTopologyTuple addr msg.originatorAddress (now + msg.vTime) s.topology }
  | none => s.insertTopologyTuple ⟨addr, msg.originatorAddress, msg.ansn, now + msg.vTime⟩

def processTc (now : Int) (msg : TcMessage) (senderIface : UInt32) : OlsrState :=
  match s.findSymLinkTuple senderIface now with
  | none => s
  | some _ =>
      match s.findNewerTopologyTuple msg.originatorAddress msg.ansn with
      | some _ => s
      | none =>
          msg.neighborAddresses.foldl (fun s addr => s.processAdvertised now msg addr)
            (s.eraseOlderTopologyTuples msg.originatorAddress msg.ansn)

/-! ## The view of one originator -/

/-- The addresses that the tuples of an originator have. -/
def destsOf (lastAddr : UInt32) : List UInt32 :=
  s.topology.filterMap fun tuple => if tuple.lastAddr = lastAddr then some tuple.destAddr else none

/-- The tuples of the other originators. -/
def others (lastAddr : UInt32) : List TopologyTuple := s.topology.filter (·.lastAddr ≠ lastAddr)

/-- All tuples of an originator have the number. -/
def Numbered (lastAddr : UInt32) (ansn : UInt16) : Prop :=
  ∀ tuple ∈ s.topology, tuple.lastAddr = lastAddr → tuple.sequenceNumber = ansn

variable {s} {o addr : UInt32} {ansn n : UInt16} {now time : Int} {msg : TcMessage} {topology : List TopologyTuple}

theorem refreshTopologyTuple_filterMap {α : Type} {f : TopologyTuple → Option α}
    (hf : ∀ tuple expirationTime, f { tuple with expirationTime } = f tuple) :
    (refreshTopologyTuple addr o time topology).filterMap f = topology.filterMap f := by
  induction topology with
  | nil => rfl
  | cons tuple topology ih =>
    unfold refreshTopologyTuple
    split
    · rw [List.filterMap_cons, List.filterMap_cons, hf]
    · rw [List.filterMap_cons, List.filterMap_cons, ih]

theorem refreshTopologyTuple_others :
    (refreshTopologyTuple addr o time topology).filter (·.lastAddr ≠ o) = topology.filter (·.lastAddr ≠ o) := by
  induction topology with
  | nil => rfl
  | cons tuple topology ih =>
    unfold refreshTopologyTuple
    split
    · next hpair => rw [List.filter_cons_of_neg (by simp [hpair.2]), List.filter_cons_of_neg (by simp [hpair.2])]
    · rw [List.filter_cons, List.filter_cons, ih]

theorem mem_destsOf : addr ∈ s.destsOf o ↔ ∃ tuple ∈ s.topology, tuple.lastAddr = o ∧ tuple.destAddr = addr := by
  simp only [destsOf, List.mem_filterMap, Option.ite_none_right_eq_some, Option.some.injEq]

/-- The number of the tuples, as a statement about what is read off them. -/
theorem numbered_iff : s.Numbered o ansn ↔
    ∀ n ∈ s.topology.filterMap (fun tuple => if tuple.lastAddr = o then some tuple.sequenceNumber else none), n = ansn := by
  simp only [Numbered, List.mem_filterMap, Option.ite_none_right_eq_some, Option.some.injEq]
  exact ⟨fun h n ⟨tuple, hmem, hlast, hseq⟩ => hseq ▸ h tuple hmem hlast, fun h tuple hmem hlast => h _ ⟨tuple, hmem, hlast, rfl⟩⟩

theorem findTopologyTuple_isSome : (s.findTopologyTuple addr o).isSome = true ↔ addr ∈ s.destsOf o := by
  rw [findTopologyTuple, List.find?_isSome, mem_destsOf]
  simp only [decide_eq_true_eq, and_comm]

theorem findNewerTopologyTuple_isSome : (s.findNewerTopologyTuple o ansn).isSome = true ↔
    ∃ tuple ∈ s.topology, tuple.lastAddr = o ∧ ansn < tuple.sequenceNumber := by
  rw [findNewerTopologyTuple, List.find?_isSome]
  simp only [decide_eq_true_eq, gt_iff_lt]

/-! ## Step 4 -/

/-- An address that is there is refreshed, and one that is not comes last. -/
theorem processAdvertised_topology (now : Int) (msg : TcMessage) (addr : UInt32) :
    (addr ∈ s.destsOf msg.originatorAddress ∧ (s.processAdvertised now msg addr).topology =
      refreshTopologyTuple addr msg.originatorAddress (now + msg.vTime) s.topology) ∨
    (addr ∉ s.destsOf msg.originatorAddress ∧ (s.processAdvertised now msg addr).topology =
      s.topology ++ [⟨addr, msg.originatorAddress, msg.ansn, now + msg.vTime⟩]) := by
  have hfind : (s.findTopologyTuple addr msg.originatorAddress).isSome = true ↔ addr ∈ s.destsOf msg.originatorAddress :=
    findTopologyTuple_isSome
  unfold processAdvertised
  cases hfound : s.findTopologyTuple addr msg.originatorAddress with
  | some tuple => exact .inl ⟨hfind.1 (by rw [hfound]; rfl), rfl⟩
  | none => exact .inr ⟨fun hmem => by simpa [hfound] using hfind.2 hmem, rfl⟩

theorem processAdvertised_destsOf (now : Int) (msg : TcMessage) (addr : UInt32) :
    (s.processAdvertised now msg addr).destsOf msg.originatorAddress =
      if addr ∈ s.destsOf msg.originatorAddress then s.destsOf msg.originatorAddress
      else s.destsOf msg.originatorAddress ++ [addr] := by
  rcases processAdvertised_topology (s := s) now msg addr with ⟨hmem, htop⟩ | ⟨hmem, htop⟩
  · rw [if_pos hmem, destsOf, htop]
    exact refreshTopologyTuple_filterMap fun tuple time => rfl
  · rw [if_neg hmem, destsOf, htop, List.filterMap_append]
    simp [destsOf]

theorem processAdvertised_others (now : Int) (msg : TcMessage) (addr : UInt32) :
    (s.processAdvertised now msg addr).others msg.originatorAddress = s.others msg.originatorAddress := by
  rcases processAdvertised_topology (s := s) now msg addr with ⟨-, htop⟩ | ⟨-, htop⟩
  · rw [others, htop]
    exact refreshTopologyTuple_others
  · rw [others, htop, List.filter_append]
    simp [others]

theorem Numbered.processAdvertised (h : s.Numbered msg.originatorAddress msg.ansn) (now : Int) (addr : UInt32) :
    (s.processAdvertised now msg addr).Numbered msg.originatorAddress msg.ansn := by
  rw [numbered_iff] at *
  rcases processAdvertised_topology (s := s) now msg addr with ⟨-, htop⟩ | ⟨-, htop⟩
  · rw [htop, refreshTopologyTuple_filterMap fun tuple time => rfl]
    exact h
  · rw [htop, List.filterMap_append]
    intro n hn
    rcases List.mem_append.1 hn with hold | hnew
    · exact h n hold
    · simpa using hnew

/-- The tuples of an originator are those of some addresses, once each, with one number. -/
structure Holds (o : UInt32) (s₀ s : OlsrState) (ansn : UInt16) (addrs : List UInt32) : Prop where
  nodup : (s.destsOf o).Nodup
  mem : ∀ addr, addr ∈ s.destsOf o ↔ addr ∈ addrs
  numbered : s.Numbered o ansn
  others : s.others o = s₀.others o
  links : s.links = s₀.links

variable {s₀ : OlsrState} {addrs : List UInt32}

theorem Holds.processAdvertised (h : Holds msg.originatorAddress s₀ s msg.ansn addrs) (now : Int) (addr : UInt32) :
    Holds msg.originatorAddress s₀ (s.processAdvertised now msg addr) msg.ansn (addrs ++ [addr]) where
  nodup := by
    rw [processAdvertised_destsOf]
    split
    · exact h.nodup
    · next hnew =>
      rw [← List.concat_eq_append]
      exact h.nodup.concat hnew
  mem a := by
    rw [processAdvertised_destsOf, List.mem_append, List.mem_singleton, ← h.mem]
    split
    · next hold => exact ⟨.inl, fun hor => hor.elim id fun heq => heq ▸ hold⟩
    · rw [List.mem_append, List.mem_singleton]
  numbered := h.numbered.processAdvertised now addr
  others := (processAdvertised_others now msg addr).trans h.others
  links := by
    rw [← h.links, OlsrState.processAdvertised]
    cases s.findTopologyTuple addr msg.originatorAddress <;> rfl

theorem Holds.advertised (h : Holds msg.originatorAddress s₀ s msg.ansn addrs) (now : Int) (later : List UInt32) :
    Holds msg.originatorAddress s₀ (later.foldl (fun s addr => s.processAdvertised now msg addr) s) msg.ansn
      (addrs ++ later) := by
  induction later generalizing s addrs with
  | nil => rwa [List.append_nil]
  | cons addr later ih =>
    have hstep := ih (h.processAdvertised now addr)
    rwa [List.append_assoc] at hstep

/-! ## Steps 2 and 3 -/

theorem eraseOlderTopologyTuples_others : (s.eraseOlderTopologyTuples o ansn).others o = s.others o := by
  rw [others, others, eraseOlderTopologyTuples, List.filter_filter]
  refine List.filter_congr fun tuple _ => ?_
  by_cases hlast : tuple.lastAddr = o <;> simp [hlast]

/-- Without older tuples nothing is erased. -/
theorem eraseOlderTopologyTuples_eq (h : ∀ tuple ∈ s.topology, tuple.lastAddr = o → ¬ tuple.sequenceNumber < ansn) :
    s.eraseOlderTopologyTuples o ansn = s := by
  have hfilter : s.topology.filter (fun tuple => ¬ (tuple.lastAddr = o ∧ tuple.sequenceNumber < ansn)) = s.topology :=
    List.filter_eq_self.2 fun tuple hmem => decide_eq_true fun hold => h tuple hmem hold.1 hold.2
  rw [eraseOlderTopologyTuples, hfilter]

/-- Where all tuples are older none is left. -/
theorem eraseOlderTopologyTuples_destsOf (h : ∀ tuple ∈ s.topology, tuple.lastAddr = o → tuple.sequenceNumber < ansn) :
    (s.eraseOlderTopologyTuples o ansn).destsOf o = [] := by
  rw [List.eq_nil_iff_forall_not_mem]
  intro addr hmem
  obtain ⟨tuple, htuple, hlast, -⟩ := mem_destsOf.1 hmem
  obtain ⟨hin, hkept⟩ := List.mem_filter.1 htuple
  exact of_decide_eq_true hkept ⟨hlast, h tuple hin hlast⟩

theorem Holds.of_dests_nil (hdests : s.destsOf o = []) (hothers : s.others o = s₀.others o) (hlinks : s.links = s₀.links)
    (ansn : UInt16) : Holds o s₀ s ansn [] where
  nodup := hdests ▸ List.nodup_nil
  mem addr := by rw [hdests]
  numbered tuple hmem hlast := by
    have hdest : tuple.destAddr ∈ s.destsOf o := mem_destsOf.2 ⟨tuple, hmem, hlast, rfl⟩
    rw [hdests] at hdest
    exact absurd hdest List.not_mem_nil
  others := hothers
  links := hlinks

/-- A message of a number that all tuples are older than, or have, is taken. -/
theorem processTc_taken {senderIface : UInt32} (hsym : (s.findSymLinkTuple senderIface now).isSome = true)
    (hnewer : ∀ tuple ∈ s.topology, tuple.lastAddr = msg.originatorAddress → ¬ msg.ansn < tuple.sequenceNumber) :
    s.processTc now msg senderIface =
      msg.neighborAddresses.foldl (fun s addr => s.processAdvertised now msg addr)
        (s.eraseOlderTopologyTuples msg.originatorAddress msg.ansn) := by
  obtain ⟨link, hlink⟩ := Option.isSome_iff_exists.1 hsym
  have hnone : s.findNewerTopologyTuple msg.originatorAddress msg.ansn = none := by
    rw [← Option.not_isSome_iff_eq_none, findNewerTopologyTuple_isSome]
    rintro ⟨tuple, hmem, hlast, hlt⟩
    exact hnewer tuple hmem hlast hlt
  simp only [processTc, hlink, hnone]

/-- A message is discarded where a tuple is newer. -/
theorem processTc_discarded {tuple : TopologyTuple} (hmem : tuple ∈ s.topology)
    (hlast : tuple.lastAddr = msg.originatorAddress) (hlt : msg.ansn < tuple.sequenceNumber) (now : Int)
    (senderIface : UInt32) : s.processTc now msg senderIface = s := by
  obtain ⟨found, hfound⟩ := Option.isSome_iff_exists.1 (findNewerTopologyTuple_isSome.2 ⟨tuple, hmem, hlast, hlt⟩)
  unfold processTc
  cases s.findSymLinkTuple senderIface now with
  | none => rfl
  | some link => simp only [hfound]

/-! ## Runs -/

/-- The order of the numbers, modulo 2^16. -/
def newer (ansn ansn' : UInt16) : Bool :=
  Net.SequenceNumber.gt (⟨ansn.toBitVec⟩ : Net.SequenceNumber 16) ⟨ansn'.toBitVec⟩

/-- The newest number that has been seen, and what the messages with that number advertise. -/
structure Latest where
  ansn : UInt16
  advertised : List UInt32

def Latest.next (msg : TcMessage) : Option Latest → Latest
  | none => ⟨msg.ansn, msg.neighborAddresses⟩
  | some latest =>
      if msg.ansn = latest.ansn then ⟨latest.ansn, latest.advertised ++ msg.neighborAddresses⟩
      else if newer msg.ansn latest.ansn then ⟨msg.ansn, msg.neighborAddresses⟩
      else latest

def latest (msgs : List TcMessage) : Option Latest := msgs.foldl (fun latest msg => some (Latest.next msg latest)) none

/-- The view of the originator is what the newest messages advertise, once each, and the rest is as before. -/
structure Follows (o : UInt32) (s₀ s : OlsrState) (advertised : List UInt32) : Prop where
  nodup : (s.destsOf o).Nodup
  mem : ∀ addr, addr ∈ s.destsOf o ↔ addr ∈ advertised
  others : s.others o = s₀.others o

/-- The plain order of the numbers is right for a message, or there are no tuples that it is wrong for. -/
def StepOk (msg : TcMessage) : Option Latest → Prop
  | none => True
  | some latest =>
      msg.ansn = latest.ansn ∨
        (newer msg.ansn latest.ansn = true ∧ (latest.ansn < msg.ansn ∨ latest.advertised = [])) ∨
        (newer msg.ansn latest.ansn = false ∧
          ((msg.ansn < latest.ansn ∧ latest.advertised ≠ []) ∨ (latest.advertised = [] ∧ msg.neighborAddresses = [])))

/-- When a message arrives, and on which interface. -/
structure Arrival where
  now : Int
  senderIface : UInt32
  msg : TcMessage
  deriving DecidableEq, Repr

def processAll (s : OlsrState) (arrivals : List Arrival) : OlsrState :=
  arrivals.foldl (fun s arrival => s.processTc arrival.now arrival.msg arrival.senderIface) s

/-- The state after some messages of an originator. -/
def Viewed (o : UInt32) (s₀ s : OlsrState) : Option Latest → Prop
  | none => s = s₀ ∧ s.destsOf o = []
  | some latest => Holds o s₀ s latest.ansn latest.advertised

theorem Holds.none_of_nil (h : Holds o s₀ s ansn []) : s.destsOf o = [] :=
  List.eq_nil_iff_forall_not_mem.2 fun addr hmem => List.not_mem_nil ((h.mem addr).1 hmem)

/-- Where no tuple is newer and step 3 leaves none, the view is what the message advertises. -/
theorem processTc_replaced {senderIface : UInt32} (hsym : (s.findSymLinkTuple senderIface now).isSome = true)
    (holder : ∀ tuple ∈ s.topology, tuple.lastAddr = msg.originatorAddress → tuple.sequenceNumber < msg.ansn)
    (hothers : s.others msg.originatorAddress = s₀.others msg.originatorAddress) (hlinks : s.links = s₀.links) :
    Holds msg.originatorAddress s₀ (s.processTc now msg senderIface) msg.ansn msg.neighborAddresses := by
  rw [processTc_taken hsym fun tuple hmem hlast hlt => UInt16.lt_irrefl _ (UInt16.lt_trans hlt (holder tuple hmem hlast))]
  have hnil := eraseOlderTopologyTuples_destsOf holder
  have hstart : Holds msg.originatorAddress s₀ (s.eraseOlderTopologyTuples msg.originatorAddress msg.ansn) msg.ansn [] :=
    Holds.of_dests_nil hnil (eraseOlderTopologyTuples_others.trans hothers) hlinks msg.ansn
  exact hstart.advertised now msg.neighborAddresses

theorem older_of_nil (hnil : s.destsOf o = []) (ansn : UInt16) :
    ∀ tuple ∈ s.topology, tuple.lastAddr = o → tuple.sequenceNumber < ansn := by
  intro tuple hmem hlast
  have hdest : tuple.destAddr ∈ s.destsOf o := mem_destsOf.2 ⟨tuple, hmem, hlast, rfl⟩
  rw [hnil] at hdest
  exact absurd hdest List.not_mem_nil

theorem Viewed.processTc {l : Option Latest} {senderIface : UInt32} (h : Viewed msg.originatorAddress s₀ s l)
    (hsym : (s₀.findSymLinkTuple senderIface now).isSome = true) (hok : StepOk msg l) :
    Viewed msg.originatorAddress s₀ (s.processTc now msg senderIface) (some (Latest.next msg l)) := by
  cases l with
  | none =>
    obtain ⟨rfl, hnil⟩ := h
    exact processTc_replaced hsym (older_of_nil hnil msg.ansn) rfl rfl
  | some latest =>
    change Holds msg.originatorAddress s₀ s latest.ansn latest.advertised at h
    have hsym' : (s.findSymLinkTuple senderIface now).isSome = true := by
      rwa [findSymLinkTuple, h.links]
    change Holds _ _ _ (Latest.next msg (some latest)).ansn (Latest.next msg (some latest)).advertised
    simp only [Latest.next]
    by_cases hsame : msg.ansn = latest.ansn
    · have hequal : ∀ tuple ∈ s.topology, tuple.lastAddr = msg.originatorAddress → tuple.sequenceNumber = msg.ansn :=
        fun tuple hmem hlast => (h.numbered tuple hmem hlast).trans hsame.symm
      rw [if_pos hsame, processTc_taken hsym' fun tuple hmem hlast => by
          rw [hequal tuple hmem hlast]
          exact UInt16.lt_irrefl _,
        eraseOlderTopologyTuples_eq fun tuple hmem hlast => by
          rw [hequal tuple hmem hlast]
          exact UInt16.lt_irrefl _]
      have hstep := (hsame ▸ h : Holds msg.originatorAddress s₀ s msg.ansn latest.advertised).advertised now
        msg.neighborAddresses
      rwa [hsame] at hstep
    rw [if_neg hsame]
    rcases hok with heq | ⟨hnewer, hlt | hnil⟩ | ⟨holder, ⟨hlt, hsome⟩ | ⟨hnil, hnone⟩⟩
    · exact absurd heq hsame
    · rw [if_pos hnewer]
      refine processTc_replaced hsym' (fun tuple hmem hlast => ?_) h.others h.links
      rw [h.numbered tuple hmem hlast]
      exact hlt
    · rw [if_pos hnewer]
      rw [hnil] at h
      exact processTc_replaced hsym' (older_of_nil h.none_of_nil msg.ansn) h.others h.links
    · obtain ⟨addr, haddr⟩ := List.exists_mem_of_ne_nil _ hsome
      obtain ⟨tuple, hmem, hlast, -⟩ := mem_destsOf.1 ((h.mem addr).2 haddr)
      rw [if_neg (by rw [holder]; decide), processTc_discarded hmem hlast (by
        rw [h.numbered tuple hmem hlast]
        exact hlt)]
      exact h
    · rw [if_neg (by rw [holder]; decide), hnil]
      rw [hnil] at h
      have hempty := processTc_replaced hsym' (older_of_nil h.none_of_nil msg.ansn) h.others h.links
      rw [hnone] at hempty
      exact Holds.of_dests_nil hempty.none_of_nil hempty.others hempty.links latest.ansn

theorem latest_append (msgs : List TcMessage) (msg : TcMessage) :
    latest (msgs ++ [msg]) = some (Latest.next msg (latest msgs)) := by
  rw [latest, List.foldl_append]
  rfl

theorem viewed_run {arrivals : List Arrival} (hnil : s₀.destsOf o = [])
    (harrivals : ∀ arrival ∈ arrivals, arrival.msg.originatorAddress = o ∧
      (s₀.findSymLinkTuple arrival.senderIface arrival.now).isSome = true)
    (hok : ∀ before arrival later, arrivals = before ++ arrival :: later →
      StepOk arrival.msg (latest (before.map (·.msg)))) :
    Viewed o s₀ (s₀.processAll arrivals) (latest (arrivals.map (·.msg))) := by
  induction arrivals using List.reverseRecOn with
  | nil => exact ⟨rfl, hnil⟩
  | append_singleton before arrival ih =>
    have hbefore := ih (fun a ha => harrivals a (List.mem_append_left _ ha)) fun b a l heq =>
      hok b a (l ++ [arrival]) (by rw [heq]; simp)
    obtain ⟨rfl, hsym⟩ := harrivals arrival (List.mem_append_right _ (List.mem_singleton_self _))
    rw [processAll, List.foldl_append, List.map_append]
    exact (latest_append _ _).symm ▸ hbefore.processTc hsym (hok before arrival [] rfl)

theorem Viewed.follows {l : Option Latest} (h : Viewed o s₀ s l) : Follows o s₀ s ((l.map (·.advertised)).getD []) := by
  cases l with
  | none =>
    obtain ⟨rfl, hnil⟩ := h
    exact ⟨hnil ▸ List.nodup_nil, fun addr => by rw [hnil]; rfl, rfl⟩
  | some latest => exact ⟨Holds.nodup h, Holds.mem h, Holds.others h⟩

/-- While the plain order is right at each message, the view follows the newest messages in every state. -/
theorem follows_latest {arrivals before : List Arrival} (hreached : before <+: arrivals) (hnil : s₀.destsOf o = [])
    (harrivals : ∀ arrival ∈ arrivals, arrival.msg.originatorAddress = o ∧
      (s₀.findSymLinkTuple arrival.senderIface arrival.now).isSome = true)
    (hok : ∀ earlier arrival later, arrivals = earlier ++ arrival :: later →
      StepOk arrival.msg (latest (earlier.map (·.msg)))) :
    Follows o s₀ (s₀.processAll before) (((latest (before.map (·.msg))).map (·.advertised)).getD []) := by
  obtain ⟨after, rfl⟩ := hreached
  refine (viewed_run hnil (fun a ha => harrivals a (List.mem_append_left _ ha)) fun b a l heq => ?_).follows
  exact hok b a (l ++ after) (by rw [heq]; simp)

/-- A node with a symmetric link to the interface 2. -/
def linked : OlsrState := ⟨[⟨1, 2, 10, 10⟩], [], [], [], [], [], [], List.nodup_nil⟩

/-- Three messages of the originator 2: its neighbors, the same ones again, and a new set. -/
def rising : List Arrival :=
  [⟨0, 2, 2, 5, 7, [3, 4]⟩, ⟨1, 2, 2, 5, 7, [4]⟩, ⟨2, 2, 2, 5, 8, [5]⟩]

theorem follows_latest_rising : Follows 2 linked (linked.processAll rising) [5] :=
  follows_latest (List.prefix_refl rising) rfl (by decide) (by
    intro earlier arrival later heq
    match earlier, heq with
    | [], heq => exact trivial
    | [_], heq =>
      obtain ⟨rfl, rfl, -⟩ := by simpa [rising] using heq
      exact .inl rfl
    | [_, _], heq =>
      obtain ⟨rfl, rfl, rfl, -⟩ := by simpa [rising] using heq
      exact .inr (.inl ⟨by decide, .inl (by decide)⟩)
    | _ :: _ :: _ :: _, heq => simp [rising] at heq)

/-- Two messages of the originator 2, whose counter passes from 65535 to 0. -/
def wrapping : List Arrival := [⟨0, 2, 2, 5, 65535, [3]⟩, ⟨1, 2, 2, 5, 0, [4]⟩]

/-- The second message is discarded. -/
theorem not_follows_wrapping :
    linked.destsOf 2 = [] ∧
    (∀ arrival ∈ wrapping, arrival.msg.originatorAddress = 2 ∧
      (linked.findSymLinkTuple arrival.senderIface arrival.now).isSome = true) ∧
    wrapping.map (·.msg.ansn) = [65535, 65535 + 1] ∧
    ((latest (wrapping.map (·.msg))).map (·.advertised)).getD [] = [4] ∧
    (linked.processAll wrapping).destsOf 2 = [3] ∧ ¬ Follows 2 linked (linked.processAll wrapping) [4] := by
  refine ⟨rfl, by decide, rfl, by decide, by decide, fun hfollows => ?_⟩
  have hmem : 4 ∈ (linked.processAll wrapping).destsOf 2 := (hfollows.mem 4).2 (by decide)
  exact absurd hmem (by decide)

end OlsrState

end Ns3Raft.Olsr
