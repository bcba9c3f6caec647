import Ns3Raft.Lib.Run
import Ns3Raft.Traffic.FqCoDelDequeue

/-! # Runs of FqCoDel

Every packet that is queued leaves in the order of its flow or is still there, a disc that holds packets
returns one or ends up empty, and two flows that wait among the old ones are served equally.
-/

namespace Ns3Raft.Traffic

open Ns3Raft.Lib

/-! ## Calls -/

inductive FqCoDelCall where
  | enqueue (now : Nat) (ret : Option Nat) (item : QueueDiscItem)
  | dequeue (now fuel : Nat)

/-- The disc, and what has become of the items so far. -/
structure FqCoDelRun where
  disc : FqCoDelQueueDisc
  log : List QueueEvent

namespace FqCoDelRun

/-- The events of a call and the disc after it. `none` when it does not return. -/
def answer (r : FqCoDelRun) : FqCoDelCall → Option (List QueueEvent × FqCoDelQueueDisc)
  | .enqueue now ret item => (r.disc.doEnqueue now ret item).map Prod.snd
  | .dequeue now fuel => (r.disc.doDequeue now fuel).map Prod.snd

def step (r : FqCoDelRun) (call : FqCoDelCall) : FqCoDelRun :=
  match r.answer call with
  | some (events, disc) => ⟨disc, r.log ++ events⟩
  | none => r

/-- An item that is enqueued has at most `M` bytes, and some; and the call returns. -/
def Asked (M : Nat) (r : FqCoDelRun) (call : FqCoDelCall) : Prop :=
  (match call with
    | .enqueue _ _ item => 0 < item.size ∧ item.size ≤ M
    | .dequeue _ _ => True) ∧ (r.answer call).isSome

/-- Both flows are among the old ones, before the call and after it. -/
def Backlogged (a b : Nat) (r : FqCoDelRun) (call : FqCoDelCall) : Prop :=
  (a ∈ r.disc.oldFlows ∧ b ∈ r.disc.oldFlows) ∧ a ∈ (r.step call).disc.oldFlows ∧ b ∈ (r.step call).disc.oldFlows

instance (M : Nat) (r : FqCoDelRun) (call : FqCoDelCall) : Decidable (Asked M r call) := by
  cases call with
  | enqueue => exact inferInstanceAs (Decidable (_ ∧ _))
  | dequeue => exact inferInstanceAs (Decidable (_ ∧ _))

instance (a b : Nat) (r : FqCoDelRun) (call : FqCoDelCall) : Decidable (Backlogged a b r call) :=
  inferInstanceAs (Decidable (_ ∧ _))

end FqCoDelRun

namespace FqCoDelQueueDisc

variable {s s' : FqCoDelQueueDisc} {M quantum flows dropBatchSize maxSize : Nat} {interval target : Int}
  {out : List QueueEvent}

/-- What one call that returns does. -/
structure Called (M : Nat) (s : FqCoDelQueueDisc) (out : List QueueEvent) (s' : FqCoDelQueueDisc) : Prop where
  sound : Sound M s'
  quantum : s'.quantum = s.quantum
  maxSize : s'.maxSize = s.maxSize
  order : InOrder s.queues out s'.queues
  grows : s.flowsIndices <+: s'.flowsIndices
  classified : ∀ h i item, .accepted h i item ∈ out → (h, i) ∈ s'.flowsIndices
  bytes : ∀ x ∈ transmissions out, x.2 ≤ M
  path : RoundRobin.Path (rules s.quantum) (fun t => ∀ j ∈ s.oldFlows, j ∈ s'.oldFlows → j ∈ t.old) s.roundRobin
    (transmissions out) s'.roundRobin

theorem Entered.called (h : Entered M s out s') : Called M s out s' := by
  refine ⟨h.sound, h.quantum, h.maxSize, h.order, h.grows, h.classified, ?_, ?_⟩
  · rw [h.silent]
    exact nofun
  · rw [h.silent]
    rcases h.step with heq | hstep
    · rw [heq]
      exact .refl _
    · exact (RoundRobin.Path.refl _).internal hstep

theorem Served.called (h : Served M s out s') : Called M s out s' := by
  have hgrows : s.flowsIndices <+: s'.flowsIndices := h.same.flowsIndices.symm ▸ List.prefix_refl _
  exact ⟨h.sound, h.same.quantum, h.same.maxSize, h.order, hgrows, fun k i x hx => absurd hx (h.takes k i x), h.bytes,
    h.path⟩

theorem Sound.new (hlimits : Limits quantum maxSize M) (hflows : 0 < flows) :
    Sound M (new quantum flows dropBatchSize maxSize interval target) := by
  have hlists : Lists (FqCoDelQueueDisc.new quantum flows dropBatchSize maxSize interval target) :=
    ⟨List.nodup_nil, nofun, nofun, nofun, nofun⟩
  exact ⟨hlimits, hflows, hlists, nofun, ⟨nofun, nofun, ⟨rfl, rfl⟩, Nat.zero_le _⟩, ⟨rfl, List.nodup_nil⟩⟩

/-- Flows and hashes belong to each other. -/
theorem Indexed.unique (hs : Indexed s) {h h' i i' : Nat} (hmem : (h, i) ∈ s.flowsIndices)
    (hmem' : (h', i') ∈ s.flowsIndices) : h = h' ↔ i = i' := by
  have hflows : (s.flowsIndices.map Prod.snd).Nodup := by
    rw [hs.flows]
    exact List.nodup_range
  constructor
  · intro heq
    exact congrArg Prod.snd (List.inj_on_of_nodup_map hs.hashes hmem hmem' heq)
  · intro heq
    exact congrArg Prod.fst (List.inj_on_of_nodup_map hflows hmem hmem' heq)

theorem Sound.counters (hs : Sound M s) : s.counters = ⟨(stored s.queues).length, sizes (stored s.queues)⟩ := by
  have hle := sizes_le fun item hitem => (hs.holding.sized item hitem).2
  have hroom : (stored s.queues).length * M ≤ (s.maxSize + 1) * M :=
    Nat.mul_le_mul_right M (Nat.le_succ_of_le hs.holding.room)
  have hbytes : sizes (stored s.queues) < 2 ^ 32 :=
    Nat.lt_of_le_of_lt (Nat.le_trans hle hroom) hs.limits.room
  have hlength : (stored s.queues).length < 2 ^ 32 :=
    Nat.lt_of_le_of_lt (Nat.le_succ_of_le hs.holding.room) hs.maxSize_lt
  have hpackets := hs.holding.counts.nPackets
  have hnBytes := hs.holding.counts.nBytes
  rw [Nat.mod_eq_of_lt hlength] at hpackets
  rw [Nat.mod_eq_of_lt hbytes] at hnBytes
  rw [← hpackets, ← hnBytes]

/-- With enough fuel the answer is always the same. -/
theorem Sound.doDequeue (hs : Sound M s) (now : Nat) : ∃ sent out s' enough,
    (∀ fuel ≥ enough, s.doDequeue now fuel = some (sent, out, s')) ∧ Answers sent out s' := by
  obtain ⟨⟨sent, out, s'⟩, hrun⟩ := dequeueLoop_some now hs [] (Nat.lt_succ_self (s.roundRobin.work s.quantum))
  obtain ⟨log, hlog, -, hanswers⟩ := dequeueLoop_served hs hrun
  rw [List.nil_append] at hlog
  subst hlog
  refine ⟨sent, out, s', (s.roundRobin.work s.quantum).succ + 1, fun fuel hfuel => ?_, hanswers⟩
  induction fuel, hfuel using Nat.le_induction with
  | base => exact hrun
  | succ fuel _ ih => exact dequeueLoop_succ ih

end FqCoDelQueueDisc

/-! ## Runs -/

namespace FqCoDelRun

open FqCoDelQueueDisc

variable {r r' : FqCoDelRun} {call : FqCoDelCall} {s : FqCoDelQueueDisc}
  {M a b quantum flows dropBatchSize maxSize : Nat} {interval target : Int}

theorem Asked.called (h : Asked M r call) (hs : Sound M r.disc) :
    ∃ out, (r.step call).log = r.log ++ out ∧ Called M r.disc out (r.step call).disc := by
  obtain ⟨hsize, hreturns⟩ := h
  obtain ⟨⟨out, disc⟩, hanswer⟩ := Option.isSome_iff_exists.1 hreturns
  have hstep : r.step call = ⟨disc, r.log ++ out⟩ := by rw [step, hanswer]
  rw [hstep]
  refine ⟨out, rfl, ?_⟩
  cases call with
  | enqueue now ret item =>
      obtain ⟨taken, log, s', hcall, hentered⟩ := hs.doEnqueue now ret hsize
      rw [answer, hcall] at hanswer
      obtain ⟨rfl, rfl⟩ := Prod.mk.inj (Option.some.inj hanswer)
      exact hentered.called
  | dequeue now fuel =>
      obtain ⟨⟨sent, log, s'⟩, hcall, heq⟩ := Option.map_eq_some_iff.1 hanswer
      obtain ⟨rfl, rfl⟩ := Prod.mk.inj heq
      obtain ⟨log, hlog, hserved, -⟩ := dequeueLoop_served hs hcall
      rw [List.nil_append] at hlog
      rw [hlog]
      exact hserved.called

/-- What holds in a run from `s`. -/
structure Right (M : Nat) (s : FqCoDelQueueDisc) (r : FqCoDelRun) : Prop where
  sound : Sound M r.disc
  quantum : r.disc.quantum = s.quantum
  maxSize : r.disc.maxSize = s.maxSize
  order : InOrder s.queues r.log r.disc.queues
  classified : ∀ h i item, .accepted h i item ∈ r.log → (h, i) ∈ r.disc.flowsIndices
  bytes : ∀ x ∈ transmissions r.log, x.2 ≤ M

theorem Right.start (hs : Sound M s) : Right M s ⟨s, []⟩ := by
  refine ⟨hs, rfl, rfl, .refl _, ?_, ?_⟩
  · intro h i item hitem
    exact absurd hitem List.not_mem_nil
  · intro x hx
    exact absurd hx List.not_mem_nil

theorem Right.step (hr : Right M s r) (h : Asked M r call) : Right M s (r.step call) := by
  obtain ⟨out, hlog, hcalled⟩ := h.called hr.sound
  refine ⟨hcalled.sound, hcalled.quantum.trans hr.quantum, hcalled.maxSize.trans hr.maxSize, ?_, fun k i x hx => ?_,
    fun x hx => ?_⟩
  · rw [hlog]
    exact hr.order.trans hcalled.order
  · rw [hlog] at hx
    rcases List.mem_append.1 hx with hx | hx
    · exact hcalled.grows.subset (hr.classified k i x hx)
    · exact hcalled.classified k i x hx
  · rw [hlog, transmissions, List.filterMap_append] at hx
    exact (List.mem_append.1 hx).elim (hr.bytes x) (hcalled.bytes x)

theorem right_of_reachable (hs : Sound M s) (h : Transition.Reachable step (Asked M) ⟨s, []⟩ r) : Right M s r := by
  obtain ⟨tr, hrun⟩ := h
  exact hrun.invariant (.start hs) fun _ _ hr hasked => hr.step hasked

/-! ## Two flows -/

namespace TwoFlows

/-- A packet of at most 1500 bytes. -/
def packet (uid size : Nat) : QueueDiscItem := ⟨uid, size % 1501, 0, by omega⟩

def empty : FqCoDelQueueDisc := .new 300 2 64 4 100000000 5000000

/-- The fifth packet is one too many, and two of its flow are dropped. At the end both flows are old. -/
def first : List FqCoDelCall :=
  [.enqueue 10 (some 0) (packet 1 400), .enqueue 10 (some 1) (packet 2 400), .enqueue 20 (some 2) (packet 3 200),
    .enqueue 20 (some 3) (packet 4 100), .enqueue 30 (some 0) (packet 5 500), .dequeue 40 9, .dequeue 50 9,
    .enqueue 60 (some 0) (packet 6 300), .dequeue 70 9]

def second : List FqCoDelCall :=
  [.enqueue 80 (some 1) (packet 7 1200), .enqueue 80 (some 0) (packet 8 200), .dequeue 90 9, .dequeue 90 9,
    .enqueue 95 (some 0) (packet 9 300), .dequeue 99 9]

def waiting : FqCoDelRun := first.foldl FqCoDelRun.step ⟨empty, []⟩

def served : FqCoDelRun := second.foldl FqCoDelRun.step ⟨waiting.disc, []⟩

theorem limits : Limits 300 4 1500 := ⟨by decide, by decide, by decide, by decide, by decide⟩

theorem runs : Transition.Reachable step (Asked 1500) ⟨empty, []⟩ waiting ∧
    Transition.Reachable step (fun r call => Asked 1500 r call ∧ Backlogged 0 1 r call) ⟨waiting.disc, []⟩ served :=
  ⟨⟨_, Transition.run_of_passes _ _ _ _ (by decide +kernel)⟩, ⟨_, Transition.run_of_passes _ _ _ _ (by decide +kernel)⟩⟩

end TwoFlows

/-! ## What every run keeps -/

/-- In every run the packets of a flow leave its queue in the order in which they came, each once; flows and hashes
belong to each other; the counters tell what is queued, which is never more than the disc may hold; and the two lists
have exactly the flows of their status, and all that have packets. -/
theorem flows_exact (hlimits : Limits quantum maxSize M) (hflows : 0 < flows)
    (h : Transition.Reachable step (Asked M) ⟨.new quantum flows dropBatchSize maxSize interval target, []⟩ r) :
    (∀ i, arrivals i r.log = departures i r.log ++ queued r.disc.queues i) ∧
      (∀ h i x h' i' x', .accepted h i x ∈ r.log → .accepted h' i' x' ∈ r.log → (h = h' ↔ i = i')) ∧
      r.disc.counters = ⟨(stored r.disc.queues).length, sizes (stored r.disc.queues)⟩ ∧
      (stored r.disc.queues).length ≤ maxSize ∧ Lists r.disc := by
  have hr := right_of_reachable (.new hlimits hflows) h
  refine ⟨hr.order, fun h i x h' i' x' hx hx' => ?_, hr.sound.counters, ?_, hr.sound.lists⟩
  · exact hr.sound.indexed.unique (hr.classified h i x hx) (hr.classified h' i' x' hx')
  · have hmax : r.disc.maxSize = maxSize := hr.maxSize
    rw [← hmax]
    exact hr.sound.holding.room

theorem two_flows_exact : (∀ i, arrivals i TwoFlows.waiting.log =
      departures i TwoFlows.waiting.log ++ queued TwoFlows.waiting.disc.queues i) ∧
    (∀ h i x h' i' x', .accepted h i x ∈ TwoFlows.waiting.log → .accepted h' i' x' ∈ TwoFlows.waiting.log →
      (h = h' ↔ i = i')) ∧
    TwoFlows.waiting.disc.counters =
      ⟨(stored TwoFlows.waiting.disc.queues).length, sizes (stored TwoFlows.waiting.disc.queues)⟩ ∧
    (stored TwoFlows.waiting.disc.queues).length ≤ 4 ∧ Lists TwoFlows.waiting.disc :=
  flows_exact TwoFlows.limits (by decide) TwoFlows.runs.1

/-- After every run the next call returns: a packet can be enqueued, and `DoDequeue` comes to an end, with a packet or
with empty queues. -/
theorem calls_return (hlimits : Limits quantum maxSize M) (hflows : 0 < flows)
    (h : Transition.Reachable step (Asked M) ⟨.new quantum flows dropBatchSize maxSize interval target, []⟩ r)
    (now : Nat) :
    (∀ ret item, 0 < item.size → item.size ≤ M → (r.disc.doEnqueue now ret item).isSome) ∧
      ∃ sent out s' enough, (∀ fuel ≥ enough, r.disc.doDequeue now fuel = some (sent, out, s')) ∧
        Answers sent out s' := by
  have hr := right_of_reachable (.new hlimits hflows) h
  refine ⟨fun ret item hpos hle => ?_, hr.sound.doDequeue now⟩
  obtain ⟨taken, log, s', hcall, -⟩ := hr.sound.doEnqueue now ret ⟨hpos, hle⟩
  rw [hcall]
  rfl

theorem two_flows_return : (∀ ret item, 0 < item.size → item.size ≤ 1500 →
      (TwoFlows.waiting.disc.doEnqueue 80 ret item).isSome) ∧
    ∃ sent out s' enough, (∀ fuel ≥ enough, TwoFlows.waiting.disc.doDequeue 80 fuel = some (sent, out, s')) ∧
      Answers sent out s' :=
  calls_return TwoFlows.limits (by decide) TwoFlows.runs.1 80

/-! ## Two old flows -/

theorem path_of_reachable (hs : Sound M s)
    (h : Transition.Reachable step (fun r call => Asked M r call ∧ Backlogged a b r call) ⟨s, []⟩ r) :
    Right M s r ∧ RoundRobin.Path (rules s.quantum) (fun t => a ∈ t.old ∧ b ∈ t.old) s.roundRobin (transmissions r.log)
      r.disc.roundRobin := by
  obtain ⟨tr, hrun⟩ := h
  apply hrun.invariant (P := fun r => Right M s r ∧ RoundRobin.Path (rules s.quantum)
    (fun t => a ∈ t.old ∧ b ∈ t.old) s.roundRobin (transmissions r.log) r.disc.roundRobin)
  · exact ⟨.start hs, .refl _⟩
  · intro r call hr ⟨hasked, hbefore, hafter⟩
    refine ⟨hr.1.step hasked, ?_⟩
    obtain ⟨out, hlog, hcalled⟩ := hasked.called hr.1.sound
    have hout := hcalled.path
    rw [hr.1.quantum] at hout
    rw [hlog, transmissions, List.filterMap_append]
    apply hr.2.trans
    apply hout.mono
    intro t ht
    exact ⟨ht a hbefore.1 hafter.1, ht b hbefore.2 hafter.2⟩

/-- From every state that a run reaches, two flows that stay among the old ones send the same number of bytes, up to
two quanta and two packets, whatever else is enqueued and dropped. -/
theorem old_flows_fair (hlimits : Limits quantum maxSize M) (hflows : 0 < flows)
    (h : Transition.Reachable step (Asked M) ⟨.new quantum flows dropBatchSize maxSize interval target, []⟩ r)
    (h' : Transition.Reachable step (fun r call => Asked M r call ∧ Backlogged a b r call) ⟨r.disc, []⟩ r') :
    RoundRobin.Within quantum M (RoundRobin.bytes a (transmissions r'.log))
      (RoundRobin.bytes b (transmissions r'.log)) := by
  have hr := right_of_reachable (.new hlimits hflows) h
  obtain ⟨hr', hpath⟩ := path_of_reachable hr.sound h'
  have hquantum : r.disc.quantum = quantum := hr.quantum
  rw [← hquantum]
  have hlisted : RoundRobin.Listed r.disc.roundRobin := hr.sound.lists.nodup
  apply hpath.within (Int.natCast_nonneg M) hr.sound.limits.exact hlisted hr.sound.ranged
  intro x hx
  exact Int.ofNat_le.2 (hr'.bytes x hx)

theorem two_flows_fair : RoundRobin.Within (300 : Nat) (1500 : Nat)
    (RoundRobin.bytes 0 (transmissions TwoFlows.served.log)) (RoundRobin.bytes 1 (transmissions TwoFlows.served.log)) :=
  old_flows_fair TwoFlows.limits (by decide) TwoFlows.runs.1 TwoFlows.runs.2

end FqCoDelRun

end Ns3Raft.Traffic
