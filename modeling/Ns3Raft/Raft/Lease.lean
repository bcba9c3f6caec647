import Ns3Raft.Lib.Majority
import Ns3Raft.Lib.Run
import Ns3Raft.Raft.Step

/-! # The lease of a leader

`is_leader` of all servers of one process, over the clock and the times at which
each server last heard from its peers. The elapsed time is held in one variable
for all of them, and is only computed again while it is above the bound.
-/

namespace Ns3Raft.Raft

open Transition Majority

/-- `GetMilliSeconds` of a time in nanoseconds. -/
def getMilliSeconds (t : Nat) : Int := ((t / 1000000 : Nat) : Int)

/-- `static_cast<int32>`. -/
def toInt32 (x : Int) : Int := Int.bmod x (2 ^ 32)

def int32Max : Int := 2 ^ 31 - 1

/-- A server with the last response time of each of its peers. -/
structure Clocked where
  server : RaftServer
  lastResp : SrvId → Nat

namespace Clocked

def bound (c : Clocked) : Int := c.server.params.electionTimeoutUpperBound * 2

/-- The response time in the middle of the sorted ones. -/
def quorumResp (c : Clocked) : Nat :=
  ((c.server.peers.map fun p => c.lastResp p.id).insertionSort (· ≤ ·)).getD
    (c.server.peers.length / 2) 0

/-- `is_leader`, from the static variable and to its new value. -/
def isLeader (c : Clocked) (now : Nat) (elapsed : Int) : Bool × Int :=
  if c.server.role = .leader ∧ c.server.peers ≠ [] ∧ c.bound < elapsed then
    let elapsed := toInt32 (getMilliSeconds now - getMilliSeconds c.quorumResp)
    if c.bound < elapsed then (false, elapsed) else (true, elapsed)
  else (decide (c.server.role = .leader), elapsed)

/-- A peer whose last response is recent. -/
def recent (c : Clocked) (now : Nat) (p : Peer) : Bool :=
  decide (getMilliSeconds now - getMilliSeconds (c.lastResp p.id) ≤ c.bound)

/-- The server itself and the peers heard from recently are a majority. -/
def HeardFromMajority (c : Clocked) (now : Nat) : Prop :=
  c.server.peers.length + 1 < 2 * (c.server.peers.countP (c.recent now) + 1)

instance (c : Clocked) (now : Nat) : Decidable (c.HeardFromMajority now) :=
  inferInstanceAs (Decidable (_ < _))

theorem quorumResp_recent_iff (c : Clocked) (now : Nat) (hne : c.server.peers ≠ []) :
    getMilliSeconds now - getMilliSeconds c.quorumResp ≤ c.bound ↔ c.HeardFromMajority now := by
  obtain ⟨times, htimes⟩ : ∃ times,
      (c.server.peers.map fun p => c.lastResp p.id).insertionSort (· ≤ ·) = times := ⟨_, rfl⟩
  have hperm := List.perm_insertionSort (· ≤ ·) (c.server.peers.map fun p => c.lastResp p.id)
  have hsorted := List.pairwise_insertionSort (· ≤ ·) (c.server.peers.map fun p => c.lastResp p.id)
  rw [htimes] at hperm hsorted
  have hlen : times.length = c.server.peers.length := by rw [hperm.length_eq, List.length_map]
  have hpos : 0 < c.server.peers.length := List.length_pos_iff.mpr hne
  have hk : c.server.peers.length / 2 < times.length := by omega
  have hget : c.quorumResp = times[c.server.peers.length / 2] := by
    rw [quorumResp, htimes, List.getD_eq_getElem?_getD, List.getElem?_eq_getElem hk, Option.getD_some]
  -- later times are recent when earlier ones are
  have hmono : ∀ t u, t ≤ u →
      decide (getMilliSeconds now - getMilliSeconds t ≤ c.bound) = true →
      decide (getMilliSeconds now - getMilliSeconds u ≤ c.bound) = true := by
    intro t u htu h
    have hms : getMilliSeconds t ≤ getMilliSeconds u :=
      Int.ofNat_le.mpr (Nat.div_le_div_right htu)
    rw [decide_eq_true_eq] at h ⊢
    omega
  have hcount := getElem_iff_le_countP hsorted hmono hk
  rw [hperm.countP_eq, List.countP_map, decide_eq_true_eq, hlen] at hcount
  have hrecent : ((fun t => decide (getMilliSeconds now - getMilliSeconds t ≤ c.bound)) ∘
      fun p : Peer => c.lastResp p.id) = c.recent now := rfl
  rw [hget, hcount, hrecent, HeardFromMajority]
  omega

theorem toInt32_of_fits {x : Int} (h0 : 0 ≤ x) (h : x ≤ int32Max) : toInt32 x = x := by
  unfold toInt32 int32Max at *
  rw [Int.bmod_eq_emod, Int.emod_eq_of_lt h0 (by omega), if_neg (by omega)]
  omega

/-- The times are looked at, and their difference fits: the answer is that of the majority. -/
theorem isLeader_of_looked {c : Clocked} {now : Nat} {elapsed : Int}
    (hrole : c.server.role = .leader) (hne : c.server.peers ≠ []) (hlook : c.bound < elapsed)
    (hpast : c.quorumResp ≤ now)
    (hfits : getMilliSeconds now - getMilliSeconds c.quorumResp ≤ int32Max) :
    (c.isLeader now elapsed).1 = decide (c.HeardFromMajority now) := by
  have hms : getMilliSeconds c.quorumResp ≤ getMilliSeconds now :=
    Int.ofNat_le.mpr (Nat.div_le_div_right hpast)
  have hiff := c.quorumResp_recent_iff now hne
  unfold isLeader
  rw [if_pos ⟨hrole, hne, hlook⟩, toInt32_of_fits (by omega) hfits]
  dsimp only
  split
  · rename_i hlt
    rw [eq_comm, decide_eq_false_iff_not, ← hiff]
    omega
  · rename_i hle
    rw [eq_comm, decide_eq_true_eq, ← hiff]
    omega

/-- Once a small value is cached, a leader is told so whatever it heard. -/
theorem isLeader_of_cached {c : Clocked} {now : Nat} {elapsed : Int}
    (hcached : elapsed ≤ c.bound) :
    c.isLeader now elapsed = (decide (c.server.role = .leader), elapsed) := by
  unfold isLeader
  rw [if_neg]
  intro h
  omega

/-- The outcome of the response-time test in the server's own `is_leader`. -/
def leaseOk (c : Clocked) (now : Nat) (elapsed : Int) : Bool :=
  decide (elapsed ≤ c.bound ∨
    toInt32 (getMilliSeconds now - getMilliSeconds c.quorumResp) ≤ c.bound)

theorem isLeader_eq (c : Clocked) (now : Nat) (elapsed : Int) :
    (c.isLeader now elapsed).1 = c.server.isLeader (c.leaseOk now elapsed) := by
  unfold isLeader RaftServer.isLeader leaseOk
  by_cases hrole : c.server.role = .leader
  · by_cases hne : c.server.peers = []
    · simp [hrole, hne]
    · by_cases hlook : c.bound < elapsed
      · rw [if_pos ⟨hrole, hne, hlook⟩]
        by_cases hfar : c.bound < toInt32 (getMilliSeconds now - getMilliSeconds c.quorumResp)
        · simp [hrole, hne, hlook, hfar]
        · simp [hrole, hfar, not_lt.mp hfar]
      · simp [hrole, hlook, not_lt.mp hlook]
  · simp [hrole]

/-- The response times once an input is taken in: `handle_peer_resp` sets that of its peer. -/
def heard (c : Clocked) (now : Nat) : Input → SrvId → Nat
  | .resp m .resp _ =>
      if m.src ∈ c.server.peerIds then Function.update c.lastResp m.src now else c.lastResp
  | _ => c.lastResp

/-- A peer object that is new has not been heard from. -/
def serve (c : Clocked) (now : Nat) (inp : Input) : Clocked :=
  let s := c.server.step inp
  ⟨s, fun p => if p ∈ c.server.peerIds ∧ p ∈ s.peerIds then c.heard now inp p else 0⟩

theorem heard_le {c : Clocked} {now : Nat} (h : ∀ p, c.lastResp p ≤ now) (inp : Input)
    (p : SrvId) : c.heard now inp p ≤ now := by
  cases inp with
  | resp m handler reqType =>
      cases handler with
      | resp =>
          unfold heard
          dsimp only
          split
          · rcases eq_or_ne p m.src with rfl | hne
            · rw [Function.update_self]
            · rw [Function.update_of_ne hne]
              exact h p
          · exact h p
      | _ => exact h p
  | _ => exact h p

theorem serve_le {c : Clocked} {now : Nat} (h : ∀ p, c.lastResp p ≤ now) (inp : Input)
    (p : SrvId) : (c.serve now inp).lastResp p ≤ now := by
  unfold serve
  dsimp only
  split
  · exact heard_le h inp p
  · exact Nat.zero_le _

end Clocked

/-! ## Processes -/

/-- The servers of one process, its clock, and the static variable. -/
structure Process where
  now : Nat
  elapsed : Int
  servers : SrvId → Clocked

/-- Time passes, a server takes an input, or `is_leader` is called on one. What a request
finds `is_leader` to be is a part of that request. -/
inductive ClockEvent where
  | elapse (d : Nat)
  | serve (i : SrvId) (inp : Input)
  | ask (i : SrvId)

namespace Process

def start (boots : SrvId → Boot) : Process :=
  ⟨0, int32Max, fun i => ⟨RaftServer.start (boots i), fun _ => 0⟩⟩

def isLeader (w : Process) (i : SrvId) : Bool × Int := (w.servers i).isLeader w.now w.elapsed

def step (w : Process) : ClockEvent → Process
  | .elapse d => { w with now := w.now + d }
  | .serve i inp =>
      { w with servers := Function.update w.servers i ((w.servers i).serve w.now inp) }
  | .ask i => { w with elapsed := (w.isLeader i).2 }

/-- No response lies in the future. -/
def Past (w : Process) : Prop := ∀ i p, (w.servers i).lastResp p ≤ w.now

theorem Past.step {w : Process} (h : w.Past) (e : ClockEvent) : (w.step e).Past := by
  cases e with
  | elapse d => exact fun i p => (h i p).trans (Nat.le_add_right _ _)
  | serve i inp =>
      intro j p
      show (Function.update w.servers i ((w.servers i).serve w.now inp) j).lastResp p ≤ w.now
      rcases eq_or_ne j i with rfl | hne
      · rw [Function.update_self]
        exact Clocked.serve_le (h j) inp p
      · rw [Function.update_of_ne hne]
        exact h j p
  | ask i => exact h

theorem Past.quorumResp {w : Process} (h : w.Past) (i : SrvId) :
    (w.servers i).quorumResp ≤ w.now := by
  unfold Clocked.quorumResp
  rw [List.getD_eq_getElem?_getD]
  cases hget : (((w.servers i).server.peers.map fun p => (w.servers i).lastResp p.id).insertionSort
      (· ≤ ·))[(w.servers i).server.peers.length / 2]? with
  | none => exact Nat.zero_le _
  | some t =>
      have hmem := (List.perm_insertionSort _ _).mem_iff.mp (List.mem_of_getElem? hget)
      obtain ⟨p, -, rfl⟩ := List.mem_map.mp hmem
      exact h i p.id

/-- A call on a leader with peers looks at the response times: no value within the bound
is cached, and the time since the middle one fits an `int32`. -/
def Looks (w : Process) : ClockEvent → Prop
  | .ask i =>
      (w.servers i).server.role = .leader → (w.servers i).server.peers ≠ [] →
        (w.servers i).bound < w.elapsed ∧
          getMilliSeconds w.now - getMilliSeconds (w.servers i).quorumResp ≤ int32Max
  | _ => True

instance (w : Process) (e : ClockEvent) : Decidable (w.Looks e) := by
  cases e <;> unfold Looks <;> infer_instance

/-- What `is_leader` is meant to answer, by the server's own state and the clock. -/
def Leads (w : Process) (i : SrvId) : Prop :=
  (w.servers i).server.role = .leader ∧
    ((w.servers i).server.peers = [] ∨ (w.servers i).HeardFromMajority w.now)

instance (w : Process) (i : SrvId) : Decidable (w.Leads i) :=
  inferInstanceAs (Decidable (_ ∧ (_ ∨ _)))

/-- Main theorem: a call that looks at the times answers by them, and only by them. -/
theorem lease {boots : SrvId → Boot} {tr : List (Process × ClockEvent)} {w w' : Process}
    {i : SrvId} (h : Run step Looks (start boots) tr w) (hmem : (w', .ask i) ∈ tr) :
    (w'.isLeader i).1 = decide (w'.Leads i) := by
  obtain ⟨hpast, hlooks⟩ := h.of_mem (P := Past) (fun _ _ => Nat.le_refl 0)
    (fun _ e hp _ => hp.step e) hmem
  unfold isLeader Leads
  by_cases hrole : (w'.servers i).server.role = .leader
  · by_cases hne : (w'.servers i).server.peers = []
    · unfold Clocked.isLeader
      rw [if_neg (by simp [hne])]
      simp [hrole, hne]
    · obtain ⟨hlook, hfits⟩ := hlooks hrole hne
      rw [Clocked.isLeader_of_looked hrole hne hlook (hpast.quorumResp i) hfits]
      simp [hrole, hne]
  · unfold Clocked.isLeader
    rw [if_neg (by simp [hrole])]
    simp [hrole]

/-! Two clusters of two servers in one process. Servers 1 and 3 win their elections at
time 0, and nobody hears from a peer again. -/

namespace TwoClusters

def boot (i : SrvId) : Boot := { id := i, config := ⟨0, 0, [⟨i, "a"⟩, ⟨i + 1, "b"⟩]⟩ }

def vote (i : SrvId) : Input :=
  .resp { term := 1, type := .voteResponse, src := i + 1, dst := i, accepted := true } .resp
    .voteRequest

def elections : List ClockEvent :=
  [.serve 1 .electionTimeout, .serve 1 (vote 1), .serve 3 .electionTimeout, .serve 3 (vote 3)]

def tenSeconds : ClockEvent := .elapse 10000000000

def silent : Process := (elections ++ [tenSeconds]).foldl step (start boot)

def asked : Process := (elections ++ [.ask 1, tenSeconds]).foldl step (start boot)

end TwoClusters

open TwoClusters in
theorem lease_of_silent : (silent.isLeader 1).1 = decide (silent.Leads 1) :=
  lease (run_of_passes step Looks (start boot) (elections ++ [tenSeconds, .ask 1])
      (by decide +kernel))
    (by simp [elections, trace, silent])

open TwoClusters in
/-- Server 1 was asked once while its peer was there: ten seconds later it still leads, and
so does server 3, which would not without that call. -/
theorem lease_outlived :
    Reachable step (fun _ _ => True) (start boot) asked ∧
      (asked.isLeader 1).1 = true ∧ ¬ asked.Leads 1 ∧
      (asked.isLeader 3).1 = true ∧ (silent.isLeader 3).1 = false :=
  ⟨⟨_, run_of_passes _ _ _ _ (passes_of_forall fun _ _ => trivial)⟩, by decide +kernel, by decide +kernel,
    by decide +kernel, by decide +kernel⟩

end Process

end Ns3Raft.Raft
