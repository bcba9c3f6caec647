import Mathlib.Order.Bounds.Defs
import Ns3Raft.Raft.Lease

/-! # The quorum positions

`handle_append_entries_resp` sorts the matched indexes in descending order, with the leader's own,
and `is_leader` sorts the response times in ascending order, without it. Both read the element that
the last server needed for a majority has.
-/

namespace Ns3Raft.Raft

open Majority

/-- In a descending list an element is at least `i` exactly if more elements are than are in front of it. -/
theorem le_getElem_iff {xs : List Nat} (hs : xs.Pairwise (· ≥ ·)) {k : Nat} (hk : k < xs.length) (i : Nat) :
    i ≤ xs[k] ↔ k < xs.countP (i ≤ ·) := by
  have hless := getElem_iff_le_countP (p := fun a => decide (a < i)) hs
    (fun a b hab ha => decide_eq_true (Nat.lt_of_le_of_lt hab (of_decide_eq_true ha))) hk
  have hnot : (fun a => decide (¬ decide (i ≤ a) = true)) = fun a : Nat => decide (a < i) := by
    funext a
    rw [decide_eq_decide, decide_eq_true_eq, Nat.not_le]
  have hsplit := xs.length_eq_countP_add_countP (i ≤ ·)
  rw [hnot] at hsplit
  rw [decide_eq_true_eq] at hless
  omega

namespace RaftServer

/-- The last indexes that a leader knows of, its own first. -/
def knownIndexes (s : RaftServer) : List Nat := s.logStore.lastIndex :: s.peers.map (·.matchedIdx)

/-- More than half of the servers, the leader among them, have got as far as `i`. -/
def MajorityHas (s : RaftServer) (i : Nat) : Prop :=
  s.peers.length + 1 < 2 * s.knownIndexes.countP (i ≤ ·)

theorem le_majorityIndex_iff (s : RaftServer) (i : Nat) : i ≤ s.majorityIndex ↔ s.MajorityHas i := by
  have hperm := List.perm_insertionSort (· ≥ ·) s.knownIndexes
  have hsorted := List.pairwise_insertionSort (· ≥ ·) s.knownIndexes
  have hlength : (s.knownIndexes.insertionSort (· ≥ ·)).length = s.peers.length + 1 := by
    rw [hperm.length_eq, knownIndexes, List.length_cons, List.length_map]
  have hk : (s.peers.length + 1) / 2 < (s.knownIndexes.insertionSort (· ≥ ·)).length := by omega
  have hget : s.majorityIndex = (s.knownIndexes.insertionSort (· ≥ ·))[(s.peers.length + 1) / 2] := by
    rw [majorityIndex, ← knownIndexes, List.getD_eq_getElem?_getD, List.getElem?_eq_getElem hk, Option.getD_some]
  rw [hget, le_getElem_iff hsorted hk, hperm.countP_eq, MajorityHas]
  omega

end RaftServer

namespace Clocked

/-- The time since the last response of a peer. -/
def age (c : Clocked) (now : Nat) (p : Peer) : Int := now - c.lastResp p.id

/-- The leader and the peers heard from in this time are a strict majority. -/
def MajorityWithin (c : Clocked) (now : Nat) (a : Int) : Prop :=
  c.server.peers.length + 1 < 2 * (1 + c.server.peers.countP fun p => c.age now p ≤ a)

theorem quorumAge_le_iff (c : Clocked) (now : Nat) (hne : c.server.peers ≠ []) (a : Int) :
    now - (c.quorumResp : Int) ≤ a ↔ c.MajorityWithin now a := by
  obtain ⟨times, htimes⟩ : ∃ times, (c.server.peers.map fun p => c.lastResp p.id).insertionSort (· ≤ ·) = times :=
    ⟨_, rfl⟩
  have hperm := List.perm_insertionSort (· ≤ ·) (c.server.peers.map fun p => c.lastResp p.id)
  have hsorted := List.pairwise_insertionSort (· ≤ ·) (c.server.peers.map fun p => c.lastResp p.id)
  rw [htimes] at hperm hsorted
  have hlength : times.length = c.server.peers.length := by rw [hperm.length_eq, List.length_map]
  have hpos : 0 < c.server.peers.length := List.length_pos_iff.mpr hne
  have hk : c.server.peers.length / 2 < times.length := by omega
  have hget : c.quorumResp = times[c.server.peers.length / 2] := by
    rw [quorumResp, htimes, List.getD_eq_getElem?_getD, List.getElem?_eq_getElem hk, Option.getD_some]
  have hcount := getElem_iff_le_countP (p := fun t : Nat => decide ((now : Int) - t ≤ a)) hsorted
    (fun t u htu ht => decide_eq_true (by have := of_decide_eq_true ht; omega)) hk
  rw [hperm.countP_eq, List.countP_map, decide_eq_true_eq, hlength] at hcount
  have hages : ((fun t : Nat => decide ((now : Int) - t ≤ a)) ∘ fun p : Peer => c.lastResp p.id) =
      fun p => decide (c.age now p ≤ a) := rfl
  rw [hget, hcount, hages, MajorityWithin]
  omega

/-- The index that is committed is the largest that a majority has, and the age that is looked at is the
smallest within which a majority has been heard from. -/
theorem quorum_positions (c : Clocked) (now : Nat) (hne : 1 ≤ c.server.peers.length) :
    IsGreatest {i | c.server.MajorityHas i} c.server.majorityIndex ∧
      IsLeast {a : Int | c.MajorityWithin now a} (now - (c.quorumResp : Int)) := by
  have hsome : c.server.peers ≠ [] := List.length_pos_iff.mp hne
  refine ⟨⟨?_, fun i hi => ?_⟩, ?_, fun a ha => ?_⟩
  · exact (c.server.le_majorityIndex_iff _).1 (Nat.le_refl _)
  · exact (c.server.le_majorityIndex_iff i).2 hi
  · exact (c.quorumAge_le_iff now hsome _).1 (Int.le_refl _)
  · exact (c.quorumAge_le_iff now hsome a).2 ha

open Process.TwoClusters in
theorem quorum_positions_two :
    IsGreatest {i | (silent.servers 1).server.MajorityHas i} (silent.servers 1).server.majorityIndex ∧
      IsLeast {a : Int | (silent.servers 1).MajorityWithin 5 a} (5 - ((silent.servers 1).quorumResp : Int)) :=
  quorum_positions (silent.servers 1) 5 (by decide +kernel)

end Clocked

end Ns3Raft.Raft
