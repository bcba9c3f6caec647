import Ns3Raft.Lib.Majority
import Ns3Raft.Raft.World

/-! # A cluster whose members stay

Every server has the same list of members in its configuration and everyone
else in its peers. This lasts as long as no handler applies a configuration
with other members.
-/

namespace Ns3Raft.Raft

structure Member (S : List SrvConfig) (i : SrvId) (n : Core) : Prop where
  id : n.id = i
  mem : i ∈ S.map (·.id)
  config : n.config.servers = S
  nodup : n.peerIds.Nodup
  peers : ∀ j, j ∈ n.peerIds ↔ j ∈ S.map (·.id) ∧ j ≠ i

def memberIds (S : List SrvConfig) : Finset SrvId := (S.map (·.id)).toFinset

@[simp] theorem mem_memberIds {S : List SrvConfig} {i : SrvId} :
    i ∈ memberIds S ↔ i ∈ S.map (·.id) := List.mem_toFinset

def Payload.snapshotConf? : Payload → Option ClusterConfig
  | .snpSyncReq r => some r.snapshot.lastConfig
  | _ => none

/-- A configuration the input makes the server apply has the same members. -/
def KeepsMembers (S : List SrvConfig) (n : Core) : Input → Prop
  | .commitInBg => ∀ c ∈ (n.log.entryAt (n.sm + 1)).bind (·.conf?), c.servers = S
  | .req m _ _ => m.type = .installSnapshotRequest →
      ∀ c ∈ m.payload.snapshotConf?, c.servers = S
  | .rpcError m _ => m.type = .leaveClusterRequest → n.peers.length ≠ 1
  | _ => True

variable {S : List SrvConfig} {i : SrvId} {n n₀ n' : Core}

namespace Member

/-- The number of members, in the form the majority tests use. -/
theorem card (h : Member S i n) : (memberIds S).card = n.peers.length + 1 := by
  have hset : memberIds S = insert i n.peerIds.toFinset := by
    ext j
    have hp := h.peers j
    have hm := h.mem
    by_cases hj : j = i
    · subst hj
      simp only [mem_memberIds, Finset.mem_insert, true_or, iff_true]
      exact hm
    · simp only [mem_memberIds, Finset.mem_insert, hj, false_or, List.mem_toFinset, hp, ne_eq,
        not_false_eq_true, and_true]
  have hnot : i ∉ n.peerIds.toFinset := by
    rw [List.mem_toFinset, h.peers]
    simp
  rw [hset, Finset.card_insert_of_notMem hnot, List.toFinset_card_of_nodup h.nodup]
  simp [Core.peerIds]

theorem of_peerIds (h : Member S i n) (hid : n'.id = n.id) (hp : n'.peerIds = n.peerIds)
    (hc : n'.config.servers = n.config.servers) : Member S i n' where
  id := hid.trans h.id
  mem := h.mem
  config := hc.trans h.config
  nodup := by rw [hp]; exact h.nodup
  peers := by rw [hp]; exact h.peers

theorem changePeers (h : Member S i n) {c : ClusterConfig} (hc : c.servers = S) :
    n.changePeers c = n.peers := by
  have hadded : c.servers.filter (fun srv => decide (srv.id ∉ n.peerIds ∧ n.id ≠ srv.id)) = [] := by
    refine List.filter_eq_nil_iff.mpr fun srv hsrv => ?_
    simp only [decide_eq_true_eq, not_and, not_not, h.peers, h.id]
    intro hne
    by_contra hi
    have hmem : srv.id ∈ S.map (·.id) := List.mem_map_of_mem (hc ▸ hsrv)
    exact hi (hne hmem).symm
  have hkept : n.peers.filter (fun p => decide (p.1 ∈ c.ids)) = n.peers := by
    refine List.filter_eq_self.mpr fun p hp => ?_
    have hmem : p.1 ∈ n.peerIds := List.mem_map_of_mem hp
    simp only [ClusterConfig.ids, hc, decide_eq_true_eq]
    exact ((h.peers p.1).mp hmem).1
  unfold Core.changePeers
  rw [hadded, List.foldl_nil, hkept]

theorem reconfigure (h : Member S i n) {c : ClusterConfig} (hc : c.servers = S) :
    n.reconfigure c = { n with config := c } := by
  have hin : n.id ∈ c.ids := by
    rw [h.id, ClusterConfig.ids, hc]
    exact h.mem
  simp [Core.reconfigure, h.changePeers hc, hin]

theorem step {ext : List MsgType} {inp : Input} {o : Option Output} (hext : NoAdd ext)
    (hk : InputKind ext inp) (h₀ : Member S i n₀) (hkeep : KeepsMembers S n₀ inp)
    (h : Member S i n) (hs : NodeStep inp n₀ n o n') : Member S i n' := by
  cases hs with
  | create _ _ _ hc => exact h.of_peerIds rfl rfl hc
  | ack _ _ _ _ _ _ =>
      refine h.of_peerIds rfl ?_ rfl
      simp only [Core.peerIds, Core.ack, List.map_map]
      refine List.map_congr_left fun p _ => ?_
      simp only [Function.comp_apply]
      split <;> rfl
  | installed _ _ =>
      refine h.of_peerIds rfl ?_ rfl
      simp only [Core.peerIds, List.map_map]
      refine List.map_congr_left fun p _ => ?_
      simp only [Function.comp_apply]
      split
      · rename_i heq
        exact heq.symm ▸ rfl
      · rfl
  | @reconf t c hinp he hn hsm =>
      subst hinp
      have hc : c.servers = S := by
        refine hkeep c ?_
        have hlog₀ : n.log = n₀.log := by rw [hn]
        rw [hsm, hlog₀] at he
        simp [he, LogEntry.conf?]
      rw [h.reconfigure hc]
      exact h.of_peerIds rfl rfl (hc.trans h.config.symm)
  | join hinp ht _ _ _ => exact absurd ht (InputKind.not_join hext (hinp ▸ hk))
  | joinConf hinp ht _ => exact absurd ht (InputKind.not_join hext (hinp ▸ hk))
  | bulk hb =>
      cases hb with
      | snapConf hinp ht hpay =>
          subst hinp
          have hc := hkeep ht _ (by rw [hpay]; rfl)
          rw [h.reconfigure hc]
          exact h.of_peerIds rfl rfl (hc.trans h.config.symm)
      | _ => exact h.of_peerIds rfl rfl rfl
  | erase hinp ht hlen =>
      subst hinp
      have := h.card
      have := h₀.card
      exact absurd (by omega) (hkeep ht)
  | _ => exact h.of_peerIds rfl rfl rfl

end Member

/-- The peers of a server that starts with the configuration. -/
theorem Member.start {b : Boot} (hS : (S.map (·.id)).Nodup) (hb : b.id ∈ S.map (·.id))
    (hc : b.config.servers = S) : Member S b.id (RaftServer.start b).core := by
  have hpeers : (RaftServer.start b).core.peerIds =
      (S.map (·.id)).filter fun j => decide (j ≠ b.id) := by
    rw [RaftServer.core_peerIds]
    simp only [RaftServer.peerIds, RaftServer.start, List.map_map, hc, List.filter_map]
    rfl
  refine ⟨rfl, hb, hc, ?_, fun j => ?_⟩
  · rw [hpeers]
    exact hS.filter _
  · rw [hpeers, List.mem_filter]
    simp

end Ns3Raft.Raft
