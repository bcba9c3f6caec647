import Ns3Raft.Lib.BestOffer
import Ns3Raft.Net.Ipv4StaticRouting
import Ns3Raft.Olsr.RoutingTable
import Ns3Raft.Olsr.State

/-! # Routes to associated networks

Step 5 of `RoutingTableComputation`. The loop that clears the table stops half way, because the number of
routes falls while the index grows, and the routes that are left are treated as if they had just been made.
-/

namespace Ns3Raft.Olsr

open Net Lib.BestOffer

/-- The loop that clears the table, from the index `i`. -/
def clearRoutes (i : Nat) : NetworkRoutes → NetworkRoutes
  | [] => []
  | route :: routes => if i < (route :: routes).length then clearRoutes (i + 1) routes else route :: routes

/-- The index of the first route to the network, or the number of routes. -/
def findRoute (routes : NetworkRoutes) (networkAddr netmask : UInt32) : Nat :=
  routes.findIdx fun route => route.1.dest = networkAddr ∧ route.1.destNetworkMask = netmask

namespace OlsrState

variable (s : OlsrState) (table : RoutingTable)

def announcesItself (tuple : AssociationTuple) : Bool :=
  s.associations.any fun assoc => assoc.networkAddr = tuple.networkAddr ∧ assoc.netmask = tuple.netmask

/-- Nothing changes without an entry of the gateway. -/
def processAssociation (routes : NetworkRoutes) (tuple : AssociationTuple) : NetworkRoutes :=
  if s.announcesItself tuple then routes
  else
    match table tuple.gatewayAddr, routes[findRoute routes tuple.networkAddr tuple.netmask]? with
    | none, _ => routes
    | some gatewayEntry, none =>
        Ipv4StaticRouting.addNetworkRouteTo routes tuple.networkAddr tuple.netmask gatewayEntry.nextAddr
          gatewayEntry.interface gatewayEntry.distance
    | some gatewayEntry, some route =>
        if route.2 > gatewayEntry.distance then
          Ipv4StaticRouting.addNetworkRouteTo (routes.eraseIdx (findRoute routes tuple.networkAddr tuple.netmask))
            tuple.networkAddr tuple.netmask gatewayEntry.nextAddr gatewayEntry.interface gatewayEntry.distance
        else routes

/-- Step 5, with the routes of the last computation. -/
def hnaComputation (routes : NetworkRoutes) : NetworkRoutes :=
  s.associationSet.foldl (s.processAssociation table) (clearRoutes 0 routes)

end OlsrState

/-! ## What is left -/

theorem clearRoutes_eq (i : Nat) (routes : NetworkRoutes) :
    clearRoutes i routes = routes.drop ((routes.length - i + 1) / 2) := by
  induction routes generalizing i with
  | nil => rw [List.drop_nil]; rfl
  | cons route routes ih =>
    unfold clearRoutes
    rw [List.length_cons]
    split
    · have hhalf : (routes.length + 1 - i + 1) / 2 = (routes.length - (i + 1) + 1) / 2 + 1 := by omega
      rw [ih, hhalf, List.drop_succ_cons]
    · have hzero : (routes.length + 1 - i + 1) / 2 = 0 := by omega
      rw [hzero, List.drop_zero]

def network (route : NetworkRoute) : UInt32 × UInt32 := (route.1.dest, route.1.destNetworkMask)

def metric (route : NetworkRoute) : Nat := route.2.toNat

/-- The route through a gateway. -/
def routeTo (networkAddr netmask : UInt32) (gatewayEntry : RoutingTableEntry) : NetworkRoute :=
  (⟨networkAddr, netmask, gatewayEntry.nextAddr, gatewayEntry.interface⟩, gatewayEntry.distance)

namespace OlsrState

variable {s : OlsrState} {table : RoutingTable} {routes old : NetworkRoutes} {route : NetworkRoute}
  {networkAddr netmask : UInt32} {entry : RoutingTableEntry}

/-- The route that a tuple asks for. -/
def offered (s : OlsrState) (table : RoutingTable) (tuple : AssociationTuple) : Option NetworkRoute :=
  if s.announcesItself tuple then none else (table tuple.gatewayAddr).map (routeTo tuple.networkAddr tuple.netmask)

def offers (s : OlsrState) (table : RoutingTable) : List NetworkRoute := s.associationSet.filterMap (s.offered table)

theorem findRoute_eq (routes : NetworkRoutes) (networkAddr netmask : UInt32) :
    findRoute routes networkAddr netmask = routes.findIdx (network · = (networkAddr, netmask)) := by
  simp only [findRoute, network, Prod.mk.injEq]

theorem eraseP_eq_eraseIdx_findIdx {α : Type} (p : α → Bool) (l : List α) : l.eraseP p = l.eraseIdx (l.findIdx p) := by
  rw [List.eraseP_eq_eraseIdx, List.findIdx_eq_getD_findIdx?]
  cases l.findIdx? p with
  | none => exact (List.eraseIdx_of_length_le (Nat.le_refl _)).symm
  | some i => rfl

theorem processAssociation_eq (tuple : AssociationTuple) : s.processAssociation table routes tuple =
    match s.offered table tuple with
    | some route => offer network metric routes route
    | none => routes := by
  unfold processAssociation offered
  split
  · rfl
  · cases table tuple.gatewayAddr with
    | none => rfl
    | some entry =>
      have hkey : network (routeTo tuple.networkAddr tuple.netmask entry) = (tuple.networkAddr, tuple.netmask) := rfl
      dsimp only [Option.map_some, offer]
      rw [findRoute_eq, hkey, List.find?_eq_getElem?_findIdx]
      cases routes[routes.findIdx (network · = (tuple.networkAddr, tuple.netmask))]? with
      | none => rfl
      | some route =>
        dsimp only
        rw [eraseP_eq_eraseIdx_findIdx]
        rfl

theorem hnaComputation_eq (s : OlsrState) (table : RoutingTable) (old : NetworkRoutes) : s.hnaComputation table old =
    (s.offers table).foldl (offer network metric) (old.drop ((old.length + 1) / 2)) := by
  rw [hnaComputation, clearRoutes_eq, offers, List.foldl_filterMap, Nat.sub_zero]
  refine congrArg (List.foldl · _ _) (funext fun routes => funext fun tuple => ?_)
  rw [processAssociation_eq]
  cases s.offered table tuple <;> rfl

/-! ## The networks that are announced -/

/-- Some tuple announces the network through a gateway with the entry, and the node itself does not announce it. -/
def Announces (s : OlsrState) (table : RoutingTable) (networkAddr netmask : UInt32) (entry : RoutingTableEntry) : Prop :=
  (∃ tuple ∈ s.associationSet, tuple.networkAddr = networkAddr ∧ tuple.netmask = netmask ∧
    table tuple.gatewayAddr = some entry) ∧
  ∀ assoc ∈ s.associations, ¬ (assoc.networkAddr = networkAddr ∧ assoc.netmask = netmask)

theorem announcesItself_iff (tuple : AssociationTuple) : s.announcesItself tuple = true ↔
    ∃ assoc ∈ s.associations, assoc.networkAddr = tuple.networkAddr ∧ assoc.netmask = tuple.netmask := by
  simp only [announcesItself, List.any_eq_true, decide_eq_true_eq]

theorem mem_offers : route ∈ s.offers table ↔
    ∃ networkAddr netmask entry, s.Announces table networkAddr netmask entry ∧ route = routeTo networkAddr netmask entry := by
  simp only [offers, List.mem_filterMap, offered, Announces]
  constructor
  · rintro ⟨tuple, hmem, hoffered⟩
    by_cases hself : s.announcesItself tuple = true
    · rw [if_pos hself] at hoffered
      exact absurd hoffered (by simp)
    · rw [if_neg hself] at hoffered
      obtain ⟨entry, hentry, rfl⟩ := Option.map_eq_some_iff.1 hoffered
      exact ⟨_, _, entry, ⟨⟨tuple, hmem, rfl, rfl, hentry⟩, fun assoc hassoc hsame =>
        hself ((announcesItself_iff tuple).2 ⟨assoc, hassoc, hsame⟩)⟩, rfl⟩
  · rintro ⟨_, _, entry, ⟨⟨tuple, hmem, rfl, rfl, hentry⟩, hself⟩, rfl⟩
    refine ⟨tuple, hmem, ?_⟩
    rw [if_neg fun hthis => ?_, hentry]
    · rfl
    · obtain ⟨assoc, hassoc, hsame⟩ := (announcesItself_iff tuple).1 hthis
      exact hself assoc hassoc hsame

/-- The offers for a network. -/
def offersFor (s : OlsrState) (table : RoutingTable) (k : UInt32 × UInt32) : List NetworkRoute :=
  (s.offers table).filter (network · = k)

theorem mem_offersFor : route ∈ s.offersFor table (networkAddr, netmask) ↔
    ∃ entry, s.Announces table networkAddr netmask entry ∧ route = routeTo networkAddr netmask entry := by
  rw [offersFor, List.mem_filter, mem_offers, decide_eq_true_eq]
  constructor
  · rintro ⟨⟨n, m, entry, hannounces, rfl⟩, hkey⟩
    obtain ⟨rfl, rfl⟩ := Prod.mk.inj hkey
    exact ⟨entry, hannounces, rfl⟩
  · rintro ⟨entry, hannounces, rfl⟩
    exact ⟨⟨_, _, entry, hannounces, rfl⟩, rfl⟩

/-! ## The routes of one network -/

theorem filter_hnaComputation (old : NetworkRoutes) (k : UInt32 × UInt32) :
    (s.hnaComputation table old).filter (network · = k) =
      (s.offersFor table k).foldl (offerOne metric) ((old.drop ((old.length + 1) / 2)).filter (network · = k)) := by
  rw [hnaComputation_eq, filter_foldl_offer]
  rfl

theorem filter_hnaComputation_nil (k : UInt32 × UInt32) :
    (s.hnaComputation table []).filter (network · = k) = ((s.offersFor table k).argmin metric).toList := by
  rw [filter_hnaComputation]
  exact foldl_offerOne_nil _

/-- The routes are those of the current sets: one for each network that is announced, through a gateway that
is as near as any, and the same ones as without old routes. -/
structure Recomputed (s : OlsrState) (table : RoutingTable) (routes : NetworkRoutes) : Prop where
  one : ∀ networkAddr netmask entry, s.Announces table networkAddr netmask entry →
    ∃ route, routes.filter (fun r => r.1.dest = networkAddr ∧ r.1.destNetworkMask = netmask) = [route]
  only : ∀ route ∈ routes, ∃ entry, s.Announces table route.1.dest route.1.destNetworkMask entry ∧
    route = routeTo route.1.dest route.1.destNetworkMask entry ∧
    ∀ entry', s.Announces table route.1.dest route.1.destNetworkMask entry' → entry.distance ≤ entry'.distance
  same : ∀ route, route ∈ routes ↔ route ∈ s.hnaComputation table []

theorem filter_network (routes : NetworkRoutes) (networkAddr netmask : UInt32) :
    routes.filter (fun r => r.1.dest = networkAddr ∧ r.1.destNetworkMask = netmask) =
      routes.filter (network · = (networkAddr, netmask)) := by
  simp only [network, Prod.mk.injEq]

theorem mem_iff_mem_filter : route ∈ routes ↔ route ∈ routes.filter (network · = network route) := by
  rw [List.mem_filter, decide_eq_true_eq, and_iff_left rfl]

/-- A network is served from its offers alone. -/
theorem recomputed_iff_filter : s.Recomputed table routes ↔
    ∀ k, routes.filter (network · = k) = ((s.offersFor table k).argmin metric).toList := by
  constructor
  · rintro h ⟨networkAddr, netmask⟩
    by_cases hannounced : ∃ entry, s.Announces table networkAddr netmask entry
    · obtain ⟨entry, hentry⟩ := hannounced
      obtain ⟨route, hroute⟩ := h.one _ _ _ hentry
      rw [filter_network] at hroute
      have hmem : route ∈ routes.filter (network · = (networkAddr, netmask)) := by
        rw [hroute]
        exact List.mem_singleton_self _
      obtain ⟨hin, hkey⟩ := List.mem_filter.1 hmem
      have hsame : route ∈ (s.hnaComputation table []).filter (network · = (networkAddr, netmask)) :=
        List.mem_filter.2 ⟨(h.same route).1 hin, hkey⟩
      rw [filter_hnaComputation_nil, Option.mem_toList] at hsame
      rw [hroute, hsame]
      rfl
    · have hnone : s.offersFor table (networkAddr, netmask) = [] :=
        List.eq_nil_iff_forall_not_mem.2 fun route hroute => by
          obtain ⟨entry, hentry, -⟩ := mem_offersFor.1 hroute
          exact hannounced ⟨entry, hentry⟩
      rw [hnone]
      refine List.filter_eq_nil_iff.2 fun route hroute hkey => ?_
      obtain ⟨entry, hentry, -⟩ := h.only route hroute
      obtain ⟨rfl, rfl⟩ := Prod.mk.inj (of_decide_eq_true hkey)
      exact hannounced ⟨entry, hentry⟩
  · intro h
    refine ⟨fun networkAddr netmask entry hentry => ?_, fun route hroute => ?_, fun route => ?_⟩
    · have hoffer := mem_offersFor.2 ⟨entry, hentry, rfl⟩
      rw [filter_network, h]
      cases hbest : (s.offersFor table (networkAddr, netmask)).argmin metric with
      | none =>
        rw [List.argmin_eq_none.1 hbest] at hoffer
        exact absurd hoffer List.not_mem_nil
      | some best => exact ⟨best, rfl⟩
    · rw [mem_iff_mem_filter, h, Option.mem_toList] at hroute
      obtain ⟨entry, hentry, heq⟩ := mem_offersFor.1 (List.argmin_mem hroute)
      refine ⟨entry, hentry, heq, fun entry' hentry' => ?_⟩
      have hle := List.le_of_mem_argmin (mem_offersFor.2 ⟨entry', hentry', rfl⟩) hroute
      rw [heq] at hle
      exact hle
    · rw [mem_iff_mem_filter, h, ← filter_hnaComputation_nil, ← mem_iff_mem_filter]

/-- The routes that the clearing loop leaves are replaced by the computation, or are what it makes anyway: they
are of different networks, and for each network the first of the nearest gateways that announce it is
nearer, or is the one that the route leads through. -/
def LeftoversReplaced (s : OlsrState) (table : RoutingTable) (old : NetworkRoutes) : Prop :=
  ((old.drop ((old.length + 1) / 2)).map network).Nodup ∧
    ∀ route ∈ old.drop ((old.length + 1) / 2), ∃ best ∈ (s.offersFor table (network route)).argmin metric,
      metric best < metric route ∨ route = best

theorem length_filter_network (routes : NetworkRoutes) (k : UInt32 × UInt32) :
    (routes.filter (network · = k)).length = (routes.map network).count k := by
  rw [List.count, List.countP_map, List.countP_eq_length_filter]
  exact congrArg List.length (List.filter_congr fun route _ => by rw [Bool.eq_iff_iff]; simp)

theorem recomputed_iff (s : OlsrState) (table : RoutingTable) (old : NetworkRoutes) :
    s.Recomputed table (s.hnaComputation table old) ↔ s.LeftoversReplaced table old := by
  simp only [recomputed_iff_filter, filter_hnaComputation, foldl_offerOne_eq_iff, forall_and, LeftoversReplaced]
  refine and_congr ?_ ⟨fun h route hroute => ?_, fun h k route hroute => ?_⟩
  · rw [List.nodup_iff_count_le_one]
    exact forall_congr' fun k => by rw [length_filter_network]
  · exact h _ route (mem_iff_mem_filter.1 hroute)
  · obtain ⟨hmem, hkey⟩ := List.mem_filter.1 hroute
    obtain rfl := of_decide_eq_true hkey
    exact h route hmem

/-- Nothing is left of a table of one route. -/
theorem leftoversReplaced_of_length_le (hlen : old.length ≤ 1) : s.LeftoversReplaced table old := by
  have hnil : old.drop ((old.length + 1) / 2) = [] := List.drop_eq_nil_iff.2 (by omega)
  rw [LeftoversReplaced, hnil]
  exact ⟨List.nodup_nil, fun route hroute => absurd hroute List.not_mem_nil⟩

/-- Two networks are announced through a gateway that is one hop away. -/
def announcing : OlsrState := ⟨[], [], [], [], [], [⟨9, 16, 255⟩, ⟨9, 32, 255⟩], [], List.nodup_nil⟩

def silent : OlsrState := { announcing with associationSet := [] }

def oneHop : RoutingTable := fun addr => if addr = 9 then some ⟨9, 9, 1, 1⟩ else none

/-- After the gateway has stopped announcing, one of its routes survives the next computation. -/
theorem not_recomputed_silent :
    silent.hnaComputation oneHop (announcing.hnaComputation oneHop []) = [routeTo 32 255 ⟨9, 9, 1, 1⟩] ∧
      ¬ silent.Recomputed oneHop (silent.hnaComputation oneHop (announcing.hnaComputation oneHop [])) := by
  have hleft : silent.hnaComputation oneHop (announcing.hnaComputation oneHop []) = [routeTo 32 255 ⟨9, 9, 1, 1⟩] := by
    decide
  refine ⟨hleft, fun hrecomputed => ?_⟩
  rw [hleft] at hrecomputed
  obtain ⟨entry, ⟨⟨tuple, hmem, -⟩, -⟩, -⟩ := hrecomputed.only _ (List.mem_singleton_self _)
  exact List.not_mem_nil hmem

end OlsrState

end Ns3Raft.Olsr
