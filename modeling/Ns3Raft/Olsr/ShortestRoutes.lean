import Ns3Raft.Lib.HopCount
import Ns3Raft.Olsr.RoutingTable

/-! # Shortest routes

Where every address is a main address, the table that steps 1 to 3 make has the fewest hops for each node
that a path leads to. The proof counts hops without a bound. Every number of hops up to the highest one occurs
in the table, so that there are at most as many hops as addresses, and the comparisons of the code are exact.
-/

namespace Ns3Raft.Olsr

open Lib

namespace Node

variable {node : Node} {table : RoutingTable} {addr via dest : UInt32} {nb : NeighborTuple}

/-- The node and its neighbors have one interface each, with the main address. -/
structure SingleInterface (node : Node) : Prop where
  assoc_main : ∀ tuple ∈ node.state.ifaceAssocs, tuple.mainAddr = tuple.ifaceAddr
  local_main : ∀ link ∈ node.state.links, link.localIfaceAddr = node.mainAddress
  has_main : ∃ addresses ∈ node.interfaces, node.mainAddress ∈ addresses
  linked : ∀ nb ∈ node.state.neighbors, nb.status = .sym →
    ∃ link ∈ node.state.links, link.neighborIfaceAddr = nb.neighborMainAddr ∧ link.time ≥ node.now
  twoHop_sym : ∀ tuple ∈ node.state.twoHopNeighbors, node.state.IsSym tuple.neighborMainAddr

/-- A symmetric neighbor that forwards has told of the node two hops away. -/
def TwoHop (node : Node) (via dest : UInt32) : Prop :=
  (∃ nb ∈ node.state.neighbors, nb.status = .sym ∧ nb.neighborMainAddr = via ∧ nb.willingness ≠ willNever) ∧
    (∃ tuple ∈ node.state.twoHopNeighbors, tuple.neighborMainAddr = via ∧ tuple.twoHopNeighborAddr = dest) ∧
    dest ≠ node.mainAddress ∧ ¬ node.state.IsSym dest

/-- The paths, with their number of hops and the first neighbor on them. -/
inductive Path (node : Node) : Nat → UInt32 → UInt32 → Prop where
  | neighbor {via : UInt32} : node.state.IsSym via → Path node 1 via via
  | twoHop {via dest : UInt32} : node.TwoHop via dest → Path node 2 via dest
  | topology {n : Nat} {via last dest : UInt32} : Path node n via last → 2 ≤ n →
      (∃ tuple ∈ node.state.topology, tuple.lastAddr = last ∧ tuple.destAddr = dest) → ¬ node.state.IsSym dest →
      Path node (n + 1) via dest

/-! ## Step 2 -/

/-- The index of the interface with the main address. -/
def mainInterface (node : Node) : UInt32 :=
  UInt32.ofNat ((node.interfaces.findIdx? (·.contains node.mainAddress)).getD 0)

theorem SingleInterface.getMainAddress (h : node.SingleInterface) (addr : UInt32) :
    node.state.getMainAddress addr = addr := by
  unfold OlsrState.getMainAddress
  cases hfind : node.state.findIfaceAssocTuple addr with
  | none => rfl
  | some tuple =>
    have hmem := List.mem_of_find?_eq_some hfind
    have haddr := List.find?_some hfind
    exact (h.assoc_main tuple hmem).trans (of_decide_eq_true haddr)

theorem SingleInterface.addEntry (h : node.SingleInterface) (table : RoutingTable) (dest next distance : UInt32) :
    node.addEntry table dest next node.mainAddress distance = some (table.add dest next node.mainInterface distance) := by
  obtain ⟨addresses, hmem, hmain⟩ := h.has_main
  have hsome : (node.interfaces.findIdx? (·.contains node.mainAddress)).isSome = true := by
    rw [List.findIdx?_isSome, List.any_eq_true]
    exact ⟨addresses, hmem, List.contains_iff_mem.2 hmain⟩
  obtain ⟨i, hi⟩ := Option.isSome_iff_exists.1 hsome
  rw [Node.addEntry, mainInterface, hi]
  rfl

/-- The entry of a neighbor. -/
def neighborEntry (node : Node) (addr : UInt32) : RoutingTableEntry := ⟨addr, addr, node.mainInterface, 1⟩

def addNeighborEntry (node : Node) (table : RoutingTable) (nb : NeighborTuple) : RoutingTable :=
  table.add nb.neighborMainAddr nb.neighborMainAddr node.mainInterface 1

theorem addNeighborEntry_twice (table : RoutingTable) (nb : NeighborTuple) :
    node.addNeighborEntry (node.addNeighborEntry table nb) nb = node.addNeighborEntry table nb :=
  Function.update_idem ..

/-- A link of the neighbor, still alive. -/
def Links (node : Node) (nb : NeighborTuple) (link : LinkTuple) : Prop :=
  link.neighborIfaceAddr = nb.neighborMainAddr ∧ link.time ≥ node.now

theorem SingleInterface.addLink (h : node.SingleInterface) (nb : NeighborTuple) {link : LinkTuple} (hlink : link ∈ node.state.links)
    (acc : Linking) :
    (node.Links nb link ∧ node.addLink nb acc link = some ⟨node.addNeighborEntry acc.table nb, true, some link⟩) ∨
      (¬ node.Links nb link ∧ node.addLink nb acc link = some acc) := by
  unfold Node.addLink
  rw [h.getMainAddress, h.local_main link hlink, h.addEntry]
  by_cases hlinks : node.Links nb link
  · refine .inl ⟨hlinks, ?_⟩
    rw [if_pos (show link.neighborIfaceAddr = nb.neighborMainAddr ∧ link.time ≥ node.now from hlinks), hlinks.1,
      Option.map_some, decide_eq_true rfl, Bool.or_true]
    rfl
  · exact .inr ⟨hlinks, if_neg hlinks⟩

/-- The loop over the links adds the entry of the neighbor if there is a link, and nothing else. -/
theorem SingleInterface.addLinks (h : node.SingleInterface) (nb : NeighborTuple) (links : List LinkTuple)
    (hsub : ∀ link ∈ links, link ∈ node.state.links) (acc : Linking) :
    ∃ acc', links.foldlM (node.addLink nb) acc = some acc' ∧
      ((∀ link ∈ links, ¬ node.Links nb link) → acc' = acc) ∧
      ((∃ link ∈ links, node.Links nb link) → acc'.table = node.addNeighborEntry acc.table nb ∧ acc'.nbMainAddr = true) := by
  induction links generalizing acc with
  | nil => exact ⟨acc, rfl, fun _ => rfl, fun ⟨_, hmem, _⟩ => absurd hmem List.not_mem_nil⟩
  | cons link links ih =>
    have hlater := fun acc => ih (fun link hlink => hsub link (List.mem_cons_of_mem _ hlink)) acc
    rw [List.foldlM_cons]
    rcases h.addLink nb (hsub link List.mem_cons_self) acc with ⟨hlinks, heq⟩ | ⟨hlinks, heq⟩
    · obtain ⟨acc', hfold, hnone, hsome⟩ := hlater ⟨node.addNeighborEntry acc.table nb, true, some link⟩
      refine ⟨acc', by rw [heq]; exact hfold, fun hall => absurd hlinks (hall link List.mem_cons_self), fun _ => ?_⟩
      by_cases hmore : ∃ link ∈ links, node.Links nb link
      · obtain ⟨htable, hmain⟩ := hsome hmore
        exact ⟨htable.trans (addNeighborEntry_twice acc.table nb), hmain⟩
      · rw [hnone fun link hlink hthis => hmore ⟨link, hlink, hthis⟩]
        exact ⟨rfl, rfl⟩
    · obtain ⟨acc', hfold, hnone, hsome⟩ := hlater acc
      refine ⟨acc', by rw [heq]; exact hfold, fun hall => hnone fun link hlink => hall link (List.mem_cons_of_mem _ hlink),
        fun ⟨link', hmem, hthis⟩ => hsome ⟨link', (List.mem_cons.1 hmem).resolve_left ?_, hthis⟩⟩
      rintro rfl
      exact hlinks hthis

theorem SingleInterface.addNeighbor (h : node.SingleInterface) (hnb : nb ∈ node.state.neighbors) (table : RoutingTable) :
    node.addNeighbor table nb = some (if nb.status = .sym then node.addNeighborEntry table nb else table) := by
  unfold Node.addNeighbor
  by_cases hsym : nb.status = .sym
  · obtain ⟨link, hlink, hlinks⟩ := h.linked nb hnb hsym
    obtain ⟨acc, hfold, -, hsome⟩ := h.addLinks nb node.state.links (fun _ hmem => hmem) ⟨table, false, none⟩
    obtain ⟨htable, hmain⟩ := hsome ⟨link, hlink, hlinks⟩
    rw [if_pos hsym, if_pos hsym, hfold, Option.bind_some, hmain, htable]
  · rw [if_neg hsym, if_neg hsym]

theorem SingleInterface.addNeighbors (h : node.SingleInterface) (nbs : List NeighborTuple)
    (hsub : ∀ nb ∈ nbs, nb ∈ node.state.neighbors) (table : RoutingTable) :
    ∃ table', nbs.foldlM node.addNeighbor table = some table' ∧ ∀ addr,
      ((∃ nb ∈ nbs, nb.status = .sym ∧ nb.neighborMainAddr = addr) → table' addr = some (node.neighborEntry addr)) ∧
      (¬ (∃ nb ∈ nbs, nb.status = .sym ∧ nb.neighborMainAddr = addr) → table' addr = table addr) := by
  induction nbs generalizing table with
  | nil => exact ⟨table, rfl, fun addr => ⟨fun ⟨_, hmem, _⟩ => absurd hmem List.not_mem_nil, fun _ => rfl⟩⟩
  | cons nb nbs ih =>
    obtain ⟨table', hfold, hspec⟩ := ih (fun nb hnb => hsub nb (List.mem_cons_of_mem _ hnb))
      (if nb.status = .sym then node.addNeighborEntry table nb else table)
    refine ⟨table', ?_, fun addr => ⟨fun ⟨nb', hmem, hsym, haddr⟩ => ?_, fun hnone => ?_⟩⟩
    · rw [List.foldlM_cons, h.addNeighbor (hsub nb List.mem_cons_self)]
      exact hfold
    · by_cases hlater : ∃ nb ∈ nbs, nb.status = .sym ∧ nb.neighborMainAddr = addr
      · exact (hspec addr).1 hlater
      · rcases List.mem_cons.1 hmem with rfl | hmem
        · rw [(hspec addr).2 hlater, if_pos hsym, addNeighborEntry, RoutingTable.add, haddr, Function.update_self]
          rfl
        · exact absurd ⟨nb', hmem, hsym, haddr⟩ hlater
    · rw [(hspec addr).2 fun ⟨nb', hmem, hthis⟩ => hnone ⟨nb', List.mem_cons_of_mem _ hmem, hthis⟩]
      split
      · next hsym =>
        rw [addNeighborEntry, RoutingTable.add, Function.update_of_ne]
        rintro rfl
        exact hnone ⟨nb, List.mem_cons_self, hsym, rfl⟩
      · rfl

/-- The table has the symmetric neighbors. -/
theorem SingleInterface.step2 (h : node.SingleInterface) : ∃ table, node.step2 = some table ∧
    (∀ addr, node.state.IsSym addr → table addr = some (node.neighborEntry addr)) ∧
    ∀ addr, ¬ node.state.IsSym addr → table addr = none := by
  obtain ⟨table, hfold, hspec⟩ := h.addNeighbors node.state.neighbors (fun _ hmem => hmem) fun _ => none
  exact ⟨table, hfold, fun addr => (hspec addr).1, fun addr => (hspec addr).2⟩

/-! ## Step 3 -/

/-- The entry of a node two hops away. -/
def twoHopEntry (node : Node) (via dest : UInt32) : RoutingTableEntry := ⟨dest, via, node.mainInterface, 2⟩

/-- The table after some of the two-hop tuples. -/
structure TwoHops (node : Node) (before : List TwoHopNeighborTuple) (table : RoutingTable) : Prop where
  neighbor : ∀ addr, node.state.IsSym addr → table addr = some (node.neighborEntry addr)
  sound : ∀ addr entry, ¬ node.state.IsSym addr → table addr = some entry →
    ∃ via, node.TwoHop via addr ∧ entry = node.twoHopEntry via addr
  complete : ∀ tuple ∈ before, node.TwoHop tuple.neighborMainAddr tuple.twoHopNeighborAddr →
    table tuple.twoHopNeighborAddr ≠ none

theorem TwoHops.skip {before : List TwoHopNeighborTuple} {tuple : TwoHopNeighborTuple} (ht : node.TwoHops before table)
    (hskip : ¬ node.TwoHop tuple.neighborMainAddr tuple.twoHopNeighborAddr) : node.TwoHops (before ++ [tuple]) table where
  neighbor := ht.neighbor
  sound := ht.sound
  complete tuple' hmem htwo := by
    rcases List.mem_append.1 hmem with hbefore | hlast
    · exact ht.complete tuple' hbefore htwo
    · obtain rfl := List.mem_singleton.1 hlast
      exact absurd htwo hskip

theorem TwoHops.addTwoHop {before : List TwoHopNeighborTuple} {tuple : TwoHopNeighborTuple} (ht : node.TwoHops before table)
    (h : node.SingleInterface) (hmem : tuple ∈ node.state.twoHopNeighbors) :
    node.TwoHops (before ++ [tuple]) (node.addTwoHop table tuple) := by
  have hvia := h.twoHop_sym tuple hmem
  unfold Node.addTwoHop
  split
  · next hsym => exact ht.skip fun htwo => htwo.2.2.2 (OlsrState.findSymNeighborTuple_isSome.1 hsym)
  next hsym =>
  rw [OlsrState.findSymNeighborTuple_isSome] at hsym
  split
  · next hself => exact ht.skip fun htwo => htwo.2.2.1 hself
  next hself =>
  split
  · next hwilling =>
    obtain ⟨nb, hnb, haddr, hnever⟩ := hwilling
    obtain ⟨nb', hnb', hstatus, haddr'⟩ := hvia
    obtain rfl := node.state.eq_of_addr hnb hnb' (haddr.trans haddr'.symm)
    have htwo : node.TwoHop tuple.neighborMainAddr tuple.twoHopNeighborAddr :=
      ⟨⟨nb, hnb, hstatus, haddr, hnever⟩, ⟨tuple, hmem, rfl, rfl⟩, hself, hsym⟩
    rw [ht.neighbor _ ⟨nb, hnb, hstatus, haddr⟩]
    dsimp only
    refine ⟨fun addr hthis => ?_, fun addr entry hthis hentry => ?_, fun tuple' hmem' htwo' => ?_⟩
    · rw [RoutingTable.add, Function.update_of_ne]
      · exact ht.neighbor addr hthis
      · rintro rfl
        exact hsym hthis
    · by_cases heq : addr = tuple.twoHopNeighborAddr
      · subst heq
        rw [RoutingTable.add, Function.update_self] at hentry
        exact ⟨_, htwo, (Option.some.inj hentry).symm⟩
      · rw [RoutingTable.add, Function.update_of_ne heq] at hentry
        exact ht.sound addr entry hthis hentry
    · by_cases heq : tuple'.twoHopNeighborAddr = tuple.twoHopNeighborAddr
      · rw [heq, RoutingTable.add, Function.update_self]
        exact Option.some_ne_none _
      · rw [RoutingTable.add, Function.update_of_ne heq]
        rcases List.mem_append.1 hmem' with hbefore | hlast
        · exact ht.complete tuple' hbefore htwo'
        · exact absurd (congrArg TwoHopNeighborTuple.twoHopNeighborAddr (List.mem_singleton.1 hlast)) heq
  · next hwilling =>
    refine ht.skip fun htwo => hwilling ?_
    obtain ⟨⟨nb, hnb, -, haddr, hnever⟩, -⟩ := htwo
    exact ⟨nb, hnb, haddr, hnever⟩

theorem TwoHops.foldl {before : List TwoHopNeighborTuple} (later : List TwoHopNeighborTuple) (ht : node.TwoHops before table)
    (h : node.SingleInterface) (hmem : ∀ tuple ∈ later, tuple ∈ node.state.twoHopNeighbors) :
    node.TwoHops (before ++ later) (later.foldl node.addTwoHop table) := by
  induction later generalizing before table with
  | nil => rwa [List.append_nil]
  | cons tuple later ih =>
    have hstep := ih (ht.addTwoHop h (hmem tuple List.mem_cons_self)) fun tuple' ht' => hmem tuple' (List.mem_cons_of_mem _ ht')
    rwa [List.append_assoc] at hstep

theorem SingleInterface.step3 (h : node.SingleInterface) (hsym : ∀ addr, node.state.IsSym addr → table addr = some (node.neighborEntry addr))
    (hnone : ∀ addr, ¬ node.state.IsSym addr → table addr = none) :
    node.TwoHops node.state.twoHopNeighbors (node.step3 table) := by
  have hstart : node.TwoHops [] table :=
    ⟨hsym, fun addr entry hthis hentry => by rw [hnone addr hthis] at hentry; exact absurd hentry (by simp),
      fun _ hmem => absurd hmem List.not_mem_nil⟩
  exact hstart.foldl node.state.twoHopNeighbors h fun _ hmem => hmem

/-! ## Step 3.1 -/

/-- An entry with its number of hops. -/
structure HopEntry where
  nextAddr : UInt32
  interface : UInt32
  hops : Nat

def HopEntry.entry (dest : UInt32) (e : HopEntry) : RoutingTableEntry :=
  ⟨dest, e.nextAddr, e.interface, UInt32.ofNat e.hops⟩

/-- The table with the numbers of hops as the code has them. -/
def ofHops (hopTable : UInt32 → Option HopEntry) : RoutingTable := fun addr => (hopTable addr).map (HopEntry.entry addr)

/-- The entry of a node that is one hop further. -/
def further (_ : UInt32) (e : HopEntry) : HopEntry := { e with hops := e.hops + 1 }

/-- The topology set as edges. -/
def edges (node : Node) : List (UInt32 × UInt32) := node.state.topology.map fun tuple => (tuple.lastAddr, tuple.destAddr)

/-- The entries of the first two hops. -/
def Seed (node : Node) (addr : UInt32) (e : HopEntry) : Prop :=
  (node.state.IsSym addr ∧ e = ⟨addr, node.mainInterface, 1⟩) ∨
    ∃ via, node.TwoHop via addr ∧ e = ⟨via, node.mainInterface, 2⟩

/-- The entries of the paths. -/
abbrev Walk (node : Node) : UInt32 → HopEntry → Prop :=
  HopCount.Walk HopEntry.hops further node.edges 2 node.Seed fun addr => ¬ node.state.IsSym addr

theorem sown (node : Node) : HopCount.Sown HopEntry.hops further 2 node.Seed fun addr => ¬ node.state.IsSym addr where
  extend _ _ := rfl
  le := by
    rintro addr _ (⟨-, rfl⟩ | ⟨via, -, rfl⟩)
    · exact Nat.le_succ 1
    · exact Nat.le_refl 2
  low := by
    rintro addr _ (⟨hsym, rfl⟩ | ⟨via, -, rfl⟩) hlt
    · exact not_not_intro hsym
    · exact absurd hlt (Nat.lt_irrefl 2)
  high := by
    rintro addr _ (⟨-, rfl⟩ | ⟨via, htwo, rfl⟩) heq
    · exact absurd heq (show ¬ 1 = 2 by decide)
    · exact htwo.2.2.2

theorem mem_edges {last : UInt32} :
    (last, dest) ∈ node.edges ↔ ∃ tuple ∈ node.state.topology, tuple.lastAddr = last ∧ tuple.destAddr = dest := by
  simp only [edges, List.mem_map, Prod.mk.injEq]

theorem Path.walk {n : Nat} (hp : node.Path n via dest) : ∃ e, node.Walk dest e ∧ e.hops = n ∧ e.nextAddr = via := by
  induction hp with
  | neighbor hsym => exact ⟨_, .seed (.inl ⟨hsym, rfl⟩), rfl, rfl⟩
  | twoHop htwo => exact ⟨_, .seed (.inr ⟨_, htwo, rfl⟩), rfl, rfl⟩
  | topology _ hle htuple hsym ih =>
    obtain ⟨e, hwalk, rfl, rfl⟩ := ih
    exact ⟨_, .step hwalk hle (mem_edges.2 htuple) hsym, rfl, rfl⟩

theorem path_of_walk {e : HopEntry} (hw : node.Walk dest e) : node.Path e.hops e.nextAddr dest := by
  induction hw with
  | seed hseed =>
    rcases hseed with ⟨hsym, rfl⟩ | ⟨via, htwo, rfl⟩
    · exact .neighbor hsym
    · exact .twoHop htwo
  | step _ hle hmem hsym ih => exact .topology ih hle (mem_edges.1 hmem) hsym

/-! ## Passes of the code -/

section

variable {hopTable : UInt32 → Option HopEntry} {h : Nat} {e : HopEntry}

theorem ofHops_apply (hopTable : UInt32 → Option HopEntry) (addr : UInt32) :
    ofHops hopTable addr = (hopTable addr).map (HopEntry.entry addr) := rfl

theorem ofHops_update (hopTable : UInt32 → Option HopEntry) (dest : UInt32) (e : HopEntry) :
    ofHops (Function.update hopTable dest (some e)) = Function.update (ofHops hopTable) dest (some (e.entry dest)) := by
  funext addr
  by_cases haddr : addr = dest
  · subst haddr
    rw [ofHops, Function.update_self, Function.update_self, Option.map_some]
  · rw [ofHops, Function.update_of_ne haddr, Function.update_of_ne haddr]
    rfl

/-- All entries count from one to `h` hops. -/
def Within (h : Nat) (hopTable : UInt32 → Option HopEntry) : Prop :=
  ∀ addr e, hopTable addr = some e → 1 ≤ e.hops ∧ e.hops ≤ h

theorem ofNat_hops_eq_iff (hpos : 1 ≤ e.hops) (hle : e.hops ≤ h + 1) (hmax : h ≤ 2 ^ 32) :
    UInt32.ofNat e.hops = UInt32.ofNat h ↔ e.hops = h := by
  rw [← UInt32.toNat_inj, UInt32.toNat_ofNat', UInt32.toNat_ofNat']
  omega

theorem addTopology_ofHops {acc : (UInt32 → Option HopEntry) × Bool} (hwithin : Within (h + 1) acc.1) (hmax : h ≤ 2 ^ 32)
    (tuple : TopologyTuple) :
    addTopology (UInt32.ofNat h) (ofHops acc.1, acc.2) tuple =
      (ofHops (HopCount.relax HopEntry.hops further h acc (tuple.lastAddr, tuple.destAddr)).1,
        (HopCount.relax HopEntry.hops further h acc (tuple.lastAddr, tuple.destAddr)).2) := by
  unfold addTopology HopCount.relax
  dsimp only
  rw [ofHops_apply, ofHops_apply]
  cases hdest : acc.1 tuple.destAddr with
  | some e => rfl
  | none =>
    cases hlast : acc.1 tuple.lastAddr with
    | none => rfl
    | some e =>
      obtain ⟨hpos, hle⟩ := hwithin _ e hlast
      have hiff := ofNat_hops_eq_iff hpos hle hmax
      dsimp only [Option.map_some, Option.map_none, HopEntry.entry]
      by_cases heq : e.hops = h
      · rw [if_pos (hiff.2 heq), if_pos heq, ofHops_update, RoutingTable.add, HopEntry.entry, further, heq, UInt32.ofNat_add]
        rfl
      · rw [if_neg (mt hiff.1 heq), if_neg heq]

theorem within_relax {acc : (UInt32 → Option HopEntry) × Bool} (hwithin : Within (h + 1) acc.1) (edge : UInt32 × UInt32) :
    Within (h + 1) (HopCount.relax HopEntry.hops further h acc edge).1 := by
  unfold HopCount.relax
  split
  · next hdest hlast =>
    split
    · next heq =>
      intro addr e' he'
      by_cases haddr : addr = edge.2
      · subst haddr
        dsimp only at he'
        rw [Function.update_self] at he'
        obtain rfl := Option.some.inj he'
        exact ⟨Nat.succ_pos _, Nat.succ_le_succ (Nat.le_of_eq heq)⟩
      · dsimp only at he'
        rw [Function.update_of_ne haddr] at he'
        exact hwithin addr e' he'
    · exact hwithin
  · exact hwithin

theorem foldl_addTopology (acc : (UInt32 → Option HopEntry) × Bool) (hwithin : Within (h + 1) acc.1) (hmax : h ≤ 2 ^ 32)
    (tuples : List TopologyTuple) {result : (UInt32 → Option HopEntry) × Bool}
    (hresult : (tuples.map fun tuple => (tuple.lastAddr, tuple.destAddr)).foldl (HopCount.relax HopEntry.hops further h) acc =
      result) :
    tuples.foldl (addTopology (UInt32.ofNat h)) (ofHops acc.1, acc.2) = (ofHops result.1, result.2) := by
  induction tuples generalizing acc with
  | nil => rw [← hresult]; rfl
  | cons tuple tuples ih =>
    rw [List.foldl_cons, addTopology_ofHops hwithin hmax]
    exact ih _ (within_relax hwithin _) hresult

theorem growRoutes_ofHops {fuel : Nat} (hc : HopCount.Chained HopEntry.hops hopTable) (hwithin : Within h hopTable)
    (hmax : h ≤ 2 ^ 32) :
    node.growRoutes fuel (UInt32.ofNat h) (ofHops hopTable) =
      (HopCount.grow HopEntry.hops further node.edges fuel h hopTable).map ofHops := by
  induction fuel generalizing h hopTable with
  | zero => rfl
  | succ fuel ih =>
    have hpass : node.state.topology.foldl (addTopology (UInt32.ofNat h)) (ofHops hopTable, false) =
        (ofHops (HopCount.pass HopEntry.hops further node.edges h hopTable).1,
          (HopCount.pass HopEntry.hops further node.edges h hopTable).2) :=
      foldl_addTopology (hopTable, false) (fun addr e he => (hwithin addr e he).imp_right Nat.le_succ_of_le) hmax _ rfl
    have hp := HopCount.passing_pass node.sown.extend node.edges h hopTable
    rw [growRoutes, HopCount.grow, hpass]
    dsimp only
    split
    · next hadded =>
      -- The pass has made an entry of `h + 1` hops, so there are so many addresses.
      obtain ⟨edge, -, hnone, hsome⟩ := hp.added hadded
      obtain ⟨e, he⟩ := Option.ne_none_iff_exists'.1 hsome
      have hchained : HopCount.Chained HopEntry.hops (HopCount.pass HopEntry.hops further node.edges h hopTable).1 :=
        hc.pass node.sown.extend
      have hcard := hchained.le_card he
      rw [FinEnum.card_UInt32] at hcard
      have hhops : e.hops = h + 1 := by
        rcases hp.new _ e he with hold | ⟨-, _, e₀, -, -, hdist, rfl⟩
        · rw [hnone] at hold
          exact absurd hold (by simp)
        · exact congrArg Nat.succ hdist
      have hsucc : UInt32.ofNat h + 1 = UInt32.ofNat (h + 1) := (UInt32.ofNat_add h 1).symm
      rw [hsucc]
      refine ih hchained (fun addr e' he' => ?_) (hhops ▸ hcard)
      rcases hp.new addr e' he' with hold | ⟨-, _, e₀, -, -, hdist, rfl⟩
      · exact (hwithin addr e' hold).imp_right Nat.le_succ_of_le
      · exact ⟨Nat.succ_pos _, Nat.succ_le_succ (Nat.le_of_eq hdist)⟩
    · rfl

end

/-! ## All steps -/

/-- The entries of steps 1 to 3 with their hops. -/
def hopTable (table : RoutingTable) (addr : UInt32) : Option HopEntry :=
  (table addr).map fun entry => ⟨entry.nextAddr, entry.interface, entry.distance.toNat⟩

theorem TwoHops.entries (ht : node.TwoHops node.state.twoHopNeighbors table) (addr : UInt32) :
    (table addr = none ∧ ¬ node.state.IsSym addr) ∨
      (table addr = some (node.neighborEntry addr) ∧ node.state.IsSym addr) ∨
      ∃ via, node.TwoHop via addr ∧ table addr = some (node.twoHopEntry via addr) := by
  by_cases hsym : node.state.IsSym addr
  · exact .inr (.inl ⟨ht.neighbor addr hsym, hsym⟩)
  · cases hentry : table addr with
    | none => exact .inl ⟨rfl, hsym⟩
    | some entry =>
      obtain ⟨via, htwo, rfl⟩ := ht.sound addr entry hsym hentry
      exact .inr (.inr ⟨via, htwo, rfl⟩)

theorem TwoHops.seed (ht : node.TwoHops node.state.twoHopNeighbors table) {e : HopEntry} (he : hopTable table addr = some e) :
    node.Seed addr e := by
  rcases ht.entries addr with ⟨hnone, -⟩ | ⟨hentry, hsym⟩ | ⟨via, htwo, hentry⟩
  · rw [hopTable, hnone] at he
    exact absurd he (by simp)
  · rw [hopTable, hentry] at he
    exact .inl ⟨hsym, (Option.some.inj he).symm⟩
  · rw [hopTable, hentry] at he
    exact .inr ⟨via, htwo, (Option.some.inj he).symm⟩

theorem TwoHops.ofHops_hopTable (ht : node.TwoHops node.state.twoHopNeighbors table) : ofHops (hopTable table) = table := by
  funext addr
  rcases ht.entries addr with ⟨hnone, -⟩ | ⟨hentry, -⟩ | ⟨via, -, hentry⟩
  · rw [ofHops, hopTable, hnone]
    rfl
  · rw [ofHops, hopTable, hentry]
    rfl
  · rw [ofHops, hopTable, hentry]
    rfl

theorem TwoHops.hopTable_sym (ht : node.TwoHops node.state.twoHopNeighbors table) (hsym : node.state.IsSym addr) :
    hopTable table addr = some ⟨addr, node.mainInterface, 1⟩ := by
  rw [hopTable, ht.neighbor addr hsym]
  rfl

theorem TwoHops.within (ht : node.TwoHops node.state.twoHopNeighbors table) : Within 2 (hopTable table) := by
  intro addr e he
  rcases ht.seed he with ⟨-, rfl⟩ | ⟨via, -, rfl⟩
  · exact ⟨Nat.le_refl 1, Nat.le_succ 1⟩
  · exact ⟨Nat.le_succ 1, Nat.le_refl 2⟩

theorem TwoHops.chained (ht : node.TwoHops node.state.twoHopNeighbors table) :
    HopCount.Chained HopEntry.hops (hopTable table) := by
  intro addr e he hlt
  rcases ht.seed he with ⟨-, rfl⟩ | ⟨via, ⟨⟨nb, hnb, hstatus, haddr, -⟩, -⟩, rfl⟩
  · exact absurd hlt (Nat.lt_irrefl 1)
  · exact ⟨via, _, ht.hopTable_sym ⟨nb, hnb, hstatus, haddr⟩, rfl⟩

theorem TwoHops.layered (ht : node.TwoHops node.state.twoHopNeighbors table) :
    HopCount.Layered HopEntry.hops further node.edges 2 node.Seed (fun addr => ¬ node.state.IsSym addr) 2
      (hopTable table) where
  sound addr e he := ⟨.seed (ht.seed he), (ht.within addr e he).2⟩
  complete addr e hwalk hle := by
    cases hwalk with
    | seed hseed =>
      rcases hseed with ⟨hsym, rfl⟩ | ⟨via, htwo, rfl⟩
      · exact ⟨_, ht.hopTable_sym hsym, Nat.le_refl 1⟩
      · obtain ⟨tuple, hmem, rfl, rfl⟩ := htwo.2.1
        obtain ⟨entry, hentry⟩ := Option.ne_none_iff_exists'.1 (ht.complete tuple hmem htwo)
        have he : hopTable table tuple.twoHopNeighborAddr = some ⟨entry.nextAddr, entry.interface, entry.distance.toNat⟩ := by
          rw [hopTable, hentry]
          rfl
        exact ⟨_, he, (ht.within _ _ he).2⟩
    | step hwalk hbase =>
      change HopEntry.hops _ + 1 ≤ 2 at hle
      omega
  blocked addr hnone hsym := by
    rw [ht.hopTable_sym hsym] at hnone
    exact absurd hnone (by simp)

/-- The computation ends with an entry for each node that a path leads to, with the fewest hops and a first
neighbor of such a path. -/
theorem routes_shortest (h : node.SingleInterface) : ∃ table,
    (∀ fuel, node.state.topology.length < fuel → node.shortestRoutes fuel = some table) ∧
    ∀ dest, ((table dest).isSome = true ↔ ∃ n via, node.Path n via dest) ∧
      ∀ entry, table dest = some entry → ∃ n, node.Path n entry.nextAddr dest ∧
        (∀ n' via, node.Path n' via dest → n ≤ n') ∧ n ≤ 2 ^ 32 ∧ entry.distance = UInt32.ofNat n := by
  obtain ⟨table₂, hstep2, hsym, hnone⟩ := h.step2
  have ht := h.step3 hsym hnone
  obtain ⟨hops, hgrow, hshort⟩ := ht.layered.grow node.sown (Nat.le_refl 2)
  have hmissing := HopCount.missing_card_le node.edges (hopTable (node.step3 table₂))
  have hchained := ht.chained.grow node.sown.extend (hgrow _ (Nat.lt_succ_self _))
  rw [edges, List.length_map] at hmissing
  have hleast : ∀ dest n via, node.Path n via dest → ∃ e, hops dest = some e ∧ e.hops ≤ n := by
    intro dest n via hpath
    obtain ⟨e, hwalk, rfl, rfl⟩ := hpath.walk
    exact hshort.complete dest e hwalk
  refine ⟨ofHops hops, fun fuel hfuel => ?_, fun dest => ⟨⟨fun hsome => ?_, ?_⟩, fun entry hentry => ?_⟩⟩
  · have hcode : node.growRoutes fuel 2 (ofHops (hopTable (node.step3 table₂))) = _ :=
      growRoutes_ofHops ht.chained ht.within (by decide)
    rw [ht.ofHops_hopTable, hgrow fuel (Nat.lt_of_le_of_lt hmissing hfuel)] at hcode
    rw [shortestRoutes, hstep2, Option.bind_some]
    exact hcode
  · rw [ofHops, Option.isSome_map] at hsome
    obtain ⟨e, he⟩ := Option.isSome_iff_exists.1 hsome
    exact ⟨_, _, path_of_walk (hshort.sound dest e he)⟩
  · rintro ⟨n, via, hpath⟩
    obtain ⟨e, he, -⟩ := hleast dest n via hpath
    rw [ofHops, he]
    rfl
  · obtain ⟨e, he, rfl⟩ := Option.map_eq_some_iff.1 hentry
    refine ⟨e.hops, path_of_walk (hshort.sound dest e he), fun n' via hpath => ?_, hchained.le_card he, rfl⟩
    obtain ⟨e', he', hle⟩ := hleast dest n' via hpath
    obtain rfl := Option.some.inj (he.symm.trans he')
    exact hle

/-- Step 4 finds nothing to add. -/
theorem SingleInterface.routes_eq (h : node.SingleInterface) (fuel : Nat) : node.routes fuel = node.shortestRoutes fuel := by
  have hkeep : ∀ (tuples : List IfaceAssocTuple) (table : RoutingTable), (∀ tuple ∈ tuples, tuple.mainAddr = tuple.ifaceAddr) →
      tuples.foldl addIfaceAssoc table = table := by
    intro tuples table hmain
    induction tuples with
    | nil => rfl
    | cons tuple tuples ih =>
      obtain ⟨htuple, hlater⟩ := List.forall_mem_cons.1 hmain
      rw [List.foldl_cons, addIfaceAssoc, htuple]
      cases hentry : table tuple.ifaceAddr with
      | none => exact ih hlater
      | some entry => exact ih hlater
  rw [routes]
  cases node.shortestRoutes fuel with
  | none => rfl
  | some table => exact congrArg some (hkeep _ table h.assoc_main)

/-- A line of four nodes, seen from its end. -/
def line : Node where
  mainAddress := 1
  interfaces := [[1]]
  now := 0
  state := ⟨[⟨1, 2, 5, 5⟩], [⟨2, .sym, 3⟩], [⟨2, 3⟩], [⟨4, 3, 0, 9⟩], [], [], [], List.nodup_singleton _⟩

example : (line.shortestRoutes 2).map (· 4) = some (some ⟨4, 2, 0, 3⟩) := by decide

theorem line_singleInterface : line.SingleInterface where
  assoc_main := List.forall_mem_nil _
  local_main := by decide
  has_main := by decide
  linked := by decide
  twoHop_sym := by
    unfold OlsrState.IsSym
    decide

theorem routes_shortest_line : ∃ table, (∀ fuel, 1 < fuel → line.shortestRoutes fuel = some table) ∧
    ∀ dest, ((table dest).isSome = true ↔ ∃ n via, line.Path n via dest) ∧
      ∀ entry, table dest = some entry → ∃ n, line.Path n entry.nextAddr dest ∧
        (∀ n' via, line.Path n' via dest → n ≤ n') ∧ n ≤ 2 ^ 32 ∧ entry.distance = UInt32.ofNat n :=
  routes_shortest line_singleInterface

end Node

end Ns3Raft.Olsr
