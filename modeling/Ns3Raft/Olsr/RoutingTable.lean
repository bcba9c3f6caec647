import Mathlib.Logic.Function.Basic
import Ns3Raft.Olsr.State

/-! # The routing table of an OLSR node

Steps 1 to 4 of `RoutingTableComputation`.
-/

namespace Ns3Raft.Olsr

structure RoutingTableEntry where
  destAddr : UInt32
  nextAddr : UInt32
  interface : UInt32
  distance : UInt32
  deriving DecidableEq, Repr

/-- A map; `Lookup` reads it. -/
abbrev RoutingTable : Type := UInt32 → Option RoutingTableEntry

/-- `AddEntry`. -/
def RoutingTable.add (table : RoutingTable) (dest next interface distance : UInt32) : RoutingTable :=
  Function.update table dest (some ⟨dest, next, interface, distance⟩)

/-- What the computation reads: the main address, the addresses of each interface, the time and the state. -/
structure Node where
  mainAddress : UInt32
  interfaces : List (List UInt32)
  now : Int
  state : OlsrState

/-- The variables of the loop over the links of a neighbor. -/
structure Linking where
  table : RoutingTable
  nbMainAddr : Bool
  lt : Option LinkTuple

namespace Node

variable (node : Node)

/-- `AddEntry` with the address of a local interface, which has to be one of the node's. -/
def addEntry (table : RoutingTable) (dest next interfaceAddress distance : UInt32) : Option RoutingTable :=
  (node.interfaces.findIdx? (·.contains interfaceAddress)).map fun i => table.add dest next (UInt32.ofNat i) distance

def addLink (nb : NeighborTuple) (acc : Linking) (link : LinkTuple) : Option Linking :=
  if node.state.getMainAddress link.neighborIfaceAddr = nb.neighborMainAddr ∧ link.time ≥ node.now then
    (node.addEntry acc.table link.neighborIfaceAddr link.neighborIfaceAddr link.localIfaceAddr 1).map fun table =>
      ⟨table, acc.nbMainAddr || link.neighborIfaceAddr = nb.neighborMainAddr, some link⟩
  else some acc

def addNeighbor (table : RoutingTable) (nb : NeighborTuple) : Option RoutingTable :=
  if nb.status = .sym then
    (node.state.links.foldlM (node.addLink nb) ⟨table, false, none⟩).bind fun acc =>
      match acc.nbMainAddr, acc.lt with
      | false, some lt => node.addEntry acc.table nb.neighborMainAddr lt.neighborIfaceAddr lt.localIfaceAddr 1
      | _, _ => some acc.table
  else some table

/-- Steps 1 and 2. -/
def step2 : Option RoutingTable := node.state.neighbors.foldlM node.addNeighbor fun _ => none

def addTwoHop (table : RoutingTable) (tuple : TwoHopNeighborTuple) : RoutingTable :=
  if (node.state.findSymNeighborTuple tuple.twoHopNeighborAddr).isSome = true then table
  else if tuple.twoHopNeighborAddr = node.mainAddress then table
  else if ∃ nb ∈ node.state.neighbors, nb.neighborMainAddr = tuple.neighborMainAddr ∧ nb.willingness ≠ willNever then
    match table tuple.neighborMainAddr with
    | some entry => table.add tuple.twoHopNeighborAddr entry.nextAddr entry.interface 2
    | none => table
  else table

def step3 (table : RoutingTable) : RoutingTable := node.state.twoHopNeighbors.foldl node.addTwoHop table

/-- Step 3.1, for one tuple; the flag is `added`. -/
def addTopology (h : UInt32) (acc : RoutingTable × Bool) (tuple : TopologyTuple) : RoutingTable × Bool :=
  match acc.1 tuple.destAddr, acc.1 tuple.lastAddr with
  | none, some lastAddrEntry =>
      if lastAddrEntry.distance = h then
        (acc.1.add tuple.destAddr lastAddrEntry.nextAddr lastAddrEntry.interface (h + 1), true)
      else acc
  | _, _ => acc

/-- The open loop over `h`; `none` when the fuel is spent before its end. -/
def growRoutes : Nat → UInt32 → RoutingTable → Option RoutingTable
  | 0, _, _ => none
  | fuel + 1, h, table =>
      let acc := node.state.topology.foldl (addTopology h) (table, false)
      if acc.2 then growRoutes fuel (h + 1) acc.1 else some acc.1

/-- Steps 1 to 3. -/
def shortestRoutes (fuel : Nat) : Option RoutingTable :=
  node.step2.bind fun table => node.growRoutes fuel 2 (node.step3 table)

def addIfaceAssoc (table : RoutingTable) (tuple : IfaceAssocTuple) : RoutingTable :=
  match table tuple.mainAddr, table tuple.ifaceAddr with
  | some entry, none => table.add tuple.ifaceAddr entry.nextAddr entry.interface entry.distance
  | _, _ => table

def step4 (table : RoutingTable) : RoutingTable := node.state.ifaceAssocs.foldl addIfaceAssoc table

/-- Steps 1 to 4. -/
def routes (fuel : Nat) : Option RoutingTable := (node.shortestRoutes fuel).map node.step4

end Node

end Ns3Raft.Olsr
