import Mathlib.Data.List.Nodup

/-! # The state of an OLSR node

The repositories are vectors. The neighbor set has one tuple for each main address, which inserting
and erasing keep.
-/

namespace Ns3Raft.Olsr

inductive Status where
  | notSym
  | sym
  deriving DecidableEq, Repr

structure NeighborTuple where
  neighborMainAddr : UInt32
  status : Status
  willingness : UInt8
  deriving DecidableEq, Repr

structure TwoHopNeighborTuple where
  neighborMainAddr : UInt32
  twoHopNeighborAddr : UInt32
  deriving DecidableEq, Repr

structure LinkTuple where
  localIfaceAddr : UInt32
  neighborIfaceAddr : UInt32
  symTime : Int
  time : Int
  deriving DecidableEq, Repr

structure TopologyTuple where
  destAddr : UInt32
  lastAddr : UInt32
  sequenceNumber : UInt16
  expirationTime : Int
  deriving DecidableEq, Repr

structure IfaceAssocTuple where
  ifaceAddr : UInt32
  mainAddr : UInt32
  deriving DecidableEq, Repr

structure AssociationTuple where
  gatewayAddr : UInt32
  networkAddr : UInt32
  netmask : UInt32
  deriving DecidableEq, Repr

/-- A network that the node announces itself. -/
structure Association where
  networkAddr : UInt32
  netmask : UInt32
  deriving DecidableEq, Repr

def willNever : UInt8 := 0

def willAlways : UInt8 := 7

/-! ## The neighbor set -/

/-- A tuple of the same main address is overwritten. -/
def insertNeighbor (tuple : NeighborTuple) : List NeighborTuple → List NeighborTuple
  | [] => [tuple]
  | nb :: neighbors =>
      if nb.neighborMainAddr = tuple.neighborMainAddr then tuple :: neighbors
      else nb :: insertNeighbor tuple neighbors

theorem insertNeighbor_addrs (tuple : NeighborTuple) (neighbors : List NeighborTuple) :
    (insertNeighbor tuple neighbors).map (·.neighborMainAddr) =
      if tuple.neighborMainAddr ∈ neighbors.map (·.neighborMainAddr) then neighbors.map (·.neighborMainAddr)
      else neighbors.map (·.neighborMainAddr) ++ [tuple.neighborMainAddr] := by
  induction neighbors with
  | nil => rfl
  | cons nb neighbors ih =>
    by_cases hsame : nb.neighborMainAddr = tuple.neighborMainAddr
    · rw [insertNeighbor, if_pos hsame, List.map_cons, List.map_cons, if_pos (hsame ▸ List.mem_cons_self), hsame]
    · rw [insertNeighbor, if_neg hsame, List.map_cons, List.map_cons, ih]
      have hiff : tuple.neighborMainAddr ∈ nb.neighborMainAddr :: neighbors.map (·.neighborMainAddr) ↔
          tuple.neighborMainAddr ∈ neighbors.map (·.neighborMainAddr) := by
        rw [List.mem_cons, or_iff_right (Ne.symm hsame)]
      by_cases hmem : tuple.neighborMainAddr ∈ neighbors.map (·.neighborMainAddr)
      · rw [if_pos hmem, if_pos (hiff.2 hmem)]
      · rw [if_neg hmem, if_neg (mt hiff.1 hmem), List.cons_append]

theorem insertNeighbor_nodup {neighbors : List NeighborTuple} (tuple : NeighborTuple)
    (h : (neighbors.map (·.neighborMainAddr)).Nodup) :
    ((insertNeighbor tuple neighbors).map (·.neighborMainAddr)).Nodup := by
  rw [insertNeighbor_addrs]
  split
  · exact h
  · next hnew => exact List.nodup_append.2 ⟨h, List.nodup_singleton _, fun a ha b hb =>
      fun heq => hnew (List.mem_singleton.1 hb ▸ heq ▸ ha)⟩

structure OlsrState where
  links : List LinkTuple
  neighbors : List NeighborTuple
  twoHopNeighbors : List TwoHopNeighborTuple
  topology : List TopologyTuple
  ifaceAssocs : List IfaceAssocTuple
  associationSet : List AssociationTuple
  associations : List Association
  neighbors_nodup : (neighbors.map (·.neighborMainAddr)).Nodup

namespace OlsrState

variable (s : OlsrState)

def insertNeighborTuple (tuple : NeighborTuple) : OlsrState :=
  { s with
    neighbors := insertNeighbor tuple s.neighbors
    neighbors_nodup := insertNeighbor_nodup tuple s.neighbors_nodup }

def eraseNeighborTuple (mainAddr : UInt32) : OlsrState :=
  { s with
    neighbors := s.neighbors.eraseP (·.neighborMainAddr = mainAddr)
    neighbors_nodup := s.neighbors_nodup.sublist (List.eraseP_sublist.map _) }

def findNeighborTuple (mainAddr : UInt32) : Option NeighborTuple :=
  s.neighbors.find? (·.neighborMainAddr = mainAddr)

def findSymNeighborTuple (mainAddr : UInt32) : Option NeighborTuple :=
  s.neighbors.find? fun nb => nb.neighborMainAddr = mainAddr ∧ nb.status = .sym

/-- The first link to the interface, if it is still symmetric. -/
def findSymLinkTuple (ifaceAddr : UInt32) (now : Int) : Option LinkTuple :=
  match s.links.find? (·.neighborIfaceAddr = ifaceAddr) with
  | some link => if link.symTime > now then some link else none
  | none => none

def findIfaceAssocTuple (ifaceAddr : UInt32) : Option IfaceAssocTuple :=
  s.ifaceAssocs.find? (·.ifaceAddr = ifaceAddr)

def getMainAddress (ifaceAddr : UInt32) : UInt32 :=
  match s.findIfaceAssocTuple ifaceAddr with
  | some tuple => tuple.mainAddr
  | none => ifaceAddr

variable {s} {nb nb' : NeighborTuple} {addr : UInt32}

/-- A main address stands for one tuple. -/
theorem eq_of_addr (h : nb ∈ s.neighbors) (h' : nb' ∈ s.neighbors) (heq : nb.neighborMainAddr = nb'.neighborMainAddr) :
    nb = nb' :=
  List.inj_on_of_nodup_map s.neighbors_nodup h h' heq

/-- There is a symmetric link to the node. -/
def IsSym (s : OlsrState) (addr : UInt32) : Prop :=
  ∃ nb ∈ s.neighbors, nb.status = .sym ∧ nb.neighborMainAddr = addr

theorem findSymNeighborTuple_isSome : (s.findSymNeighborTuple addr).isSome = true ↔ s.IsSym addr := by
  rw [findSymNeighborTuple, List.find?_isSome]
  simp only [decide_eq_true_eq]
  exact ⟨fun ⟨nb, hmem, haddr, hsym⟩ => ⟨nb, hmem, hsym, haddr⟩, fun ⟨nb, hmem, hsym, haddr⟩ => ⟨nb, hmem, haddr, hsym⟩⟩

end OlsrState

end Ns3Raft.Olsr
