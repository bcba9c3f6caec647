import Ns3Raft.Lib.Run
import Mathlib.Data.List.Nodup
import Mathlib.Tactic.Tauto

/-! # Demultiplexing to endpoints

`Allocate` refuses an endpoint that is there already for the same device or for no
device. `Lookup` sorts the endpoints that take a packet by how closely they match it,
and aborts when the closest class has more than one.
-/

namespace Ns3Raft.Net

/-- `id` stands for the address of the object; the null device is `none`. -/
structure Ipv4EndPoint where
  id : Nat
  localAddr : UInt32
  localPort : UInt16
  peerAddr : UInt32 := 0
  peerPort : UInt16 := 0
  boundNetDevice : Option Nat := none
  rxEnabled : Bool := true
  deriving DecidableEq, Repr

structure Ipv4EndPointDemux where
  endPoints : List Ipv4EndPoint
  ephemeral : UInt16
  deriving DecidableEq, Repr

structure Ipv4InterfaceAddress where
  addr : UInt32
  mask : UInt32
  deriving DecidableEq, Repr

structure Ipv4Interface where
  device : Nat
  addresses : List Ipv4InterfaceAddress
  deriving DecidableEq, Repr

/-- What `Lookup` is asked for. -/
structure Incoming where
  daddr : UInt32
  dport : UInt16
  saddr : UInt32
  sport : UInt16
  interface : Ipv4Interface
  deriving DecidableEq, Repr

/-- `addr.GetLocal ().CombineMask (addr.GetMask ())`. -/
def Ipv4InterfaceAddress.netpart (a : Ipv4InterfaceAddress) : UInt32 := a.addr &&& a.mask

namespace Ipv4EndPointDemux

def portFirst : UInt16 := 49152

def portLast : UInt16 := 65535

def lookupPortLocal (d : Ipv4EndPointDemux) (port : UInt16) : Bool :=
  d.endPoints.any fun e => e.localPort = port

def lookupLocal (d : Ipv4EndPointDemux) (boundNetDevice : Option Nat) (addr : UInt32) (port : UInt16) : Bool :=
  d.endPoints.any fun e => e.localPort = port ∧ e.localAddr = addr ∧ e.boundNetDevice = boundNetDevice

def nextPort (port : UInt16) : UInt16 :=
  let port := port + 1
  if port < portFirst ∨ portLast < port then portFirst else port

/-- The loop of `AllocateEphemeralPort` with `count` tries left; `none` is the port 0 of a failure. -/
def searchPort (d : Ipv4EndPointDemux) : Nat → UInt16 → Option UInt16
  | 0, _ => none
  | count + 1, port =>
      if d.lookupPortLocal (nextPort port) then searchPort d count (nextPort port) else some (nextPort port)

/-- `count` goes from `m_portLast - m_portFirst` down to 0. -/
def allocateEphemeralPort (d : Ipv4EndPointDemux) : Option UInt16 :=
  d.searchPort ((portLast - portFirst).toNat + 1) d.ephemeral

/-- `Allocate (address)`, and `Allocate ()` with `GetAny ()`. -/
def allocateAddress (d : Ipv4EndPointDemux) (id : Nat) (address : UInt32) : Option Ipv4EndPointDemux :=
  d.allocateEphemeralPort.map fun port => ⟨d.endPoints ++ [{ id, localAddr := address, localPort := port }], port⟩

def allocatePort (d : Ipv4EndPointDemux) (id : Nat) (boundNetDevice : Option Nat) (address : UInt32) (port : UInt16) :
    Option Ipv4EndPointDemux :=
  if d.lookupLocal boundNetDevice address port || d.lookupLocal none address port then none
  else some { d with endPoints := d.endPoints ++ [{ id, localAddr := address, localPort := port }] }

def allocatePeer (d : Ipv4EndPointDemux) (id : Nat) (boundNetDevice : Option Nat) (localAddress : UInt32)
    (localPort : UInt16) (peerAddress : UInt32) (peerPort : UInt16) : Option Ipv4EndPointDemux :=
  if d.endPoints.any fun e => e.localPort = localPort ∧ e.localAddr = localAddress ∧ e.peerPort = peerPort ∧
      e.peerAddr = peerAddress ∧ (e.boundNetDevice = boundNetDevice ∨ e.boundNetDevice = none) then none
  else some
    { d with
      endPoints := d.endPoints ++
        [{ id, localAddr := localAddress, localPort := localPort, peerAddr := peerAddress, peerPort := peerPort }] }

def deAllocate (d : Ipv4EndPointDemux) (id : Nat) : Ipv4EndPointDemux :=
  { d with endPoints := d.endPoints.eraseP fun e => e.id = id }

/-- `BindToNetDevice` of an endpoint. -/
def bindToNetDevice (d : Ipv4EndPointDemux) (id : Nat) (device : Option Nat) : Ipv4EndPointDemux :=
  { d with endPoints := d.endPoints.map fun e => if e.id = id then { e with boundNetDevice := device } else e }

/-- The four lists that `Lookup` fills. -/
structure Found where
  retval1 : List Ipv4EndPoint
  retval2 : List Ipv4EndPoint
  retval3 : List Ipv4EndPoint
  retval4 : List Ipv4EndPoint

def localAddressMatchesExact (p : Incoming) (endP : Ipv4EndPoint) : Bool := endP.localAddr = p.daddr

def localAddressIsAny (p : Incoming) (endP : Ipv4EndPoint) : Bool :=
  !localAddressMatchesExact p endP && endP.localAddr = 0

def localAddressIsSubnetAny (p : Incoming) (endP : Ipv4EndPoint) : Bool :=
  !localAddressMatchesExact p endP && !localAddressIsAny p endP &&
    p.interface.addresses.any fun addr => endP.localAddr = addr.netpart && addr.netpart = p.daddr &&& addr.mask

def localAddressMatchesWildCard (p : Incoming) (endP : Ipv4EndPoint) : Bool :=
  localAddressIsAny p endP || localAddressIsSubnetAny p endP

/-- The body of the loop of `Lookup`. -/
def visit (p : Incoming) (found : Found) (endP : Ipv4EndPoint) : Found :=
  if !endP.rxEnabled then found
  else if endP.localPort ≠ p.dport then found
  else if endP.boundNetDevice ≠ none ∧ endP.boundNetDevice ≠ some p.interface.device then found
  else
    if !localAddressMatchesExact p endP && !localAddressIsAny p endP && !localAddressIsSubnetAny p endP then found
    else
      let remotePortMatchesExact : Bool := endP.peerPort = p.sport
      let remotePortMatchesWildCard : Bool := endP.peerPort = 0
      let remoteAddressMatchesExact : Bool := endP.peerAddr = p.saddr
      let remoteAddressMatchesWildCard : Bool := endP.peerAddr = 0
      if !(remotePortMatchesExact || remotePortMatchesWildCard) then found
      else if !(remoteAddressMatchesExact || remoteAddressMatchesWildCard) then found
      else
        { retval4 :=
            if localAddressMatchesExact p endP && remoteAddressMatchesExact && remotePortMatchesExact
            then found.retval4 ++ [endP] else found.retval4
          retval3 :=
            if localAddressMatchesWildCard p endP && remoteAddressMatchesExact && remotePortMatchesExact
            then found.retval3 ++ [endP] else found.retval3
          retval2 :=
            if localAddressMatchesExact p endP && remoteAddressMatchesWildCard && remotePortMatchesWildCard
            then found.retval2 ++ [endP] else found.retval2
          retval1 :=
            if localAddressMatchesWildCard p endP && remoteAddressMatchesWildCard && remotePortMatchesWildCard
            then found.retval1 ++ [endP] else found.retval1 }

/-- `none` is the abort for too many endpoints. -/
def lookup (d : Ipv4EndPointDemux) (p : Incoming) : Option (List Ipv4EndPoint) :=
  let found := d.endPoints.foldl (visit p) ⟨[], [], [], []⟩
  let retval :=
    if found.retval4 ≠ [] then found.retval4
    else if found.retval3 ≠ [] then found.retval3
    else if found.retval2 ≠ [] then found.retval2
    else found.retval1
  if 1 < retval.length then none else some retval

/-! ## The classes -/

/-- The endpoint is not closed for reception, has the port, and is not bound to another device. -/
def Takes (p : Incoming) (e : Ipv4EndPoint) : Prop :=
  e.rxEnabled = true ∧ e.localPort = p.dport ∧ (e.boundNetDevice = none ∨ e.boundNetDevice = some p.interface.device)

/-- The local address stands for any address, or for the subnet of the destination. -/
def Wild (p : Incoming) (e : Ipv4EndPoint) : Prop :=
  e.localAddr ≠ p.daddr ∧ (e.localAddr = 0 ∨
    ∃ addr ∈ p.interface.addresses, e.localAddr = addr.netpart ∧ addr.netpart = p.daddr &&& addr.mask)

inductive Precision where
  | portOnly
  | localAddress
  | peer
  | all
  deriving DecidableEq, Repr

/-- The more precise classes go first. -/
def Precision.rank : Precision → Nat
  | portOnly => 1
  | localAddress => 2
  | peer => 3
  | all => 4

def Matches (p : Incoming) (e : Ipv4EndPoint) (c : Precision) : Prop :=
  Takes p e ∧
    match c with
    | .all => e.localAddr = p.daddr ∧ e.peerAddr = p.saddr ∧ e.peerPort = p.sport
    | .peer => Wild p e ∧ e.peerAddr = p.saddr ∧ e.peerPort = p.sport
    | .localAddress => e.localAddr = p.daddr ∧ e.peerAddr = 0 ∧ e.peerPort = 0
    | .portOnly => Wild p e ∧ e.peerAddr = 0 ∧ e.peerPort = 0

instance (p : Incoming) (e : Ipv4EndPoint) : Decidable (Takes p e) := inferInstanceAs (Decidable (_ ∧ _))

instance (p : Incoming) (e : Ipv4EndPoint) : Decidable (Wild p e) := inferInstanceAs (Decidable (_ ∧ _))

instance (p : Incoming) (e : Ipv4EndPoint) : ∀ c, Decidable (Matches p e c)
  | .all | .peer | .localAddress | .portOnly => inferInstanceAs (Decidable (_ ∧ _ ∧ _))

variable {p : Incoming} {d : Ipv4EndPointDemux} {e f : Ipv4EndPoint} {found : Found} {c : Precision} {id : Nat}

theorem not_matches (h : ¬Takes p e) : ¬Matches p e c := fun hm => h hm.1

theorem takes_iff : Takes p e ↔ ¬(!e.rxEnabled) = true ∧ ¬e.localPort ≠ p.dport ∧
    ¬(e.boundNetDevice ≠ none ∧ e.boundNetDevice ≠ some p.interface.device) := by
  rw [Takes, Bool.not_eq_true', Bool.not_eq_false, not_not, not_and_or, not_not, not_not]

theorem wildCard_eq : localAddressMatchesWildCard p e = decide (Wild p e) := by
  rw [Bool.eq_iff_iff]
  simp only [localAddressMatchesWildCard, localAddressIsAny, localAddressIsSubnetAny, localAddressMatchesExact,
    Bool.or_eq_true, Bool.and_eq_true, Bool.not_eq_true', Bool.and_eq_false_iff, Bool.not_eq_false',
    decide_eq_true_eq, decide_eq_false_iff_not, List.any_eq_true]
  rw [Wild]
  tauto

/-- The lists an endpoint goes to, by what matches. -/
theorem visit_classes (exact wild portExact portWild addrExact addrWild : Bool) :
    (if !exact && !wild then found
      else if !(portExact || portWild) then found
      else if !(addrExact || addrWild) then found
      else
        { retval4 := if exact && addrExact && portExact then found.retval4 ++ [e] else found.retval4
          retval3 := if wild && addrExact && portExact then found.retval3 ++ [e] else found.retval3
          retval2 := if exact && addrWild && portWild then found.retval2 ++ [e] else found.retval2
          retval1 := if wild && addrWild && portWild then found.retval1 ++ [e] else found.retval1 }) =
      ⟨found.retval1 ++ if wild && addrWild && portWild then [e] else [],
        found.retval2 ++ if exact && addrWild && portWild then [e] else [],
        found.retval3 ++ if wild && addrExact && portExact then [e] else [],
        found.retval4 ++ if exact && addrExact && portExact then [e] else []⟩ := by
  cases exact <;> cases wild <;> cases portExact <;> cases portWild <;> cases addrExact <;> cases addrWild <;> simp

/-- A visit adds the endpoint to the lists of its classes. -/
theorem visit_eq (p : Incoming) (found : Found) (e : Ipv4EndPoint) :
    visit p found e =
      ⟨found.retval1 ++ [e].filter (Matches p · .portOnly), found.retval2 ++ [e].filter (Matches p · .localAddress),
        found.retval3 ++ [e].filter (Matches p · .peer), found.retval4 ++ [e].filter (Matches p · .all)⟩ := by
  by_cases htakes : Takes p e
  · obtain ⟨hrx, hport, hdevice⟩ := takes_iff.mp htakes
    have hskip : (!localAddressMatchesExact p e && !localAddressIsAny p e && !localAddressIsSubnetAny p e) =
        (!localAddressMatchesExact p e && !localAddressMatchesWildCard p e) := by
      rw [localAddressMatchesWildCard, Bool.not_or, Bool.and_assoc]
    rw [visit, if_neg hrx, if_neg hport, if_neg hdevice, hskip]
    refine (visit_classes ..).trans ?_
    simp only [List.filter_cons, List.filter_nil, Matches, htakes, true_and, wildCard_eq, localAddressMatchesExact,
      Bool.decide_and, Bool.and_assoc]
  · have hskipped : visit p found e = found := by
      rw [takes_iff, not_and_or, not_and_or, not_not, not_not, not_not] at htakes
      grind [visit]
    simp [hskipped, not_matches htakes]

theorem foldl_visit (l : List Ipv4EndPoint) (found : Found) :
    l.foldl (visit p) found =
      ⟨found.retval1 ++ l.filter (Matches p · .portOnly), found.retval2 ++ l.filter (Matches p · .localAddress),
        found.retval3 ++ l.filter (Matches p · .peer), found.retval4 ++ l.filter (Matches p · .all)⟩ := by
  induction l generalizing found with
  | nil => simp
  | cons e l ih =>
      rw [List.foldl_cons, ih, visit_eq]
      simp only [List.append_assoc, ← List.filter_append, List.singleton_append]

/-- The endpoints of a class, in their order. -/
def ofClass (d : Ipv4EndPointDemux) (p : Incoming) (c : Precision) : List Ipv4EndPoint :=
  d.endPoints.filter (Matches p · c)

theorem mem_ofClass : e ∈ d.ofClass p c ↔ e ∈ d.endPoints ∧ Matches p e c := by
  rw [ofClass, List.mem_filter, decide_eq_true_eq]

/-- No endpoint matches the packet more closely than `c`. -/
def Closest (d : Ipv4EndPointDemux) (p : Incoming) (c : Precision) : Prop :=
  ∀ c', c.rank < c'.rank → d.ofClass p c' = []

instance (d : Ipv4EndPointDemux) (p : Incoming) (c : Precision) : Decidable (d.Closest p c) :=
  decidable_of_iff (∀ c' ∈ [Precision.portOnly, .localAddress, .peer, .all], c.rank < c'.rank → d.ofClass p c' = [])
    ⟨fun h c' => h c' (by cases c' <;> simp), fun h c' _ => h c'⟩

/-- `Lookup` finds the closest class that has an endpoint. -/
theorem lookup_eq (d : Ipv4EndPointDemux) (p : Incoming) :
    ∃ c, d.Closest p c ∧ (c = .portOnly ∨ d.ofClass p c ≠ []) ∧
      d.lookup p = if 1 < (d.ofClass p c).length then none else some (d.ofClass p c) := by
  have hfound : d.endPoints.foldl (visit p) ⟨[], [], [], []⟩ =
      ⟨d.ofClass p .portOnly, d.ofClass p .localAddress, d.ofClass p .peer, d.ofClass p .all⟩ := foldl_visit _ _
  rw [lookup, hfound]
  by_cases hall : d.ofClass p .all = []
  · by_cases hpeer : d.ofClass p .peer = []
    · by_cases hlocal : d.ofClass p .localAddress = []
      · refine ⟨.portOnly, fun c' hc => ?_, Or.inl rfl, by simp only [hall, hpeer, hlocal, ne_eq, not_true_eq_false, if_false]⟩
        cases c' with
        | portOnly => exact absurd hc (by decide)
        | localAddress => exact hlocal
        | peer => exact hpeer
        | all => exact hall
      · refine ⟨.localAddress, fun c' hc => ?_, Or.inr hlocal, by simp only [hall, hpeer, hlocal, ne_eq,
          not_true_eq_false, not_false_eq_true, if_false, if_true]⟩
        cases c' with
        | portOnly | localAddress => exact absurd hc (by decide)
        | peer => exact hpeer
        | all => exact hall
    · refine ⟨.peer, fun c' hc => ?_, Or.inr hpeer, by simp only [hall, hpeer, ne_eq, not_true_eq_false,
        not_false_eq_true, if_false, if_true]⟩
      cases c' with
      | portOnly | localAddress | peer => exact absurd hc (by decide)
      | all => exact hall
  · refine ⟨.all, fun c' hc => ?_, Or.inr hall, by simp only [hall, ne_eq, not_false_eq_true, if_true]⟩
    cases c' with
    | portOnly | localAddress | peer | all => exact absurd hc (by decide)

/-- `Lookup` does not abort, and finds one endpoint at most. -/
def Unambiguous (d : Ipv4EndPointDemux) (p : Incoming) : Prop := ∃ r, d.lookup p = some r ∧ r.length ≤ 1

theorem length_le_one_iff {l : List α} (hl : l.Nodup) : l.length ≤ 1 ↔ ∀ a ∈ l, ∀ b ∈ l, a = b := by
  constructor
  · intro hlen a ha b hb
    obtain ⟨c, rfl⟩ := List.length_eq_one_iff.mp (Nat.le_antisymm hlen (List.length_pos_of_mem ha))
    rw [List.mem_singleton.mp ha, List.mem_singleton.mp hb]
  · intro hall
    match l, hl, hall with
    | [], _, _ => exact Nat.zero_le _
    | [_], _, _ => exact Nat.le_refl _
    | a :: b :: l, hl, hall =>
        have hab : a = b := hall a (by simp) b (by simp)
        simp [hab] at hl

/-- Two endpoints of the closest class are told apart by nothing that `Lookup` looks at. -/
theorem unambiguous_iff (hl : d.endPoints.Nodup) :
    d.Unambiguous p ↔ ∀ c, d.Closest p c → ∀ e ∈ d.ofClass p c, ∀ f ∈ d.ofClass p c, e = f := by
  obtain ⟨c, hclosest, hsome, hlookup⟩ := d.lookup_eq p
  have hnodup : ∀ c, (d.ofClass p c).Nodup := fun c => hl.filter _
  constructor
  · rintro ⟨r, hr, hlen⟩ c' hc' e he f hf
    have hsame : c' = c := by
      rcases Nat.lt_trichotomy c.rank c'.rank with hlt | heq | hlt
      · rw [hclosest c' hlt] at he
        cases he
      · cases c <;> cases c' <;> first | rfl | exact absurd heq (by decide)
      · rcases hsome with rfl | hne
        · cases c' <;> exact absurd hlt (by decide)
        · exact absurd (hc' c hlt) hne
    subst hsame
    rw [hlookup] at hr
    split at hr
    · cases hr
    · obtain rfl := Option.some.inj hr
      exact (length_le_one_iff (hnodup c')).mp hlen e he f hf
  · intro hall
    have hlen := (length_le_one_iff (hnodup c)).mpr (hall c hclosest)
    exact ⟨_, hlookup.trans (if_neg (Nat.not_lt.mpr hlen)), hlen⟩

end Ipv4EndPointDemux

/-! ## Programs -/

/-- `Allocate ()` is `allocateAddress` of any address, and `Allocate (device, port)` is `allocatePort` with it. -/
inductive DemuxOp where
  | allocateAddress (address : UInt32)
  | allocatePort (device : Option Nat) (address : UInt32) (port : UInt16)
  | allocatePeer (device : Option Nat) (localAddress : UInt32) (localPort : UInt16) (peerAddress : UInt32)
      (peerPort : UInt16)
  | deAllocate (id : Nat)
  | bindToNetDevice (id : Nat)
  deriving DecidableEq, Repr

/-- `passed` are the devices that were passed to `Allocate`, of all endpoints there ever were. -/
structure DemuxRun where
  demux : Ipv4EndPointDemux
  passed : List (Option Nat)
  deriving DecidableEq, Repr

namespace DemuxRun

open Ipv4EndPointDemux

def init : DemuxRun := ⟨⟨[], 49152⟩, []⟩

def device (s : DemuxRun) (id : Nat) : Option Nat := s.passed.getD id none

/-- A failed `Allocate` changes nothing. -/
def allocated (s : DemuxRun) (device : Option Nat) : Option Ipv4EndPointDemux → DemuxRun
  | some d => ⟨d, s.passed ++ [device]⟩
  | none => s

def step (s : DemuxRun) : DemuxOp → DemuxRun
  | .allocateAddress address => s.allocated none (s.demux.allocateAddress s.passed.length address)
  | .allocatePort device address port =>
      s.allocated device (s.demux.allocatePort s.passed.length device address port)
  | .allocatePeer device localAddress localPort peerAddress peerPort =>
      s.allocated device
        (s.demux.allocatePeer s.passed.length device localAddress localPort peerAddress peerPort)
  | .deAllocate id => { s with demux := s.demux.deAllocate id }
  | .bindToNetDevice id => { s with demux := s.demux.bindToNetDevice id (s.device id) }

/-- All addresses and ports agree. -/
def Twins (e f : Ipv4EndPoint) : Prop :=
  e.localAddr = f.localAddr ∧ e.localPort = f.localPort ∧ e.peerAddr = f.peerAddr ∧ e.peerPort = f.peerPort

instance (e f : Ipv4EndPoint) : Decidable (Twins e f) := inferInstanceAs (Decidable (_ ∧ _))

theorem Twins.symm {e f : Ipv4EndPoint} (h : Twins e f) : Twins f e := ⟨h.1.symm, h.2.1.symm, h.2.2.1.symm, h.2.2.2.symm⟩

/-- The first is bound to a device that is not the one the second was allocated for. -/
def Apart (s : DemuxRun) (e f : Ipv4EndPoint) : Prop := e.boundNetDevice ≠ none ∧ e.boundNetDevice ≠ s.device f.id

/-- What the checks of `Allocate` give. -/
structure Checked (s : DemuxRun) : Prop where
  known : ∀ e ∈ s.demux.endPoints, e.id < s.passed.length
  distinct : (s.demux.endPoints.map (·.id)).Nodup
  bound : ∀ e ∈ s.demux.endPoints, e.boundNetDevice = none ∨ e.boundNetDevice = s.device e.id
  apart : ∀ e ∈ s.demux.endPoints, ∀ f ∈ s.demux.endPoints, e ≠ f → Twins e f → s.Apart e f ∨ s.Apart f e

variable {s : DemuxRun} {op : DemuxOp} {e f : Ipv4EndPoint} {p : Incoming} {c : Precision} {d : Ipv4EndPointDemux}

theorem device_append {id : Nat} {dev : Option Nat} (hid : id < s.passed.length) :
    (s.passed ++ [dev]).getD id none = s.device id := by
  rw [device, List.getD_eq_getElem?_getD, List.getD_eq_getElem?_getD, List.getElem?_append_left hid]

/-- An endpoint joins whose twins are all bound, to other devices. -/
theorem Checked.push {dev : Option Nat} {eph : UInt16} (hc : s.Checked) (hid : e.id = s.passed.length)
    (hbound : e.boundNetDevice = none)
    (hnew : ∀ f ∈ s.demux.endPoints, Twins f e → f.boundNetDevice ≠ none ∧ f.boundNetDevice ≠ dev) :
    Checked ⟨⟨s.demux.endPoints ++ [e], eph⟩, s.passed ++ [dev]⟩ := by
  have hdev : ∀ f ∈ s.demux.endPoints, (s.passed ++ [dev]).getD f.id none = s.device f.id := fun f hf =>
    device_append (hc.known f hf)
  have hdevNew : (s.passed ++ [dev]).getD e.id none = dev := by
    rw [hid, List.getD_eq_getElem?_getD, List.getElem?_append_right (Nat.le_refl _), Nat.sub_self]
    rfl
  refine ⟨fun f hf => ?_, ?_, fun f hf => ?_, fun f hf g hg hne htwins => ?_⟩
  · rw [List.length_append, List.length_singleton]
    rcases List.mem_append.mp hf with hf | hf
    · exact Nat.lt_succ_of_lt (hc.known f hf)
    · rw [List.mem_singleton.mp hf, hid]
      exact Nat.lt_succ_self _
  · rw [List.map_append, List.map_singleton, List.nodup_append]
    refine ⟨hc.distinct, List.nodup_singleton _, fun a ha b hb => ?_⟩
    obtain ⟨f, hf, rfl⟩ := List.mem_map.mp ha
    rw [List.mem_singleton.mp hb, hid]
    exact Nat.ne_of_lt (hc.known f hf)
  · rcases List.mem_append.mp hf with hf | hf
    · rw [device, hdev f hf]
      exact hc.bound f hf
    · exact Or.inl ((List.mem_singleton.mp hf) ▸ hbound)
  · simp only [Apart, device]
    rcases List.mem_append.mp hf with hf | hf
    · rcases List.mem_append.mp hg with hg | hg
      · rw [hdev f hf, hdev g hg]
        exact hc.apart f hf g hg hne htwins
      · rw [List.mem_singleton.mp hg, hdevNew]
        exact Or.inl (hnew f hf ((List.mem_singleton.mp hg) ▸ htwins))
    · obtain rfl := List.mem_singleton.mp hf
      rcases List.mem_append.mp hg with hg | hg
      · rw [hdevNew]
        exact Or.inr (hnew g hg htwins.symm)
      · exact absurd (List.mem_singleton.mp hg).symm hne

/-- A port that is found is not in use. -/
theorem searchPort_free {count : Nat} {port port' : UInt16} (h : d.searchPort count port = some port') :
    d.lookupPortLocal port' = false := by
  induction count generalizing port with
  | zero => cases h
  | succ count ih =>
      rw [searchPort] at h
      split at h
      · exact ih h
      · next hfree =>
          obtain rfl := Option.some.inj h
          exact Bool.eq_false_iff.mpr hfree

theorem Checked.allocateAddress (hc : s.Checked) (address : UInt32) : (s.step (.allocateAddress address)).Checked := by
  rw [step, Ipv4EndPointDemux.allocateAddress]
  cases hport : s.demux.allocateEphemeralPort with
  | none => exact hc
  | some port =>
      have hfree := searchPort_free hport
      refine hc.push rfl rfl fun f hf htwins => ?_
      rw [lookupPortLocal, List.any_eq_false] at hfree
      exact absurd (decide_eq_true htwins.2.1) (hfree f hf)

theorem Checked.allocatePort (hc : s.Checked) (dev : Option Nat) (address : UInt32) (port : UInt16) :
    (s.step (.allocatePort dev address port)).Checked := by
  rw [step, Ipv4EndPointDemux.allocatePort]
  split
  · exact hc
  · next hfree =>
      rw [Bool.or_eq_true, not_or] at hfree
      simp only [lookupLocal, List.any_eq_true, decide_eq_true_eq, not_exists, not_and] at hfree
      refine hc.push rfl rfl fun f hf htwins => ?_
      exact ⟨hfree.2 f hf htwins.2.1 htwins.1, hfree.1 f hf htwins.2.1 htwins.1⟩

theorem Checked.allocatePeer (hc : s.Checked) (dev : Option Nat) (localAddress : UInt32) (localPort : UInt16)
    (peerAddress : UInt32) (peerPort : UInt16) :
    (s.step (.allocatePeer dev localAddress localPort peerAddress peerPort)).Checked := by
  rw [step, Ipv4EndPointDemux.allocatePeer]
  split
  · exact hc
  · next hfree =>
      simp only [List.any_eq_true, decide_eq_true_eq, not_exists, not_and, not_or] at hfree
      refine hc.push rfl rfl fun f hf htwins => ?_
      obtain ⟨hdev, hnone⟩ := hfree f hf htwins.2.1 htwins.1 htwins.2.2.2 htwins.2.2.1
      exact ⟨hnone, hdev⟩

theorem Checked.deAllocate (hc : s.Checked) (id : Nat) : (s.step (.deAllocate id)).Checked := by
  have hsub : List.Sublist (s.demux.endPoints.eraseP fun e => e.id = id) s.demux.endPoints := List.eraseP_sublist
  exact ⟨fun e he => hc.known e (hsub.subset he), hc.distinct.sublist (hsub.map _),
    fun e he => hc.bound e (hsub.subset he), fun e he f hf => hc.apart e (hsub.subset he) f (hsub.subset hf)⟩

theorem Checked.bindToNetDevice (hc : s.Checked) (id : Nat) : (s.step (.bindToNetDevice id)).Checked := by
  let g : Ipv4EndPoint → Ipv4EndPoint := fun e => if e.id = id then { e with boundNetDevice := s.device id } else e
  have hid : ∀ e, (g e).id = e.id := fun e => by
    simp only [g]
    split <;> rfl
  have htwins : ∀ e f, Twins (g e) (g f) → Twins e f := fun e f => by
    simp only [Twins, g]
    split <;> split <;> exact fun h => h
  -- what is bound stays bound where it is
  have hkept : ∀ e ∈ s.demux.endPoints, e.boundNetDevice ≠ none → (g e).boundNetDevice = e.boundNetDevice :=
    fun e he hsome => by
      simp only [g]
      split
      · next heq => rw [(hc.bound e he).resolve_left hsome, heq]
      · rfl
  have hapart : ∀ e ∈ s.demux.endPoints, ∀ f, s.Apart e f → s.Apart (g e) (g f) := fun e he f h => by
    rw [Apart, hkept e he h.1, hid]
    exact h
  refine ⟨fun e' he' => ?_, ?_, fun e' he' => ?_, fun e' he' f' hf' hne h => ?_⟩
  · obtain ⟨e, he, rfl⟩ := List.mem_map.mp he'
    exact (hid e).symm ▸ hc.known e he
  · change ((s.demux.endPoints.map g).map (·.id)).Nodup
    rw [List.map_map, show (fun e : Ipv4EndPoint => e.id) ∘ g = fun e => e.id from funext hid]
    exact hc.distinct
  · obtain ⟨e, he, rfl⟩ := List.mem_map.mp he'
    change (g e).boundNetDevice = none ∨ (g e).boundNetDevice = s.device (g e).id
    rw [hid]
    simp only [g]
    split
    · next heq => exact Or.inr (heq ▸ rfl)
    · exact hc.bound e he
  · obtain ⟨e, he, rfl⟩ := List.mem_map.mp he'
    obtain ⟨f, hf, rfl⟩ := List.mem_map.mp hf'
    rcases hc.apart e he f hf (fun heq => hne (heq ▸ rfl)) (htwins e f h) with hef | hfe
    · exact Or.inl (hapart e he f hef)
    · exact Or.inr (hapart f hf e hfe)

theorem Checked.step (hc : s.Checked) : ∀ op, (s.step op).Checked
  | .allocateAddress address => hc.allocateAddress address
  | .allocatePort device address port => hc.allocatePort device address port
  | .allocatePeer device localAddress localPort peerAddress peerPort =>
      hc.allocatePeer device localAddress localPort peerAddress peerPort
  | .deAllocate id => hc.deAllocate id
  | .bindToNetDevice id => hc.bindToNetDevice id

theorem init_checked : init.Checked :=
  ⟨fun _ h => (by cases h), List.nodup_nil, fun _ h => (by cases h), fun _ h => (by cases h)⟩

theorem checked_of_ops (ops : List DemuxOp) : (ops.foldl DemuxRun.step init).Checked := by
  have hfold : ∀ (ops : List DemuxOp) (s : DemuxRun), s.Checked → (ops.foldl DemuxRun.step s).Checked := by
    intro ops
    induction ops with
    | nil => exact fun _ hc => hc
    | cons op ops ih => exact fun s hc => ih _ (hc.step op)
  exact hfold ops _ init_checked

/-! ## When a packet is contested -/

/-- One is bound to the device of the packet and the other, a twin of it, to none; or the two stand for
different sets of addresses. -/
def Rivals (p : Incoming) (e f : Ipv4EndPoint) : Prop :=
  Twins e f ∧ e.boundNetDevice ≠ none ∧ f.boundNetDevice = none ∨
    e.localAddr ≠ f.localAddr ∧ Wild p e ∧ Wild p f

instance (p : Incoming) (e f : Ipv4EndPoint) : Decidable (Rivals p e f) := inferInstanceAs (Decidable (_ ∨ _))

/-- Two rivals match the packet as closely as any endpoint does. -/
def Contested (d : Ipv4EndPointDemux) (p : Incoming) : Prop :=
  ∃ e ∈ d.endPoints, ∃ f ∈ d.endPoints, Rivals p e f ∧ ∃ c, Matches p e c ∧ Matches p f c ∧ d.Closest p c

theorem Matches.twins_or_wild (he : Matches p e c) (hf : Matches p f c) :
    Twins e f ∨ e.localAddr ≠ f.localAddr ∧ Wild p e ∧ Wild p f := by
  obtain ⟨⟨-, hport, -⟩, he⟩ := he
  obtain ⟨⟨-, hport', -⟩, hf⟩ := hf
  by_cases hlocal : e.localAddr = f.localAddr
  · refine Or.inl ⟨hlocal, hport.trans hport'.symm, ?_⟩
    cases c with
    | all | peer | localAddress | portOnly =>
        exact ⟨he.2.1.trans hf.2.1.symm, he.2.2.trans hf.2.2.symm⟩
  · refine Or.inr ⟨hlocal, ?_⟩
    cases c with
    | all | localAddress => exact absurd (he.1.trans hf.1.symm) hlocal
    | peer | portOnly => exact ⟨he.1, hf.1⟩

/-- Of two twins that take one packet, one is bound and the other is not. -/
theorem Checked.rivals (hc : s.Checked) (hf : f ∈ s.demux.endPoints) (htwins : Twins e f) (hapart : s.Apart e f)
    (he' : Takes p e) (hf' : Takes p f) : Rivals p e f := by
  obtain ⟨hsome, hother⟩ := hapart
  refine Or.inl ⟨htwins, hsome, ?_⟩
  rcases hc.bound f hf with hnone | heq
  · exact hnone
  · rcases hf'.2.2 with hnone | hdev
    · exact hnone
    · exact absurd ((he'.2.2.resolve_left hsome).trans (hdev.symm.trans heq)) hother

/-- A packet is delivered to one endpoint at most, unless rivals contest it. -/
theorem lookup_unambiguous_iff (ops : List DemuxOp) (p : Incoming) :
    (ops.foldl DemuxRun.step init).demux.Unambiguous p ↔ ¬Contested (ops.foldl DemuxRun.step init).demux p := by
  have hc := checked_of_ops ops
  rw [unambiguous_iff (List.Nodup.of_map _ hc.distinct)]
  constructor
  · rintro hall ⟨e, he, f, hf, hrivals, c, hec, hfc, hclosest⟩
    have heq := hall c hclosest e (mem_ofClass.mpr ⟨he, hec⟩) f (mem_ofClass.mpr ⟨hf, hfc⟩)
    rcases hrivals with ⟨-, hsome, hnone⟩ | ⟨hne, -⟩
    · exact hsome (heq ▸ hnone)
    · exact hne (congrArg _ heq)
  · intro hnot c hclosest e he f hf
    obtain ⟨he, hec⟩ := mem_ofClass.mp he
    obtain ⟨hf, hfc⟩ := mem_ofClass.mp hf
    by_contra hne
    rcases Matches.twins_or_wild hec hfc with htwins | hwild
    · rcases hc.apart e he f hf hne htwins with hapart | hapart
      · exact hnot ⟨e, he, f, hf, hc.rivals hf htwins hapart hec.1 hfc.1, c, hec, hfc, hclosest⟩
      · exact hnot ⟨f, hf, e, he, hc.rivals he htwins.symm hapart hfc.1 hec.1, c, hfc, hec, hclosest⟩
    · exact hnot ⟨e, he, f, hf, Or.inr hwild, c, hec, hfc, hclosest⟩

/-- An endpoint that is bound to a device, and then one for the same port without a device. -/
def rivalOps : List DemuxOp := [.allocatePort (some 1) 0 80, .bindToNetDevice 0, .allocatePort none 0 80]

theorem not_lookup_unambiguous :
    ¬∀ (ops : List DemuxOp) (p : Incoming), (ops.foldl DemuxRun.step init).demux.Unambiguous p := fun hall => by
  obtain ⟨r, hr, -⟩ := hall rivalOps ⟨167772161, 80, 167772162, 1000, ⟨1, [⟨167772161, 4294967040⟩]⟩⟩
  have hnone : (rivalOps.foldl DemuxRun.step init).demux.lookup
      ⟨167772161, 80, 167772162, 1000, ⟨1, [⟨167772161, 4294967040⟩]⟩⟩ = none := by decide +kernel
  rw [hnone] at hr
  cases hr

end DemuxRun

end Ns3Raft.Net
