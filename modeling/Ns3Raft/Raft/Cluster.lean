import Ns3Raft.Lib.Run
import Ns3Raft.Raft.Step

/-! # A cluster of servers

The servers that are up, and everything any server has ever done. A packet may
be delivered whenever it is in the history, so packets can be delayed, lost,
reordered and delivered more than once.
-/

namespace Ns3Raft.Raft

structure Cluster where
  srv : SrvId → Option RaftServer
  hist : List (SrvId × Output)

inductive Event where
  | act (i : SrvId) (inp : Input)
  /-- The process dies inside a handler, after its first `k` effects. -/
  | crash (i : SrvId) (inp : Input) (k : Nat)
  | restart (b : Boot)

namespace Cluster

def setSrv (c : Cluster) (i : SrvId) (s : Option RaftServer) : Cluster :=
  { c with srv := fun j => if j = i then s else c.srv j }

def record (c : Cluster) (i : SrvId) (out : List Output) : Cluster :=
  { c with hist := c.hist ++ out.map (i, ·) }

/-- A server whose process ended is down. -/
def act (c : Cluster) (i : SrvId) (inp : Input) : Cluster :=
  match c.srv i with
  | none => c
  | some s =>
      let s' := s.step inp
      (c.setSrv i (if s'.exited then none else some s')).record i s'.out

def crash (c : Cluster) (i : SrvId) (inp : Input) (k : Nat) : Cluster :=
  match c.srv i with
  | none => c
  | some s => (c.setSrv i none).record i ((s.step inp).out.take k)

def restart (c : Cluster) (b : Boot) : Cluster :=
  match c.srv b.id with
  | none => c.setSrv b.id (some (RaftServer.start b))
  | some _ => c

def step (c : Cluster) : Event → Cluster
  | .act i inp => c.act i inp
  | .crash i inp k => c.crash i inp k
  | .restart b => c.restart b

def start (boots : List Boot) : Cluster where
  srv i := (boots.find? (·.id = i)).map RaftServer.start
  hist := []

end Cluster

/-! ## What can happen -/

def Sent (hist : List (SrvId × Output)) (p : Packet) : Prop := .send p ∈ hist.map Prod.snd

instance (hist : List (SrvId × Output)) (p : Packet) : Decidable (Sent hist p) :=
  inferInstanceAs (Decidable (_ ∈ _))

/-- An input a server can get: a timer, a packet addressed to it, an error or a
retry of its own request, or a request of one of the kinds in `ext` from a client. -/
def CanOccur (ext : List MsgType) (hist : List (SrvId × Output)) (i : SrvId) : Input → Prop
  | .req m h _ => (Sent hist (.req m h) ∧ m.dst = i) ∨ (m.type ∈ ext ∧ h = .client)
  | .resp m h reqType => Sent hist (.resp m h reqType) ∧ m.dst = i ∧ h ≠ .client
  | .rpcError m h => (i, .send (.req m h)) ∈ hist
  | .retry m => (i, .schedule (.retry m)) ∈ hist
  | _ => True

instance (ext : List MsgType) (hist : List (SrvId × Output)) (i : SrvId) : DecidablePred (CanOccur ext hist i)
  | .req .. => inferInstanceAs (Decidable (_ ∨ _))
  | .resp .. => inferInstanceAs (Decidable (_ ∧ _))
  | .rpcError .. => inferInstanceAs (Decidable (_ ∈ hist))
  | .retry _ => inferInstanceAs (Decidable (_ ∈ hist))
  | .electionTimeout | .hbTimeout _ | .commitInBg | .snapshotCompleted _ | .replicateLog .. =>
      inferInstanceAs (Decidable True)

/-! ## Schedules -/

def sentPackets (hist : List (SrvId × Output)) : List Packet :=
  hist.filterMap fun x => match x.2 with | .send p => some p | _ => none

/-- Deliver the packet that was sent as number `k` of all. -/
def deliver (k : Nat) (c : Cluster) : Event :=
  match (sentPackets c.hist)[k]? with
  | some (.req m h) => .act m.dst (.req m h {})
  | some (.resp m h reqType) => .act m.dst (.resp m h reqType)
  | none => .act noServer .electionTimeout

def timeout (i : SrvId) (_ : Cluster) : Event := .act i .electionTimeout

def heartbeat (i peer : SrvId) (_ : Cluster) : Event := .act i (.hbTimeout peer)

def background (i : SrvId) (_ : Cluster) : Event := .act i .commitInBg

theorem Sent.mono {hist hist' : List (SrvId × Output)} (h : hist <+: hist') {p : Packet}
    (hp : Sent hist p) : Sent hist' p :=
  (h.map Prod.snd).subset hp

theorem CanOccur.mono {ext : List MsgType} {hist hist' : List (SrvId × Output)}
    (h : hist <+: hist') {i : SrvId} {inp : Input} (ho : CanOccur ext hist i inp) :
    CanOccur ext hist' i inp := by
  cases inp with
  | req m h' env => exact ho.imp (fun h1 => ⟨h1.1.mono h, h1.2⟩) id
  | resp m h' reqType => exact ⟨ho.1.mono h, ho.2⟩
  | rpcError m h' => exact h.subset ho
  | retry m => exact h.subset ho
  | _ => trivial

end Ns3Raft.Raft
