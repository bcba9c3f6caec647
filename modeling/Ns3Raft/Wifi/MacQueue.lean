import Mathlib.Data.List.TakeWhile

/-! # The queue of a MAC

The list of `WifiMacQueue` with its iterators: an iterator is the items in front of
it and the items from it on.
-/

namespace Ns3Raft.Wifi

@[ext]
structure Mac48Address where
  octets : List UInt8
  length : octets.length = 6
  deriving DecidableEq

namespace Mac48Address

/-- The address that consists of one octet. -/
def replicate (n : UInt8) : Mac48Address := ⟨List.replicate 6 n, rfl⟩

/-- `CopyFrom`, from the bytes at the front. -/
def copyFrom (bytes : List UInt8) : Option Mac48Address :=
  if h : (bytes.take 6).length = 6 then some ⟨bytes.take 6, h⟩ else none

def isBroadcast (a : Mac48Address) : Bool := a.octets = List.replicate 6 0xff

theorem copyFrom_append (a : Mac48Address) (bytes : List UInt8) : copyFrom (a.octets ++ bytes) = some a := by
  have htake : (a.octets ++ bytes).take 6 = a.octets := List.take_left' a.length
  rw [copyFrom, dif_pos (by rw [htake, a.length])]
  exact congrArg some (Mac48Address.ext htake)

theorem drop_append (a : Mac48Address) (bytes : List UInt8) : (a.octets ++ bytes).drop 6 = bytes :=
  List.drop_left' a.length

end Mac48Address

/-- The fields of a data frame header that aggregation reads and writes. -/
structure WifiMacHeader where
  isQosData : Bool
  toDs : Bool
  fromDs : Bool
  addr1 : Mac48Address
  addr2 : Mac48Address
  addr3 : Mac48Address
  qosTid : Nat
  amsduPresent : Bool
  deriving DecidableEq

/-- `GetSize` of a data frame. -/
def WifiMacHeader.getSize (h : WifiMacHeader) : Nat :=
  2 + 2 + 6 + 6 + 6 + 2 + (if h.toDs && h.fromDs then 6 else 0) + if h.isQosData then 2 else 0

structure WifiMacQueueItem where
  packet : List UInt8
  header : WifiMacHeader
  tstamp : Nat
  deriving DecidableEq

/-- Items that are in the queue, and what a call asks them for. -/
structure QueueFilter where
  now : Nat
  maxDelay : Nat
  tid : Nat
  dest : Mac48Address

/-- The test of `PeekByTidAndAddress`; an item that waited too long is skipped. -/
def QueueFilter.selects (f : QueueFilter) (it : WifiMacQueueItem) : Bool :=
  decide (f.now ≤ it.tstamp + f.maxDelay) && it.header.isQosData && decide (it.header.addr1 = f.dest) &&
    decide (it.header.qosTid = f.tid)

structure ConstIterator where
  before : List WifiMacQueueItem
  rest : List WifiMacQueueItem

namespace ConstIterator

def queue (pos : ConstIterator) : List WifiMacQueueItem := pos.before ++ pos.rest

/-- `PeekByTidAndAddress` from an iterator on. -/
def peek (f : QueueFilter) (pos : ConstIterator) : ConstIterator :=
  ⟨pos.before ++ pos.rest.takeWhile fun it => !f.selects it, pos.rest.dropWhile fun it => !f.selects it⟩

/-- `++` on an iterator at `it`. -/
def advance (pos : ConstIterator) (it : WifiMacQueueItem) (rest : List WifiMacQueueItem) : ConstIterator :=
  ⟨pos.before ++ [it], rest⟩

/-- `Remove` at an iterator, which then is at the next item. -/
def remove (pos : ConstIterator) (rest : List WifiMacQueueItem) : ConstIterator := ⟨pos.before, rest⟩

/-- Peeking passes over items that are not asked for. -/
theorem peek_spec (f : QueueFilter) (pos : ConstIterator) : ∃ skipped, pos.rest = skipped ++ (pos.peek f).rest ∧
    (pos.peek f).before = pos.before ++ skipped ∧ (∀ it ∈ skipped, f.selects it = false) ∧
    ∀ it rest, (pos.peek f).rest = it :: rest → f.selects it = true := by
  refine ⟨_, (List.takeWhile_append_dropWhile ..).symm, rfl, fun it hit => ?_, fun it rest hrest => ?_⟩
  · simpa using List.mem_takeWhile_imp hit
  · have hhead := List.head?_dropWhile_not (fun it => !f.selects it) pos.rest
    rw [show pos.rest.dropWhile (fun it => !f.selects it) = it :: rest from hrest] at hhead
    simpa using hhead

end ConstIterator

end Ns3Raft.Wifi
