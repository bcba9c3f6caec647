import Ns3Raft.Lib.Slices

/-! # Packets as byte strings

Where only the bytes of a packet matter.
-/

namespace Ns3Raft.Net

open Slices

/-- `CreateFragment`; a packet has no bytes behind its end. -/
def createFragment (p : List UInt8) (start length : Nat) : Option (List UInt8) :=
  if start + length ≤ p.length then some (slice p start length) else none

variable {p q : List UInt8} {start length : Nat}

theorem createFragment_eq (h : start + length ≤ p.length) :
    createFragment p start length = some (slice p start length) := if_pos h

theorem createFragment_length (h : createFragment p start length = some q) : q.length = length := by
  rw [createFragment] at h
  split at h
  · next hle => exact Option.some.inj h ▸ length_slice hle
  · cases h

end Ns3Raft.Net
