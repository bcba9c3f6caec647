import Ns3Raft.Lib.Agenda
import Ns3Raft.Lib.Run
import Mathlib.Data.Prod.Lex

/-! # Scheduler events

The keys that events are ordered by, and the abstract event list of a scheduler.
-/

namespace Ns3Raft.Sim

structure EventKey where
  ts : Nat
  uid : Nat
  context : Nat
  deriving DecidableEq, Repr

/-- `impl` stands for the pointer to the event's implementation. -/
structure Event where
  impl : Nat
  key : EventKey
  deriving DecidableEq, Repr

namespace EventKey

/-- `operator <` on keys. -/
def lt (a b : EventKey) : Bool :=
  if a.ts < b.ts then true
  else if a.ts = b.ts ∧ a.uid < b.uid then true
  else false

/-- What keys are compared by. -/
def stamp (k : EventKey) : Nat ×ₗ Nat := toLex (k.ts, k.uid)

theorem stamp_lt_iff {a b : EventKey} :
    a.stamp < b.stamp ↔ a.ts < b.ts ∨ a.ts = b.ts ∧ a.uid < b.uid :=
  Prod.Lex.toLex_lt_toLex

theorem lt_iff {a b : EventKey} : a.lt b ↔ a.stamp < b.stamp := by
  rw [stamp_lt_iff, lt]
  split
  · simp [*]
  · split <;> simp_all

theorem not_lt_iff {a b : EventKey} : a.lt b = false ↔ b.stamp ≤ a.stamp := by
  rw [← Bool.not_eq_true, lt_iff, not_lt]

@[simp] theorem lt_irrefl (a : EventKey) : a.lt a = false := not_lt_iff.mpr le_rfl

end EventKey

namespace Event

def stamp (ev : Event) : Nat ×ₗ Nat := ev.key.stamp

end Event

abbrev Op := Agenda.Op Event

end Ns3Raft.Sim
