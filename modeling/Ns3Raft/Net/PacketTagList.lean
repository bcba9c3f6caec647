import Ns3Raft.Lib.Run
import Ns3Raft.Lib.SharedLists

/-! # Packet tag lists

`PacketTagList` keeps serialized tags in lists that share their tails. `COWTraverse`
walks the part of a list that is its own and copies the shared part up to the tag
that a writer changes. A tag that is found in the part of its own is rewritten in
the room of its old value.
-/

namespace Ns3Raft.Net

open SharedLists Transition

/-- The subclasses of `Tag`. `Serialize` writes `GetSerializedSize` bytes, and `Deserialize` reads
what `Serialize` wrote, whatever comes behind it. -/
structure TagFamily (Ty V : Type) where
  typeOf : V → Ty
  serialize : V → List UInt8
  deserialize : Ty → List UInt8 → V
  read : ∀ v rest, deserialize (typeOf v) (serialize v ++ rest) = v

/-- `TagData`, whose `size` is the length of the data. -/
structure TagData (Ty : Type) where
  tid : Ty
  data : List UInt8
  deriving DecidableEq, Repr

/-- The nodes of all lists, and the head of each list. -/
abbrev TagStore (Ty : Type) := Store (TagData Ty)

inductive TagOp (Ty V : Type) where
  | construct
  | copy (j : Nat)
  | assign (i j : Nat)
  | add (i : Nat) (v : V)
  | remove (i : Nat) (ty : Ty)
  | replace (i : Nat) (v : V)
  | peek (i : Nat) (ty : Ty)
  | removeAll (i : Nat)
  deriving DecidableEq, Repr

/-- What an operation gives back. -/
inductive TagAnswer (V : Type) where
  | done
  | value (v : Option V)
  | found (b : Bool)
  deriving DecidableEq, Repr

namespace PacketTagList

variable {Ty V : Type} [DecidableEq Ty] (F : TagFamily Ty V)

def tidOf (s : TagStore Ty) (a : Nat) : Option Ty := (s.node a).map (·.val.tid)

/-- Where the first loop of `COWTraverse` ends. -/
inductive Found where
  | missing
  | owned (prevNext : Link) (cur : Nat)
  | merge (prevNext : Link) (cur : Nat)

def search (s : TagStore Ty) (tid : Ty) : Nat → Link → Option Nat → Found
  | 0, _, _ | _, _, none => .missing
  | fuel + 1, prevNext, some cur =>
      if 1 < s.cnt cur then .merge prevNext cur
      else if tidOf s cur = some tid then .owned prevNext cur
      else search s tid fuel (.next cur) (s.link (.next cur))

/-- The node of the type, from `cur` on. -/
def find (s : TagStore Ty) (tid : Ty) : Nat → Option Nat → Option Nat
  | 0, _ | _, none => none
  | fuel + 1, some cur =>
      if tidOf s cur = some tid then some cur else find s tid fuel (s.link (.next cur))

/-- The loop that puts copies in the place of the shared nodes in front of the tag. -/
def copyLoop (s : TagStore Ty) (tid : Ty) : Nat → Link → Nat → TagStore Ty × Link × Nat
  | 0, prevNext, cur => (s, prevNext, cur)
  | fuel + 1, prevNext, cur =>
      if tidOf s cur = some tid then (s, prevNext, cur)
      else
        match s.node cur with
        | none => (s, prevNext, cur)
        | some n =>
            match n.next with
            | none => (s, prevNext, cur)
            | some next => copyLoop (s.branch prevNext cur n.val) tid fuel (.next s.nodes.length) next

/-- A writer gets the store, whether the tag was found before the first merge, the node and the
pointer to it. `none` is a write behind the end of a buffer. -/
abbrev Writer (Ty γ : Type) := TagStore Ty → Bool → Nat → Link → Option (γ × TagStore Ty)

/-- What the writer gives back, when the tag is found. -/
def cowTraverse {γ : Type} (s : TagStore Ty) (i : Nat) (tid : Ty) (writer : Writer Ty γ) :
    Option (Option γ × TagStore Ty) :=
  match search s tid s.nodes.length (.root i) (s.link (.root i)) with
  | .missing => some (none, s)
  | .owned prevNext cur => (writer s true cur prevNext).map fun r => (some r.1, r.2)
  | .merge prevNext cur =>
      match find s tid s.nodes.length (some cur) with
      | none => some (none, s)
      | some _ =>
          let (s, prevNext, cur) := copyLoop s tid s.nodes.length prevNext cur
          (writer s false cur prevNext).map fun r => (some r.1, r.2)

/-- The writer of `Remove`, which reads the value of the tag. -/
def removeWriter (tid : Ty) : Writer Ty V := fun s preMerge cur prevNext =>
  (s.node cur).map fun n =>
    (F.deserialize tid n.val.data, if preMerge then s.drop prevNext cur else s.skip prevNext cur)

/-- Before the first merge the new value goes where the old one was, over its first bytes. -/
def replaceWriter (v : V) : Writer Ty Unit := fun s preMerge cur prevNext =>
  if preMerge then
    (s.node cur).bind fun n =>
      if (F.serialize v).length ≤ n.val.data.length then
        some ((), s.update cur fun n =>
          { n with val.data := F.serialize v ++ n.val.data.drop (F.serialize v).length })
      else none
  else some ((), s.branch prevNext cur ⟨F.typeOf v, F.serialize v⟩)

def add (s : TagStore Ty) (i : Nat) (v : V) : TagStore Ty := s.cons i ⟨F.typeOf v, F.serialize v⟩

def replace (s : TagStore Ty) (i : Nat) (v : V) : Option (Bool × TagStore Ty) :=
  (cowTraverse s i (F.typeOf v) (replaceWriter F v)).map fun r =>
    if r.1.isSome then (true, r.2) else (false, add F r.2 i v)

def remove (s : TagStore Ty) (i : Nat) (tid : Ty) : Option (Option V × TagStore Ty) :=
  cowTraverse s i tid (removeWriter F tid)

/-- The value that a tag of the type reads from its node. -/
def peek (s : TagStore Ty) (i : Nat) (tid : Ty) : Option V :=
  ((find s tid s.nodes.length (s.link (.root i))).bind (s.node ·)).map fun n =>
    F.deserialize tid n.val.data

def freeTag (s : TagStore Ty) : Option Nat → TagStore Ty
  | none => s
  | some a => s.free a

def removeAllLoop (s : TagStore Ty) : Nat → Option Nat → Option Nat → TagStore Ty
  | 0, prev, _ | _, prev, none => freeTag s prev
  | fuel + 1, prev, some cur =>
      let s := s.decr cur
      if 0 < s.cnt cur then freeTag s prev
      else removeAllLoop (freeTag s prev) fuel (some cur) ((freeTag s prev).link (.next cur))

def removeAll (s : TagStore Ty) (i : Nat) : TagStore Ty :=
  (removeAllLoop s (s.nodes.length + 1) none (s.link (.root i))).setLink (.root i) none

def assign (s : TagStore Ty) (i j : Nat) : TagStore Ty :=
  if s.link (.root i) = s.link (.root j) then s
  else (removeAll s i).attach i (s.link (.root j))

def copy (s : TagStore Ty) (j : Nat) : TagStore Ty :=
  (s.addRoot none).attach s.roots.length (s.link (.root j))

end PacketTagList

/-- All the lists of a program. `corrupt` says that a write went behind the end of a buffer. -/
structure TagLists (Ty V : Type) where
  store : TagStore Ty
  answers : List (TagAnswer V)
  corrupt : Bool

namespace TagLists

open PacketTagList

variable {Ty V : Type} [DecidableEq Ty] (F : TagFamily Ty V)

def new : TagLists Ty V := ⟨⟨[], []⟩, [], false⟩

/-- The effect of one operation and its answer. -/
def effect (s : TagStore Ty) : TagOp Ty V → Option (TagAnswer V × TagStore Ty)
  | .construct => some (.done, s.addRoot none)
  | .copy j => some (.done, copy s j)
  | .assign i j => some (.done, assign s i j)
  | .add i v => some (.done, add F s i v)
  | .remove i ty => (remove F s i ty).map fun r => (.value r.1, r.2)
  | .replace i v => (replace F s i v).map fun r => (.found r.1, r.2)
  | .peek i ty => some (.value (peek F s i ty), s)
  | .removeAll i => some (.done, removeAll s i)

def step (s : TagLists Ty V) (op : TagOp Ty V) : TagLists Ty V :=
  match effect F s.store op with
  | some (answer, store) => { s with store := store, answers := s.answers ++ [answer] }
  | none => { s with corrupt := true }

end TagLists

end Ns3Raft.Net
