import Ns3Raft.Lib.IndexedLog
import Ns3Raft.Lib.Run
import Ns3Raft.Store.Operations

/-! # Runs of the file-backed store

The operations of `log_store` with closing and opening again, what they are
meant to leave in the log, and when the files hold exactly that.
-/

namespace Ns3Raft.Store

open Records

inductive Op where
  | append (e : Entry)
  | writeAt (index : Nat) (e : Entry)
  | applyPack (index : Nat) (p : Pack)
  | compact (lastLogIndex : Nat)
  | reopen
  deriving DecidableEq, Repr

def FsLogStore.apply (s : FsLogStore) : Op → Option FsLogStore
  | .append e => some (s.append e)
  | .writeAt index e => s.writeAt index e
  | .applyPack index p => s.applyPack index p
  | .compact lastLogIndex => s.compact lastLogIndex
  | .reopen => s.reopen

def FsLogStore.step (s : FsLogStore) (op : Op) : FsLogStore := (s.apply op).getD s

/-- The log that an operation is meant to leave. -/
def Op.write (l : IndexedLog Entry) : Op → IndexedLog Entry
  | .append e => l.append e
  | .writeAt index e => l.replaceFrom index [e]
  | .applyPack index p => l.replaceFrom index p.entries
  | .compact lastLogIndex => l.compact lastLogIndex
  | .reopen => l

/-- The entries last written, by a run from a new store. -/
def written (tr : List (FsLogStore × Op)) : IndexedLog Entry :=
  (tr.map Prod.snd).foldl Op.write .empty

theorem written_snoc (tr : List (FsLogStore × Op)) (s : FsLogStore) (op : Op) :
    written (tr ++ [(s, op)]) = op.write (written tr) := by
  simp [written]

/-! ## Packs of other stores -/

/-- A store that came about by any operations, packs being taken from such stores. -/
inductive Built : FsLogStore → Prop where
  | create {size : Int} {s : FsLogStore} : FsLogStore.create .new size = some s → Built s
  | apply {s s' : FsLogStore} {op : Op} : Built s → (∀ index p, op ≠ .applyPack index p) →
      s.apply op = some s' → Built s'
  | transfer {s r s' : FsLogStore} {index cnt index' : Nat} {p : Pack} : Built s → Built r →
      r.pack index cnt = some p → s.applyPack index' p = some s' → Built s'

def FromStore (p : Pack) : Prop := ∃ r index cnt, Built r ∧ r.pack index cnt = some p

/-- An operation that does not throw, with a pack from another store. -/
def Completes (s : FsLogStore) (op : Op) : Prop :=
  (s.apply op).isSome ∧ ∀ index p, op = .applyPack index p → FromStore p

variable {s s' : FsLogStore} {rs seg : List (List UInt8)} {l : IndexedLog Entry} {op : Op}
  {p : Pack}

/-- An operation that brings in nothing from another store. -/
def Op.plain : Op → Bool
  | .applyPack _ _ => false
  | _ => true

theorem completes_of_plain (h : op.plain) (hs : (s.apply op).isSome) : Completes s op := by
  refine ⟨hs, fun index p hop => ?_⟩
  rw [hop] at h
  cases h

theorem Sound.reopen (h : Sound s rs) (hr : s.reopen = some s') :
    Sound s' rs ∧ s'.startIdx = s.startIdx ∧ s'.bufSize = s.bufSize ∧
      Filled s' (rs.map Entry.ofRecord) := by
  obtain ⟨h1, h2, -, h3, h4⟩ := h.laid.create h.start_pos hr
  refine ⟨h1, h2, ?_, h4⟩
  rw [h3, if_neg (by omega), Int.toNat_natCast]

theorem applyPack_idx_ne {index : Nat} (h : s.applyPack index p = some s') : p.idx ≠ [] := by
  intro hnil
  unfold FsLogStore.applyPack at h
  rw [hnil] at h
  split at h
  · cases h
  · dsimp only at h
    split at h
    · rename_i heq
      cases heq
    · cases h

theorem Built.sound (h : Built s) : ∃ rs, Sound s rs := by
  induction h with
  | create h => exact ⟨[], (create_new h).1⟩
  | @apply s s' op _ hop h ih =>
      obtain ⟨rs, hs⟩ := ih
      cases op with
      | append e =>
          obtain rfl := Option.some.inj h
          exact ⟨_, hs.append e⟩
      | writeAt index e => exact ⟨_, (hs.writeAt h).2.1⟩
      | applyPack index p => exact absurd rfl (hop index p)
      | compact index => exact ⟨_, (hs.compact h).2.1⟩
      | reopen => exact ⟨rs, (hs.reopen h).1⟩
  | transfer _ _ hp h ih ih' =>
      obtain ⟨rs, hs⟩ := ih
      obtain ⟨ts, hr⟩ := ih'
      rcases hr.pack hp with hnil | hpack
      · exact absurd hnil (applyPack_idx_ne h)
      · exact ⟨_, (hs.applyPack hpack h).2.1⟩

theorem FromStore.packOf (h : FromStore p) (hne : p.idx ≠ []) : ∃ seg, PackOf p seg := by
  obtain ⟨r, index, cnt, hb, hp⟩ := h
  obtain ⟨rs, hr⟩ := hb.sound
  exact ⟨_, (hr.pack hp).resolve_left hne⟩

/-! ## The files hold what was written -/

/-- New bytes at an index reach the end of the data file, unless whole records
behind them are cut off. -/
def Covers (s : FsLogStore) (index count len : Nat) : Prop :=
  s.nextSlot ≤ index + count →
    s.files.data.length ≤ s.files.idx[index - s.startIdx]?.getD s.files.data.length + len

instance (s : FsLogStore) (index count len : Nat) : Decidable (Covers s index count len) :=
  inferInstanceAs (Decidable (_ → _))

def CoversTail (s : FsLogStore) : Op → Prop
  | .writeAt index e => Covers s index 1 e.serialize.length
  | .applyPack index p => Covers s index p.idx.length p.data.length
  | _ => True

instance (s : FsLogStore) : DecidablePred (CoversTail s)
  | .writeAt .. | .applyPack .. => inferInstanceAs (Decidable (Covers ..))
  | .append _ | .compact _ | .reopen => inferInstanceAs (Decidable True)

theorem Sound.covers_iff (h : Sound s rs) {index : Nat} (hs : s.startIdx ≤ index)
    (new : List (List UInt8)) :
    Covers s index new.length new.flatten.length ↔
      leftover rs (index - s.startIdx) new = [] := by
  have hnext := h.next
  have hpos : s.files.idx[index - s.startIdx]?.getD s.files.data.length =
      (rs.take (index - s.startIdx)).flatten.length := by
    by_cases hk : index - s.startIdx < rs.length
    · rw [h.idx_getElem? hk, Option.getD_some]
    · rw [h.idx_getElem?_end (by omega), Option.getD_none, h.laid.data,
        List.take_of_length_le (by omega)]
  rw [leftover_eq_nil_iff, Covers, hpos, h.laid.data, hnext]
  constructor
  · intro hc hle
    exact hc (by omega)
  · intro hc hle
    exact hc (by omega)

/-- The files hold the log `l`. -/
structure Exact (s : FsLogStore) (l : IndexedLog Entry) : Prop where
  sound : Sound s (l.entries.map Entry.serialize)
  start : s.startIdx = l.start

namespace Exact

theorem next (h : Exact s l) : s.nextSlot = l.next := by
  rw [h.sound.next, h.start, List.length_map, IndexedLog.next]

theorem count (h : Exact s l) : s.entriesInStore = l.entries.length := by
  rw [h.sound.count, List.length_map]

theorem replaced (h : Exact s l) {index : Nat} (es : List Entry)
    (hl : leftover (l.entries.map Entry.serialize) (index - s.startIdx)
      (es.map Entry.serialize) = []) :
    replaced (l.entries.map Entry.serialize) (index - s.startIdx) (es.map Entry.serialize) =
      (l.replaceFrom index es).entries.map Entry.serialize := by
  rw [Store.replaced, hl, extendLast_nil, IndexedLog.replaceFrom, h.start]
  simp

end Exact

end Ns3Raft.Store
