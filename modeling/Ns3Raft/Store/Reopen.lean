import Ns3Raft.Store.Cache

/-! # Opening the folder again

The length of a record is told by the next offset or by the end of the data
file. An operation that leaves old bytes behind the last record therefore gives
them to it, once the cache is gone.
-/

namespace Ns3Raft.Store

open Transition

variable {s s₀ : FsLogStore} {l : IndexedLog Entry} {size : Int}
  {tr : List (FsLogStore × Op)}

/-- A cache of unlimited size reaches back to the first entry. -/
theorem Coherent.withinWindow (h : Coherent s l) (hsize : s.bufSize = int32Max)
    (hcount : s.entriesInStore ≤ int32Max) (op : Op) : WithinWindow s op := by
  have hfirst := h.firstIdx
  rw [FsLogStore.nextSlot, hsize] at hfirst
  cases op with
  | writeAt index e =>
      intro _
      omega
  | _ => trivial

theorem Coherent.create_same (h : Coherent s l) (hsize : size ≠ 0) :
    ∃ s', FsLogStore.create s.files size = some s' ∧ Coherent s' l := by
  obtain ⟨s', hs'⟩ := h.sound.laid.create_isSome hsize
  obtain ⟨hsound, hstart, -, hbuf, hfill⟩ := h.sound.laid.create h.sound.start_pos hs'
  refine ⟨s', hs', ⟨hsound, hstart.trans h.start⟩, ?_, ?_⟩
  · rwa [Entry.map_ofRecord_serialize] at hfill
  · rw [hbuf]
    split
    · decide
    · omega

/-- What a store on the folder of `s` is meant to have in common with `s`. -/
structure Same (s s' : FsLogStore) : Prop where
  start : s'.startIdx = s.startIdx
  next : s'.nextSlot = s.nextSlot
  entryAt : ∀ i, s.startIdx ≤ i → i < s.nextSlot →
    ∃ e, s.entryAt i = some (some e) ∧ s'.entryAt i = some (some e)

theorem Coherent.same {s' : FsLogStore} (h : Coherent s l) (h' : Coherent s' l) : Same s s' := by
  have hstart : s'.startIdx = s.startIdx := h'.start.trans h.start.symm
  have hnext : s'.nextSlot = s.nextSlot := h'.next.trans h.next.symm
  refine ⟨hstart, hnext, fun i hs hn => ?_⟩
  obtain ⟨e, he⟩ : ∃ e, l.get i = some e := by
    rw [← Option.isSome_iff_exists, IndexedLog.get_isSome_iff, ← h.start, ← h.next]
    exact ⟨hs, hn⟩
  refine ⟨e, ?_, ?_⟩
  · rw [h.entryAt hs hn, he]
    rfl
  · rw [h'.entryAt (by omega) (by omega), he]
    rfl

/-- Main theorem: after careful operations with an unlimited cache, a new store on the
folder has the same log. -/
theorem reopen_same (hc : FsLogStore.create .new (-1) = some s₀)
    (h : Run FsLogStore.step Careful s₀ tr s) :
    ∃ s', FsLogStore.create s.files (-1) = some s' ∧ Same s s' := by
  have hcoh := coherent_of_run (by decide) hc h
  obtain ⟨s', hs', hcoh'⟩ := hcoh.create_same (show (-1 : Int) ≠ 0 by decide)
  exact ⟨s', hs', hcoh.same hcoh'⟩

/-- A fresh folder with an unlimited cache. -/
def largeStore : FsLogStore := ⟨⟨[], [], some 1⟩, 0, 1, ⟨[], 1, int32Max⟩, int32Max⟩

theorem reopen_same_small :
    let s := [Op.append ⟨1, 1, [7, 8]⟩, .append ⟨1, 1, [9]⟩, .writeAt 1 ⟨2, 1, [6]⟩,
      .append ⟨2, 1, []⟩, .compact 1].foldl FsLogStore.step largeStore
    ∃ s', FsLogStore.create s.files (-1) = some s' ∧ Same s s' :=
  reopen_same rfl
    ((run_of_passes _ (fun s op => op.plain ∧ (s.apply op).isSome ∧ CoversTail s op ∧
      WithinWindow s op) _ _ (by decide +kernel)).mono fun _ _ h => ⟨completes_of_plain h.1 h.2.1, h.2.2⟩)

/-- The last entry is replaced by a shorter one: opened again, it has the end of the old
payload. -/
theorem reopen_not_same : ∃ s tr s', FsLogStore.create .new (-1) = some largeStore ∧
    Run FsLogStore.step Completes largeStore tr s ∧ FsLogStore.create s.files (-1) = some s' ∧
      s.entryAt 1 = some (some ⟨2, 1, []⟩) ∧ s'.entryAt 1 = some (some ⟨2, 1, [8, 9]⟩) ∧
        ¬ Same s s' := by
  have hrun := run_of_passes FsLogStore.step (fun s op => op.plain ∧ (s.apply op).isSome)
    largeStore [.append ⟨1, 1, [8, 9]⟩, .writeAt 1 ⟨2, 1, []⟩] (by decide +kernel)
  have hold : ([Op.append ⟨1, 1, [8, 9]⟩, .writeAt 1 ⟨2, 1, []⟩].foldl FsLogStore.step
      largeStore).entryAt 1 = some (some ⟨2, 1, []⟩) := by decide +kernel
  refine ⟨_, _, ⟨⟨[0], [2, 0, 0, 0, 0, 0, 0, 0, 1, 8, 9], some 1⟩, 1, 1,
    ⟨[⟨2, 1, [8, 9]⟩], 1, int32Max⟩, int32Max⟩, rfl,
    hrun.mono fun _ _ h => completes_of_plain h.1 h.2, by decide +kernel, hold,
    by decide +kernel, fun h => ?_⟩
  obtain ⟨e, he, he'⟩ := h.entryAt 1 (by decide +kernel) (by decide +kernel)
  rw [hold] at he
  obtain rfl : (⟨2, 1, []⟩ : Entry) = e := by simpa using he
  exact absurd he' (by decide +kernel)

end Ns3Raft.Store
