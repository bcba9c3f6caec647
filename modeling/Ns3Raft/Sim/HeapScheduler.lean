import Ns3Raft.Lib.Heap
import Ns3Raft.Sim.Event

/-! # The heap scheduler

The array of the heap with its wasted slot 0. `Remove` puts the last leaf in the
place of the event that it takes out and only lets it sink; a leaf of another
subtree can be below its new parent, and then the array is no longer a heap.
-/

namespace Ns3Raft.Sim

open Transition

namespace HeapScheduler

/-- The event of the wasted slot. -/
def empty : Event := ⟨0, ⟨0, 0, 0⟩⟩

def slot (heap : Array Event) (i : Nat) : Event := heap.getD i empty

def parent (id : Nat) : Nat := id / 2

def leftChild (id : Nat) : Nat := id * 2

def rightChild (id : Nat) : Nat := id * 2 + 1

def root : Nat := 1

theorem root_pos : 0 < root := Nat.one_pos

def isRoot (id : Nat) : Bool := id == root

def last (heap : Array Event) : Nat := heap.size - 1

def isBottom (heap : Array Event) (id : Nat) : Bool := id ≥ heap.size

def exch (heap : Array Event) (a b : Nat) : Array Event := heap.swapIfInBounds a b

def isLessStrictly (heap : Array Event) (a b : Nat) : Bool :=
  (slot heap a).key.lt (slot heap b).key

def smallest (heap : Array Event) (a b : Nat) : Nat :=
  if isLessStrictly heap a b then a else b

/-- The loop of `BottomUp`, at `index`. -/
def bottomUp (heap : Array Event) (index : Nat) : Array Event :=
  if _hc : !isRoot index && isLessStrictly heap index (parent index) then
    bottomUp (exch heap index (parent index)) (parent index)
  else heap
termination_by index
decreasing_by
  rcases Nat.eq_zero_or_pos index with h0 | h0
  · subst h0
    simp [parent, isLessStrictly] at _hc
  · exact Nat.div_lt_self h0 (by decide)

theorem smallest_cases (heap : Array Event) (a b : Nat) :
    smallest heap a b = a ∨ smallest heap a b = b := by
  unfold smallest
  split
  · exact .inl rfl
  · exact .inr rfl

@[simp] theorem size_exch (heap : Array Event) (a b : Nat) : (exch heap a b).size = heap.size :=
  Array.size_swapIfInBounds

theorem smallest_children_pos (heap : Array Event) {index : Nat} (hpos : 0 < index) :
    index < smallest heap (leftChild index) (rightChild index) := by
  rcases smallest_cases heap (leftChild index) (rightChild index) with h | h <;>
    rw [h] <;> simp only [leftChild, rightChild] <;> omega

/-- The loop of `TopDown`, at `index`. From slot 0 it would not end. -/
def topDown (heap : Array Event) (index : Nat) (hpos : 0 < index) : Array Event :=
  let right := rightChild index
  let left := leftChild index
  if _hr : !isBottom heap right then
    let tmp := smallest heap left right
    if isLessStrictly heap index tmp then heap
    else topDown (exch heap index tmp) tmp
      (hpos.trans (smallest_children_pos heap hpos))
  else if isBottom heap index then heap
  else if isBottom heap left then heap
  else if isLessStrictly heap index left then heap
  else exch heap index left
termination_by heap.size - index
decreasing_by
  have htmp := smallest_children_pos heap hpos
  have hright : rightChild index = index * 2 + 1 := rfl
  simp only [isBottom, ge_iff_le, Bool.not_eq_eq_eq_not, Bool.not_true,
    decide_eq_false_iff_not, not_le] at _hr
  rw [size_exch]
  omega

/-- `Exch (i, Last ())`, `pop_back` and `TopDown (i)`. -/
def takeOut (heap : Array Event) (i : Nat) (hpos : 0 < i) : Array Event :=
  topDown (exch heap i (last heap)).pop i hpos

@[simp] theorem size_bottomUp (heap : Array Event) (index : Nat) :
    (bottomUp heap index).size = heap.size := by
  fun_induction bottomUp heap index with
  | case1 heap index hc ih => rw [ih, size_exch]
  | case2 => rfl

@[simp] theorem size_topDown (heap : Array Event) (index : Nat) (hpos : 0 < index) :
    (topDown heap index hpos).size = heap.size := by
  fun_induction topDown heap index hpos with
  | case2 _ _ _ _ _ _ _ _ ih => rw [ih, size_exch]
  | case6 => exact size_exch ..
  | case1 | case3 | case4 | case5 => rfl

@[simp] theorem size_takeOut (heap : Array Event) (i : Nat) (hpos : 0 < i) :
    (takeOut heap i hpos).size = heap.size - 1 := by
  rw [takeOut, size_topDown, Array.size_pop, size_exch]

end HeapScheduler

/-- The heap, with slot 0 wasted. -/
structure HeapScheduler where
  heap : Array Event
  wasted : 0 < heap.size
  deriving DecidableEq

namespace HeapScheduler

def new : HeapScheduler := ⟨#[empty], by decide⟩

def isEmpty (s : HeapScheduler) : Bool := s.heap.size == 1

def insert (s : HeapScheduler) (ev : Event) : HeapScheduler where
  heap := bottomUp (s.heap.push ev) (last (s.heap.push ev))
  wasted := by simp

def peekNext (s : HeapScheduler) : Event := slot s.heap root

/-- Nothing when an assertion of `Exch` fails: the heap is empty. -/
def removeNext (s : HeapScheduler) : Option (Event × HeapScheduler) :=
  if h : root < s.heap.size then
    some (slot s.heap root,
      { heap := takeOut s.heap root root_pos
        wasted := by
          rw [size_takeOut]
          exact Nat.sub_pos_of_lt h })
  else none

/-- The loop of `Remove`, at slot `i`. Nothing when an assertion fails. -/
def removeFrom (s : HeapScheduler) (ev : Event) (i : Nat) (hpos : 0 < i) : Option HeapScheduler :=
  if hi : i < s.heap.size then
    if ev.key.uid = (slot s.heap i).key.uid then
      if (slot s.heap i).impl = ev.impl then
        some
          { heap := takeOut s.heap i hpos
            wasted := by
              rw [size_takeOut]
              omega }
      else none
    else removeFrom s ev (i + 1) (Nat.succ_pos i)
  else none
termination_by s.heap.size - i

def remove (s : HeapScheduler) (ev : Event) : Option HeapScheduler :=
  removeFrom s ev 1 Nat.one_pos

def apply (s : HeapScheduler) : Op → Option HeapScheduler
  | .insert ev => some (s.insert ev)
  | .peekNext => some s
  | .removeNext => s.removeNext.map Prod.snd
  | .remove ev => s.remove ev

/-- What `PeekNext` and `RemoveNext` return. -/
def answer (s : HeapScheduler) : Op → Option Event
  | .insert _ | .remove _ => none
  | .peekNext => some s.peekNext
  | .removeNext => s.removeNext.map Prod.fst

/-! ## Keys and events by slot -/

def stamps (heap : Array Event) (i : Nat) : Nat ×ₗ Nat := (slot heap i).stamp

/-- The events, slot 0 left out. -/
def items (heap : Array Event) : List Event := heap.toList.tail

variable {heap : Array Event} {a b i n : Nat} {ev : Event} {s : HeapScheduler}

theorem isLessStrictly_iff : isLessStrictly heap a b ↔ stamps heap a < stamps heap b :=
  EventKey.lt_iff

theorem not_isLessStrictly_iff :
    ¬ isLessStrictly heap a b ↔ stamps heap b ≤ stamps heap a := by
  rw [isLessStrictly_iff, not_lt]

theorem slot_of_lt (hi : i < heap.size) : slot heap i = heap[i] := by
  simp [slot, hi]

theorem slot_push_lt (hi : i < heap.size) : slot (heap.push ev) i = slot heap i := by
  rw [slot_of_lt hi, slot_of_lt (by rw [Array.size_push]; omega), Array.getElem_push_lt hi]

theorem slot_pop (hi : i < heap.size - 1) : slot heap.pop i = slot heap i := by
  rw [slot_of_lt (by rwa [Array.size_pop]), slot_of_lt (by omega), Array.getElem_pop]

theorem slot_exch (ha : a < heap.size) (hb : b < heap.size) (i : Nat) :
    slot (exch heap a b) i = slot heap (Equiv.swap a b i) := by
  by_cases hia : i = a
  · rw [hia, Equiv.swap_apply_left, slot_of_lt hb, slot_of_lt (by rwa [size_exch])]
    exact Array.getElem_swapIfInBounds_left hb _
  by_cases hib : i = b
  · rw [hib, Equiv.swap_apply_right, slot_of_lt ha, slot_of_lt (by rwa [size_exch])]
    exact Array.getElem_swapIfInBounds_right ha _
  rw [Equiv.swap_apply_of_ne_of_ne hia hib]
  rcases Nat.lt_or_ge i heap.size with hi | hi
  · rw [slot_of_lt hi, slot_of_lt (by rwa [size_exch])]
    exact Array.getElem_swapIfInBounds_of_ne_of_ne hia hib _
  · simp [slot, exch, hi]

theorem stamps_exch (ha : a < heap.size) (hb : b < heap.size) :
    stamps (exch heap a b) = stamps heap ∘ Equiv.swap a b := by
  funext i
  rw [Function.comp_apply, stamps, stamps, slot_exch ha hb]

theorem toList_eq_cons (h : 0 < heap.size) : heap.toList = slot heap 0 :: items heap := by
  rw [slot_of_lt h, items]
  cases heap with
  | mk l =>
      cases l with
      | nil => exact absurd h (by decide)
      | cons e l => rfl

theorem items_perm {heap' : Array Event} (h : 0 < heap.size) (hp : heap'.toList.Perm heap.toList)
    (h0 : slot heap' 0 = slot heap 0) : (items heap').Perm (items heap) := by
  have h' : 0 < heap'.size := by rwa [← Array.length_toList, hp.length_eq]
  rw [toList_eq_cons h, toList_eq_cons h', h0] at hp
  exact hp.cons_inv

theorem exch_perm (ha : a < heap.size) (hb : b < heap.size) :
    (exch heap a b).toList.Perm heap.toList := by
  rw [exch, Array.swapIfInBounds_def, dif_pos ha, dif_pos hb]
  exact (Array.swap_perm ha hb).toList

theorem items_exch (ha0 : 0 < a) (hb0 : 0 < b) (ha : a < heap.size) (hb : b < heap.size) :
    (items (exch heap a b)).Perm (items heap) := by
  refine items_perm (by omega) (exch_perm ha hb) ?_
  rw [slot_exch ha hb, Equiv.swap_apply_of_ne_of_ne (by omega) (by omega)]

theorem items_push (h : 0 < heap.size) : items (heap.push ev) = items heap ++ [ev] := by
  rw [items, Array.toList_push, toList_eq_cons h]
  rfl

/-- The event of the last slot is what `pop_back` takes. -/
theorem items_pop (h : 1 < heap.size) :
    items heap = items heap.pop ++ [slot heap (last heap)] := by
  have hlen : (items heap).length = heap.size - 1 := by
    rw [items, List.length_tail, Array.length_toList]
  have hne : items heap ≠ [] := List.ne_nil_of_length_pos (by omega)
  rw [← List.dropLast_append_getLast hne]
  congr 1
  · rw [items, items, Array.toList_pop, List.tail_dropLast]
  · rw [slot_of_lt (by unfold last; omega), List.getLast_eq_getElem]
    simp only [items, List.getElem_tail, Array.getElem_toList, List.length_tail,
      Array.length_toList, last, List.cons.injEq, and_true]
    congr 1
    omega

theorem mem_items (h : 0 < i) (hi : i < heap.size) : slot heap i ∈ items heap := by
  rw [slot_of_lt hi, items]
  refine List.mem_iff_getElem.mpr ⟨i - 1, by simp; omega, ?_⟩
  simp only [List.getElem_tail, Array.getElem_toList]
  congr 1
  omega

theorem exists_slot (h : ev ∈ items heap) : ∃ i, 0 < i ∧ i < heap.size ∧ slot heap i = ev := by
  obtain ⟨k, hk, he⟩ := List.mem_iff_getElem.mp h
  rw [items, List.length_tail, Array.length_toList] at hk
  refine ⟨k + 1, Nat.succ_pos k, by omega, ?_⟩
  rw [slot_of_lt (by omega), ← he]
  simp only [items, List.getElem_tail, Array.getElem_toList]

/-! ## The loops -/

theorem items_bottomUp (h0 : 0 < i) (hi : i < heap.size) :
    (items (bottomUp heap i)).Perm (items heap) := by
  fun_induction bottomUp heap i with
  | case1 heap i hc ih =>
      simp only [isRoot, root, Bool.and_eq_true, Bool.not_eq_true', beq_eq_false_iff_ne] at hc
      have hpar : 0 < parent i := by unfold parent; omega
      have hlt : parent i < heap.size := by unfold parent; omega
      exact (ih hpar (by rwa [size_exch])).trans (items_exch h0 hpar hi hlt)
  | case2 => exact .refl _

theorem ordered_bottomUp (h : Heap.Rising (stamps heap) heap.size i) (hi : i < heap.size) :
    Heap.Ordered (stamps (bottomUp heap i)) heap.size := by
  fun_induction bottomUp heap i with
  | case1 heap i hc ih =>
      rw [Bool.and_eq_true, isLessStrictly_iff] at hc
      have hne : i ≠ 1 := by simpa [isRoot, root] using hc.1
      have h0 : i ≠ 0 := by
        rintro rfl
        exact absurd hc.2 (lt_irrefl _)
      have hpar : parent i < heap.size := by unfold parent; omega
      have hx := h.exchange (by omega) hi hc.2.le
      rw [size_exch, stamps_exch hi hpar] at ih
      exact ih hx hpar
  | case2 heap i hc =>
      rw [Bool.and_eq_true, not_and, not_isLessStrictly_iff] at hc
      refine h.done ?_
      by_cases hne : i = 1
      · exact .inl hne.le
      · exact .inr (hc (by simpa [isRoot, root] using hne))

theorem stamps_smallest_le (heap : Array Event) (i : Nat) {j : Nat} (hj : j / 2 = i) :
    stamps heap (smallest heap (leftChild i) (rightChild i)) ≤ stamps heap j := by
  have hchild : j = leftChild i ∨ j = rightChild i := by
    unfold leftChild rightChild
    omega
  unfold smallest
  split
  case isTrue hlt =>
    rcases hchild with rfl | rfl
    · exact le_rfl
    · exact (isLessStrictly_iff.mp hlt).le
  case isFalse hlt =>
    rcases hchild with rfl | rfl
    · exact not_isLessStrictly_iff.mp hlt
    · exact le_rfl

theorem smallest_lt_size (hr : rightChild i < heap.size) :
    smallest heap (leftChild i) (rightChild i) < heap.size := by
  unfold rightChild at hr
  rcases smallest_cases heap (leftChild i) (rightChild i) with h | h <;>
    rw [h] <;> simp only [leftChild, rightChild] <;> omega

theorem smallest_half (heap : Array Event) (i : Nat) :
    smallest heap (leftChild i) (rightChild i) / 2 = i := by
  rcases smallest_cases heap (leftChild i) (rightChild i) with h | h <;>
    rw [h] <;> simp only [leftChild, rightChild] <;> omega

theorem items_topDown (hpos : 0 < i) :
    (items (topDown heap i hpos)).Perm (items heap) := by
  fun_induction topDown heap i hpos with
  | case2 heap i hpos right left hr tmp hlt ih =>
      have hright : rightChild i < heap.size := by simpa [isBottom] using hr
      have htmp : tmp < heap.size := smallest_lt_size hright
      have hgt : i < tmp := smallest_children_pos heap hpos
      exact ih.trans (items_exch hpos (by omega) (by omega) htmp)
  | case6 heap i hpos right left hr hb hl hlt =>
      have hleft : left < heap.size := by simpa [isBottom] using hl
      have hgt : i < left := by
        show i < i * 2
        omega
      exact items_exch hpos (by omega) (by omega) hleft
  | case1 | case3 | case4 | case5 => exact .refl _

theorem ordered_topDown (hpos : 0 < i) (h : Heap.Sinking (stamps heap) heap.size i) :
    Heap.Ordered (stamps (topDown heap i hpos)) heap.size := by
  fun_induction topDown heap i hpos with
  | case1 heap i hpos right left hr tmp hlt =>
      refine h.done fun j _ hj _ => ?_
      exact (isLessStrictly_iff.mp hlt).le.trans (stamps_smallest_le heap i hj)
  | case2 heap i hpos right left hr tmp hlt ih =>
      have hright : rightChild i < heap.size := by simpa [isBottom] using hr
      have htmp : tmp < heap.size := smallest_lt_size hright
      have hgt : i < tmp := smallest_children_pos heap hpos
      have hgt1 : 1 < tmp := by omega
      have hx := h.exchange (smallest_half heap i) hgt1 htmp
        (not_isLessStrictly_iff.mp hlt) fun j _ hj _ => stamps_smallest_le heap i hj
      rw [size_exch, stamps_exch (by omega) htmp] at ih
      exact ih hx
  | case3 heap i hpos right hr hb =>
      have hsize : heap.size ≤ i := by simpa [isBottom] using hb
      exact h.done fun j _ hj hn => by omega
  | case4 heap i hpos right left hr hb hl =>
      have hsize : heap.size ≤ i * 2 := by simpa [isBottom, left, leftChild] using hl
      exact h.done fun j _ hj hn => by omega
  | case5 heap i hpos right left hr hb hl hlt =>
      have hsize : heap.size ≤ i * 2 + 1 := by simpa [isBottom, right, rightChild] using hr
      refine h.done fun j _ hj hn => ?_
      rw [show j = left by show j = i * 2; omega]
      exact (isLessStrictly_iff.mp hlt).le
  | case6 heap i hpos right left hr hb hl hlt =>
      have hsize : heap.size ≤ i * 2 + 1 := by simpa [isBottom, right, rightChild] using hr
      have hleft : left < heap.size := by simpa [isBottom] using hl
      have hgt : i < left := by
        show i < i * 2
        omega
      have hx := h.exchange (show left / 2 = i by show i * 2 / 2 = i; omega) (by omega) hleft
        (not_isLessStrictly_iff.mp hlt) fun j _ hj hn => by
          rw [show j = left by show j = i * 2; omega]
      rw [stamps_exch (by omega) hleft]
      exact hx.done fun j _ hj hn => by
        have hl2 : left = i * 2 := rfl
        omega

/-! ## The operations -/

/-- The array is a binary heap for the order of events. -/
def Ordered (s : HeapScheduler) : Prop := Heap.Ordered (stamps s.heap) s.heap.size

instance (s : HeapScheduler) : Decidable s.Ordered :=
  inferInstanceAs (Decidable (Heap.Ordered _ _))

def events (s : HeapScheduler) : List Event := items s.heap

theorem size_eq_one_iff : s.heap.size = 1 ↔ s.events = [] := by
  have hlen : s.events.length = s.heap.size - 1 := by
    rw [events, items, List.length_tail, Array.length_toList]
  have hpos := s.wasted
  rw [← List.length_eq_zero_iff]
  omega

theorem Ordered.peekNext_le (h : s.Ordered) (he : ev ∈ s.events) :
    s.peekNext.stamp ≤ ev.stamp := by
  obtain ⟨i, h0, hi, rfl⟩ := exists_slot he
  exact h.root_le i h0 hi

theorem peekNext_mem (h : s.events ≠ []) : s.peekNext ∈ s.events := by
  have hsize : s.heap.size ≠ 1 := fun h1 => h (size_eq_one_iff.mp h1)
  have hpos := s.wasted
  exact mem_items Nat.one_pos (by unfold root; omega)

theorem Ordered.insert (h : s.Ordered) (ev : Event) : (s.insert ev).Ordered := by
  have hup : Heap.Rising (stamps (s.heap.push ev)) (s.heap.push ev).size
      (last (s.heap.push ev)) := by
    rw [last, Array.size_push, Nat.add_sub_cancel]
    refine (h.congr fun j hj => ?_).rising
    rw [stamps, slot_push_lt hj, stamps]
  have hord := ordered_bottomUp hup (by rw [last, Array.size_push]; omega)
  rw [← size_bottomUp] at hord
  exact hord

theorem events_insert (s : HeapScheduler) (ev : Event) :
    (s.insert ev).events.Perm (ev :: s.events) := by
  have hpos := s.wasted
  have hlast : last (s.heap.push ev) = s.heap.size := by
    rw [last, Array.size_push, Nat.add_sub_cancel]
  refine (items_bottomUp (by rw [hlast]; exact hpos) (by rw [hlast, Array.size_push]; omega)).trans ?_
  rw [items_push hpos]
  exact List.perm_append_singleton _ _

theorem items_takeOut (hpos : 0 < i) (hi : i < heap.size) :
    (items (takeOut heap i hpos)).Perm ((items heap).erase (slot heap i)) := by
  have hlast : last heap < heap.size := by unfold last; omega
  have hx := items_exch hpos (show 0 < last heap by unfold last; omega) hi hlast
  rw [items_pop (by rw [size_exch]; omega), slot_exch hi hlast,
    show last (exch heap i (last heap)) = last heap by simp [last], Equiv.swap_apply_right] at hx
  refine (items_topDown hpos).trans ?_
  have he := ((List.perm_append_singleton _ _).symm.trans hx).erase (slot heap i)
  rwa [List.erase_cons_head] at he

/-- The last leaf has the slot itself, or the root, or fits under the slot's parent. -/
def LeafFits (heap : Array Event) (i : Nat) : Prop :=
  i = last heap ∨ i = root ∨ stamps heap (parent i) ≤ stamps heap (last heap)

instance (heap : Array Event) (i : Nat) : Decidable (LeafFits heap i) :=
  inferInstanceAs (Decidable (_ ∨ _ ∨ _))

section TakeOut

variable {rest : Array Event}

/-- In `rest` the leaf of slot `n` stands in slot `i`. -/
def Replaced (heap rest : Array Event) (i n : Nat) : Prop :=
  ∀ j, j < n → stamps rest j = (stamps heap ∘ Equiv.swap i n) j

theorem replaced_exch_pop (hi : i < heap.size) (hn : heap.size = n + 1) :
    Replaced heap (exch heap i n).pop i n := by
  intro j hj
  rw [← stamps_exch hi (show n < heap.size by omega), stamps, stamps,
    slot_pop (by rw [size_exch]; omega)]

theorem Replaced.sinking (hrep : Replaced heap rest i n)
    (h : Heap.Ordered (stamps heap) (n + 1)) (hi : i < n + 1)
    (hfit : i = n ∨ i = root ∨ stamps heap (parent i) ≤ stamps heap n) :
    Heap.Sinking (stamps rest) n i := by
  rcases Nat.lt_or_ge i n with hin | hin
  · have hr := h.replace hin (by
      rcases hfit with rfl | rfl | hfit
      · omega
      · exact .inl le_rfl
      · exact .inr hfit)
    exact
      { rest := fun j h1 hj hne => by
          rw [hrep j hj, hrep (j / 2) (by omega)]
          exact hr.rest j h1 hj hne
        past := fun j h1 hj hjn => by
          rw [hrep j hjn, hrep (i / 2) (by omega)]
          exact hr.past j h1 hj hjn }
  · -- the last slot itself: the others stay as they are
    have hsame : ∀ j, j < n → stamps rest j = stamps heap j := by
      intro j hj
      rw [hrep j hj, Function.comp_apply, Equiv.swap_apply_of_ne_of_ne (by omega) (by omega)]
    exact
      { rest := fun j h1 hj _ => (h.mono (Nat.le_succ n)).congr hsame j h1 hj
        past := fun j _ hj hjn => by omega }

/-- A leaf below its new parent is below all it could sink under, and stays. -/
theorem Replaced.topDown_eq (hrep : Replaced heap rest i n)
    (h : Heap.Ordered (stamps heap) (n + 1)) (hsize : rest.size = n) (hi1 : 1 < i) (hi : i < n)
    (hlt : stamps heap n < stamps heap (parent i)) (hpos : 0 < i) : topDown rest i hpos = rest := by
  have hbelow : ∀ j, j / 2 = i → j < n → isLessStrictly rest i j := by
    intro j hj hjn
    rw [isLessStrictly_iff, hrep i hi, hrep j hjn]
    exact h.leaf_lt_child hi1 hi hlt hj hjn
  subst hsize
  rw [topDown]
  dsimp only
  split
  case isTrue hr =>
    have hright : rightChild i < rest.size := by simpa [isBottom] using hr
    rw [if_pos (hbelow _ (smallest_half rest i) (smallest_lt_size hright))]
  case isFalse hr =>
    split
    · rfl
    split
    · rfl
    case isFalse hl =>
      have hleft : leftChild i < rest.size := by simpa [isBottom] using hl
      rw [if_pos (hbelow _ (by unfold leftChild; omega) hleft)]

/-- Taking out a slot of a heap leaves a heap exactly if the last leaf fits there. -/
theorem ordered_takeOut_iff (h : Heap.Ordered (stamps heap) heap.size) (hpos : 0 < i)
    (hi : i < heap.size) :
    Heap.Ordered (stamps (takeOut heap i hpos)) (heap.size - 1) ↔ LeafFits heap i := by
  obtain ⟨n, hn⟩ : ∃ n, heap.size = n + 1 := ⟨heap.size - 1, by omega⟩
  have hlast : last heap = n := by rw [last, hn, Nat.add_sub_cancel]
  have hrep := replaced_exch_pop hi hn
  have hsize : (exch heap i n).pop.size = n := by
    rw [Array.size_pop, size_exch, hn, Nat.add_sub_cancel]
  rw [takeOut, LeafFits, hlast, hn, Nat.add_sub_cancel]
  rw [hn] at h hi
  generalize (exch heap i n).pop = rest at hrep hsize ⊢
  by_cases hfit : i = n ∨ i = root ∨ stamps heap (parent i) ≤ stamps heap n
  · refine iff_of_true ?_ hfit
    have hsink := hrep.sinking h hi hfit
    subst hsize
    exact ordered_topDown hpos hsink
  · refine iff_of_false (fun hord => ?_) hfit
    simp only [not_or, not_le] at hfit
    obtain ⟨hne, hroot, hlt⟩ := hfit
    have hroot' : i ≠ 1 := hroot
    rw [hrep.topDown_eq h hsize (by omega) (by omega) hlt hpos] at hord
    exact Heap.not_ordered_replace (by omega) (by omega) hlt
      (hord.congr fun j hj => (hrep j hj).symm)

end TakeOut

/-! ## Removing an event -/

/-- `i` is the first slot with this uid. -/
def FirstWith (heap : Array Event) (uid i : Nat) : Prop :=
  0 < i ∧ i < heap.size ∧ (slot heap i).key.uid = uid ∧
    ∀ j < i, 0 < j → (slot heap j).key.uid ≠ uid

instance (heap : Array Event) (uid i : Nat) : Decidable (FirstWith heap uid i) :=
  inferInstanceAs (Decidable (_ ∧ _ ∧ _ ∧ _))

theorem FirstWith.unique {uid k : Nat} (h : FirstWith heap uid i) (hk : FirstWith heap uid k) :
    i = k := by
  rcases Nat.lt_trichotomy i k with hlt | heq | hlt
  · exact absurd h.2.2.1 (hk.2.2.2 i hlt h.1)
  · exact heq
  · exact absurd hk.2.2.1 (h.2.2.2 k hlt hk.1)

theorem exists_firstWith (h : ev ∈ items heap) : ∃ i, FirstWith heap ev.key.uid i := by
  obtain ⟨k, h0, hk, he⟩ := exists_slot h
  have hex : ∃ i, 0 < i ∧ (slot heap i).key.uid = ev.key.uid := ⟨k, h0, by rw [he]⟩
  obtain ⟨hpos, huid⟩ := Nat.find_spec hex
  have hle : Nat.find hex ≤ k := Nat.find_min' hex ⟨h0, by rw [he]⟩
  refine ⟨Nat.find hex, hpos, by omega, huid, fun j hj hj0 hju => ?_⟩
  exact Nat.find_min hex hj ⟨hj0, hju⟩

theorem removeFrom_eq {k : Nat} (hpos : 0 < k) (hk : FirstWith s.heap ev.key.uid i)
    (hki : k ≤ i) :
    (s.removeFrom ev k hpos).map HeapScheduler.heap =
      if (slot s.heap i).impl = ev.impl then some (takeOut s.heap i hk.1) else none := by
  fun_induction removeFrom s ev k hpos with
  | case1 k hpos hlt huid himpl =>
      obtain rfl : k = i := by
        by_contra hne
        exact hk.2.2.2 k (by omega) hpos huid.symm
      rw [if_pos himpl, Option.map_some]
  | case2 k hpos hlt huid himpl =>
      obtain rfl : k = i := by
        by_contra hne
        exact hk.2.2.2 k (by omega) hpos huid.symm
      rw [if_neg himpl, Option.map_none]
  | case3 k hpos hlt huid ih =>
      have hne : k ≠ i := fun heq => huid (heq ▸ hk.2.2.1.symm)
      exact ih (by omega)
  | case4 k hpos hge => exact absurd hk.2.1 (by omega)

def step (s : HeapScheduler) (op : Op) : HeapScheduler := (s.apply op).getD s

theorem remove_cases (hk : FirstWith s.heap ev.key.uid i) :
    ((slot s.heap i).impl = ev.impl ∧ (s.step (.remove ev)).heap = takeOut s.heap i hk.1) ∨
      ((slot s.heap i).impl ≠ ev.impl ∧ s.step (.remove ev) = s) := by
  have heq := removeFrom_eq Nat.one_pos hk hk.1
  have hstep : s.step (.remove ev) = (s.removeFrom ev 1 Nat.one_pos).getD s := rfl
  rw [hstep]
  by_cases himpl : (slot s.heap i).impl = ev.impl
  · rw [if_pos himpl] at heq
    obtain ⟨s', hs', hheap⟩ := Option.map_eq_some_iff.mp heq
    rw [hs']
    exact .inl ⟨himpl, hheap⟩
  · rw [if_neg himpl, Option.map_eq_none_iff] at heq
    rw [heq]
    exact .inr ⟨himpl, rfl⟩

/-- The first slot with the event's uid holds the event, and the last leaf fits there. -/
def RemovalFits (s : HeapScheduler) (ev : Event) : Prop :=
  ∃ i < s.heap.size, FirstWith s.heap ev.key.uid i ∧ slot s.heap i = ev ∧ LeafFits s.heap i

instance (s : HeapScheduler) (ev : Event) : Decidable (RemovalFits s ev) :=
  inferInstanceAs (Decidable (∃ i < _, _))

theorem remove_iff (h : s.Ordered) (hnd : s.events.Nodup) (hmem : ev ∈ s.events) :
    ((s.step (.remove ev)).Ordered ∧
      (s.step (.remove ev)).events.Perm (s.events.erase ev)) ↔ RemovalFits s ev := by
  obtain ⟨i, hi⟩ := exists_firstWith hmem
  have hslot : slot s.heap i ∈ s.events := mem_items hi.1 hi.2.1
  rcases remove_cases hi with ⟨himpl, htake⟩ | ⟨himpl, hsame⟩
  · have hev : (s.step (.remove ev)).events.Perm (s.events.erase (slot s.heap i)) := by
      rw [events, htake]
      exact items_takeOut hi.1 hi.2.1
    have hord := ordered_takeOut_iff h hi.1 hi.2.1
    rw [← htake] at hord
    have hsize : (s.step (.remove ev)).heap.size = s.heap.size - 1 := by rw [htake, size_takeOut]
    rw [← hsize] at hord
    by_cases heq : slot s.heap i = ev
    · rw [heq] at hev
      constructor
      · rintro ⟨ho, -⟩
        exact ⟨i, hi.2.1, hi, heq, hord.mp ho⟩
      · rintro ⟨k, -, hk, -, hfit⟩
        obtain rfl := hi.unique hk
        exact ⟨hord.mpr hfit, hev⟩
    · refine iff_of_false ?_ ?_
      · rintro ⟨-, hp⟩
        have hin : ev ∈ s.events.erase (slot s.heap i) :=
          (List.mem_erase_of_ne (Ne.symm heq)).mpr hmem
        exact (hnd.not_mem_erase) (hp.subset (hev.symm.subset hin))
      · rintro ⟨k, -, hk, hke, -⟩
        obtain rfl := hi.unique hk
        exact heq hke
  · refine iff_of_false ?_ ?_
    · rintro ⟨-, hp⟩
      rw [hsame] at hp
      have hlen := hp.length_eq
      rw [List.length_erase_of_mem hmem] at hlen
      have hpos := List.length_pos_of_mem hmem
      omega
    · rintro ⟨k, -, hk, hke, -⟩
      obtain rfl := hi.unique hk
      exact himpl (by rw [hke])

theorem removeNext_eq (h : s.events ≠ []) :
    ∃ s', s.removeNext = some (s.peekNext, s') ∧ s'.heap = takeOut s.heap root root_pos := by
  have hsize : s.heap.size ≠ 1 := fun h1 => h (size_eq_one_iff.mp h1)
  have hpos := s.wasted
  unfold removeNext
  rw [dif_pos (show root < s.heap.size by unfold root; omega)]
  exact ⟨_, rfl, rfl⟩

/-! ## Runs -/

/-- The heap in order, the events of the agenda in it, and the answers of the agenda. -/
structure Refines (s : HeapScheduler) (q : List Event) : Prop where
  ordered : s.Ordered
  holds : s.events.Perm q
  isEmpty : s.isEmpty = q.isEmpty
  answers : ∀ op, Agenda.Allowed Event.stamp q op → s.answer op = Agenda.answer q op

variable {q : List Event}

theorem Refines.of_sorted (h : s.Ordered) (hp : s.events.Perm q)
    (hq : Agenda.Sorted Event.stamp q) : Refines s q where
  ordered := h
  holds := hp
  isEmpty := by
    rw [Bool.eq_iff_iff, HeapScheduler.isEmpty, beq_iff_eq, size_eq_one_iff, List.isEmpty_iff]
    exact ⟨fun h0 => List.perm_nil.mp (h0 ▸ hp.symm), fun h0 => List.perm_nil.mp (h0 ▸ hp)⟩
  answers := by
    have hpeek : q ≠ [] → q.head? = some s.peekNext := fun hne =>
      hq.head?_of_least hp (peekNext_mem fun h0 => hne (List.perm_nil.mp (h0 ▸ hp.symm)))
        fun a ha => h.peekNext_le ha
    intro op hop
    cases op with
    | insert ev => rfl
    | remove ev => rfl
    | peekNext => exact (hpeek hop).symm
    | removeNext =>
        obtain ⟨s', hs', -⟩ :=
          removeNext_eq (s := s) fun h0 => hop (List.perm_nil.mp (h0 ▸ hp.symm))
        rw [answer, hs', Option.map_some, Agenda.answer, hpeek hop]

/-- The heap and the agenda, side by side. -/
def sideBySide (p : HeapScheduler × List Event) (op : Op) : HeapScheduler × List Event :=
  (p.1.step op, Agenda.step Event.stamp p.2 op)

/-- A key that is not in use, a next event, a queued event. -/
def Asked (p : HeapScheduler × List Event) (op : Op) : Prop := Agenda.Allowed Event.stamp p.2 op

instance (p : HeapScheduler × List Event) (op : Op) : Decidable (Asked p op) :=
  inferInstanceAs (Decidable (Agenda.Allowed _ _ op))

def StepFits (s : HeapScheduler) : Op → Prop
  | .remove ev => RemovalFits s ev
  | _ => True

instance (s : HeapScheduler) : ∀ op, Decidable (StepFits s op)
  | .remove ev => inferInstanceAs (Decidable (RemovalFits s ev))
  | .insert _ | .peekNext | .removeNext => .isTrue trivial

theorem Refines.step_iff (h : Refines s q) (hq : Agenda.Sorted Event.stamp q) {op : Op}
    (hop : Agenda.Allowed Event.stamp q op) :
    Refines (s.step op) (Agenda.step Event.stamp q op) ↔ StepFits s op := by
  have hq' := hq.step hop
  cases op with
  | insert ev =>
      refine iff_of_true (.of_sorted (h.ordered.insert ev) ?_ hq') trivial
      exact (events_insert s ev).trans ((h.holds.cons ev).trans (Agenda.perm_insert _ (.refl q)))
  | peekNext => exact iff_of_true h trivial
  | removeNext =>
      have hne : s.events ≠ [] := fun h0 => hop (List.perm_nil.mp (h0 ▸ h.holds.symm))
      obtain ⟨s', hs', hheap⟩ := removeNext_eq hne
      have hstep : s.step .removeNext = s' := by simp [step, apply, hs']
      have hroot : root < s.heap.size := by
        have h1 : s.heap.size ≠ 1 := fun h1 => hne (size_eq_one_iff.mp h1)
        have hpos := s.wasted
        unfold root
        omega
      have hhead : q.head? = some s.peekNext :=
        ((h.answers .peekNext hop).symm.trans rfl)
      refine iff_of_true (.of_sorted ?_ ?_ hq') trivial
      · have ho := (ordered_takeOut_iff h.ordered root_pos hroot).mpr (.inr (.inl rfl))
        rw [hstep, Ordered, hheap, size_takeOut]
        exact ho
      · have he := items_takeOut root_pos hroot
        rw [← hheap] at he
        rw [hstep]
        exact he.trans (hq.perm_tail h.holds hhead)
  | remove ev =>
      have hmem : ev ∈ s.events := h.holds.symm.subset hop
      rw [StepFits, ← remove_iff h.ordered (h.holds.nodup_iff.mpr hq.nodup) hmem]
      have herase : (s.events.erase ev).Perm (q.erase ev) := h.holds.erase ev
      constructor
      · exact fun hr => ⟨hr.ordered, hr.holds.trans herase.symm⟩
      · exact fun hr => .of_sorted hr.1 (hr.2.trans herase) hq'

variable {tr : List ((HeapScheduler × List Event) × Op)}

theorem refines_new : Refines new [] :=
  .of_sorted (by decide) (.refl _) Agenda.sorted_nil

/-- Main theorem: the heap answers as the agenda, in every state of a run, exactly when the last
leaf fits at every removal. -/
theorem refines_agenda_iff (h : Run sideBySide Asked (new, []) tr (s, q)) :
    ((∀ p ∈ tr, Refines p.1.1 p.1.2) ∧ Refines s q) ↔ ∀ p ∈ tr, StepFits p.1.1 p.2 := by
  refine h.kept_iff (P := fun p => Refines p.1 p.2 ∧ Agenda.Sorted Event.stamp p.2)
    (Q := fun p => Refines p.1 p.2) (C := fun p op => StepFits p.1 op)
    ⟨refines_new, Agenda.sorted_nil⟩ (fun p hp => hp.1) ?_ ?_
  · exact fun p op hp hok hfit => ⟨(hp.1.step_iff hp.2 hok).mpr hfit, hp.2.step hok⟩
  · exact fun p op hp hok hr => (hp.1.step_iff hp.2 hok).mp hr

/-- An event made from its time and its uid. -/
def event (ts uid : Nat) : Event := ⟨uid, ⟨ts, uid, 0⟩⟩

/-- A leaf of the same subtree takes the place of the event that is removed. -/
theorem refines_agenda_same_subtree :
    Refines ([.insert (event 1 4), .insert (event 5 5), .insert (event 2 6), .insert (event 7 7),
      .insert (event 6 8), .remove (event 7 7), .removeNext].foldl sideBySide (new, [])).1
      [event 2 6, event 5 5, event 6 8] :=
  ((refines_agenda_iff (run_of_passes sideBySide Asked (new, [])
    [.insert (event 1 4), .insert (event 5 5), .insert (event 2 6), .insert (event 7 7),
      .insert (event 6 8), .remove (event 7 7), .removeNext] (by decide +kernel))).mpr
    (by decide +kernel)).2

/-- The event of time 7 is removed and a leaf of time 4 is left below it in its subtree: the heap
serves the event of time 4 while the one of time 3 is queued. -/
theorem serves_later_event_first : ∃ s q tr, Run sideBySide Asked (new, []) tr (s, q) ∧
    tr.map Prod.snd = [.insert (event 3 4), .insert (event 7 5), .insert (event 4 6),
      .insert (event 6 7), .insert (event 5 8), .insert (event 2 9), .insert (event 1 10),
      .remove (event 7 5), .removeNext, .removeNext] ∧
    s.answer .removeNext = some (event 4 6) ∧ Agenda.answer q .removeNext = some (event 3 4) ∧
      ¬ Refines s q := by
  have hrun := run_of_passes sideBySide Asked (new, [])
    [.insert (event 3 4), .insert (event 7 5), .insert (event 4 6), .insert (event 6 7),
      .insert (event 5 8), .insert (event 2 9), .insert (event 1 10), .remove (event 7 5),
      .removeNext, .removeNext] (by decide +kernel)
  refine ⟨_, _, _, hrun, rfl, by decide +kernel, by decide +kernel, fun h => ?_⟩
  exact absurd (h.answers .removeNext (by decide +kernel)) (by decide +kernel)

end HeapScheduler

end Ns3Raft.Sim
