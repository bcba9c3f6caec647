import Ns3Raft.Net.TcpRxBuffer

/-! # Packets at their positions

With positions for sequence numbers, what is stored are ranges, one behind the other,
and an added packet covers what it is trimmed from. What the packets may hold is left
open.
-/

namespace Ns3Raft.Net.TcpRxBuffer

open Sequence Slices

/-- What packets may hold at a position, they may be cut from and be put together to. -/
structure Content (fits : Nat → List UInt8 → Prop) : Prop where
  slice : ∀ {k p} (off len), fits k p → off + len ≤ p.length → fits (k + off) (slice p off len)
  append : ∀ {k p q}, fits k p → fits (k + p.length) q → fits k (p ++ q)
  nil : ∀ k, fits k []

/-- The packets lie behind each other, from `lo` on. -/
def Spread (fits : Nat → List UInt8 → Prop) : Nat → List (Nat × List UInt8) → Prop
  | _, [] => True
  | lo, (k, p) :: data => lo ≤ k ∧ p ≠ [] ∧ fits k p ∧ Spread fits (k + p.length) data

def Holds (data : List (Nat × List UInt8)) (o : Nat) : Prop := ∃ e ∈ data, e.1 ≤ o ∧ o < e.1 + e.2.length

def total (data : List (Nat × List UInt8)) : Nat := (data.map (·.2.length)).sum

/-- Where the packets that follow each other from `lo` on end. -/
def contiguous : Nat → List (Nat × List UInt8) → Nat
  | lo, [] => lo
  | lo, (k, p) :: data => if k = lo then contiguous (lo + p.length) data else lo

variable {fits : Nat → List UInt8 → Prop} {p : List UInt8} {data rest : List (Nat × List UInt8)} {lo h t n k o size : Nat}

theorem holds_cons : Holds ((k, p) :: rest) o ↔ (k ≤ o ∧ o < k + p.length) ∨ Holds rest o := by
  simp [Holds]

theorem not_holds_nil : ¬Holds [] o := by simp [Holds]

@[simp] theorem total_cons : total ((k, p) :: rest) = p.length + total rest := by simp [total]

@[simp] theorem total_nil : total [] = 0 := rfl

theorem Spread.mono (hd : Spread fits lo data) (hle : n ≤ lo) : Spread fits n data := by
  cases data with
  | nil => trivial
  | cons e rest => exact ⟨Nat.le_trans hle hd.1, hd.2⟩

theorem Spread.le_of_mem {e : Nat × List UInt8} (hd : Spread fits lo data) (he : e ∈ data) : lo ≤ e.1 := by
  induction data generalizing lo with
  | nil => cases he
  | cons d rest ih =>
      obtain ⟨hlo, -, -, hrest⟩ := hd
      rcases List.mem_cons.mp he with rfl | he
      · exact hlo
      · exact Nat.le_trans hlo (Nat.le_trans (Nat.le_add_right _ _) (ih hrest he))

theorem Spread.pos_of_mem {e : Nat × List UInt8} (hd : Spread fits lo data) (he : e ∈ data) : 0 < e.2.length := by
  induction data generalizing lo with
  | nil => cases he
  | cons d rest ih =>
      obtain ⟨-, hne, -, hrest⟩ := hd
      rcases List.mem_cons.mp he with rfl | he
      · exact List.length_pos_iff.mpr hne
      · exact ih hrest he

theorem Spread.le_of_holds (hd : Spread fits lo data) (ho : Holds data o) : lo ≤ o := by
  obtain ⟨e, he, hle, -⟩ := ho
  exact Nat.le_trans (hd.le_of_mem he) hle

theorem Spread.sublist {sub : List (Nat × List UInt8)} (hd : Spread fits lo data) (hs : sub.Sublist data) :
    Spread fits lo sub := by
  induction hs generalizing lo with
  | slnil => trivial
  | cons e _ ih =>
      obtain ⟨hlo, -, -, hrest⟩ := hd
      exact (ih hrest).mono (Nat.le_trans hlo (Nat.le_add_right _ _))
  | cons_cons e _ ih =>
      obtain ⟨hlo, hne, hp, hrest⟩ := hd
      exact ⟨hlo, hne, hp, ih hrest⟩

/-! ## Removing what overlaps -/

/-- What the loop of `Add` leaves of the packets and of the new one. -/
structure Overlapped (data : List (Nat × List UInt8)) (h t : Nat) (r : Trimmed Nat) : Prop where
  head_le : h ≤ r.headSeq
  le_tail : r.tailSeq ≤ t
  sublist : r.data.Sublist data
  apart : r.headSeq < r.tailSeq → ∀ e ∈ r.data, e.1 + e.2.length ≤ r.headSeq ∨ r.tailSeq ≤ e.1
  covers : r.headSeq < r.tailSeq → ∀ o, Holds r.data o ∨ (r.headSeq ≤ o ∧ o < r.tailSeq) ↔ Holds data o ∨ (h ≤ o ∧ o < t)
  nothing : r.tailSeq ≤ r.headSeq → r.data = data ∧ ∀ o, h ≤ o → o < t → Holds data o

theorem removeOverlap_cons (data : List (Nat × List UInt8)) :
    removeOverlap ((k, p) :: data) h t size =
      if k ≤ t then
        if h < k + p.length then
          if h < k ∧ k + p.length < t then removeOverlap data h t (size - p.length)
          else
            let r := removeOverlap data (if k ≤ h then k + p.length else h) (if t ≤ k + p.length then k else t) size
            { r with data := (k, p) :: r.data }
        else
          let r := removeOverlap data h t size
          { r with data := (k, p) :: r.data }
      else ⟨(k, p) :: data, h, t, size⟩ := by
  simp only [removeOverlap, le_nat, gt_nat, add_nat, lt_nat, ge_nat, decide_eq_true_eq, Bool.and_eq_true]

/-- Where all packets are behind the start of the new one, it keeps its start and is not empty. -/
theorem removeOverlap_behind (t size : Nat) (hd : Spread fits lo data) (hlo : h < lo) (ht : h < t) :
    (removeOverlap data h t size).headSeq = h ∧ h < (removeOverlap data h t size).tailSeq := by
  induction data generalizing lo t size with
  | nil => exact ⟨rfl, ht⟩
  | cons e rest ih =>
      obtain ⟨k, p⟩ := e
      obtain ⟨hk, -, -, hrest⟩ := hd
      have hhk : ¬k ≤ h := by omega
      rw [removeOverlap_cons]
      split_ifs
      · exact ih _ _ hrest (by omega) ht
      · exact ih _ _ hrest (by omega) (by omega)
      · exact ih _ _ hrest (by omega) ht
      · omega
      · exact ⟨rfl, ht⟩

theorem removeOverlap_spec (hd : Spread fits lo data) : Overlapped data h t (removeOverlap data h t size) := by
  induction data generalizing lo h t size with
  | nil =>
      exact ⟨Nat.le_refl _, Nat.le_refl _, List.Sublist.refl _, fun _ e he => (by cases he), fun _ o => Iff.rfl,
        fun hle => ⟨rfl, fun o ho ho' => absurd (Nat.lt_of_le_of_lt ho ho') (Nat.not_lt.mpr hle)⟩⟩
  | cons e rest ih =>
      obtain ⟨k, p⟩ := e
      obtain ⟨hk, hne, -, hrest⟩ := hd
      have hpos := List.length_pos_iff.mpr hne
      have hbehind : ∀ o, Holds rest o → k + p.length ≤ o := fun o ho => hrest.le_of_holds ho
      rw [removeOverlap_cons]
      by_cases hkt : k ≤ t
      · rw [if_pos hkt]
        by_cases hh : h < k + p.length
        · rw [if_pos hh]
          by_cases hin : h < k ∧ k + p.length < t
          · rw [if_pos hin]
            obtain ⟨hhead, hlt⟩ := removeOverlap_behind t (size - p.length) hrest hh (by omega)
            have hr := @ih _ h t (size - p.length) hrest
            refine ⟨hr.head_le, hr.le_tail, hr.sublist.cons _, hr.apart, fun hne o => ?_, fun hle => ?_⟩
            · rw [hr.covers hne, holds_cons]
              by_cases ho : Holds rest o
              · simp only [ho, or_true, true_or]
              · simp only [ho, false_or, or_false]
                omega
            · omega
          · rw [if_neg hin]
            have hhead : ∃ h', (if k ≤ h then k + p.length else h) = h' ∧
                (k ≤ h ∧ h' = k + p.length ∨ h < k ∧ h' = h) := ⟨_, rfl, by split <;> omega⟩
            have htail : ∃ t', (if t ≤ k + p.length then k else t) = t' ∧
                (t ≤ k + p.length ∧ t' = k ∨ k + p.length < t ∧ t' = t) := ⟨_, rfl, by split <;> omega⟩
            obtain ⟨h', heq, hcase⟩ := hhead
            obtain ⟨t', heq', hcase'⟩ := htail
            rw [heq, heq']
            have hr := @ih _ h' t' size hrest
            generalize removeOverlap rest h' t' size = r at hr
            obtain ⟨hhead, htail, hsublist, hapart, hcovers, hnothing⟩ := hr
            refine ⟨?_, ?_, hsublist.cons_cons _, fun hne e he => ?_, fun hne o => ?_, fun hle => ?_⟩
            · dsimp only
              omega
            · dsimp only
              omega
            · dsimp only at hne ⊢
              rcases List.mem_cons.mp he with rfl | he
              · dsimp only
                omega
              · exact hapart hne e he
            · rw [holds_cons, holds_cons, or_assoc, hcovers hne]
              by_cases ho : Holds rest o
              · simp only [ho, or_true, true_or]
              · simp only [ho, false_or, or_false]
                omega
            · obtain ⟨hsame, hall⟩ := hnothing hle
              refine ⟨congrArg _ hsame, fun o ho ho' => ?_⟩
              rw [holds_cons]
              by_cases hin' : k ≤ o ∧ o < k + p.length
              · exact Or.inl hin'
              · exact Or.inr (hall o (by omega) (by omega))
        · rw [if_neg hh]
          have hr := @ih _ h t size hrest
          have hle := hr.head_le
          refine ⟨hr.head_le, hr.le_tail, hr.sublist.cons_cons _, fun hne e he => ?_, fun hne o => ?_, fun hle => ?_⟩
          · rcases List.mem_cons.mp he with rfl | he
            · exact Or.inl (Nat.le_trans (Nat.not_lt.mp hh) hle)
            · exact hr.apart hne e he
          · rw [holds_cons, holds_cons, or_assoc, hr.covers hne, or_assoc]
          · obtain ⟨hsame, hall⟩ := hr.nothing hle
            exact ⟨congrArg _ hsame, fun o ho ho' => holds_cons.mpr (Or.inr (hall o ho ho'))⟩
      · rw [if_neg hkt]
        refine ⟨Nat.le_refl _, Nat.le_refl _, List.Sublist.refl _, fun _ e he => Or.inr ?_, fun _ o => Iff.rfl,
          fun hle => ⟨rfl, fun o ho ho' => absurd (Nat.lt_of_le_of_lt ho ho') (Nat.not_lt.mpr hle)⟩⟩
        rcases List.mem_cons.mp he with rfl | he
        · exact Nat.le_of_lt (Nat.not_le.mp hkt)
        · have := hrest.le_of_mem he
          change t ≤ e.1
          omega

/-- The bytes of the packets that are removed are no longer counted. -/
theorem removeOverlap_size (hsize : total data ≤ size) :
    (removeOverlap data h t size).size + total data = size + total (removeOverlap data h t size).data := by
  induction data generalizing h t size with
  | nil => rfl
  | cons e rest ih =>
      obtain ⟨k, p⟩ := e
      rw [total_cons] at hsize ⊢
      rw [removeOverlap_cons]
      split
      · split
        · split
          · have := @ih h t (size - p.length) (by omega)
            omega
          · generalize (if k ≤ h then k + p.length else h) = h'
            generalize (if t ≤ k + p.length then k else t) = t'
            have := @ih h' t' size (by omega)
            simp only [total_cons]
            omega
        · have := @ih h t size (by omega)
          simp only [total_cons]
          omega
      · rw [total_cons]

/-! ## Inserting -/

theorem insertData_cons {q : List UInt8} :
    insertData h p ((k, q) :: rest) =
      if k < h then (k, q) :: insertData h p rest else if h < k then (h, p) :: (k, q) :: rest else (k, p) :: rest := by
  simp only [insertData, lt_nat, decide_eq_true_eq]

/-- What a packet that overlaps nothing does to the packets. -/
structure Inserted (fits : Nat → List UInt8 → Prop) (lo h : Nat) (p : List UInt8) (data data' : List (Nat × List UInt8)) : Prop where
  spread : Spread fits lo data'
  holds : ∀ o, Holds data' o ↔ Holds data o ∨ (h ≤ o ∧ o < h + p.length)
  total : total data' = total data + p.length

theorem Spread.insert (hd : Spread fits lo data) (hlo : lo ≤ h) (hp : p ≠ []) (hfits : fits h p)
    (hapart : ∀ e ∈ data, e.1 + e.2.length ≤ h ∨ h + p.length ≤ e.1) :
    Inserted fits lo h p data (insertData h p data) := by
  induction data generalizing lo with
  | nil =>
      refine ⟨⟨hlo, hp, hfits, trivial⟩, fun o => ?_, by rw [insertData, total_cons, Nat.add_comm]⟩
      rw [insertData, holds_cons, or_comm]
  | cons e rest ih =>
      obtain ⟨k, q⟩ := e
      obtain ⟨hk, hne, hq, hrest⟩ := hd
      have hpos := List.length_pos_iff.mpr hne
      have hpos' := List.length_pos_iff.mpr hp
      have hfirst := hapart (k, q) List.mem_cons_self
      rw [insertData_cons]
      split
      · next hlt =>
          have hi := ih hrest (by dsimp only at hfirst; omega) fun e he => hapart e (List.mem_cons_of_mem _ he)
          refine ⟨⟨hk, hne, hq, hi.spread⟩, fun o => ?_, ?_⟩
          · rw [holds_cons, holds_cons, hi.holds, or_assoc]
          · rw [total_cons, total_cons, hi.total]
            omega
      · split
        · refine ⟨⟨hlo, hp, hfits, ?_, hne, hq, hrest⟩, fun o => ?_, ?_⟩
          · dsimp only at hfirst
            omega
          · rw [holds_cons, or_comm]
          · rw [total_cons, Nat.add_comm]
        · dsimp only at hfirst
          omega

/-! ## What is contiguous -/

/-- `next` is reached from `lo` over the first packets. -/
def Reaches : Nat → Nat → List (Nat × List UInt8) → Prop
  | lo, next, [] => lo = next
  | lo, next, (k, p) :: data => lo = next ∨ k = lo ∧ Reaches (lo + p.length) next data

theorem le_contiguous (lo : Nat) (data : List (Nat × List UInt8)) : lo ≤ contiguous lo data := by
  induction data generalizing lo with
  | nil => exact Nat.le_refl _
  | cons e rest ih =>
      rw [contiguous]
      split
      · exact Nat.le_trans (Nat.le_add_right _ _) (ih _)
      · exact Nat.le_refl _

theorem Reaches.le (hr : Reaches lo n data) : lo ≤ n := by
  induction data generalizing lo with
  | nil => exact Nat.le_of_eq hr
  | cons e rest ih =>
      rcases hr with rfl | ⟨-, hr⟩
      · exact Nat.le_refl _
      · exact Nat.le_trans (Nat.le_add_right _ _) (ih hr)

theorem Reaches.le_contiguous (hr : Reaches lo n data) : n ≤ contiguous lo data := by
  induction data generalizing lo with
  | nil => exact Nat.le_of_eq hr.symm
  | cons e rest ih =>
      rcases hr with rfl | ⟨heq, hr⟩
      · exact TcpRxBuffer.le_contiguous _ _
      · rw [contiguous, if_pos heq]
        exact ih hr

theorem reaches_contiguous : Reaches lo (contiguous lo data) data := by
  induction data generalizing lo with
  | nil => rfl
  | cons e rest ih =>
      rw [contiguous]
      split
      · next heq => exact Or.inr ⟨heq, ih⟩
      · exact Or.inl rfl

theorem reaches_self : Reaches n n data := by
  cases data with
  | nil => rfl
  | cons e rest => exact Or.inl rfl

/-- A packet behind the first ones leaves them as they are. -/
theorem Reaches.insert (hr : Reaches lo n data) (hd : Spread fits lo data) (hle : n ≤ h) :
    Reaches lo n (insertData h p data) := by
  induction data generalizing lo with
  | nil =>
      obtain rfl : lo = n := hr
      exact reaches_self
  | cons e rest ih =>
      obtain ⟨k, q⟩ := e
      obtain ⟨-, hne, -, hrest⟩ := hd
      have hpos := List.length_pos_iff.mpr hne
      rcases hr with rfl | ⟨rfl, hr⟩
      · exact reaches_self
      · have hge := hr.le
        rw [insertData_cons, if_pos (by omega)]
        exact Or.inr ⟨rfl, ih hr hrest⟩

/-- Only packets behind the start of the new one are removed. -/
theorem Reaches.removeOverlap (hr : Reaches lo n data) (hle : n ≤ h) :
    Reaches lo n (removeOverlap data h t size).data := by
  induction data generalizing lo h t size with
  | nil => exact hr
  | cons e rest ih =>
      obtain ⟨k, q⟩ := e
      rcases hr with rfl | ⟨rfl, hr⟩
      · exact reaches_self
      · have hge := hr.le
        rw [removeOverlap_cons]
        split_ifs
        · omega
        · exact Or.inr ⟨rfl, ih hr (by omega)⟩
        · exact Or.inr ⟨rfl, ih hr (by omega)⟩
        · exact Or.inr ⟨rfl, ih hr hle⟩
        · exact Or.inr ⟨rfl, ih hr hle⟩
        · exact Or.inr ⟨rfl, ih hr hle⟩
        · exact Or.inr ⟨rfl, hr⟩

theorem Spread.holds_of_lt (hd : Spread fits lo data) (hle : lo ≤ o) (hlt : o < contiguous lo data) : Holds data o := by
  induction data generalizing lo with
  | nil => exact absurd hlt (Nat.not_lt.mpr hle)
  | cons e rest ih =>
      obtain ⟨k, q⟩ := e
      obtain ⟨hk, -, -, hrest⟩ := hd
      rw [contiguous] at hlt
      rw [holds_cons]
      split at hlt
      · next heq =>
          subst heq
          by_cases hin : o < k + q.length
          · exact Or.inl ⟨hle, hin⟩
          · exact Or.inr (ih hrest (Nat.not_lt.mp hin) hlt)
      · omega

/-- The byte behind the contiguous ones is not there. -/
theorem Spread.not_holds_contiguous (hd : Spread fits lo data) : ¬Holds data (contiguous lo data) := by
  induction data generalizing lo with
  | nil => exact not_holds_nil
  | cons e rest ih =>
      obtain ⟨k, q⟩ := e
      obtain ⟨hk, -, -, hrest⟩ := hd
      rw [contiguous, holds_cons]
      split
      · next heq =>
          subst heq
          have hle := le_contiguous (k + q.length) rest
          rintro (hin | hin)
          · omega
          · exact ih hrest hin
      · next hne =>
          rintro (hin | hin)
          · omega
          · have := hrest.le_of_holds hin
            omega

theorem advance_cons {b : TcpRxBuffer Nat} (data : List (Nat × List UInt8)) :
    advance ((k, p) :: data) b =
      if k < b.nextRxSeq then advance data b
      else if b.nextRxSeq < k then b
      else advance data
        (clearSackList { b with nextRxSeq := k + p.length, availBytes := b.availBytes + p.length } (k + p.length)) := by
  simp only [advance, lt_nat, gt_nat, add_nat, decide_eq_true_eq]

/-- The next byte goes to the end of what is contiguous, and the blocks up to there are cleared. -/
theorem advance_spec {b : TcpRxBuffer Nat} (hd : Spread fits lo data) (hr : Reaches lo n data) (hn : b.nextRxSeq = n) :
    advance data b =
      { b with
        nextRxSeq := contiguous lo data
        availBytes := b.availBytes + (contiguous lo data - b.nextRxSeq)
        sackList :=
          if b.nextRxSeq < contiguous lo data then b.sackList.filter fun block => contiguous lo data < block.2
          else b.sackList } := by
  subst hn
  induction data generalizing lo b with
  | nil =>
      obtain rfl : lo = b.nextRxSeq := hr
      simp [advance, contiguous]
  | cons e rest ih =>
      obtain ⟨k, q⟩ := e
      obtain ⟨hk, hne, -, hrest⟩ := hd
      have hpos := List.length_pos_iff.mpr hne
      rw [advance_cons]
      rcases hr with heq | ⟨rfl, hr⟩
      · rw [if_neg (by omega)]
        by_cases hlt : b.nextRxSeq < k
        · rw [if_pos hlt, contiguous, if_neg (by omega), heq, if_neg (Nat.lt_irrefl _), Nat.sub_self, Nat.add_zero]
        · obtain rfl : k = lo := by omega
          rw [if_neg hlt, contiguous, if_pos rfl]
          have hle := le_contiguous (k + q.length) rest
          rw [ih hrest (b := clearSackList { b with nextRxSeq := k + q.length, availBytes := b.availBytes + q.length }
            (k + q.length)) (by cases rest <;> simp [Reaches, clearSackList])]
          have hnext : b.nextRxSeq < contiguous (k + q.length) rest := by omega
          simp only [clearSackList, le_nat, TcpRxBuffer.mk.injEq, true_and]
          rw [if_pos hnext]
          refine ⟨by omega, ?_⟩
          split
          · rw [List.filter_filter]
            refine List.filter_congr fun block _ => ?_
            rw [← decide_not, ← Bool.decide_and, decide_eq_decide]
            omega
          · refine List.filter_congr fun block _ => ?_
            rw [← decide_not, decide_eq_decide]
            omega
      · have hle := hr.le
        rw [if_pos (by omega), contiguous, if_pos rfl]
        exact ih hrest hr

/-! ## Extracting -/

theorem contiguous_insert_front (hd : Spread fits (lo + p.length) data) (hp : p ≠ []) :
    insertData lo p data = (lo, p) :: data := by
  cases data with
  | nil => rfl
  | cons e rest =>
      obtain ⟨k, q⟩ := e
      have hk := hd.1
      have hpos := List.length_pos_iff.mpr hp
      rw [insertData_cons, if_neg (by omega), if_pos (by omega)]

/-- The bytes that are taken are the next ones, and the others stay. -/
theorem extractLoop_spec (hc : Content fits) (hd : Spread fits lo data) (hn : lo + n ≤ contiguous lo data)
    (out : List UInt8) :
    ∃ bytes data', extractLoop data n out = some (out ++ bytes, data') ∧ bytes.length = n ∧ fits lo bytes ∧
      Spread fits (lo + n) data' ∧ contiguous (lo + n) data' = contiguous lo data ∧
      (∀ o, Holds data' o ↔ Holds data o ∧ lo + n ≤ o) ∧ total data = total data' + n := by
  induction data generalizing lo n out with
  | nil =>
      obtain rfl : n = 0 := by
        change lo + n ≤ lo at hn
        omega
      exact ⟨[], [], by rw [extractLoop, List.append_nil], rfl, hc.nil lo, trivial, rfl,
        fun o => by simp [not_holds_nil], rfl⟩
  | cons e rest ih =>
      obtain ⟨k, q⟩ := e
      cases n with
      | zero =>
          refine ⟨[], (k, q) :: rest, by rw [extractLoop, List.append_nil], rfl, hc.nil lo, hd, rfl, fun o => ?_, rfl⟩
          exact ⟨fun ho => ⟨ho, hd.le_of_holds ho⟩, fun ho => ho.1⟩
      | succ n =>
          obtain ⟨hk, hne, hq, hrest⟩ := hd
          have hpos := List.length_pos_iff.mpr hne
          rw [contiguous] at hn
          split at hn
          · next heq =>
              subst heq
              rw [extractLoop]
              split
              · next hle =>
                  obtain ⟨bytes, data', hloop, hlen, hbytes, hspread, hcont, hholds, htotal⟩ :=
                    @ih (k + q.length) (n + 1 - q.length) hrest (by omega) (out ++ q)
                  have hsum : k + q.length + (n + 1 - q.length) = k + (n + 1) := by omega
                  rw [hsum] at hspread hcont hholds
                  refine ⟨q ++ bytes, data', by rw [hloop, List.append_assoc], by rw [List.length_append]; omega,
                    hc.append hq hbytes, hspread, ?_, fun o => ?_, by rw [total_cons]; omega⟩
                  · rw [hcont, contiguous, if_pos rfl]
                  · rw [hholds, holds_cons]
                    by_cases ho : Holds rest o
                    · simp only [ho, or_true, true_and]
                    · simp only [ho, false_and, or_false, false_iff, not_and]
                      intro hin'
                      omega
              · next hlt =>
                  have hlen : (q.drop (n + 1)).length = q.length - (n + 1) := List.length_drop
                  have hend : k + (n + 1) + (q.drop (n + 1)).length = k + q.length := by omega
                  have hne' : q.drop (n + 1) ≠ [] := List.ne_nil_of_length_pos (by omega)
                  have hfits := hc.slice (n + 1) (q.length - (n + 1)) hq (by omega)
                  have hfits' := hc.slice 0 (n + 1) hq (by omega)
                  rw [slice, ← hlen, List.take_length] at hfits
                  rw [add_nat, contiguous_insert_front (by rw [hend]; exact hrest) hne']
                  refine ⟨q.take (n + 1), (k + (n + 1), q.drop (n + 1)) :: rest, rfl, ?_, hfits',
                    ⟨Nat.le_refl _, hne', hfits, by rw [hend]; exact hrest⟩, ?_, fun o => ?_, ?_⟩
                  · rw [List.length_take]
                    omega
                  · rw [contiguous, if_pos rfl, hend, contiguous, if_pos rfl]
                  · rw [holds_cons, holds_cons, hend]
                    have hbehind := fun ho : Holds rest o => hrest.le_of_holds ho
                    by_cases ho : Holds rest o
                    · have := hbehind ho
                      simp only [ho, or_true, true_and, true_iff]
                      omega
                    · simp only [ho, or_false]
                      omega
                  · rw [total_cons, total_cons, hlen]
                    omega
          · omega

end Ns3Raft.Net.TcpRxBuffer
