import Ns3Raft.Wifi.OriginatorBlockAck
import Mathlib.Data.Finset.Insert

/-! # The recipient's scoreboard

`BlockAckCache` remembers which MPDUs of a window have arrived, in a bitmap over the 4096
sequence numbers. What it is for is a window over numbers that never wrap.
-/

namespace Ns3Raft.Wifi

def qosUtilsIsOldPacket (startingSeq seqNumber : Nat) : Bool :=
  decide (2048 ≤ (seqNumber + 4096 - startingSeq) % 4096)

def isInWindow (seq winstart winsize : Nat) : Bool := decide ((seq + 4096 - winstart) % 4096 < winsize)

/-! ## The code -/

structure BlockAckCache where
  winStart : Nat
  winSize : Nat
  winEnd : Nat
  bitmap : Nat → BitVec 16

namespace BlockAckCache

def init (winStart winSize : Nat) : BlockAckCache :=
  { winStart := winStart, winSize := winSize, winEnd := (winStart + winSize - 1) % 4096, bitmap := fun _ => 0 }

/-- `WINSIZE_ASSERT`. -/
def winsizeAssert (c : BlockAckCache) : Option BlockAckCache :=
  if (c.winEnd + 4096 - c.winStart) % 4096 + 1 = c.winSize then some c else none

/-- The loop of `ResetPortionOfBitmap`. `none` when the rounds run out. -/
def resetLoop (stop : Nat) : Nat → Nat → (Nat → BitVec 16) → Option (Nat → BitVec 16)
  | 0, _, _ => none
  | fuel + 1, i, bitmap =>
      if i = stop then some (Function.update bitmap i 0)
      else resetLoop stop fuel ((i + 1) % 4096) (Function.update bitmap i 0)

def resetPortionOfBitmap (c : BlockAckCache) (start stop : Nat) : Option BlockAckCache :=
  (resetLoop stop 4096 start c.bitmap).map fun bitmap => { c with bitmap := bitmap }

/-- The entries between the window and `seqNumber`. -/
def clearSkipped (c : BlockAckCache) (seqNumber delta : Nat) : Option BlockAckCache :=
  if 1 < delta then c.resetPortionOfBitmap ((c.winEnd + 1) % 4096) ((seqNumber + 4096 - 1) % 4096) else some c

/-- The window moves on until it ends with `seqNumber`. -/
def extendTo (c : BlockAckCache) (seqNumber : Nat) : Option BlockAckCache :=
  let delta := (seqNumber + 4096 - c.winEnd) % 4096
  (c.clearSkipped seqNumber delta).bind fun c =>
    winsizeAssert { c with winStart := (c.winStart + delta) % 4096, winEnd := seqNumber }

def updateWithMpdu (c : BlockAckCache) (seqNumber fragNumber : Nat) : Option BlockAckCache :=
  if qosUtilsIsOldPacket c.winStart seqNumber then some c
  else
    (if isInWindow seqNumber c.winStart c.winSize then some c else c.extendTo seqNumber).map fun c =>
      { c with bitmap := Function.update c.bitmap seqNumber (c.bitmap seqNumber ||| 1#16 <<< fragNumber) }

def updateWithBlockAckReq (c : BlockAckCache) (startingSeq : Nat) : Option BlockAckCache :=
  let newWinEnd := (startingSeq + c.winSize - 1) % 4096
  if qosUtilsIsOldPacket c.winStart startingSeq then some c
  else if isInWindow startingSeq c.winStart c.winSize then
    if startingSeq ≠ c.winStart then
      ({ c with winStart := startingSeq }.resetPortionOfBitmap ((c.winEnd + 1) % 4096) newWinEnd).bind fun c =>
        winsizeAssert { c with winEnd := newWinEnd }
    else some c
  else
    ({ c with winStart := startingSeq, winEnd := newWinEnd }.resetPortionOfBitmap startingSeq newWinEnd).bind
      winsizeAssert

end BlockAckCache

/-- What arrives under an agreement; MPDUs that are not fragments. -/
inductive BlockAckInput where
  | mpdu (seqNumber : Nat)
  | blockAckReq (startingSeq : Nat)
  deriving DecidableEq, Repr

def BlockAckInput.seq : BlockAckInput → Nat
  | .mpdu seqNumber => seqNumber
  | .blockAckReq startingSeq => startingSeq

def BlockAckCache.update (c : BlockAckCache) : BlockAckInput → Option BlockAckCache
  | .mpdu seqNumber => c.updateWithMpdu seqNumber 0
  | .blockAckReq startingSeq => c.updateWithBlockAckReq startingSeq

/-! ## The scoreboard -/

/-- A window over all numbers, and the numbers that have arrived since they entered it. -/
structure Scoreboard where
  start : ℕ
  received : Finset ℕ
  deriving DecidableEq

namespace Scoreboard

/-- How far a sequence number is from the start of the window. -/
def distance (b : Scoreboard) (seq : ℕ) : ℕ := (seq + 4096 - b.start % 4096) % 4096

/-- A number less than half of the space ahead is meant, anything else is old. The window moves as far as
it must to hold what arrives, and to what a request starts with. -/
def update (size : ℕ) (b : Scoreboard) (inp : BlockAckInput) : Scoreboard :=
  if 2048 ≤ b.distance inp.seq then b
  else
    match inp with
    | .mpdu seq =>
        { start := max b.start (b.start + b.distance seq + 1 - size)
          received := insert (b.start + b.distance seq) b.received }
    | .blockAckReq seq => { b with start := b.start + b.distance seq }

end Scoreboard

/-- The cache has the window at its place modulo 4096, and one bit for what has arrived. -/
structure Shows (size : ℕ) (c : BlockAckCache) (b : Scoreboard) : Prop where
  winSize : c.winSize = size
  start : c.winStart = b.start % 4096
  stop : c.winEnd = (b.start + size - 1) % 4096
  bit : ∀ j < 4096, c.bitmap j = 0 ∨ c.bitmap j = 1
  window : ∀ n, b.start ≤ n → n < b.start + size → (c.bitmap (n % 4096) = 1 ↔ n ∈ b.received)
  below : ∀ n ∈ b.received, n < b.start + size

/-! ## Resetting -/

namespace BlockAckCache

theorem distance_succ {i j : Nat} (hi : i < 4096) (hj : j < 4096) (hne : j ≠ i) :
    (j + 4096 - (i + 1) % 4096) % 4096 + 1 = (j + 4096 - i) % 4096 := by
  rcases Nat.lt_or_eq_of_le (Nat.le_of_lt_succ hi) with hlt | rfl
  · rw [Nat.mod_eq_of_lt (by omega : i + 1 < 4096)]
    omega
  · omega

theorem resetLoop_eq {stop : Nat} (hstop : stop < 4096) :
    ∀ (fuel i : Nat) (bitmap : Nat → BitVec 16), i < 4096 → (stop + 4096 - i) % 4096 < fuel →
      ∃ bitmap', resetLoop stop fuel i bitmap = some bitmap' ∧
        ∀ j < 4096, bitmap' j = if (j + 4096 - i) % 4096 ≤ (stop + 4096 - i) % 4096 then 0 else bitmap j := by
  intro fuel
  induction fuel with
  | zero => exact fun _ _ _ h => absurd h (Nat.not_lt_zero _)
  | succ fuel ih =>
      intro i bitmap hi hfuel
      rw [resetLoop]
      split
      · rename_i heq
        subst heq
        refine ⟨_, rfl, fun j hj => ?_⟩
        by_cases hji : j = i
        · rw [hji, Function.update_self, if_pos (Nat.le_refl _)]
        · rw [Function.update_of_ne hji, if_neg (by omega)]
      · rename_i hne
        have hnext := distance_succ hi hstop (Ne.symm hne)
        obtain ⟨bitmap', heq, hall⟩ := ih ((i + 1) % 4096) (Function.update bitmap i 0)
          (Nat.mod_lt _ (by decide)) (by omega)
        refine ⟨bitmap', heq, fun j hj => ?_⟩
        rw [hall j hj]
        by_cases hji : j = i
        · rw [hji, Function.update_self, if_pos (by omega : (i + 4096 - i) % 4096 ≤ _), ite_self]
        · have hdist := distance_succ hi hj hji
          rw [Function.update_of_ne hji]
          exact if_congr (by omega) rfl rfl

theorem offset_eq {s n : Nat} (hle : s ≤ n) (hlt : n < s + 4096) : (n % 4096 + 4096 - s % 4096) % 4096 = n - s := by
  omega

/-- Of the numbers from `s` on, a reset clears those up to its end. -/
theorem resetPortionOfBitmap_eq (c : BlockAckCache) (s : Nat) {k : Nat} (hk : k < 4096) :
    ∃ bitmap', c.resetPortionOfBitmap (s % 4096) ((s + k) % 4096) = some { c with bitmap := bitmap' } ∧
      (∀ j < 4096, bitmap' j = 0 ∨ bitmap' j = c.bitmap j) ∧
        ∀ n, s ≤ n → n < s + 4096 → bitmap' (n % 4096) = if n ≤ s + k then 0 else c.bitmap (n % 4096) := by
  obtain ⟨bitmap', heq, hall⟩ := resetLoop_eq (Nat.mod_lt (s + k) (by decide : 4096 > 0)) 4096 (s % 4096) c.bitmap
    (Nat.mod_lt _ (by decide)) (Nat.mod_lt _ (by decide))
  refine ⟨bitmap', by rw [resetPortionOfBitmap, heq, Option.map_some], fun j hj => ?_, fun n hn hlt => ?_⟩
  · rw [hall j hj]
    split
    · exact .inl rfl
    · exact .inr rfl
  · rw [hall _ (Nat.mod_lt _ (by decide)), offset_eq hn hlt, offset_eq (Nat.le_add_right s k) (by omega)]
    exact if_congr (by omega) rfl rfl

theorem pred_mod (n : Nat) : (n % 4096 + 4096 - 1) % 4096 = (n + 4095) % 4096 := by
  omega

/-- What comes in are the numbers from the end of the window up to the one that arrives. -/
theorem clearSkipped_eq (c : BlockAckCache) {s size d seq : Nat} (hstop : c.winEnd = (s + size - 1) % 4096)
    (hseq : seq = (s + d) % 4096) (hwin : 0 < size) (hd : size ≤ d) (hlt : d < 2048) :
    ∃ bitmap', c.clearSkipped seq (d + 1 - size) = some { c with bitmap := bitmap' } ∧
      (∀ j < 4096, bitmap' j = 0 ∨ bitmap' j = c.bitmap j) ∧
        ∀ n, s ≤ n → n < s + 4096 → bitmap' (n % 4096) =
          if s + size ≤ n ∧ n < s + d then 0 else c.bitmap (n % 4096) := by
  rw [clearSkipped]
  split
  · rename_i hmore
    have hfirst : (c.winEnd + 1) % 4096 = (s + size) % 4096 := by
      rw [hstop, Nat.mod_add_mod, Nat.sub_add_cancel (Nat.le_trans hwin (Nat.le_add_left size s))]
    have hlast : (seq + 4096 - 1) % 4096 = (s + size + (d - 1 - size)) % 4096 := by
      have hsum : s + d + 4095 = s + size + (d - 1 - size) + 4096 := by
        clear hstop hseq hfirst
        omega
      rw [hseq, pred_mod, hsum, Nat.add_mod_right]
    obtain ⟨bitmap', hreset, hbit, hclear⟩ :=
      c.resetPortionOfBitmap_eq (s + size) (k := d - 1 - size) (by clear hstop hseq hfirst hlast; omega)
    refine ⟨bitmap', by rw [hfirst, hlast, hreset], hbit, fun n hn hn' => ?_⟩
    clear hstop hseq hfirst hlast hreset hbit
    by_cases hin : s + size ≤ n
    · rw [hclear n hin (by omega)]
      exact if_congr (by omega) rfl rfl
    · have hwrap := hclear (n + 4096) (by omega) (by omega)
      rw [Nat.add_mod_right, if_neg (by omega)] at hwrap
      rw [hwrap, if_neg (by omega)]
  · refine ⟨c.bitmap, rfl, fun _ _ => .inr rfl, fun n _ _ => ?_⟩
    rw [if_neg (by omega)]

end BlockAckCache

/-! ## One input -/

namespace Shows

variable {size seq : ℕ} {c : BlockAckCache} {b : Scoreboard}

theorem old_iff (h : Shows size c b) : qosUtilsIsOldPacket c.winStart seq = true ↔ 2048 ≤ b.distance seq := by
  rw [qosUtilsIsOldPacket, decide_eq_true_iff, h.start, Scoreboard.distance]

theorem inWindow_iff (h : Shows size c b) (seq : ℕ) : isInWindow seq c.winStart c.winSize = true ↔ b.distance seq < size := by
  rw [isInWindow, decide_eq_true_iff, h.start, h.winSize, Scoreboard.distance]

theorem seq_eq (hseq : seq < 4096) : seq = (b.start + b.distance seq) % 4096 := by
  unfold Scoreboard.distance
  omega

/-- The window moves on by `d`, and the entries that come in are cleared. -/
theorem moved (h : Shows size c b) {d : ℕ} {c' : BlockAckCache} (hsize : c'.winSize = size)
    (hstart : c'.winStart = (b.start + d) % 4096) (hstop : c'.winEnd = (b.start + d + size - 1) % 4096)
    (hbitmap : ∀ j < 4096, c'.bitmap j = 0 ∨ c'.bitmap j = c.bitmap j)
    (hclear : ∀ n, b.start + size ≤ n → b.start + d ≤ n → n < b.start + d + size → c'.bitmap (n % 4096) = 0)
    (hkeep : ∀ n, b.start + d ≤ n → n < b.start + size → c'.bitmap (n % 4096) = c.bitmap (n % 4096)) :
    Shows size c' { b with start := b.start + d } := by
  refine ⟨hsize, hstart, hstop, fun j hj => ?_, fun n hn hlt => ?_, fun n hn => ?_⟩
  · rcases hbitmap j hj with h0 | h1
    · exact .inl h0
    · exact h1 ▸ h.bit j hj
  · by_cases hin : n < b.start + size
    · have hle : b.start ≤ n := Nat.le_trans (Nat.le_add_right _ d) hn
      rw [hkeep n hn hin]
      exact h.window n hle hin
    · rw [hclear n (Nat.le_of_not_lt hin) hn hlt]
      exact ⟨fun h01 => absurd h01 (by decide), fun hmem => absurd (h.below n hmem) hin⟩
  · have hlt := h.below n hn
    show n < b.start + d + size
    omega

/-- One more number of the window. -/
theorem mark (h : Shows size c b) (hsize : size ≤ 2048) {m : ℕ} (hm : b.start ≤ m) (hlt : m < b.start + size) :
    Shows size { c with bitmap := Function.update c.bitmap (m % 4096) 1 }
      { b with received := insert m b.received } := by
  refine ⟨h.winSize, h.start, h.stop, fun j hj => ?_, fun n hn hn' => ?_, fun n hn => ?_⟩
  · by_cases hjm : j = m % 4096
    · exact .inr (hjm ▸ Function.update_self ..)
    · dsimp only
      rw [Function.update_of_ne hjm]
      exact h.bit j hj
  · by_cases hnm : n = m
    · subst hnm
      exact ⟨fun _ => Finset.mem_insert_self _ _, fun _ => Function.update_self ..⟩
    · have hne : n % 4096 ≠ m % 4096 := by
        have hn₁ : b.start ≤ n := hn
        have hn₂ : n < b.start + size := hn'
        omega
      simp only [Function.update_of_ne hne, Finset.mem_insert, hnm, false_or]
      exact h.window n hn hn'
  · rcases Finset.mem_insert.mp hn with rfl | hn
    · exact hlt
    · exact h.below n hn

theorem or_one (h : Shows size c b) {j : ℕ} (hj : j < 4096) : c.bitmap j ||| 1#16 <<< 0 = 1 := by
  rcases h.bit j hj with h0 | h1
  · rw [h0]
    rfl
  · rw [h1]
    rfl

theorem winsizeAssert_eq (hwin : 0 < size) (hsize : size ≤ 2048) {d : ℕ} {c' : BlockAckCache} (hsize' : c'.winSize = size)
    (hstart : c'.winStart = (b.start + d) % 4096) (hstop : c'.winEnd = (b.start + d + size - 1) % 4096) :
    c'.winsizeAssert = some c' := by
  rw [BlockAckCache.winsizeAssert, if_pos]
  rw [hsize', hstart, hstop]
  omega

/-- An MPDU beyond the window. Its own entry is the only one that is not cleared. -/
theorem extendTo (h : Shows size c b) (hwin : 0 < size) (hsize : size ≤ 2048) (hseq : seq < 4096)
    (hd : size ≤ b.distance seq) (hlt : b.distance seq < 2048) :
    ∃ c', c.extendTo seq = some c' ∧ (∀ j < 4096, c'.bitmap j = 0 ∨ c'.bitmap j = 1) ∧
      Shows size { c' with bitmap := Function.update c'.bitmap seq 0 }
        { b with start := b.start + (b.distance seq + 1 - size) } := by
  have hseq' := seq_eq (b := b) hseq
  obtain ⟨d, hdeq⟩ : ∃ d, b.distance seq = d := ⟨_, rfl⟩
  rw [hdeq] at hd hlt hseq' ⊢
  have hdelta : (seq + 4096 - c.winEnd) % 4096 = d + 1 - size := by
    rw [h.stop]
    omega
  have hwinStart : (c.winStart + (d + 1 - size)) % 4096 = (b.start + (d + 1 - size)) % 4096 := by
    rw [h.start, Nat.mod_add_mod]
  have hwinEnd : seq = (b.start + (d + 1 - size) + size - 1) % 4096 := by
    rw [hseq']
    congr 1
    omega
  obtain ⟨bitmap', hreset, hbit, hclear⟩ := c.clearSkipped_eq h.stop hseq' hwin hd hlt
  refine ⟨{ c with winStart := (c.winStart + (d + 1 - size)) % 4096, winEnd := seq, bitmap := bitmap' }, ?_,
    fun j hj => ?_, ?_⟩
  · rw [BlockAckCache.extendTo, hdelta, hreset, Option.bind_some]
    exact winsizeAssert_eq (b := b) hwin hsize h.winSize hwinStart hwinEnd
  · rcases hbit j hj with h0 | h1
    · exact .inl h0
    · have hold := h.bit j hj
      rwa [← h1] at hold
  · have hat : ∀ n, n < b.start + d → b.start ≤ n → n % 4096 ≠ seq := by
      intro n hn hn'
      omega
    refine h.moved h.winSize hwinStart hwinEnd (fun j hj => ?_) (fun n hn _ hn' => ?_) fun n hn hn' => ?_
    · by_cases hj' : j = seq
      · exact .inl (hj' ▸ Function.update_self ..)
      · dsimp only
        rw [Function.update_of_ne hj']
        exact hbit j hj
    · by_cases hend : n = b.start + d
      · rw [hend, ← hseq']
        exact Function.update_self ..
      · dsimp only
        rw [Function.update_of_ne (hat n (by omega) (by omega)), hclear n (by omega) (by omega), if_pos (by omega)]
    · dsimp only
      rw [Function.update_of_ne (hat n (by omega) (by omega)), hclear n (by omega) (by omega), if_neg (by omega)]

theorem mpdu (h : Shows size c b) (hwin : 0 < size) (hsize : size ≤ 2048) (hseq : seq < 4096)
    (hnew : b.distance seq < 2048) :
    ∃ c', c.updateWithMpdu seq 0 = some c' ∧ Shows size c'
      { start := max b.start (b.start + b.distance seq + 1 - size)
        received := insert (b.start + b.distance seq) b.received } := by
  have hseq' := seq_eq (b := b) hseq
  rw [BlockAckCache.updateWithMpdu, if_neg (fun hold => absurd (h.old_iff.mp hold) (by omega))]
  by_cases hin : b.distance seq < size
  · have hmark := h.mark hsize (m := b.start + b.distance seq) (by omega) (by omega)
    rw [if_pos ((h.inWindow_iff seq).mpr hin), Option.map_some]
    refine ⟨_, rfl, ?_⟩
    rw [h.or_one hseq, Nat.max_eq_left (by omega)]
    rwa [← hseq'] at hmark
  · obtain ⟨c', hext, hbit, hc'⟩ := h.extendTo hwin hsize hseq (Nat.le_of_not_lt hin) hnew
    have hstart : b.start + (b.distance seq + 1 - size) = b.start + b.distance seq + 1 - size := by omega
    rw [hstart] at hc'
    have hmark := hc'.mark hsize (m := b.start + b.distance seq) (by dsimp only; omega) (by dsimp only; omega)
    rw [if_neg fun hwindow => hin ((h.inWindow_iff seq).mp hwindow), hext, Option.map_some]
    refine ⟨_, rfl, ?_⟩
    have hone : c'.bitmap seq ||| 1#16 <<< 0 = 1 := by
      rcases hbit seq hseq with h0 | h1
      · rw [h0]
        rfl
      · rw [h1]
        rfl
    rw [hone, Nat.max_eq_right (by omega)]
    rw [← hseq'] at hmark
    simpa only [Function.update_idem] using hmark

theorem blockAckReq (h : Shows size c b) (hwin : 0 < size) (hsize : size ≤ 2048) (hseq : seq < 4096)
    (hnew : b.distance seq < 2048) :
    ∃ c', c.updateWithBlockAckReq seq = some c' ∧ Shows size c' { b with start := b.start + b.distance seq } := by
  have hseq' := seq_eq (b := b) hseq
  obtain ⟨d, hdeq⟩ : ∃ d, b.distance seq = d := ⟨_, rfl⟩
  have hin := h.inWindow_iff seq
  rw [BlockAckCache.updateWithBlockAckReq, if_neg (fun hold => absurd (h.old_iff.mp hold) (by omega))]
  rw [hdeq] at hseq' hnew hin ⊢
  have hnewEnd : (seq + c.winSize - 1) % 4096 = (b.start + d + size - 1) % 4096 := by
    rw [hseq', h.winSize]
    omega
  split
  · rename_i hwindow
    have hdlt := hin.mp hwindow
    split
    · rename_i hne
      have hpos : 0 < d := by
        refine Nat.pos_of_ne_zero fun hzero => hne ?_
        rw [hseq', h.start, hzero, Nat.add_zero]
      have hfirst : (c.winEnd + 1) % 4096 = (b.start + size) % 4096 := by
        rw [h.stop]
        omega
      have hlast : (seq + c.winSize - 1) % 4096 = (b.start + size + (d - 1)) % 4096 := by
        rw [hnewEnd]
        congr 1
        omega
      obtain ⟨bitmap', hreset, hbit, hclear⟩ :=
        { c with winStart := seq }.resetPortionOfBitmap_eq (b.start + size) (k := d - 1) (by omega)
      rw [hfirst, hlast, hreset, Option.bind_some, ← hlast]
      refine ⟨_, winsizeAssert_eq (b := b) (d := d) hwin hsize h.winSize hseq' hnewEnd, ?_⟩
      refine h.moved h.winSize hseq' hnewEnd hbit (fun n hn _ hn' => ?_) fun n hn hn' => ?_
      · exact (hclear n hn (by omega)).trans (if_pos (by omega))
      · have hwrap := hclear (n + 4096) (by omega) (by omega)
        rw [Nat.add_mod_right, if_neg (by omega)] at hwrap
        exact hwrap
    · rename_i heq
      have hzero : d = 0 := by
        have hsame := not_not.mp heq
        rw [h.start, hseq'] at hsame
        omega
      refine ⟨c, rfl, ?_⟩
      rw [hzero]
      exact h
  · rename_i hout
    have hdge : size ≤ d := Nat.le_of_not_lt fun hlt => hout (hin.mpr hlt)
    have hlast : (seq + c.winSize - 1) % 4096 = (b.start + d + (size - 1)) % 4096 := by
      rw [hnewEnd]
      congr 1
      omega
    obtain ⟨bitmap', hreset, hbit, hclear⟩ :=
      { c with winStart := seq, winEnd := (seq + c.winSize - 1) % 4096 }.resetPortionOfBitmap_eq (b.start + d)
        (k := size - 1) (by omega)
    rw [← hseq', ← hlast] at hreset
    rw [hreset, Option.bind_some]
    refine ⟨_, winsizeAssert_eq (b := b) (d := d) hwin hsize h.winSize hseq' hnewEnd, ?_⟩
    refine h.moved h.winSize hseq' hnewEnd hbit (fun n _ hn hn' => ?_) fun n hn hn' => by omega
    exact (hclear n hn (by omega)).trans (if_pos (by omega))

/-- What the cache does with an input, the scoreboard does. -/
theorem update (h : Shows size c b) (hwin : 0 < size) (hsize : size ≤ 2048) {inp : BlockAckInput} (hseq : inp.seq < 4096) :
    ∃ c', c.update inp = some c' ∧ Shows size c' (b.update size inp) := by
  by_cases hold : 2048 ≤ b.distance inp.seq
  · refine ⟨c, ?_, ?_⟩
    · cases inp with
      | mpdu seq => exact if_pos (h.old_iff.mpr hold)
      | blockAckReq seq => exact if_pos (h.old_iff.mpr hold)
    · unfold Scoreboard.update
      rwa [if_pos hold]
  have hnew : b.distance inp.seq < 2048 := Nat.lt_of_not_le hold
  unfold Scoreboard.update
  rw [if_neg hold]
  cases inp with
  | mpdu seq => exact h.mpdu hwin hsize hseq hnew
  | blockAckReq seq => exact h.blockAckReq hwin hsize hseq hnew

end Shows

/-! ## Runs -/

theorem Shows.init {winStart : ℕ} (hstart : winStart < 4096) (size : ℕ) :
    Shows size (.init winStart size) ⟨winStart, ∅⟩ where
  winSize := rfl
  start := (Nat.mod_eq_of_lt hstart).symm
  stop := rfl
  bit _ _ := .inl rfl
  window _ _ _ := ⟨fun h => absurd (show (0 : BitVec 16) = 1 from h) (by decide),
    fun h => absurd h (Finset.notMem_empty _)⟩
  below _ h := absurd h (Finset.notMem_empty _)

theorem Shows.run {size : ℕ} (hwin : 0 < size) (hsize : size ≤ 2048) {c : BlockAckCache} {b : Scoreboard}
    (h : Shows size c b) (inputs : List BlockAckInput) (hseq : ∀ inp ∈ inputs, inp.seq < 4096) :
    ∃ c', inputs.foldlM BlockAckCache.update c = some c' ∧ Shows size c' (inputs.foldl (Scoreboard.update size) b) := by
  induction inputs generalizing c b with
  | nil => exact ⟨c, rfl, h⟩
  | cons inp inputs ih =>
      obtain ⟨c₁, hc₁, h₁⟩ := h.update hwin hsize (hseq inp List.mem_cons_self)
      obtain ⟨c', hc', h'⟩ := ih h₁ fun inp' hmem => hseq inp' (List.mem_cons_of_mem _ hmem)
      refine ⟨c', ?_, h'⟩
      rw [List.foldlM_cons, hc₁]
      exact hc'

/-- Whatever arrives in whatever order, no assertion fails, and the bitmap holds for each number of the
window whether an MPDU with it has arrived since it entered the window. -/
theorem BlockAckCache.scoreboard_exact {winStart size : ℕ} (hstart : winStart < 4096) (hwin : 0 < size)
    (hsize : size ≤ 2048) {inputs : List BlockAckInput} (hseq : ∀ inp ∈ inputs, inp.seq < 4096) :
    ∃ c, inputs.foldlM BlockAckCache.update (.init winStart size) = some c ∧
      Shows size c (inputs.foldl (Scoreboard.update size) ⟨winStart, ∅⟩) :=
  (Shows.init hstart size).run hwin hsize inputs hseq

/-- A window that goes over the end of the numbers, a jump, and a request from before it. -/
theorem BlockAckCache.scoreboard_exact_over_the_end :
    ∃ c, [BlockAckInput.mpdu 4095, .mpdu 60, .blockAckReq 0, .mpdu 2000, .blockAckReq 4000].foldlM
        BlockAckCache.update (.init 4090 64) = some c ∧
      Shows 64 c ([BlockAckInput.mpdu 4095, .mpdu 60, .blockAckReq 0, .mpdu 2000, .blockAckReq 4000].foldl
        (Scoreboard.update 64) ⟨4090, ∅⟩) :=
  BlockAckCache.scoreboard_exact (by decide) (by decide) (by decide) (by decide)

end Ns3Raft.Wifi
