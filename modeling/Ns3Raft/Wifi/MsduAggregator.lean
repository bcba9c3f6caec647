import Ns3Raft.Wifi.Amsdu

/-! # Aggregation of MSDUs

`GetNextAmsdu` takes MSDUs from a queue for as long as the limits allow. The first
one leaves the queue last, when it is known that a second one came with it.
-/

namespace Ns3Raft.Wifi

inductive TypeOfStation
  | sta | ap | adhocSta | mesh | htSta | htAp | htAdhocSta | ocb
  deriving DecidableEq

inductive WifiModulationClass
  | unknown | ir | fhss | dsss | hrDsss | erpPbcc | dsssOfdm | erpOfdm | ofdm | ht | vht | he
  deriving DecidableEq

def mapSrcAddressForAggregation (t : TypeOfStation) (h : WifiMacHeader) : Mac48Address :=
  if t = .sta ∨ t = .adhocSta then h.addr2 else h.addr3

def mapDestAddressForAggregation (t : TypeOfStation) (h : WifiMacHeader) : Mac48Address :=
  if t = .ap ∨ t = .adhocSta then h.addr1 else h.addr3

/-- The attribute of the access category, and what the recipient advertised. -/
structure AmsduLimits where
  modulation : WifiModulationClass
  configured : Nat
  htMaxAmsduLength : Option Nat
  vhtMaxMpduLength : Option Nat

/-- The size is a `uint16_t`. Without VHT capabilities a VHT or HE frame ends the program. -/
def getMaxAmsduSize (l : AmsduLimits) : Option Nat :=
  let maxAmsduSize := l.configured % 2 ^ 16
  if maxAmsduSize = 0 then some 0
  else
    match l.htMaxAmsduLength with
    | none => some 0
    | some htMax =>
        if l.modulation = .he ∨ l.modulation = .vht then
          l.vhtMaxMpduLength.map fun vhtMax => min maxAmsduSize ((vhtMax + 2 ^ 16 - 56) % 2 ^ 16)
        else if l.modulation = .ht then some (min maxAmsduSize htMax)
        else some (min maxAmsduSize 3839)

/-- What a call is about; `withinLimits` is `IsWithinSizeAndTimeLimits` for its other arguments. -/
structure AmsduRequest where
  station : TypeOfStation
  bssid : Mac48Address
  limits : AmsduLimits
  withinLimits : Nat → Bool
  filter : QueueFilter

/-- The variables of the loop; `nMsdu` is a `uint8_t`. -/
structure Aggregation where
  pos : ConstIterator
  amsdu : List UInt8
  nMsdu : Nat
  tstamp : Nat

/-- The tests of the loop on the next MSDU. -/
def AmsduRequest.admits (r : AmsduRequest) (maxAmsduSize : Nat) (header : WifiMacHeader) (amsduSize msduSize : Nat) :
    Bool :=
  decide (getSizeIfAggregated msduSize amsduSize ≤ maxAmsduSize) &&
    r.withinLimits (header.getSize + getSizeIfAggregated msduSize amsduSize + 4)

/-- The addresses are those of `header`, the header of the first MSDU. -/
def AmsduRequest.add (r : AmsduRequest) (header : WifiMacHeader) (amsdu : List UInt8) (it : WifiMacQueueItem) :
    List UInt8 :=
  aggregate it.packet amsdu (mapSrcAddressForAggregation r.station header)
    (mapDestAddressForAggregation r.station header)

/-- The loop of `GetNextAmsdu`. Every round leaves an item behind, so that `fuel` is the length of the queue. -/
def aggregationLoop (r : AmsduRequest) (maxAmsduSize : Nat) (header : WifiMacHeader) : Nat → Aggregation → Aggregation
  | 0, a => a
  | fuel + 1, a =>
      match a.pos.rest with
      | [] => a
      | it :: rest =>
          if r.admits maxAmsduSize header a.amsdu.length it.packet.length then
            let pos := if a.nMsdu = 0 then a.pos.advance it rest else a.pos.remove rest
            aggregationLoop r maxAmsduSize header fuel
              { pos := pos.peek r.filter
                amsdu := r.add header a.amsdu it
                nMsdu := (a.nMsdu + 1) % 2 ^ 8
                tstamp := max a.tstamp it.tstamp }
          else a

/-- The A-MSDU, if there is one, and the queue after the call; a failed check ends the program. -/
def getNextAmsdu (r : AmsduRequest) (queue : List WifiMacQueueItem) :
    Option (Option WifiMacQueueItem × List WifiMacQueueItem) :=
  if r.filter.dest.isBroadcast then none
  else
    let peeked := ConstIterator.peek r.filter ⟨[], queue⟩
    match peeked.rest with
    | [] => some (none, queue)
    | it :: _ => do
        let maxAmsduSize ← getMaxAmsduSize r.limits
        if maxAmsduSize = 0 then
          return (none, queue)
        let header := it.header
        let first := peeked.before.length
        let out := aggregationLoop r maxAmsduSize header queue.length ⟨peeked, [], 0, it.tstamp⟩
        if out.nMsdu < 2 then
          return (none, out.pos.queue)
        return (some ⟨out.amsdu, { header with amsduPresent := true, addr3 := r.bssid }, out.tstamp⟩,
          out.pos.queue.eraseIdx first)

/-! ## What is taken -/

/-- A list that is put together from two. -/
inductive Splits {α : Type} : List α → List α → List α → Prop
  | nil : Splits [] [] []
  | left (a : α) {l xs ys : List α} (h : Splits l xs ys) : Splits (a :: l) (a :: xs) ys
  | right (a : α) {l xs ys : List α} (h : Splits l xs ys) : Splits (a :: l) xs (a :: ys)

namespace Splits

variable {α : Type} {l xs ys : List α}

theorem perm (h : Splits l xs ys) : l.Perm (xs ++ ys) := by
  induction h with
  | nil => exact .refl []
  | left a _ ih => exact ih.cons a
  | right a _ ih => exact (ih.cons a).trans List.perm_middle.symm

theorem prepend (p : List α) (h : Splits l xs ys) : Splits (p ++ l) xs (p ++ ys) := by
  induction p with
  | nil => exact h
  | cons a p ih => exact ih.right a

theorem none_left (l : List α) : Splits l [] l := by
  induction l with
  | nil => exact .nil
  | cons a l ih => exact ih.right a

theorem eq_of_nil (h : Splits l [] ys) : ys = l := by
  induction l generalizing ys with
  | nil =>
      cases h
      rfl
  | cons a l ih =>
      cases h with
      | right _ h => rw [ih h]

end Splits

/-- The MSDUs that pass the tests of the loop one after the other, for an A-MSDU of `amsduSize` bytes. -/
def AmsduRequest.fitting (r : AmsduRequest) (maxAmsduSize : Nat) (header : WifiMacHeader) :
    Nat → List WifiMacQueueItem → List WifiMacQueueItem
  | _, [] => []
  | amsduSize, it :: its =>
      if r.admits maxAmsduSize header amsduSize it.packet.length then
        it :: r.fitting maxAmsduSize header (amsduSize + calculatePadding amsduSize + 14 + it.packet.length) its
      else []

/-- Those of them that the loop removes: not the ones where its counter is zero. -/
def removed : Nat → List WifiMacQueueItem → List WifiMacQueueItem
  | _, [] => []
  | n, it :: its => if n = 0 then removed 1 its else it :: removed ((n + 1) % 2 ^ 8) its

variable {r : AmsduRequest} {maxAmsduSize amsduSize n : Nat} {header : WifiMacHeader} {a : Aggregation}
variable {it : WifiMacQueueItem} {its queue : List WifiMacQueueItem}

theorem length_removed (hn : n < 2 ^ 8) :
    (removed n its).length + (n + its.length + 255) / 256 = its.length + (n + 255) / 256 := by
  induction its generalizing n with
  | nil => simp [removed]
  | cons it its ih =>
      rw [removed]
      split
      · next hzero =>
          have := @ih 1 (by decide)
          rw [List.length_cons]
          omega
      · have := ih (Nat.mod_lt (n + 1) (show 0 < 2 ^ 8 by decide))
        rw [List.length_cons, List.length_cons]
        omega

theorem removed_eq (hpos : 0 < n) (hle : n + its.length ≤ 256) : removed n its = its := by
  induction its generalizing n with
  | nil => rfl
  | cons it its ih =>
      rw [List.length_cons] at hle
      rw [removed, if_neg (Nat.ne_of_gt hpos)]
      cases its with
      | nil => rfl
      | cons it' its =>
          rw [List.length_cons] at hle
          rw [Nat.mod_eq_of_lt (by omega), ih (Nat.succ_pos n) (by rw [List.length_cons]; omega)]

theorem count_step (n k : Nat) : ((n + 1) % 2 ^ 8 + k) % 2 ^ 8 = (n + (k + 1)) % 2 ^ 8 := by omega

theorem length_aggregate (msdu amsdu : List UInt8) (src dest : Mac48Address) :
    (aggregate msdu amsdu src dest).length = amsdu.length + calculatePadding amsdu.length + 14 + msdu.length := by
  rw [aggregate, List.length_append, List.length_append, AmsduSubframeHeader.length_serialize]
  split
  · rw [List.length_append, List.length_replicate]
    omega
  · next hzero =>
      rw [show amsdu.length = 0 by omega]
      simp only [calculatePadding]
      omega

/-- What the loop has done to `a` when it ends with `out`, having taken `taken`. -/
structure Aggregated (r : AmsduRequest) (header : WifiMacHeader) (a out : Aggregation)
    (taken : List WifiMacQueueItem) : Prop where
  amsdu : out.amsdu = taken.foldl (r.add header) a.amsdu
  nMsdu : out.nMsdu = (a.nMsdu + taken.length) % 2 ^ 8
  queue : ∃ left, out.pos.queue = a.pos.before ++ left ∧ Splits a.pos.rest (removed a.nMsdu taken) left

theorem Aggregated.stop (hn : a.nMsdu < 2 ^ 8) : Aggregated r header a { a with pos := a.pos.peek r.filter } [] := by
  obtain ⟨skipped, hrest, hbefore, -, -⟩ := ConstIterator.peek_spec r.filter a.pos
  refine ⟨rfl, (Nat.mod_eq_of_lt hn).symm, a.pos.rest, ?_, Splits.none_left _⟩
  dsimp only
  rw [ConstIterator.queue, hbefore, List.append_assoc, ← hrest]

theorem aggregationLoop_spec (r : AmsduRequest) (maxAmsduSize : Nat) (header : WifiMacHeader) (fuel : Nat)
    (a : Aggregation) (hn : a.nMsdu < 2 ^ 8) (hfuel : a.pos.rest.length ≤ fuel) :
    Aggregated r header a (aggregationLoop r maxAmsduSize header fuel { a with pos := a.pos.peek r.filter })
      (r.fitting maxAmsduSize header a.amsdu.length (a.pos.rest.filter r.filter.selects)) := by
  induction fuel generalizing a with
  | zero =>
      have hnil : a.pos.rest = [] := List.eq_nil_of_length_eq_zero (Nat.le_zero.mp hfuel)
      rw [hnil]
      exact .stop hn
  | succ fuel ih =>
      obtain ⟨skipped, hrest, hbefore, hskip, hhead⟩ := ConstIterator.peek_spec r.filter a.pos
      have hfilter : a.pos.rest.filter r.filter.selects = (a.pos.peek r.filter).rest.filter r.filter.selects := by
        conv_lhs => rw [hrest, List.filter_append]
        rw [List.filter_eq_nil_iff.mpr fun it hit => by rw [hskip it hit]; decide, List.nil_append]
      rw [hfilter, aggregationLoop]
      dsimp only
      split
      · next hpeek =>
          rw [hpeek]
          exact .stop hn
      · next it rest hpeek =>
          rw [hpeek, List.filter_cons_of_pos (hhead it rest hpeek), AmsduRequest.fitting]
          rw [hpeek] at hrest
          split
          · have hlen : rest.length ≤ fuel := by
              rw [hrest, List.length_append, List.length_cons] at hfuel
              omega
            have hnext : (a.nMsdu + 1) % 2 ^ 8 < 2 ^ 8 := Nat.mod_lt _ (by decide)
            have hsize : (r.add header a.amsdu it).length =
                a.amsdu.length + calculatePadding a.amsdu.length + 14 + it.packet.length := length_aggregate ..
            rw [← hsize]
            by_cases hzero : a.nMsdu = 0
            · rw [if_pos hzero]
              obtain ⟨hamsdu, hcount, left, hqueue, hsplits⟩ := ih
                ⟨(a.pos.peek r.filter).advance it rest, r.add header a.amsdu it, (a.nMsdu + 1) % 2 ^ 8,
                  max a.tstamp it.tstamp⟩ hnext hlen
              refine ⟨hamsdu, hcount.trans (count_step _ _), skipped ++ it :: left, hqueue.trans ?_, ?_⟩
              · simp only [ConstIterator.advance, hbefore, List.append_assoc, List.singleton_append]
              · rw [hrest, removed, if_pos hzero]
                have hone : (a.nMsdu + 1) % 2 ^ 8 = 1 := by omega
                rw [hone] at hsplits
                exact (hsplits.right it).prepend skipped
            · rw [if_neg hzero]
              obtain ⟨hamsdu, hcount, left, hqueue, hsplits⟩ := ih
                ⟨(a.pos.peek r.filter).remove rest, r.add header a.amsdu it, (a.nMsdu + 1) % 2 ^ 8,
                  max a.tstamp it.tstamp⟩ hnext hlen
              refine ⟨hamsdu, hcount.trans (count_step _ _), skipped ++ left, hqueue.trans ?_, ?_⟩
              · rw [ConstIterator.remove, hbefore, List.append_assoc]
              · rw [hrest, removed, if_neg hzero]
                exact (hsplits.left it).prepend skipped
          · exact .stop hn

/-! ## Sizes and bytes -/

/-- The size of an A-MSDU of `amsduSize` bytes with these MSDUs behind it. -/
def sizeWith (amsduSize : Nat) (its : List WifiMacQueueItem) : Nat :=
  its.foldl (fun size it => size + calculatePadding size + 14 + it.packet.length) amsduSize

theorem le_sizeWith : amsduSize ≤ sizeWith amsduSize its := by
  induction its generalizing amsduSize with
  | nil => exact Nat.le_refl _
  | cons it its ih =>
      have := @ih (amsduSize + calculatePadding amsduSize + 14 + it.packet.length)
      rw [sizeWith, List.foldl_cons]
      rw [sizeWith] at this
      omega

theorem length_le_sizeWith (hit : it ∈ its) : it.packet.length ≤ sizeWith amsduSize its := by
  induction its generalizing amsduSize with
  | nil => cases hit
  | cons it' its ih =>
      rw [sizeWith, List.foldl_cons]
      rcases List.mem_cons.mp hit with rfl | hit
      · have := @le_sizeWith (amsduSize + calculatePadding amsduSize + 14 + it.packet.length) its
        rw [sizeWith] at this
        omega
      · exact ih hit

theorem length_foldl_add (amsdu : List UInt8) :
    (its.foldl (r.add header) amsdu).length = sizeWith amsdu.length its := by
  induction its generalizing amsdu with
  | nil => rfl
  | cons it its ih =>
      rw [List.foldl_cons, ih, AmsduRequest.add, length_aggregate]
      rfl

/-- Of sizes with 16 bits the tests see the size that comes about. -/
theorem fitting_size (hne : r.fitting maxAmsduSize header amsduSize its ≠ [])
    (hlt : sizeWith amsduSize (r.fitting maxAmsduSize header amsduSize its) < 2 ^ 16) :
    sizeWith amsduSize (r.fitting maxAmsduSize header amsduSize its) ≤ maxAmsduSize ∧
      r.withinLimits (header.getSize + sizeWith amsduSize (r.fitting maxAmsduSize header amsduSize its) + 4) = true := by
  induction its generalizing amsduSize with
  | nil => exact absurd rfl hne
  | cons it its ih =>
      rw [AmsduRequest.fitting] at *
      split at hlt
      · next hadmits =>
          rw [if_pos hadmits, sizeWith, List.foldl_cons]
          rw [sizeWith, List.foldl_cons] at hlt
          by_cases hnil : r.fitting maxAmsduSize header
              (amsduSize + calculatePadding amsduSize + 14 + it.packet.length) its = []
          · rw [hnil, List.foldl_nil] at hlt ⊢
            have hsize : getSizeIfAggregated it.packet.length amsduSize =
                amsduSize + calculatePadding amsduSize + 14 + it.packet.length := by
              rw [getSizeIfAggregated]
              omega
            rw [AmsduRequest.admits, hsize, Bool.and_eq_true, decide_eq_true_eq] at hadmits
            exact hadmits
          · exact ih hnil hlt
      · next hno => exact absurd (if_neg hno) hne

/-- An MSDU with the addresses that `header` stands for. -/
def AmsduRequest.labelled (r : AmsduRequest) (header : WifiMacHeader) (it : WifiMacQueueItem) :
    List UInt8 × AmsduSubframeHeader :=
  (it.packet, ⟨mapDestAddressForAggregation r.station header, mapSrcAddressForAggregation r.station header,
    it.packet.length⟩)

theorem foldl_add_subframes (hlt : ∀ it ∈ its, it.packet.length < 2 ^ 16)
    (ms : List (List UInt8 × AmsduSubframeHeader)) :
    its.foldl (r.add header) (subframes ms) = subframes (ms ++ its.map (r.labelled header)) := by
  induction its generalizing ms with
  | nil => rw [List.map_nil, List.append_nil, List.foldl_nil]
  | cons it its ih =>
      obtain ⟨hit, hrest⟩ := List.forall_mem_cons.mp hlt
      have hadd : r.add header (subframes ms) it = subframes (ms ++ [r.labelled header it]) :=
        aggregate_subframes _ _ _ hit
      rw [List.foldl_cons, hadd, ih hrest, List.append_assoc, List.singleton_append, List.map_cons]

theorem deaggregate_foldl_add (hlt : ∀ it ∈ its, it.packet.length < 2 ^ 16) :
    deaggregate (its.foldl (r.add header) []) = some (its.map (r.labelled header)) := by
  have hfold : its.foldl (r.add header) [] = subframes (its.map (r.labelled header)) := foldl_add_subframes hlt []
  rw [hfold]
  refine deaggregate_subframes fun m hm => ?_
  obtain ⟨it, hit, rfl⟩ := List.mem_map.mp hm
  exact ⟨rfl, hlt it hit⟩

/-! ## Calls -/

/-- The MSDUs that a call aggregates. -/
def AmsduRequest.msdus (r : AmsduRequest) (queue : List WifiMacQueueItem) : List WifiMacQueueItem :=
  match getMaxAmsduSize r.limits, queue.filter r.filter.selects with
  | some maxAmsduSize, it :: its => if maxAmsduSize = 0 then [] else r.fitting maxAmsduSize it.header 0 (it :: its)
  | _, _ => []

theorem getMaxAmsduSize_lt {l : AmsduLimits} (h : getMaxAmsduSize l = some n) : n < 2 ^ 16 := by
  have hlt : l.configured % 2 ^ 16 < 2 ^ 16 := Nat.mod_lt _ (by decide)
  simp only [getMaxAmsduSize] at h
  split at h
  · obtain rfl := Option.some.inj h
    decide
  split at h
  · obtain rfl := Option.some.inj h
    decide
  split at h
  · obtain ⟨v, -, rfl⟩ := Option.map_eq_some_iff.mp h
    exact Nat.lt_of_le_of_lt (Nat.min_le_left _ _) hlt
  split at h
  · obtain rfl := Option.some.inj h
    exact Nat.lt_of_le_of_lt (Nat.min_le_left _ _) hlt
  · obtain rfl := Option.some.inj h
    exact Nat.lt_of_le_of_lt (Nat.min_le_left _ _) hlt

theorem aggregationLoop_first {pos : ConstIterator} {rest : List WifiMacQueueItem} (hpos : pos.rest = it :: rest)
    (hadmits : r.admits maxAmsduSize header 0 it.packet.length = true) (fuel tstamp : Nat) :
    aggregationLoop r maxAmsduSize header (fuel + 1) ⟨pos, [], 0, tstamp⟩ =
      aggregationLoop r maxAmsduSize header fuel
        ⟨(pos.advance it rest).peek r.filter, r.add header [] it, 1, max tstamp it.tstamp⟩ := by
  rw [aggregationLoop]
  simp only [hpos]
  exact if_pos hadmits

theorem aggregationLoop_not_first {pos : ConstIterator} {rest : List WifiMacQueueItem} (hpos : pos.rest = it :: rest)
    (hno : ¬r.admits maxAmsduSize header 0 it.packet.length = true) (fuel tstamp : Nat) :
    aggregationLoop r maxAmsduSize header (fuel + 1) ⟨pos, [], 0, tstamp⟩ = ⟨pos, [], 0, tstamp⟩ := by
  rw [aggregationLoop]
  simp only [hpos]
  exact if_neg hno

/-- What a call answers that takes `it` and then the MSDUs of `more`. -/
structure Taken (r : AmsduRequest) (queue : List WifiMacQueueItem)
    (result : Option WifiMacQueueItem × List WifiMacQueueItem) (it : WifiMacQueueItem)
    (more skipped rest left : List WifiMacQueueItem) (tstamp : Nat) : Prop where
  queue : queue = skipped ++ it :: rest
  splits : Splits rest (removed 1 more) left
  result : result =
    if (more.length + 1) % 2 ^ 8 < 2 then (none, skipped ++ it :: left)
    else (some ⟨(it :: more).foldl (r.add it.header) [], { it.header with amsduPresent := true, addr3 := r.bssid }, tstamp⟩,
      skipped ++ left)

variable {result : Option WifiMacQueueItem × List WifiMacQueueItem}

theorem getNextAmsdu_cases (hcall : getNextAmsdu r queue = some result) :
    r.msdus queue = [] ∧ result = (none, queue) ∨
    ∃ maxAmsduSize it more skipped rest left tstamp, getMaxAmsduSize r.limits = some maxAmsduSize ∧
      r.msdus queue = r.fitting maxAmsduSize it.header 0 (queue.filter r.filter.selects) ∧
      r.msdus queue = it :: more ∧ Taken r queue result it more skipped rest left tstamp := by
  rw [getNextAmsdu] at hcall
  split at hcall
  · cases hcall
  obtain ⟨skipped, hrest, hbefore, hskip, hhead⟩ := ConstIterator.peek_spec r.filter ⟨[], queue⟩
  dsimp only [List.nil_append] at hrest hbefore
  have hfilter : queue.filter r.filter.selects = (ConstIterator.peek r.filter ⟨[], queue⟩).rest.filter r.filter.selects := by
    conv_lhs => rw [hrest, List.filter_append]
    rw [List.filter_eq_nil_iff.mpr fun it hit => by rw [hskip it hit]; decide, List.nil_append]
  cases hpeek : (ConstIterator.peek r.filter ⟨[], queue⟩).rest with
  | nil =>
      simp only [hpeek, Option.some.injEq] at hcall
      refine Or.inl ⟨?_, hcall.symm⟩
      rw [AmsduRequest.msdus, hfilter, hpeek, List.filter_nil]
      cases getMaxAmsduSize r.limits <;> rfl
  | cons it rest =>
      rw [hpeek] at hrest hfilter
      rw [List.filter_cons_of_pos (hhead it rest hpeek)] at hfilter
      simp only [hpeek, Option.bind_eq_bind] at hcall
      obtain ⟨maxAmsduSize, hmax, hcall⟩ := Option.bind_eq_some_iff.mp hcall
      have hmsdus : r.msdus queue = if maxAmsduSize = 0 then []
          else r.fitting maxAmsduSize it.header 0 (it :: rest.filter r.filter.selects) := by
        rw [AmsduRequest.msdus, hfilter, hmax]
      split at hcall
      · next hzero => exact Or.inl ⟨hmsdus.trans (if_pos hzero), (Option.some.inj hcall).symm⟩
      next hzero =>
      rw [if_neg hzero] at hmsdus
      have hlen : rest.length < queue.length := by
        rw [hrest, List.length_append, List.length_cons]
        omega
      obtain ⟨fuel, hfuel⟩ : ∃ k, queue.length = k + 1 := ⟨queue.length - 1, by omega⟩
      rw [hfuel] at hcall
      by_cases hadmits : r.admits maxAmsduSize it.header 0 it.packet.length
      · rw [aggregationLoop_first hpeek hadmits] at hcall
        have hspec := aggregationLoop_spec r maxAmsduSize it.header fuel
          ⟨(ConstIterator.peek r.filter ⟨[], queue⟩).advance it rest, r.add it.header [] it, 1,
            max it.tstamp it.tstamp⟩ (Nat.lt_of_sub_eq_succ rfl) (show rest.length ≤ fuel by omega)
        have hsize : (r.add it.header [] it).length = 0 + calculatePadding 0 + 14 + it.packet.length :=
          length_aggregate ..
        rw [AmsduRequest.fitting, if_pos hadmits, ← hsize] at hmsdus
        dsimp only at hspec
        generalize aggregationLoop r maxAmsduSize it.header fuel
          ⟨((ConstIterator.peek r.filter ⟨[], queue⟩).advance it rest).peek r.filter, r.add it.header [] it, 1,
            max it.tstamp it.tstamp⟩ = out at hspec hcall
        obtain ⟨hamsdu, hcount, left, hqueue, hsplits⟩ := hspec
        refine Or.inr ⟨maxAmsduSize, it, _, skipped, rest, left, out.tstamp, hmax, ?_, hmsdus, hrest, hsplits, ?_⟩
        · rw [hmsdus, hfilter, AmsduRequest.fitting, if_pos hadmits, ← hsize]
        · have hqueue' : out.pos.queue = skipped ++ it :: left := by
            rw [hqueue]
            simp only [ConstIterator.advance, hbefore, List.append_assoc, List.singleton_append]
          have hcount' : out.nMsdu = _ := hcount.trans (congrArg (· % 2 ^ 8) (Nat.add_comm 1 _))
          have herase : (skipped ++ it :: left).eraseIdx skipped.length = skipped ++ left := by
            rw [List.eraseIdx_append_of_length_le (Nat.le_refl _), Nat.sub_self]
            rfl
          simp only [hcount', hamsdu, hqueue', hbefore, herase] at hcall
          exact Option.some.inj (hcall.symm.trans (apply_ite some _ _ _).symm)
      · have hqueue : (ConstIterator.peek r.filter ⟨[], queue⟩).queue = queue := by
          rw [ConstIterator.queue, hbefore, hpeek, ← hrest]
        rw [aggregationLoop_not_first hpeek hadmits] at hcall
        refine Or.inl ⟨hmsdus.trans ?_, ?_⟩
        · rw [AmsduRequest.fitting]
          exact if_neg hadmits
        · exact (Option.some.inj hcall).symm.trans (Prod.ext rfl hqueue)

/-! ## The round trip of a call -/

/-- An A-MSDU of `msdus`, which have left the queue and come out again with the addresses of their own headers. -/
structure RoundTrip (r : AmsduRequest) (queue queue' : List WifiMacQueueItem) (amsdu : WifiMacQueueItem)
    (msdus : List WifiMacQueueItem) : Prop where
  many : 2 ≤ msdus.length
  size : ∃ maxAmsduSize, getMaxAmsduSize r.limits = some maxAmsduSize ∧ amsdu.packet.length ≤ maxAmsduSize
  within : r.withinLimits (amsdu.header.getSize + amsdu.packet.length + 4) = true
  left : Splits queue msdus queue'
  bytes : (deaggregate amsdu.packet).map (·.map fun m => (m.1, m.2.sa, m.2.da)) =
    some (msdus.map fun it => (it.packet, mapSrcAddressForAggregation r.station it.header,
      mapDestAddressForAggregation r.station it.header))

def AmsduRequest.AsExpected (r : AmsduRequest) (queue : List WifiMacQueueItem) :
    Option WifiMacQueueItem × List WifiMacQueueItem → Prop
  | (some amsdu, queue') => ∃ msdus, RoundTrip r queue queue' amsdu msdus
  | (none, queue') => queue' = queue

/-- MSDUs from one source to one destination. -/
def AmsduRequest.SameAddresses (r : AmsduRequest) (msdus : List WifiMacQueueItem) : Prop :=
  ∀ a ∈ msdus, ∀ b ∈ msdus,
    mapSrcAddressForAggregation r.station a.header = mapSrcAddressForAggregation r.station b.header ∧
      mapDestAddressForAggregation r.station a.header = mapDestAddressForAggregation r.station b.header

instance (r : AmsduRequest) (msdus : List WifiMacQueueItem) : Decidable (r.SameAddresses msdus) :=
  inferInstanceAs (Decidable (∀ a ∈ msdus, ∀ b ∈ msdus, _ ∧ _))

variable {more skipped rest left : List WifiMacQueueItem} {tstamp : Nat}

theorem Taken.lengths (ht : Taken r queue result it more skipped rest left tstamp) :
    rest.length = (removed 1 more).length + left.length ∧
      (removed 1 more).length + (more.length + 256) / 256 = more.length + 1 := by
  refine ⟨by rw [ht.splits.perm.length_eq, List.length_append], ?_⟩
  have := @length_removed 1 more (by decide)
  omega

/-- Up to 255 MSDUs: they leave the queue when there are at least two. -/
theorem Taken.few (ht : Taken r queue result it more skipped rest left tstamp) (hle : more.length + 1 ≤ 255) :
    more = [] ∧ result = (none, queue) ∨ more ≠ [] ∧ Splits queue (it :: more) (skipped ++ left) ∧
      result = (some ⟨(it :: more).foldl (r.add it.header) [],
        { it.header with amsduPresent := true, addr3 := r.bssid }, tstamp⟩, skipped ++ left) := by
  have hsplits := ht.splits
  rw [removed_eq Nat.one_pos (by omega)] at hsplits
  have hmod : (more.length + 1) % 2 ^ 8 = more.length + 1 := Nat.mod_eq_of_lt (by omega)
  by_cases hnil : more = []
  · rw [hnil] at hsplits
    refine Or.inl ⟨hnil, ?_⟩
    rw [ht.result, if_pos (by rw [hmod, hnil]; decide), hsplits.eq_of_nil, ht.queue]
  · have hpos := List.length_pos_iff.mpr hnil
    refine Or.inr ⟨hnil, ?_, ?_⟩
    · rw [ht.queue]
      exact (hsplits.left it).prepend skipped
    · rw [ht.result, if_neg (by omega)]

/-- What the A-MSDU of a call is when its bytes fit into 16 bits. -/
theorem deaggregate_taken (hlt : sizeWith 0 (it :: more) < 2 ^ 16) :
    deaggregate ((it :: more).foldl (r.add it.header) []) = some ((it :: more).map (r.labelled it.header)) :=
  deaggregate_foldl_add fun _ hit => Nat.lt_of_le_of_lt (length_le_sizeWith hit) hlt

/-- The addresses that come out are those of the first header. -/
theorem addresses_of_bytes {msdus : List WifiMacQueueItem} (hlt : sizeWith 0 (it :: more) < 2 ^ 16)
    (hbytes : (deaggregate ((it :: more).foldl (r.add it.header) [])).map (·.map fun m => (m.1, m.2.sa, m.2.da)) =
      some (msdus.map fun it => (it.packet, mapSrcAddressForAggregation r.station it.header,
        mapDestAddressForAggregation r.station it.header)))
    {b : WifiMacQueueItem} (hb : b ∈ msdus) :
    mapSrcAddressForAggregation r.station b.header = mapSrcAddressForAggregation r.station it.header ∧
      mapDestAddressForAggregation r.station b.header = mapDestAddressForAggregation r.station it.header := by
  rw [deaggregate_taken hlt, Option.map_some, List.map_map] at hbytes
  have hmem := List.mem_map_of_mem (f := fun it => (it.packet, mapSrcAddressForAggregation r.station it.header,
    mapDestAddressForAggregation r.station it.header)) hb
  rw [← Option.some.inj hbytes] at hmem
  obtain ⟨c, -, heq⟩ := List.mem_map.mp hmem
  exact ⟨(congrArg (·.2.1) heq).symm, (congrArg (·.2.2) heq).symm⟩

theorem amsdu_round_trip_iff (hcall : getNextAmsdu r queue = some result) :
    r.AsExpected queue result ↔ (r.msdus queue).length ≤ 1 ∨
      (r.msdus queue).length ≤ 255 ∧ sizeWith 0 (r.msdus queue) < 2 ^ 16 ∧ r.SameAddresses (r.msdus queue) := by
  rcases getNextAmsdu_cases hcall with ⟨hnil, rfl⟩ | ⟨maxAmsduSize, it, more, skipped, rest, left, tstamp, hmax, hfits,
    hmsdus, ht⟩
  · rw [hnil]
    exact iff_of_true rfl (Or.inl (Nat.zero_le 1))
  have hmaxlt := getMaxAmsduSize_lt hmax
  rw [hmsdus] at hfits ⊢
  have hsize := fun hlt => fitting_size (hfits ▸ List.cons_ne_nil it more)
    (show sizeWith 0 (r.fitting maxAmsduSize it.header 0 (queue.filter r.filter.selects)) < 2 ^ 16 from hfits ▸ hlt)
  rw [← hfits] at hsize
  have hlength : ((it :: more).foldl (r.add it.header) []).length = sizeWith 0 (it :: more) := length_foldl_add []
  by_cases hle : more.length + 1 ≤ 255
  · rcases ht.few hle with ⟨rfl, rfl⟩ | ⟨hne, hsplits, rfl⟩
    · exact iff_of_true rfl (Or.inl (Nat.le_refl 1))
    constructor
    · rintro ⟨msdus, hround⟩
      obtain ⟨max, hmax', hpacket⟩ := hround.size
      obtain rfl : maxAmsduSize = max := Option.some.inj (hmax.symm.trans hmax')
      have hlt : sizeWith 0 (it :: more) < 2 ^ 16 := by
        rw [← hlength]
        exact Nat.lt_of_le_of_lt hpacket hmaxlt
      have hperm : (it :: more).Perm msdus :=
        (List.perm_append_right_iff _).mp (hsplits.perm.symm.trans hround.left.perm)
      have hfirst := fun a (ha : a ∈ it :: more) => addresses_of_bytes hlt hround.bytes (hperm.subset ha)
      exact Or.inr ⟨hle, hlt, fun a ha b hb => ⟨(hfirst a ha).1.trans (hfirst b hb).1.symm,
        (hfirst a ha).2.trans (hfirst b hb).2.symm⟩⟩
    · rintro (hone | ⟨-, hlt, hsame⟩)
      · exact absurd (List.eq_nil_of_length_eq_zero (Nat.le_zero.mp (Nat.le_of_succ_le_succ hone))) hne
      · obtain ⟨hmaxSize, hwithin⟩ := hsize hlt
        refine ⟨it :: more, Nat.succ_le_succ (List.length_pos_iff.mpr hne), ⟨maxAmsduSize, hmax, hlength ▸ hmaxSize⟩,
          hlength ▸ hwithin, hsplits, ?_⟩
        rw [deaggregate_taken hlt, Option.map_some, List.map_map]
        refine congrArg some (List.map_congr_left fun a ha => ?_)
        obtain ⟨hsrc, hdest⟩ := hsame a ha it List.mem_cons_self
        rw [hsrc, hdest]
        rfl
  · refine iff_of_false ?_ ?_
    · obtain ⟨hrest, hremoved⟩ := ht.lengths
      have hqueue : queue.length = skipped.length + (rest.length + 1) := by
        rw [ht.queue, List.length_append, List.length_cons]
      rw [ht.result]
      split
      · intro hsame
        have hlen := congrArg List.length (show skipped ++ it :: left = queue from hsame)
        rw [List.length_append, List.length_cons] at hlen
        omega
      · rintro ⟨msdus, hround⟩
        obtain ⟨max, hmax', hpacket⟩ := hround.size
        obtain rfl : maxAmsduSize = max := Option.some.inj (hmax.symm.trans hmax')
        have hlt : sizeWith 0 (it :: more) < 2 ^ 16 := by
          rw [← hlength]
          exact Nat.lt_of_le_of_lt hpacket hmaxlt
        have hbytes := hround.bytes
        rw [deaggregate_taken hlt, Option.map_some] at hbytes
        have hmany := congrArg List.length (Option.some.inj hbytes)
        have hleft := hround.left.perm.length_eq
        rw [List.length_append, List.length_append] at hleft
        simp only [List.length_map, List.length_cons] at hmany
        omega
    · rw [List.length_cons]
      omega

/-! ## An access point with frames from two stations -/

def octet (n : UInt8) : Mac48Address := .replicate n

/-- A frame that the access point relays to station 2. -/
def relayed (source : UInt8) (packet : List UInt8) : WifiMacQueueItem :=
  ⟨packet, ⟨true, false, true, octet 2, octet 1, octet source, 0, false⟩, 0⟩

def apRequest : AmsduRequest :=
  ⟨.ap, octet 1, ⟨.ht, 7935, some 7935, none⟩, fun size => size ≤ 65535, ⟨0, 500, 0, octet 2⟩⟩

theorem amsdu_round_trip_iff_same : apRequest.AsExpected [relayed 3 [1, 2, 3], relayed 3 [4]]
    (some ⟨subframes [([1, 2, 3], ⟨octet 2, octet 3, 3⟩), ([4], ⟨octet 2, octet 3, 1⟩)],
      ⟨true, false, true, octet 2, octet 1, octet 1, 0, true⟩, 0⟩, []) :=
  (amsdu_round_trip_iff (by decide)).mpr (Or.inr (by decide))

/-- The second MSDU comes out with the source of the first. -/
theorem not_amsdu_round_trip : ¬∀ (r : AmsduRequest) (queue : List WifiMacQueueItem)
    (result : Option WifiMacQueueItem × List WifiMacQueueItem),
    getNextAmsdu r queue = some result → r.AsExpected queue result := by
  intro h
  have hcall : getNextAmsdu apRequest [relayed 3 [1, 2, 3], relayed 4 [4]] =
      some (some ⟨subframes [([1, 2, 3], ⟨octet 2, octet 3, 3⟩), ([4], ⟨octet 2, octet 3, 1⟩)],
        ⟨true, false, true, octet 2, octet 1, octet 1, 0, true⟩, 0⟩, []) := by
    decide
  obtain ⟨msdus, hround⟩ := h _ _ _ hcall
  have hmem : relayed 4 [4] ∈ msdus := by
    have := hround.left.perm.subset (List.mem_cons_of_mem _ (List.mem_singleton.mpr rfl))
    rwa [List.append_nil] at this
  have hlabels : [([1, 2, 3], octet 3, octet 2), ([4], octet 3, octet 2)] =
      msdus.map fun it => (it.packet, mapSrcAddressForAggregation .ap it.header,
        mapDestAddressForAggregation .ap it.header) :=
    Option.some.inj hround.bytes
  have hlabel : (([4], octet 4, octet 2) : List UInt8 × Mac48Address × Mac48Address) ∈
      [([1, 2, 3], octet 3, octet 2), ([4], octet 3, octet 2)] :=
    hlabels ▸ List.mem_map.mpr ⟨relayed 4 [4], hmem, rfl⟩
  revert hlabel
  decide

end Ns3Raft.Wifi
