import Mathlib.Data.Finset.Lattice.Lemmas
import Mathlib.Data.Finset.Dedup
import Ns3Raft.Lib.Coverage
import Ns3Raft.Olsr.State

/-! # The multipoint relays

`MprComputation` chooses neighbors until no two-hop neighbor is left in N2. Whichever way records are
erased, a two-hop neighbor goes with all its records and only when a chosen neighbor has it.
-/

namespace Ns3Raft.Olsr

abbrev MprSet := Finset UInt32

/-- `CoverTwoHopNeighbors`. -/
def coverTwoHopNeighbors (neighborMainAddr : UInt32) (N2 : List TwoHopNeighborTuple) : List TwoHopNeighborTuple :=
  let toRemove := (N2.filter (·.neighborMainAddr = neighborMainAddr)).map (·.twoHopNeighborAddr)
  N2.filter fun twoHopNeigh => ¬ twoHopNeigh.twoHopNeighborAddr ∈ toRemove

/-- The first neighbor of the address tells whether its two-hop neighbors count. -/
def reachable (N : List NeighborTuple) (twoHopNeigh : TwoHopNeighborTuple) : Bool :=
  match N.find? (·.neighborMainAddr = twoHopNeigh.neighborMainAddr) with
  | some neigh => neigh.willingness ≠ willNever
  | none => false

/-- No other neighbor reaches the two-hop neighbor. -/
def onlyOne (N2 : List TwoHopNeighborTuple) (twoHopNeigh : TwoHopNeighborTuple) : Bool :=
  !N2.any fun other => other.twoHopNeighborAddr = twoHopNeigh.twoHopNeighborAddr ∧
    other.neighborMainAddr ≠ twoHopNeigh.neighborMainAddr

/-- The number of records of a neighbor. -/
def reachability (N2 : List TwoHopNeighborTuple) (nb : NeighborTuple) : Nat :=
  (N2.filter (nb.neighborMainAddr = ·.neighborMainAddr)).length

/-- One round of step 1. -/
def selectAlways (mprs : List TwoHopNeighborTuple × MprSet) (neighbor : NeighborTuple) :
    List TwoHopNeighborTuple × MprSet :=
  if neighbor.willingness = willAlways then
    (coverTwoHopNeighbors neighbor.neighborMainAddr mprs.1, insert neighbor.neighborMainAddr mprs.2)
  else mprs

/-- One round of step 3, which notes the two-hop neighbors that are covered. -/
def selectOnly (N2 : List TwoHopNeighborTuple) (mprs : MprSet × MprSet) (twoHopNeigh : TwoHopNeighborTuple) :
    MprSet × MprSet :=
  if onlyOne N2 twoHopNeigh then
    (insert twoHopNeigh.neighborMainAddr mprs.1,
      mprs.2 ∪ ((N2.filter (·.neighborMainAddr = twoHopNeigh.neighborMainAddr)).map (·.twoHopNeighborAddr)).toFinset)
  else mprs

/-- Step 3. -/
def selectOnlyOnes (mprs : List TwoHopNeighborTuple × MprSet) : List TwoHopNeighborTuple × MprSet :=
  let (mprSet, coveredTwoHopNeighbors) := mprs.1.foldl (selectOnly mprs.1) (mprs.2, ∅)
  (mprs.1.filter fun twoHopNeigh => ¬ twoHopNeigh.twoHopNeighborAddr ∈ coveredTwoHopNeighbors, mprSet)

namespace OlsrState

variable (s : OlsrState)

/-- `Degree`. -/
def degree (tuple : NeighborTuple) : Nat :=
  (s.twoHopNeighbors.filter fun t =>
    t.neighborMainAddr = tuple.neighborMainAddr ∧ (s.findNeighborTuple t.neighborMainAddr).isNone).length

/-- The neighbors with a symmetric link. -/
def symNeighbors : List NeighborTuple := s.neighbors.filter (·.status = .sym)

def initialN2 (mainAddress : UInt32) : List TwoHopNeighborTuple :=
  s.twoHopNeighbors.filter fun twoHopNeigh =>
    twoHopNeigh.twoHopNeighborAddr ≠ mainAddress ∧ reachable s.symNeighbors twoHopNeigh ∧
      ¬ s.symNeighbors.any (·.neighborMainAddr = twoHopNeigh.twoHopNeighborAddr)

/-- The neighbor that is preferred so far, with its reachability. -/
def prefer (max : Option (NeighborTuple × Nat)) (nb : NeighborTuple × Nat) : Option (NeighborTuple × Nat) :=
  match max with
  | none => some nb
  | some (max, maxR) =>
      if nb.1.willingness > max.willingness then some nb
      else if nb.1.willingness = max.willingness then
        if nb.2 > maxR then some nb
        else if nb.2 = maxR then
          if s.degree nb.1 > s.degree max then some nb else some (max, maxR)
        else some (max, maxR)
      else some (max, maxR)

/-- The neighbors in the order of step 4, by increasing reachability. -/
def candidates (N2 : List TwoHopNeighborTuple) : List (NeighborTuple × Nat) :=
  let rs := (s.symNeighbors.map (reachability N2)).dedup.mergeSort (· ≤ ·)
  rs.flatMap fun r =>
    if r = 0 then [] else (s.symNeighbors.filter (reachability N2 · = r)).map (·, r)

/-- The neighbor that a round of step 4 selects. -/
def selectMax (N2 : List TwoHopNeighborTuple) : Option NeighborTuple :=
  ((s.candidates N2).foldl s.prefer none).map (·.1)

/-- One round of step 4. -/
def step4 (mprs : List TwoHopNeighborTuple × MprSet) : List TwoHopNeighborTuple × MprSet :=
  match s.selectMax mprs.1 with
  | some max => (coverTwoHopNeighbors max.neighborMainAddr mprs.1, insert max.neighborMainAddr mprs.2)
  | none => mprs

/-- `none` when the fuel is spent before N2 is empty. -/
def coverRest : Nat → List TwoHopNeighborTuple × MprSet → Option MprSet
  | 0, _ => none
  | fuel + 1, mprs => if mprs.1 = [] then some mprs.2 else coverRest fuel (s.step4 mprs)

/-- N2 and the relays before step 4. -/
def beforeStep4 (mainAddress : UInt32) : List TwoHopNeighborTuple × MprSet :=
  selectOnlyOnes (s.symNeighbors.foldl selectAlways (s.initialN2 mainAddress, ∅))

def mprComputation (mainAddress : UInt32) (fuel : Nat) : Option MprSet :=
  s.coverRest fuel (s.beforeStep4 mainAddress)

end OlsrState

/-! ## What is erased is covered -/

section Invariant

variable {s : OlsrState} {N2₀ N2 : List TwoHopNeighborTuple} {mprSet : MprSet} {nb : NeighborTuple} {addr : UInt32}

/-- A symmetric neighbor that may be chosen. -/
def OlsrState.Willing (s : OlsrState) (addr : UInt32) : Prop :=
  ∃ nb ∈ s.neighbors, nb.status = .sym ∧ nb.neighborMainAddr = addr ∧ nb.willingness ≠ willNever

/-- Only willing neighbors are chosen, and what they do not have is left. -/
structure Choosing (s : OlsrState) (N2₀ : List TwoHopNeighborTuple) (mprs : List TwoHopNeighborTuple × MprSet) : Prop where
  progress : Coverage.Progress TwoHopNeighborTuple.neighborMainAddr TwoHopNeighborTuple.twoHopNeighborAddr N2₀ mprs.1
    (· ∈ mprs.2)
  willing : ∀ addr ∈ mprs.2, s.Willing addr

/-- A willing neighbor is chosen, and its two-hop neighbors are erased. -/
theorem Choosing.cover (h : Choosing s N2₀ (N2, mprSet)) (hwilling : s.Willing addr) :
    Choosing s N2₀ (coverTwoHopNeighbors addr N2, insert addr mprSet) := by
  refine ⟨?_, fun a ha => ?_⟩
  · have hmono := h.progress.mono fun a ha => Finset.mem_insert_of_mem (b := addr) ha
    refine hmono.drop (· ∈ (N2.filter (·.neighborMainAddr = addr)).map (·.twoHopNeighborAddr)) fun t _ hgone => ?_
    obtain ⟨t', ht', hitem⟩ := List.mem_map.1 hgone
    obtain ⟨hmem, haddr⟩ := List.mem_filter.1 ht'
    refine ⟨t', h.progress.mem t' hmem, hitem, ?_⟩
    rw [of_decide_eq_true haddr]
    exact Finset.mem_insert_self addr mprSet
  · rcases Finset.mem_insert.1 ha with rfl | hold
    · exact hwilling
    · exact h.willing a hold

theorem willing_of_sym (hmem : nb ∈ s.symNeighbors) (hwilling : nb.willingness ≠ willNever) :
    s.Willing nb.neighborMainAddr := by
  obtain ⟨hnb, hsym⟩ := List.mem_filter.1 hmem
  exact ⟨nb, hnb, of_decide_eq_true hsym, rfl, hwilling⟩

theorem Choosing.selectAlways {mprs : List TwoHopNeighborTuple × MprSet} (h : Choosing s N2₀ mprs) (hmem : nb ∈ s.symNeighbors) :
    Choosing s N2₀ (Olsr.selectAlways mprs nb) := by
  rw [Olsr.selectAlways]
  split
  · next halways =>
    refine Choosing.cover h (willing_of_sym hmem ?_)
    rw [halways]
    decide
  · exact h

theorem selectAlways_subset (mprs : List TwoHopNeighborTuple × MprSet) (nb : NeighborTuple) :
    mprs.2 ⊆ (selectAlways mprs nb).2 := by
  rw [selectAlways]
  split
  · exact Finset.subset_insert _ _
  · exact Finset.Subset.refl _

/-- Step 1 chooses every neighbor that is always willing. -/
theorem Choosing.step1 (N : List NeighborTuple) (hN : ∀ nb ∈ N, nb ∈ s.symNeighbors)
    {mprs : List TwoHopNeighborTuple × MprSet} (h : Choosing s N2₀ mprs) :
    Choosing s N2₀ (N.foldl Olsr.selectAlways mprs) ∧ mprs.2 ⊆ (N.foldl Olsr.selectAlways mprs).2 ∧
      ∀ nb ∈ N, nb.willingness = willAlways → nb.neighborMainAddr ∈ (N.foldl Olsr.selectAlways mprs).2 := by
  induction N generalizing mprs with
  | nil => exact ⟨h, Finset.Subset.refl _, fun nb hnb => nomatch hnb⟩
  | cons nb N ih =>
    obtain ⟨hchoosing, hsubset, halways⟩ :=
      ih (fun nb' hnb' => hN nb' (List.mem_cons_of_mem _ hnb')) (h.selectAlways (hN nb List.mem_cons_self))
    refine ⟨hchoosing, (selectAlways_subset mprs nb).trans hsubset, fun nb' hnb' hwill => ?_⟩
    rcases List.mem_cons.1 hnb' with rfl | htail
    · refine hsubset ?_
      rw [Olsr.selectAlways, if_pos hwill]
      exact Finset.mem_insert_self _ _
    · exact halways nb' htail hwill

/-- What step 3 has noted is covered. -/
structure Noting (s : OlsrState) (N2 : List TwoHopNeighborTuple) (before : MprSet) (mprs : MprSet × MprSet) : Prop where
  subset : before ⊆ mprs.1
  willing : ∀ addr ∈ mprs.1, s.Willing addr
  covered : ∀ item ∈ mprs.2, ∃ t ∈ N2, t.twoHopNeighborAddr = item ∧ t.neighborMainAddr ∈ mprs.1

theorem Noting.selectOnly {before : MprSet} {mprs : MprSet × MprSet} {t : TwoHopNeighborTuple} (h : Noting s N2 before mprs)
    (hwilling : s.Willing t.neighborMainAddr) : Noting s N2 before (Olsr.selectOnly N2 mprs t) := by
  rw [Olsr.selectOnly]
  split
  · refine ⟨h.subset.trans (Finset.subset_insert _ _), fun addr haddr => ?_, fun item hitem => ?_⟩
    · rcases Finset.mem_insert.1 haddr with rfl | hold
      · exact hwilling
      · exact h.willing addr hold
    · rcases Finset.mem_union.1 hitem with hold | hnew
      · obtain ⟨t', ht', heq, hmem⟩ := h.covered item hold
        exact ⟨t', ht', heq, Finset.mem_insert_of_mem hmem⟩
      · obtain ⟨t', ht', heq⟩ := List.mem_map.1 (List.mem_toFinset.1 hnew)
        obtain ⟨hmem, haddr⟩ := List.mem_filter.1 ht'
        refine ⟨t', hmem, heq, ?_⟩
        rw [of_decide_eq_true haddr]
        exact Finset.mem_insert_self _ _
  · exact h

theorem Noting.fold {before : MprSet} (ts : List TwoHopNeighborTuple) (hwilling : ∀ t ∈ ts, s.Willing t.neighborMainAddr)
    {mprs : MprSet × MprSet} (h : Noting s N2 before mprs) : Noting s N2 before (ts.foldl (Olsr.selectOnly N2) mprs) := by
  induction ts generalizing mprs with
  | nil => exact h
  | cons t ts ih =>
    exact ih (fun t' ht' => hwilling t' (List.mem_cons_of_mem _ ht')) (h.selectOnly (hwilling t List.mem_cons_self))

theorem Choosing.step3 {mprs : List TwoHopNeighborTuple × MprSet} (h : Choosing s N2₀ mprs)
    (hwilling : ∀ t ∈ N2₀, s.Willing t.neighborMainAddr) :
    Choosing s N2₀ (selectOnlyOnes mprs) ∧ mprs.2 ⊆ (selectOnlyOnes mprs).2 := by
  have hstart : Noting s mprs.1 mprs.2 (mprs.2, ∅) :=
    ⟨Finset.Subset.refl _, h.willing, fun item hitem => absurd hitem (Finset.notMem_empty item)⟩
  have hnoting := hstart.fold mprs.1 fun t ht => hwilling t (h.progress.mem t ht)
  refine ⟨⟨?_, hnoting.willing⟩, hnoting.subset⟩
  refine (h.progress.mono fun a ha => hnoting.subset ha).drop
    (· ∈ (mprs.1.foldl (Olsr.selectOnly mprs.1) (mprs.2, ∅)).2) fun t _ hgone => ?_
  obtain ⟨t', ht', hitem, hmem⟩ := hnoting.covered _ hgone
  exact ⟨t', h.progress.mem t' ht', hitem, hmem⟩

end Invariant

/-! ## Step 4 -/

namespace OlsrState

variable {s : OlsrState} {N2₀ N2 : List TwoHopNeighborTuple} {nb : NeighborTuple} {r : Nat}

theorem mem_candidates : (nb, r) ∈ s.candidates N2 ↔ nb ∈ s.symNeighbors ∧ reachability N2 nb = r ∧ r ≠ 0 := by
  simp only [candidates, List.mem_flatMap, List.mem_mergeSort, List.mem_dedup, List.mem_map]
  constructor
  · rintro ⟨r', -, hmem⟩
    split at hmem
    · exact nomatch hmem
    · next hr =>
      obtain ⟨nb', hnb', heq⟩ := List.mem_map.1 hmem
      obtain ⟨rfl, rfl⟩ := Prod.mk.inj heq
      obtain ⟨hsym, hreach⟩ := List.mem_filter.1 hnb'
      exact ⟨hsym, of_decide_eq_true hreach, hr⟩
  · rintro ⟨hsym, hreach, hr⟩
    refine ⟨r, ⟨nb, hsym, hreach⟩, ?_⟩
    rw [if_neg hr]
    exact List.mem_map.2 ⟨nb, List.mem_filter.2 ⟨hsym, decide_eq_true hreach⟩, rfl⟩

theorem reachability_ne_zero : reachability N2 nb ≠ 0 ↔ ∃ t ∈ N2, t.neighborMainAddr = nb.neighborMainAddr := by
  rw [reachability, ← Nat.pos_iff_ne_zero, List.length_pos_iff_exists_mem]
  constructor
  · rintro ⟨t, ht⟩
    obtain ⟨hmem, haddr⟩ := List.mem_filter.1 ht
    exact ⟨t, hmem, (of_decide_eq_true haddr).symm⟩
  · rintro ⟨t, hmem, haddr⟩
    exact ⟨t, List.mem_filter.2 ⟨hmem, decide_eq_true haddr.symm⟩⟩

/-- The one that is preferred is one of the candidates. -/
theorem prefer_cases (max : Option (NeighborTuple × Nat)) (c : NeighborTuple × Nat) :
    s.prefer max c = some c ∨ (max.isSome ∧ s.prefer max c = max) := by
  cases max with
  | none => exact .inl rfl
  | some max =>
    rw [prefer]
    split
    · exact .inl rfl
    · split
      · split
        · exact .inl rfl
        · split
          · split
            · exact .inl rfl
            · exact .inr ⟨rfl, rfl⟩
          · exact .inr ⟨rfl, rfl⟩
      · exact .inr ⟨rfl, rfl⟩

theorem foldl_prefer (cs : List (NeighborTuple × Nat)) (max : Option (NeighborTuple × Nat)) :
    (cs = [] ∧ cs.foldl s.prefer max = max) ∨ ∃ c, cs.foldl s.prefer max = some c ∧ (c ∈ cs ∨ max = some c) := by
  induction cs generalizing max with
  | nil => exact .inl ⟨rfl, rfl⟩
  | cons c cs ih =>
    refine .inr ?_
    rw [List.foldl_cons]
    rcases ih (s.prefer max c) with ⟨rfl, hsame⟩ | ⟨c', hresult, hmem⟩
    · rw [hsame]
      rcases prefer_cases (s := s) max c with hnew | ⟨hsome, hold⟩
      · exact ⟨c, hnew, .inl List.mem_cons_self⟩
      · obtain ⟨max', rfl⟩ := Option.isSome_iff_exists.1 hsome
        exact ⟨max', hold, .inr rfl⟩
    · refine ⟨c', hresult, ?_⟩
      rcases hmem with htail | hhead
      · exact .inl (List.mem_cons_of_mem _ htail)
      · rcases prefer_cases (s := s) max c with hnew | ⟨-, hold⟩
        · rw [hnew] at hhead
          exact .inl (Option.some.inj hhead ▸ List.mem_cons_self)
        · exact .inr (hold ▸ hhead)

/-- While a record is left, a neighbor of one of the records is selected. -/
theorem exists_selectMax (hN2 : N2 ≠ []) (hsym : ∀ t ∈ N2, s.Willing t.neighborMainAddr) :
    ∃ max, s.selectMax N2 = some max ∧ max ∈ s.symNeighbors ∧ ∃ t ∈ N2, t.neighborMainAddr = max.neighborMainAddr := by
  obtain ⟨t, ht⟩ := List.exists_mem_of_ne_nil N2 hN2
  obtain ⟨nb, hnb, hnbsym, haddr, -⟩ := hsym t ht
  have hcandidate : (nb, reachability N2 nb) ∈ s.candidates N2 :=
    mem_candidates.2 ⟨List.mem_filter.2 ⟨hnb, decide_eq_true hnbsym⟩, rfl, reachability_ne_zero.2 ⟨t, ht, haddr.symm⟩⟩
  rcases foldl_prefer (s := s) (s.candidates N2) none with ⟨hnil, -⟩ | ⟨⟨max, r⟩, hresult, hmem⟩
  · rw [hnil] at hcandidate
    exact nomatch hcandidate
  · obtain ⟨hmaxsym, hreach, hr⟩ := mem_candidates.1 (hmem.resolve_right nofun)
    refine ⟨max, by rw [selectMax, hresult, Option.map_some], hmaxsym, reachability_ne_zero.1 (hreach ▸ hr)⟩

theorem length_coverTwoHopNeighbors {t : TwoHopNeighborTuple} (ht : t ∈ N2) :
    (coverTwoHopNeighbors t.neighborMainAddr N2).length < N2.length := by
  refine List.length_filter_lt_length_iff_exists.2 ⟨t, ht, ?_⟩
  simp only [decide_eq_true_eq, not_not]
  exact List.mem_map.2 ⟨t, List.mem_filter.2 ⟨ht, decide_eq_true rfl⟩, rfl⟩

/-- A round of step 4 makes N2 smaller. -/
theorem step4_spec {mprs : List TwoHopNeighborTuple × MprSet} (h : Choosing s N2₀ mprs)
    (hwilling : ∀ t ∈ N2₀, s.Willing t.neighborMainAddr) :
    Choosing s N2₀ (s.step4 mprs) ∧ mprs.2 ⊆ (s.step4 mprs).2 ∧
      (mprs.1 ≠ [] → (s.selectMax mprs.1).isSome ∧ (s.step4 mprs).1.length < mprs.1.length) := by
  have hleft : ∀ t ∈ mprs.1, s.Willing t.neighborMainAddr := fun t ht => hwilling t (h.progress.mem t ht)
  rw [step4]
  cases hmax : s.selectMax mprs.1 with
  | none =>
    refine ⟨h, Finset.Subset.refl _, fun hne => ?_⟩
    obtain ⟨max, hsome, -⟩ := exists_selectMax hne hleft
    exact nomatch hmax.symm.trans hsome
  | some max =>
    have hne : mprs.1 ≠ [] := by
      intro hnil
      rw [hnil, selectMax] at hmax
      have hnone : s.candidates [] = [] := List.eq_nil_iff_forall_not_mem.2 fun c hc =>
        (mem_candidates.1 hc).2.2 (mem_candidates.1 hc).2.1.symm
      rw [hnone] at hmax
      exact nomatch hmax
    obtain ⟨max', hsome, -, t, ht, haddr⟩ := exists_selectMax hne hleft
    obtain rfl : max = max' := Option.some.inj (hmax.symm.trans hsome)
    refine ⟨Choosing.cover h (haddr ▸ hleft t ht), Finset.subset_insert _ _, fun _ => ⟨rfl, ?_⟩⟩
    dsimp only
    rw [← haddr]
    exact length_coverTwoHopNeighbors ht

theorem coverRest_spec {fuel : Nat} {mprs : List TwoHopNeighborTuple × MprSet} (h : Choosing s N2₀ mprs)
    (hwilling : ∀ t ∈ N2₀, s.Willing t.neighborMainAddr) (hfuel : mprs.1.length < fuel) :
    ∃ mprSet, s.coverRest fuel mprs = some mprSet ∧ Choosing s N2₀ ([], mprSet) ∧ mprs.2 ⊆ mprSet := by
  induction fuel generalizing mprs with
  | zero => exact absurd hfuel (Nat.not_lt_zero _)
  | succ fuel ih =>
    rw [coverRest]
    split
    · next hnil => exact ⟨mprs.2, rfl, hnil ▸ h, Finset.Subset.refl _⟩
    · next hne =>
      obtain ⟨hchoosing, hsubset, hsmaller⟩ := step4_spec h hwilling
      obtain ⟨mprSet, hresult, hdone, hmore⟩ :=
        ih hchoosing (Nat.lt_of_lt_of_le (hsmaller hne).2 (Nat.le_of_lt_succ hfuel))
      exact ⟨mprSet, hresult, hdone, hsubset.trans hmore⟩

/-! ## The relays -/

theorem mem_initialN2 {mainAddress : UInt32} {t : TwoHopNeighborTuple} :
    t ∈ s.initialN2 mainAddress ↔ t ∈ s.twoHopNeighbors ∧ t.twoHopNeighborAddr ≠ mainAddress ∧
      s.Willing t.neighborMainAddr ∧ ¬ s.IsSym t.twoHopNeighborAddr := by
  have hreachable : reachable s.symNeighbors t = true ↔ s.Willing t.neighborMainAddr := by
    rw [reachable]
    cases hfind : s.symNeighbors.find? (·.neighborMainAddr = t.neighborMainAddr) with
    | none =>
      refine iff_of_false Bool.false_ne_true ?_
      rintro ⟨nb, hnb, hsym, haddr, -⟩
      exact List.find?_eq_none.1 hfind nb (List.mem_filter.2 ⟨hnb, decide_eq_true hsym⟩) (decide_eq_true haddr)
    | some nb =>
      have haddr : nb.neighborMainAddr = t.neighborMainAddr := by simpa using List.find?_some hfind
      obtain ⟨hnb, hsym⟩ := List.mem_filter.1 (List.mem_of_find?_eq_some hfind)
      rw [decide_eq_true_eq]
      constructor
      · exact fun hwill => ⟨nb, hnb, of_decide_eq_true hsym, haddr, hwill⟩
      · rintro ⟨nb', hnb', -, haddr', hwill⟩
        rwa [eq_of_addr hnb hnb' (haddr.trans haddr'.symm)]
  have hany : (s.symNeighbors.any (·.neighborMainAddr = t.twoHopNeighborAddr)) = true ↔ s.IsSym t.twoHopNeighborAddr := by
    rw [List.any_eq_true]
    constructor
    · rintro ⟨nb, hmem, haddr⟩
      obtain ⟨hnb, hsym⟩ := List.mem_filter.1 hmem
      exact ⟨nb, hnb, of_decide_eq_true hsym, of_decide_eq_true haddr⟩
    · rintro ⟨nb, hnb, hsym, haddr⟩
      exact ⟨nb, List.mem_filter.2 ⟨hnb, decide_eq_true hsym⟩, decide_eq_true haddr⟩
  rw [initialN2, List.mem_filter, decide_eq_true_eq, hreachable, hany]

/-- What the relays are for. -/
structure Relays (s : OlsrState) (mainAddress : UInt32) (mprSet : MprSet) : Prop where
  willing : ∀ addr ∈ mprSet, s.Willing addr
  always : ∀ nb ∈ s.neighbors, nb.status = .sym → nb.willingness = willAlways → nb.neighborMainAddr ∈ mprSet
  covers : ∀ t ∈ s.twoHopNeighbors, t.twoHopNeighborAddr ≠ mainAddress → ¬ s.IsSym t.twoHopNeighborAddr →
    s.Willing t.neighborMainAddr →
    ∃ t' ∈ s.twoHopNeighbors, t'.twoHopNeighborAddr = t.twoHopNeighborAddr ∧ t'.neighborMainAddr ∈ mprSet

theorem choosing_beforeStep4 (mainAddress : UInt32) :
    Choosing s (s.initialN2 mainAddress) (s.beforeStep4 mainAddress) ∧
      ∀ nb ∈ s.symNeighbors, nb.willingness = willAlways → nb.neighborMainAddr ∈ (s.beforeStep4 mainAddress).2 := by
  have hstart : Choosing s (s.initialN2 mainAddress) (s.initialN2 mainAddress, ∅) :=
    ⟨.start, fun addr haddr => absurd haddr (Finset.notMem_empty addr)⟩
  obtain ⟨hstep1, -, halways⟩ := hstart.step1 s.symNeighbors fun nb hnb => hnb
  obtain ⟨hstep3, hsubset⟩ := hstep1.step3 fun t ht => (mem_initialN2.1 ht).2.2.1
  exact ⟨hstep3, fun nb hnb hwill => hsubset (halways nb hnb hwill)⟩

theorem choosing_rounds (mainAddress : UInt32) (n : Nat) :
    Choosing s (s.initialN2 mainAddress) (s.step4^[n] (s.beforeStep4 mainAddress)) := by
  induction n with
  | zero => exact (choosing_beforeStep4 mainAddress).1
  | succ n ih =>
    rw [Function.iterate_succ_apply']
    exact (step4_spec ih fun t ht => (mem_initialN2.1 ht).2.2.1).1

/-- The computation ends, every round of step 4 selects a neighbor, and the relays cover the two-hop neighbors. -/
theorem mprComputation_covers (s : OlsrState) (mainAddress : UInt32) :
    (∃ fuel mprSet, s.mprComputation mainAddress fuel = some mprSet ∧ s.Relays mainAddress mprSet) ∧
      ∀ n, (s.step4^[n] (s.beforeStep4 mainAddress)).1 ≠ [] →
        (s.selectMax (s.step4^[n] (s.beforeStep4 mainAddress)).1).isSome := by
  have hwilling : ∀ t ∈ s.initialN2 mainAddress, s.Willing t.neighborMainAddr := fun t ht => (mem_initialN2.1 ht).2.2.1
  refine ⟨?_, fun n hne => ((step4_spec (choosing_rounds mainAddress n) hwilling).2.2 hne).1⟩
  obtain ⟨hchoosing, halways⟩ := choosing_beforeStep4 (s := s) mainAddress
  obtain ⟨mprSet, hresult, hdone, hsubset⟩ := coverRest_spec hchoosing hwilling (Nat.lt_succ_self _)
  refine ⟨_, mprSet, hresult, hdone.willing, fun nb hnb hsym hwill => ?_, fun t ht hself hnew hwill => ?_⟩
  · exact hsubset (halways nb (List.mem_filter.2 ⟨hnb, decide_eq_true hsym⟩) hwill)
  · obtain ⟨t', ht', hitem, hmem⟩ := hdone.progress.covered (mem_initialN2.2 ⟨ht, hself, hwill, hnew⟩)
    exact ⟨t', (mem_initialN2.1 ht').1, hitem, hmem⟩

end OlsrState

end Ns3Raft.Olsr
