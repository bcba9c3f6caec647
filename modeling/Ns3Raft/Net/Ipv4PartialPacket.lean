import Ns3Raft.Net.Ipv4Reassembly

/-! # What is there when the time is up

`GetPartialPacket` collects what the fragments have from the beginning of the datagram on.
Its sizes are of 32 bits, and it asks for a piece of each fragment that overlaps.
-/

namespace Ns3Raft.Net

open Slices

namespace Fragments

/-- A call of `CreateFragment`, with the size of the fragment it is made of. -/
structure PieceRequest where
  size : Nat
  newStart : Nat
  newSize : Nat
  deriving DecidableEq, Repr

/-- `CreateFragment` on the bytes: what is more than there is is cut off. -/
def createFragment (fragment : List UInt8) (start length : Nat) : List UInt8 :=
  let tmp := fragment.drop start
  tmp.take (tmp.length - (fragment.length + 2 ^ 32 - (start + length) % 2 ^ 32) % 2 ^ 32)

/-- The loop of `GetPartialPacket`. -/
def partialLoop : List UInt8 → List (List UInt8 × Nat) → List UInt8 × List PieceRequest
  | p, [] => (p, [])
  | p, it :: rest =>
      let lastEndOffset := p.length % 2 ^ 16
      if it.2 < lastEndOffset then
        let newStart := lastEndOffset - it.2
        let newSize := (it.1.length + 2 ^ 32 - newStart) % 2 ^ 32
        let (packet, asked) := partialLoop (p ++ createFragment it.1 newStart newSize) rest
        (packet, ⟨it.1.length, newStart, newSize⟩ :: asked)
      else if lastEndOffset = it.2 then partialLoop (p ++ it.1) rest
      else partialLoop p rest

/-- The packet, and what was asked of the fragments for it. -/
def getPartialPacket (fs : Fragments) : List UInt8 × List PieceRequest :=
  match fs.fragments with
  | [] => ([], [])
  | it :: _ => if 0 < it.2 then ([], []) else partialLoop [] fs.fragments

/-- The piece begins and ends inside the fragment, so that no size is below zero. -/
def PieceRequest.Inside (r : PieceRequest) : Prop := r.newStart ≤ r.size ∧ r.newStart + r.newSize ≤ r.size

/-! ## The longest contiguous prefix -/

/-- Every byte is from a fragment, at its place in the datagram. -/
def FromFragments (its : List (List UInt8 × Nat)) (p : List UInt8) : Prop :=
  ∀ o < p.length, ∃ it ∈ its, it.2 ≤ o ∧ o < it.2 + it.1.length ∧ it.1[o - it.2]? = p[o]?

/-- All that the fragments have from the beginning on without a gap. -/
def LongestPrefix (its : List (List UInt8 × Nat)) (p : List UInt8) : Prop :=
  FromFragments its p ∧ ¬ Covered its p.length

/-- Where the data without a gap ends after another fragment. -/
def reach (covered : Nat) (it : List UInt8 × Nat) : Nat :=
  if it.2 ≤ covered then max covered (it.2 + it.1.length) else covered

/-- No fragment ends before the data of those listed before it, which is less than 2^16 bytes. -/
def Growing : Nat → List (List UInt8 × Nat) → Prop
  | _, [] => True
  | covered, it :: rest =>
      covered < 2 ^ 16 ∧ (it.2 < covered → covered ≤ it.2 + it.1.length) ∧ Growing (reach covered it) rest

instance instDecidableGrowing : (covered : Nat) → (its : List (List UInt8 × Nat)) → Decidable (Growing covered its)
  | _, [] => isTrue trivial
  | covered, it :: rest =>
      have := instDecidableGrowing (reach covered it) rest
      inferInstanceAs (Decidable (_ ∧ _ ∧ _))

/-- The packet is what is to be returned, made of pieces that are there. -/
structure PartialRight (fs : Fragments) : Prop where
  longest : LongestPrefix fs.fragments fs.getPartialPacket.1
  inside : ∀ r ∈ fs.getPartialPacket.2, r.Inside
  complete : fs.isEntire = true → fs.getPartialPacket.1 = fs.getPacket

variable {p : List UInt8} {its before : List (List UInt8 × Nat)} {it : List UInt8 × Nat} {fs : Fragments}

theorem createFragment_inside {fragment : List UInt8} {start length : Nat} (h : start + length = fragment.length)
    (hsize : fragment.length < 2 ^ 32) : createFragment fragment start length = fragment.drop start := by
  unfold createFragment
  dsimp only
  rw [h, Nat.mod_eq_of_lt hsize, Nat.add_sub_cancel_left, Nat.mod_self, Nat.sub_zero, List.take_length]

/-- One fragment of the loop, when its data do not end before the packet. -/
theorem partialLoop_cons (hp : p.length < 2 ^ 16) (hgrow : it.2 < p.length → p.length ≤ it.2 + it.1.length)
    (hsize : it.1.length < 2 ^ 32) (rest : List (List UInt8 × Nat)) :
    ∃ asked, (∀ r ∈ asked, r.Inside) ∧ partialLoop p (it :: rest) =
      let next := partialLoop (if it.2 ≤ p.length then p ++ it.1.drop (p.length - it.2) else p) rest
      (next.1, asked ++ next.2) := by
  rw [partialLoop]
  dsimp only
  rw [Nat.mod_eq_of_lt hp]
  rcases Nat.lt_trichotomy it.2 p.length with hlt | heq | hgt
  · have hle := hgrow hlt
    have hnew : (it.1.length + 2 ^ 32 - (p.length - it.2)) % 2 ^ 32 = it.1.length - (p.length - it.2) := by omega
    have hin : p.length - it.2 + (it.1.length - (p.length - it.2)) = it.1.length := by omega
    refine ⟨[⟨it.1.length, p.length - it.2, it.1.length - (p.length - it.2)⟩], ?_, ?_⟩
    · rintro r hr
      rw [List.mem_singleton.mp hr]
      exact ⟨by dsimp only; omega, Nat.le_of_eq hin⟩
    · rw [if_pos hlt, if_pos (Nat.le_of_lt hlt), hnew, createFragment_inside hin hsize]
      rfl
  · refine ⟨[], List.forall_mem_nil _, ?_⟩
    rw [if_neg (by omega), if_pos heq.symm, if_pos (Nat.le_of_eq heq), heq, Nat.sub_self, List.drop_zero]
    rfl
  · refine ⟨[], List.forall_mem_nil _, ?_⟩
    rw [if_neg (by omega), if_neg (by omega), if_neg (by omega)]
    rfl

/-- The packet with what a fragment adds to it. -/
def advance (p : List UInt8) (it : List UInt8 × Nat) : List UInt8 :=
  if it.2 ≤ p.length then p ++ it.1.drop (p.length - it.2) else p

theorem length_advance (p : List UInt8) (it : List UInt8 × Nat) : (advance p it).length = reach p.length it := by
  unfold advance reach
  split
  · rw [List.length_append, List.length_drop]
    omega
  · rfl

/-- What a packet is while some of the fragments are collected. -/
structure Collected (before : List (List UInt8 × Nat)) (p : List UInt8) : Prop where
  fromFragments : FromFragments before p
  ends : ∀ it ∈ before, it.2 ≤ p.length → it.2 + it.1.length ≤ p.length

theorem Collected.longestPrefix (h : Collected before p) : LongestPrefix before p := by
  refine ⟨h.fromFragments, ?_⟩
  rintro ⟨it, hit, hle, hlt⟩
  have hend := h.ends it hit hle
  omega

theorem fromFragments_nil : FromFragments its [] := fun _ ho => absurd ho (Nat.not_lt_zero _)

theorem FromFragments.snoc (h : FromFragments before p) (it : List UInt8 × Nat) : FromFragments (before ++ [it]) p := by
  intro o ho
  obtain ⟨it', hit', hin⟩ := h o ho
  exact ⟨it', List.mem_append_left _ hit', hin⟩

theorem Collected.advance (h : Collected before p) (hsorted : ∀ d ∈ before, d.2 ≤ it.2) :
    Collected (before ++ [it]) (advance p it) := by
  have hlen := length_advance p it
  unfold reach at hlen
  by_cases hle : it.2 ≤ p.length
  · rw [if_pos hle] at hlen
    refine ⟨fun o ho => ?_, fun d hd hdle => ?_⟩
    · by_cases hold : o < p.length
      · obtain ⟨d, hd, hin⟩ := h.fromFragments.snoc it o hold
        refine ⟨d, hd, hin.1, hin.2.1, ?_⟩
        rw [Fragments.advance, if_pos hle, List.getElem?_append_left hold]
        exact hin.2.2
      · refine ⟨it, by simp, by omega, by omega, ?_⟩
        rw [Fragments.advance, if_pos hle, List.getElem?_append_right (by omega), List.getElem?_drop]
        congr 1
        omega
    · rcases List.mem_append.mp hd with hd | hd
      · have hstart := hsorted d hd
        have hend := h.ends d hd (by omega)
        omega
      · rw [List.mem_singleton.mp hd] at hdle ⊢
        omega
  · rw [Fragments.advance, if_neg hle]
    refine ⟨h.fromFragments.snoc it, fun d hd hdle => ?_⟩
    rcases List.mem_append.mp hd with hd | hd
    · exact h.ends d hd hdle
    · rw [List.mem_singleton.mp hd] at hdle
      exact absurd hdle hle

theorem Collected.partialLoop (h : Collected before p) (hgrow : Growing p.length its)
    (hsorted : (before ++ its).Pairwise fun x y => x.2 ≤ y.2) (hsize : ∀ it ∈ its, it.1.length < 2 ^ 32) :
    Collected (before ++ its) (partialLoop p its).1 ∧ ∀ r ∈ (partialLoop p its).2, r.Inside := by
  induction its generalizing before p with
  | nil =>
      rw [List.append_nil]
      exact ⟨h, List.forall_mem_nil _⟩
  | cons it rest ih =>
      obtain ⟨hp, hit, hrest⟩ := hgrow
      obtain ⟨asked, hasked, heq⟩ := partialLoop_cons hp hit (hsize it List.mem_cons_self) rest
      have hbefore : ∀ d ∈ before, d.2 ≤ it.2 := fun d hd =>
        (List.pairwise_append.mp hsorted).2.2 d hd it List.mem_cons_self
      rw [← length_advance] at hrest
      rw [List.append_cons] at hsorted ⊢
      obtain ⟨hall, hinside⟩ := ih (h.advance hbefore) hrest hsorted fun d hd => hsize d (List.mem_cons_of_mem _ hd)
      rw [heq]
      refine ⟨hall, fun r hr => ?_⟩
      rcases List.mem_append.mp hr with hr | hr
      · exact hasked r hr
      · exact hinside r hr

/-! ## Complete sets -/

/-- On a set without a gap both loops do the same. -/
theorem assemble_eq_partialLoop (hgrow : Growing p.length its) (hgap : gapless p.length its = true)
    (hsize : ∀ it ∈ its, it.1.length < 2 ^ 32) : assemble p its = (partialLoop p its).1 := by
  induction its generalizing p with
  | nil => rfl
  | cons it rest ih =>
      obtain ⟨hp, hit, hrest⟩ := hgrow
      obtain ⟨asked, -, heq⟩ := partialLoop_cons hp hit (hsize it List.mem_cons_self) rest
      rw [gapless] at hgap
      split at hgap
      · cases hgap
      · next hle =>
          have hnext : gapless (advance p it).length rest = true := by
            cases rest with
            | nil => rfl
            | cons it' rest =>
                have hreach : reach p.length it < 2 ^ 16 := hrest.1
                rw [length_advance]
                unfold reach at hreach ⊢
                rw [if_pos (Nat.not_lt.mp hle)] at hreach ⊢
                rwa [Nat.mod_eq_of_lt (by omega), Nat.add_comm] at hgap
          rw [← length_advance] at hrest
          rw [heq]
          refine Eq.trans ?_ (ih hrest hnext fun d hd => hsize d (List.mem_cons_of_mem _ hd))
          rw [assemble]
          dsimp only
          rw [Nat.mod_eq_of_lt hp, if_pos (Nat.not_lt.mp hle)]
          rcases Nat.lt_or_eq_of_le (Nat.not_lt.mp hle) with hlt | hend
          · rw [if_pos hlt]
            split
            · rw [slice, List.take_of_length_le (Nat.le_of_eq List.length_drop)]
            · next hsmall =>
                rw [List.drop_eq_nil_of_le (Nat.not_lt.mp hsmall), List.append_nil]
          · rw [if_neg (by omega), hend, Nat.sub_self, List.drop_zero]

/-! ## When it is right -/

/-- A fragment that ends before the data already there is asked for what is not in it. -/
theorem growing_of_inside (hshort : Short its) (hp : p.length < 2 ^ 16) (hsize : ∀ it ∈ its, it.1.length < 2 ^ 32)
    (hinside : ∀ r ∈ (partialLoop p its).2, r.Inside) : Growing p.length its := by
  induction its generalizing p with
  | nil => trivial
  | cons it rest ih =>
      obtain ⟨hend, hends⟩ := List.forall_mem_cons.mp hshort
      have hit : it.2 < p.length → p.length ≤ it.2 + it.1.length := by
        intro hlt
        have hasked := hinside ⟨it.1.length, p.length - it.2, (it.1.length + 2 ^ 32 - (p.length - it.2)) % 2 ^ 32⟩ (by
          rw [partialLoop]
          dsimp only
          rw [Nat.mod_eq_of_lt hp, if_pos hlt]
          exact List.mem_cons_self)
        have hle : p.length - it.2 ≤ it.1.length := hasked.1
        omega
      obtain ⟨asked, -, heq⟩ := partialLoop_cons hp hit (hsize it List.mem_cons_self) rest
      have hreach : reach p.length it < 2 ^ 16 := by
        unfold reach
        split <;> omega
      refine ⟨hp, hit, ?_⟩
      rw [← length_advance] at hreach ⊢
      refine ih hends hreach (fun d hd => hsize d (List.mem_cons_of_mem _ hd)) fun r hr => hinside r ?_
      rw [heq]
      exact List.mem_append_right _ hr

theorem growing_of_later (h : ∀ it ∈ its, 0 < it.2) : Growing 0 its := by
  induction its with
  | nil => trivial
  | cons it rest ih =>
      obtain ⟨hit, hrest⟩ := List.forall_mem_cons.mp h
      have hreach : reach 0 it = 0 := if_neg (by omega)
      refine ⟨by decide, fun hlt => absurd hlt (Nat.not_lt_zero _), ?_⟩
      rw [hreach]
      exact ih hrest

/-- The packet is right when the fragments grow, and while all ends are below 2^16 only then. -/
theorem partialRight_iff (f : Ipv4PayloadHeaderPair) (fs : List Ipv4PayloadHeaderPair)
    (hsize : ∀ g ∈ f :: fs, g.1.length < 2 ^ 32) :
    (Growing 0 (gather (f :: fs)).fragments → PartialRight (gather (f :: fs))) ∧
      (Short (gather (f :: fs)).fragments → PartialRight (gather (f :: fs)) →
        Growing 0 (gather (f :: fs)).fragments) := by
  have hsorted := @gather_sorted (f :: fs)
  have hsize' : ∀ it ∈ (gather (f :: fs)).fragments, it.1.length < 2 ^ 32 := by
    intro it hit
    obtain ⟨g, hg, rfl⟩ := List.mem_map.mp (gather_perm.mem_iff.mp hit)
    exact hsize g hg
  generalize hgather : gather (f :: fs) = gathered at hsorted hsize' ⊢
  obtain ⟨more, its⟩ := gathered
  dsimp only at hsorted hsize' ⊢
  cases its with
  | nil =>
      have hperm := @gather_perm (f :: fs)
      rw [hgather] at hperm
      exact absurd hperm.symm (List.not_perm_nil_cons _ _ ∘ List.Perm.symm)
  | cons it rest =>
      by_cases hfirst : 0 < it.2
      · -- the beginning is missing
        have hlater : ∀ d ∈ it :: rest, 0 < d.2 := by
          intro d hd
          rcases List.mem_cons.mp hd with rfl | hd
          · exact hfirst
          · exact Nat.lt_of_lt_of_le hfirst ((List.pairwise_cons.mp hsorted).1 d hd)
        have hpacket : getPartialPacket ⟨more, it :: rest⟩ = ([], []) := if_pos hfirst
        refine ⟨fun _ => ⟨?_, ?_, ?_⟩, fun _ _ => growing_of_later hlater⟩
        · rw [hpacket]
          refine ⟨fromFragments_nil, ?_⟩
          rintro ⟨d, hd, hle, -⟩
          exact absurd (hlater d hd) (Nat.not_lt.mpr hle)
        · rw [hpacket]
          exact List.forall_mem_nil _
        · intro hentire
          rw [isEntire, gapless, if_pos hfirst, Bool.and_false] at hentire
          cases hentire
      · have hzero : it.2 = 0 := by omega
        have hpacket : getPartialPacket ⟨more, it :: rest⟩ = partialLoop [] (it :: rest) := if_neg hfirst
        constructor
        · intro hgrow
          have hnone : Collected [] [] := ⟨fromFragments_nil, List.forall_mem_nil _⟩
          obtain ⟨hall, hinside⟩ := hnone.partialLoop hgrow hsorted hsize'
          refine ⟨?_, ?_, fun hentire => ?_⟩
          · rw [hpacket]
            exact hall.longestPrefix
          · rw [hpacket]
            exact hinside
          · have hgap : gapless 0 (it :: rest) = true := by
              rw [isEntire, Bool.and_eq_true] at hentire
              exact hentire.2
            rw [hpacket, ← assemble_eq_partialLoop (p := []) hgrow hgap hsize']
            show assemble [] (it :: rest) = assemble it.1 rest
            rw [assemble, if_neg (by rw [hzero]; exact Nat.not_lt_zero _), List.nil_append]
        · intro hshort hright
          refine growing_of_inside (p := []) hshort (by decide) hsize' ?_
          rw [← hpacket]
          exact hright.inside

/-- Fragments with a header that says where they belong. -/
def fragmentAt (payload : List UInt8) (fragmentOffset : Nat) (moreFragments : Bool) : Ipv4PayloadHeaderPair :=
  (payload, ⟨0x0a010101, 0x0a010102, 7, 17, payload.length, fragmentOffset, moreFragments⟩)

/-- An overlap and a gap. -/
def overlapping : List Ipv4PayloadHeaderPair :=
  [fragmentAt (List.replicate 8 3) 32 false, fragmentAt (List.replicate 16 2) 8 true,
    fragmentAt (List.replicate 16 1) 0 true]

theorem partialRight_overlapping : PartialRight (gather overlapping) :=
  (partialRight_iff _ _ (by decide)).1 (by decide)

/-- The second fragment is inside the first one: its size comes out as 2^32 - 8. -/
def contained : List Ipv4PayloadHeaderPair := [fragmentAt (List.replicate 24 1) 0 true, fragmentAt (List.replicate 8 2) 8 true]

theorem not_partialRight_contained : ¬ PartialRight (gather contained) := by
  intro h
  have hasked : (⟨8, 16, 2 ^ 32 - 8⟩ : PieceRequest) ∈ (getPartialPacket (gather contained)).2 := by decide
  exact absurd (h.inside _ hasked).1 (by decide)

end Fragments

end Ns3Raft.Net
