import Mathlib.Data.List.Induction
import Ns3Raft.Lib.Run
import Ns3Raft.Net.Ipv4Fragmentation

/-! # Reassembly

Fragments are kept by the datagram they belong to, in the order of their offsets. The
flag that says whether more are to come is that of the fragment that starts last.
-/

namespace Ns3Raft.Net

open Slices Transition

/-! ## Fragments -/

/-- `Ipv4L3Protocol::Fragments`. -/
structure Fragments where
  moreFragment : Bool
  fragments : List (List UInt8 × Nat)
  deriving DecidableEq, Repr

namespace Fragments

def new : Fragments := ⟨false, []⟩

def insertFragment (fragment : List UInt8) (fragmentOffset : Nat) : List (List UInt8 × Nat) → List (List UInt8 × Nat)
  | [] => [(fragment, fragmentOffset)]
  | it :: rest =>
      if fragmentOffset < it.2 then (fragment, fragmentOffset) :: it :: rest
      else it :: insertFragment fragment fragmentOffset rest

def addFragment (fs : Fragments) (fragment : List UInt8) (fragmentOffset : Nat) (moreFragment : Bool) : Fragments where
  -- only at the end of the list
  moreFragment := if fs.fragments.all fun it => it.2 ≤ fragmentOffset then moreFragment else fs.moreFragment
  fragments := insertFragment fragment fragmentOffset fs.fragments

/-- The loop of `IsEntire`. -/
def gapless : Nat → List (List UInt8 × Nat) → Bool
  | _, [] => true
  | lastEndOffset, it :: rest =>
      if lastEndOffset < it.2 then false else gapless (max lastEndOffset ((it.1.length + it.2) % 2 ^ 16)) rest

def isEntire (fs : Fragments) : Bool :=
  !fs.moreFragment && decide (0 < fs.fragments.length) && gapless 0 fs.fragments

/-- The loop of `GetPacket`; what overlaps is skipped. -/
def assemble : List UInt8 → List (List UInt8 × Nat) → List UInt8
  | p, [] => p
  | p, it :: rest =>
      let lastEndOffset := p.length % 2 ^ 16
      if it.2 < lastEndOffset then
        let newStart := lastEndOffset - it.2
        if newStart < it.1.length then assemble (p ++ slice it.1 newStart (it.1.length - newStart)) rest
        else assemble p rest
      else assemble (p ++ it.1) rest

/-- There is a first fragment where it is called. -/
def getPacket (fs : Fragments) : List UInt8 :=
  match fs.fragments with
  | [] => []
  | it :: rest => assemble it.1 rest

end Fragments

/-! ## The protocol -/

/-- The address combination, and the identification with the protocol. -/
abbrev FragmentKey : Type := UInt64 × UInt32

def Ipv4Header.key (h : Ipv4Header) : FragmentKey :=
  (h.source.toUInt64 <<< 32 ||| h.destination.toUInt64, h.identification.toUInt32 <<< 16 ||| h.protocol.toUInt32)

/-- What `Ipv4L3Protocol` has of fragments, and the timers that run for them. -/
structure Ipv4Fragments where
  fragments : FragmentKey → Option Fragments
  fragmentsTimers : FragmentKey → Bool

namespace Ipv4Fragments

def new : Ipv4Fragments := ⟨fun _ => none, fun _ => false⟩

/-- `ProcessFragment`, with the packet where it is complete. -/
def processFragment (m : Ipv4Fragments) (packet : List UInt8) (ipHeader : Ipv4Header) :
    Option (List UInt8) × Ipv4Fragments :=
  let key := ipHeader.key
  let m :=
    match m.fragments key with
    | none =>
        { m with
          fragments := Function.update m.fragments key (some Fragments.new)
          fragmentsTimers := Function.update m.fragmentsTimers key true }
    | some _ => m
  let fragments :=
    ((m.fragments key).getD Fragments.new).addFragment packet ipHeader.fragmentOffset !ipHeader.isLastFragment
  if fragments.isEntire then
    (some fragments.getPacket,
      { fragments := Function.update m.fragments key none
        fragmentsTimers := Function.update m.fragmentsTimers key false })
  else (none, { m with fragments := Function.update m.fragments key (some fragments) })

end Ipv4Fragments

/-! ## Gathering -/

namespace Fragments

/-- The fragments after some have arrived, one after the other. -/
def gather (fs : List Ipv4PayloadHeaderPair) : Fragments :=
  fs.foldl (fun gathered f => gathered.addFragment f.1 f.2.fragmentOffset f.2.moreFragments) new

/-- The fragment that starts last, and arrived last among those. -/
def startsLast : Ipv4PayloadHeaderPair → List Ipv4PayloadHeaderPair → Ipv4PayloadHeaderPair
  | f, [] => f
  | f, g :: rest => startsLast (if f.2.fragmentOffset ≤ g.2.fragmentOffset then g else f) rest

variable {fs : List Ipv4PayloadHeaderPair} {f g : Ipv4PayloadHeaderPair} {p : List UInt8} {off o n : Nat}
  {its : List (List UInt8 × Nat)}

theorem insertFragment_perm : (insertFragment p off its).Perm ((p, off) :: its) := by
  induction its with
  | nil => exact List.Perm.refl _
  | cons it rest ih =>
      rw [insertFragment]
      split
      · exact List.Perm.refl _
      · exact (ih.cons it).trans (List.Perm.swap _ _ _)

theorem insertFragment_sorted (hs : its.Pairwise fun x y => x.2 ≤ y.2) :
    (insertFragment p off its).Pairwise fun x y => x.2 ≤ y.2 := by
  induction its with
  | nil => exact List.pairwise_singleton _ _
  | cons it rest ih =>
      obtain ⟨hfirst, hrest⟩ := List.pairwise_cons.mp hs
      rw [insertFragment]
      split
      · next hlt =>
          refine List.pairwise_cons.mpr ⟨fun x hx => ?_, hs⟩
          rcases List.mem_cons.mp hx with rfl | hx
          · exact Nat.le_of_lt hlt
          · exact Nat.le_trans (Nat.le_of_lt hlt) (hfirst x hx)
      · next hge =>
          refine List.pairwise_cons.mpr ⟨fun x hx => ?_, ih hrest⟩
          rcases List.mem_cons.mp (insertFragment_perm.mem_iff.mp hx) with rfl | hx
          · exact Nat.not_lt.mp hge
          · exact hfirst x hx

theorem gather_snoc : gather (fs ++ [f]) = (gather fs).addFragment f.1 f.2.fragmentOffset f.2.moreFragments := by
  rw [gather, List.foldl_append]
  rfl

theorem startsLast_snoc : startsLast f (fs ++ [g]) =
    if (startsLast f fs).2.fragmentOffset ≤ g.2.fragmentOffset then g else startsLast f fs := by
  induction fs generalizing f with
  | nil => rfl
  | cons h rest ih => exact ih

theorem gather_perm : (gather fs).fragments.Perm (fs.map fun f => (f.1, f.2.fragmentOffset)) := by
  induction fs using List.reverseRecOn with
  | nil => exact List.Perm.refl _
  | append_singleton fs f ih =>
      rw [gather_snoc, List.map_append]
      exact (insertFragment_perm.trans (ih.cons _)).trans (List.perm_append_singleton _ _).symm

theorem gather_sorted : (gather fs).fragments.Pairwise fun x y => x.2 ≤ y.2 := by
  induction fs using List.reverseRecOn with
  | nil => exact List.Pairwise.nil
  | append_singleton fs f ih =>
      rw [gather_snoc]
      exact insertFragment_sorted ih

theorem startsLast_spec (f : Ipv4PayloadHeaderPair) (fs : List Ipv4PayloadHeaderPair) :
    startsLast f fs ∈ f :: fs ∧
    ∀ g ∈ f :: fs, g.2.fragmentOffset ≤ (startsLast f fs).2.fragmentOffset := by
  induction fs using List.reverseRecOn with
  | nil => exact ⟨List.mem_cons_self, List.forall_mem_singleton.mpr (Nat.le_refl _)⟩
  | append_singleton fs g ih =>
      obtain ⟨hmem, hle⟩ := ih
      rw [startsLast_snoc, ← List.cons_append]
      split
      · next hlast =>
          refine ⟨List.mem_append_right _ List.mem_cons_self, fun x hx => ?_⟩
          rcases List.mem_append.mp hx with hx | hx
          · exact Nat.le_trans (hle x hx) hlast
          · exact Nat.le_of_eq (congrArg (fun x => x.2.fragmentOffset) (List.mem_singleton.mp hx))
      · next hlast =>
          refine ⟨List.mem_append_left _ hmem, fun x hx => ?_⟩
          rcases List.mem_append.mp hx with hx | hx
          · exact hle x hx
          · rw [List.mem_singleton.mp hx]
            exact Nat.le_of_lt (Nat.not_le.mp hlast)

/-- The flag is that of the fragment that starts last. -/
theorem gather_moreFragment : (gather (f :: fs)).moreFragment = (startsLast f fs).2.moreFragments := by
  induction fs using List.reverseRecOn with
  | nil => rfl
  | append_singleton fs g ih =>
      obtain ⟨hmem, hle⟩ := startsLast_spec f fs
      have hall : ((gather (f :: fs)).fragments.all fun it => it.2 ≤ g.2.fragmentOffset) =
          decide ((startsLast f fs).2.fragmentOffset ≤ g.2.fragmentOffset) := by
        rw [Bool.eq_iff_iff, List.all_eq_true, decide_eq_true_eq]
        constructor
        · intro h
          exact of_decide_eq_true (h _ (gather_perm.mem_iff.mpr (List.mem_map_of_mem hmem)))
        · intro h it hit
          obtain ⟨x, hx, rfl⟩ := List.mem_map.mp (gather_perm.mem_iff.mp hit)
          exact decide_eq_true (Nat.le_trans (hle x hx) h)
      rw [← List.cons_append, gather_snoc, startsLast_snoc, addFragment, hall, ih]
      by_cases hlast : (startsLast f fs).2.fragmentOffset ≤ g.2.fragmentOffset
      · simp only [hlast, decide_true, if_true]
      · simp only [hlast, decide_false, Bool.false_eq_true, if_false]

/-! ## Gaps -/

def Covered (its : List (List UInt8 × Nat)) (o : Nat) : Prop := ∃ it ∈ its, it.2 ≤ o ∧ o < it.2 + it.1.length

/-- The fragments end where a length of 16 bits can say. -/
def Short (its : List (List UInt8 × Nat)) : Prop := ∀ it ∈ its, it.2 + it.1.length < 2 ^ 16

/-- Without a gap all is there up to the end of any fragment. -/
theorem covered_of_gapless (hshort : Short its) (h : gapless n its) {it : List UInt8 × Nat} (hit : it ∈ its) (hle : n ≤ o)
    (hlt : o < it.2 + it.1.length) : Covered its o := by
  induction its generalizing n with
  | nil => cases hit
  | cons c rest ih =>
      obtain ⟨hc, hrest⟩ := List.forall_mem_cons.mp hshort
      rw [gapless, Nat.mod_eq_of_lt (by omega)] at h
      split at h
      · cases h
      · next hstart =>
          by_cases hin : o < c.2 + c.1.length
          · exact ⟨c, List.mem_cons_self, by omega, hin⟩
          · have hit' : it ∈ rest := by
              rcases List.mem_cons.mp hit with rfl | hit
              · omega
              · exact hit
            obtain ⟨d, hd, ho⟩ := ih hrest h hit' (by omega)
            exact ⟨d, List.mem_cons_of_mem _ hd, ho⟩

/-- When all is there up to `N`, fragments that start before it leave no gap. -/
theorem gapless_of_covered {N : Nat} (hshort : Short its) (hsorted : its.Pairwise fun x y => x.2 ≤ y.2)
    (hstart : ∀ it ∈ its, it.2 < N) (hall : ∀ o, n ≤ o → o < N → Covered its o) : gapless n its := by
  induction its generalizing n with
  | nil => rfl
  | cons c rest ih =>
      obtain ⟨hc, hrest⟩ := List.forall_mem_cons.mp hshort
      obtain ⟨hfirst, hrest'⟩ := List.pairwise_cons.mp hsorted
      obtain ⟨hstartc, hstartr⟩ := List.forall_mem_cons.mp hstart
      rw [gapless, Nat.mod_eq_of_lt (by omega)]
      split
      · next hgap =>
          obtain ⟨d, hd, hle, hlt⟩ := hall n (Nat.le_refl _) (by omega)
          rcases List.mem_cons.mp hd with rfl | hd
          · omega
          · have := hfirst d hd
            omega
      · next hnext =>
          refine ih hrest hrest' hstartr fun o hle hlt => ?_
          obtain ⟨d, hd, hin⟩ := hall o (by omega) hlt
          rcases List.mem_cons.mp hd with rfl | hd
          · omega
          · exact ⟨d, hd, hin⟩

theorem take_append_slice (payload : List UInt8) (m k : Nat) : payload.take m ++ slice payload m k = payload.take (m + k) := by
  rw [List.take_add]
  rfl

/-- What the fragments give when they leave no gap: all of the payload up to where they end. -/
theorem assemble_eq (p payload : List UInt8) (hp : p = payload.take p.length) (hlen : payload.length < 2 ^ 16)
    (hits : ∀ it ∈ its, it.1 = slice payload it.2 it.1.length ∧ it.2 + it.1.length ≤ payload.length)
    (h : gapless p.length its) :
    ∃ m, assemble p its = payload.take m ∧ p.length ≤ m ∧ ∀ it ∈ its, it.2 + it.1.length ≤ m := by
  induction its generalizing p with
  | nil => exact ⟨p.length, hp, Nat.le_refl _, fun it hit => by cases hit⟩
  | cons c rest ih =>
      obtain ⟨⟨hc, hend⟩, hrest⟩ := List.forall_mem_cons.mp hits
      have hple : p.length ≤ payload.length := by
        have := congrArg List.length hp
        rw [List.length_take] at this
        omega
      rw [gapless, Nat.mod_eq_of_lt (by omega)] at h
      split at h
      · cases h
      · next hstart =>
          -- the packet after this fragment, however it overlaps
          have hgoes : ∀ p' : List UInt8, p' = payload.take (max p.length (c.1.length + c.2)) →
              ∃ m, assemble p' rest = payload.take m ∧ p.length ≤ m ∧ ∀ it ∈ c :: rest, it.2 + it.1.length ≤ m := by
            intro p' hp'
            have hlen' : p'.length = max p.length (c.1.length + c.2) := by
              rw [hp', List.length_take]
              omega
            obtain ⟨m, heq, hle, hall⟩ := ih (p := p') (by rw [hlen']; exact hp') hrest (by rw [hlen']; exact h)
            exact ⟨m, heq, by omega, List.forall_mem_cons.mpr ⟨by omega, hall⟩⟩
          have happ : ∀ k, p ++ slice payload p.length k = payload.take (p.length + k) := fun k => by
            have := take_append_slice payload p.length k
            rwa [← hp] at this
          rw [assemble, Nat.mod_eq_of_lt (by omega)]
          dsimp only
          split
          · next hover =>
              split
              · next hnew =>
                  refine hgoes _ ?_
                  have hpart : slice (slice payload c.2 c.1.length) (p.length - c.2) (c.1.length - (p.length - c.2)) =
                      slice payload (c.2 + (p.length - c.2)) (c.1.length - (p.length - c.2)) := slice_slice (by omega)
                  rw [← hc, show c.2 + (p.length - c.2) = p.length by omega] at hpart
                  rw [hpart, happ]
                  congr 1
                  omega
              · next hold =>
                  refine hgoes _ ?_
                  rw [Nat.max_eq_left (by omega)]
                  exact hp
          · next hnext =>
              refine hgoes _ ?_
              have hpart : c.1 = slice payload p.length c.1.length := by
                rw [show p.length = c.2 by omega]
                exact hc
              rw [hpart, happ, ← hpart]
              congr 1
              omega

/-! ## The fragments of one datagram -/

variable {d : Datagram}

/-- All bytes of the datagram have arrived. -/
def Whole (d : Datagram) (fs : List Ipv4PayloadHeaderPair) : Prop :=
  ∀ o < d.payload.length, ∃ f ∈ fs, f.2.fragmentOffset ≤ o ∧ o < f.2.fragmentOffset + f.1.length

instance (d : Datagram) (fs : List Ipv4PayloadHeaderPair) : Decidable (Whole d fs) :=
  inferInstanceAs (Decidable (∀ o < d.payload.length, _))

theorem gather_short (hd : d.payload.length ≤ 65515) (hfs : ∀ f ∈ fs, d.Piece f) : Short (gather fs).fragments := by
  intro it hit
  obtain ⟨f, hf, rfl⟩ := List.mem_map.mp (gather_perm.mem_iff.mp hit)
  have := (hfs f hf).inside
  dsimp only
  omega

theorem covered_gather : Covered (gather fs).fragments o ↔
    ∃ f ∈ fs, f.2.fragmentOffset ≤ o ∧ o < f.2.fragmentOffset + f.1.length := by
  simp only [Covered, gather_perm.mem_iff, List.mem_map, exists_exists_and_eq_and]

/-- The fragments are entire when all bytes are there, and the one that starts last is the last one. -/
theorem isEntire_gather (hd : d.payload.length ≤ 65515) (hfs : ∀ g ∈ f :: fs, d.Piece g)
    (hne : d.payload ≠ []) :
    (gather (f :: fs)).isEntire = true ↔ Whole d (f :: fs) ∧ (startsLast f fs).2.moreFragments = false := by
  obtain ⟨hmem, hle⟩ := startsLast_spec f fs
  have hshort := gather_short hd hfs
  have hpos : 0 < (gather (f :: fs)).fragments.length := by
    rw [gather_perm.length_eq, List.length_map, List.length_cons]
    omega
  rw [isEntire, gather_moreFragment, Bool.and_eq_true, Bool.and_eq_true, Bool.not_eq_true', decide_eq_true_eq]
  constructor
  · rintro ⟨⟨hlast, -⟩, hgapless⟩
    have hend := (hfs _ hmem).more
    rw [hlast] at hend
    refine ⟨fun o ho => covered_gather.mp (covered_of_gapless hshort hgapless
      (gather_perm.mem_iff.mpr (List.mem_map_of_mem hmem)) (Nat.zero_le o) ?_), hlast⟩
    have := of_decide_eq_false hend.symm
    dsimp only
    omega
  · rintro ⟨hwhole, hlast⟩
    refine ⟨⟨hlast, hpos⟩, gapless_of_covered (N := d.payload.length) hshort gather_sorted (fun it hit => ?_) fun o _ ho =>
      covered_gather.mpr (hwhole o ho)⟩
    obtain ⟨g, hg, rfl⟩ := List.mem_map.mp (gather_perm.mem_iff.mp hit)
    have hpiece := hfs g hg
    have := hpiece.inside
    have := List.length_pos_iff.mpr (hpiece.nonempty hne)
    dsimp only
    omega

/-- The packet of fragments that are entire is the payload. -/
theorem getPacket_gather (hd : d.payload.length ≤ 65515) (hfs : ∀ g ∈ fs, d.Piece g) (h : (gather fs).isEntire)
    (hwhole : Whole d fs) : (gather fs).getPacket = d.payload := by
  have hits : ∀ it ∈ (gather fs).fragments, it.1 = slice d.payload it.2 it.1.length ∧
      it.2 + it.1.length ≤ d.payload.length := fun it hit => by
    obtain ⟨g, hg, rfl⟩ := List.mem_map.mp (gather_perm.mem_iff.mp hit)
    exact ⟨(hfs g hg).bytes, (hfs g hg).inside⟩
  have hshort := gather_short hd hfs
  have hcov : ∀ o < d.payload.length, Covered (gather fs).fragments o := fun o ho => covered_gather.mpr (hwhole o ho)
  rw [isEntire, Bool.and_eq_true] at h
  have hgapless := h.2
  rw [getPacket]
  cases hlist : (gather fs).fragments with
  | nil =>
      rw [hlist] at h
      simp at h
  | cons it rest =>
      rw [hlist] at hits hshort hgapless hcov
      obtain ⟨⟨hit, hend⟩, hrest⟩ := List.forall_mem_cons.mp hits
      obtain ⟨hs, -⟩ := List.forall_mem_cons.mp hshort
      rw [gapless, Nat.mod_eq_of_lt (by omega), Nat.zero_max] at hgapless
      split at hgapless
      · cases hgapless
      · next hstart =>
          have hzero : it.2 = 0 := by omega
          rw [hzero, Nat.add_zero] at hgapless
          obtain ⟨m, heq, hle, hall⟩ := assemble_eq it.1 d.payload
            (by conv_lhs => rw [hit, hzero, slice, List.drop_zero]) (by omega) hrest hgapless
          dsimp only
          rw [heq, List.take_of_length_le]
          by_contra hshortm
          obtain ⟨c, hc, -, hlt⟩ := hcov m (Nat.not_le.mp hshortm)
          rcases List.mem_cons.mp hc with rfl | hc
          · omega
          · have := hall c hc
            omega

end Fragments

/-! ## Keys -/

theorem addressCombination_toNat (a b : UInt32) :
    (a.toUInt64 <<< 32 ||| b.toUInt64).toNat = 2 ^ 32 * a.toNat + b.toNat := by
  have ha := a.toNat_lt
  have hb := b.toNat_lt
  rw [UInt64.toNat_or, UInt64.toNat_shiftLeft, UInt32.toNat_toUInt64, UInt32.toNat_toUInt64,
    Nat.two_pow_add_eq_or_of_lt hb, Nat.shiftLeft_eq]
  have hshift : (32 : UInt64).toNat % 64 = 32 := rfl
  rw [hshift, Nat.mod_eq_of_lt (by omega), Nat.mul_comm]

theorem idProto_toNat (a : UInt16) (b : UInt8) :
    (a.toUInt32 <<< 16 ||| b.toUInt32).toNat = 2 ^ 16 * a.toNat + b.toNat := by
  have ha := a.toNat_lt
  have hb := b.toNat_lt
  rw [UInt32.toNat_or, UInt32.toNat_shiftLeft, UInt16.toNat_toUInt32, UInt8.toNat_toUInt32,
    Nat.two_pow_add_eq_or_of_lt (show b.toNat < 2 ^ 16 by omega), Nat.shiftLeft_eq]
  have hshift : (16 : UInt32).toNat % 32 = 16 := rfl
  rw [hshift, Nat.mod_eq_of_lt (by omega), Nat.mul_comm]

/-- What tells datagrams apart. -/
def Datagram.identity (d : Datagram) : UInt32 × UInt32 × UInt16 × UInt8 :=
  (d.source, d.destination, d.identification, d.protocol)

/-- Datagrams that can be told apart have keys of their own. -/
theorem Datagram.identity_eq_of_key {d e : Datagram} (h : d.header.key = e.header.key) : d.identity = e.identity := by
  obtain ⟨haddress, hid⟩ := Prod.mk.inj h
  have haddress' := congrArg UInt64.toNat haddress
  have hid' := congrArg UInt32.toNat hid
  rw [addressCombination_toNat, addressCombination_toNat] at haddress'
  rw [idProto_toNat, idProto_toNat] at hid'
  have h₁ := d.destination.toNat_lt
  have h₂ := e.destination.toNat_lt
  have h₃ := d.protocol.toNat_lt
  have h₄ := e.protocol.toNat_lt
  dsimp only [header] at haddress' hid'
  have hs : d.source = e.source := UInt32.toNat_inj.mp (by omega)
  have hd : d.destination = e.destination := UInt32.toNat_inj.mp (by omega)
  have hi : d.identification = e.identification := UInt16.toNat_inj.mp (by omega)
  have hp : d.protocol = e.protocol := UInt8.toNat_inj.mp (by omega)
  rw [identity, identity, hs, hd, hi, hp]

namespace Ipv4Fragments

variable {m : Ipv4Fragments} {p : List UInt8} {h : Ipv4Header} {fs : List Ipv4PayloadHeaderPair}

/-- What `ProcessFragment` does to the fragments that have been gathered. -/
theorem processFragment_eq (hfs : (m.fragments h.key).getD Fragments.new = Fragments.gather fs) :
    (m.processFragment p h).1 =
        (if (Fragments.gather (fs ++ [(p, h)])).isEntire then some (Fragments.gather (fs ++ [(p, h)])).getPacket else none) ∧
      (m.processFragment p h).2.fragments = Function.update m.fragments h.key
        (if (Fragments.gather (fs ++ [(p, h)])).isEntire then none else some (Fragments.gather (fs ++ [(p, h)]))) := by
  have hgather : (Fragments.gather fs).addFragment p h.fragmentOffset (!h.isLastFragment) =
      Fragments.gather (fs ++ [(p, h)]) := by
    rw [Fragments.gather_snoc, Ipv4Header.isLastFragment, Bool.not_not]
  cases hm : m.fragments h.key with
  | none =>
      rw [hm, Option.getD_none] at hfs
      simp only [processFragment, hm, Function.update_self, Option.getD_some, hfs, hgather]
      split
      · exact ⟨rfl, Function.update_idem _ _ _⟩
      · exact ⟨rfl, Function.update_idem _ _ _⟩
  | some F =>
      rw [hm, Option.getD_some] at hfs
      simp only [processFragment, hm, Option.getD_some, hfs, hgather]
      split
      · exact ⟨rfl, rfl⟩
      · exact ⟨rfl, rfl⟩

end Ipv4Fragments

/-! ## Runs -/

/-- A node at the end of the path, what has arrived of each datagram since it was last complete, the answers of
`ProcessFragment` and what they should be. -/
structure Destination (ι : Type) where
  node : Ipv4Fragments
  arrived : ι → List Ipv4PayloadHeaderPair
  answers : List (Option (List UInt8))
  expected : List (Option (List UInt8))

namespace Destination

open Fragments

variable {ι : Type} {ds : ι → Datagram} {s : Destination ι}

def init : Destination ι := ⟨.new, fun _ => [], [], []⟩

/-- What arrives has travelled, and is a fragment for `LocalDeliver`. -/
def Asked (ds : ι → Datagram) (_ : Destination ι) (a : ι × Ipv4PayloadHeaderPair) : Prop :=
  (ds a.1).Travels a.2 ∧ (!a.2.2.isLastFragment || a.2.2.fragmentOffset != 0)

/-- When all bytes have arrived, the fragment that starts last is one without more fragments. -/
def LastStarts (ds : ι → Datagram) (s : Destination ι) (a : ι × Ipv4PayloadHeaderPair) : Prop :=
  Whole (ds a.1) (s.arrived a.1 ++ [a.2]) →
    ∀ f fs, s.arrived a.1 ++ [a.2] = f :: fs → (startsLast f fs).2.moreFragments = false

instance (ds : ι → Datagram) (s : Destination ι) (a : ι × Ipv4PayloadHeaderPair) : Decidable (LastStarts ds s a) :=
  match h : s.arrived a.1 ++ [a.2] with
  | [] => .isTrue fun _ f fs heq => by
      rw [h] at heq
      cases heq
  | g :: rest =>
      decidable_of_iff (Whole (ds a.1) (s.arrived a.1 ++ [a.2]) → (startsLast g rest).2.moreFragments = false)
        ⟨fun hlast hwhole f fs heq => by
            rw [h] at heq
            obtain ⟨rfl, rfl⟩ := List.cons.inj heq
            exact hlast hwhole,
          fun hlast hwhole => hlast hwhole g rest h⟩

/-- Every fragment is answered as it should be. -/
def Answered (s : Destination ι) : Prop := s.answers = s.expected

/-- The node has gathered what has arrived. -/
structure Synced (ds : ι → Datagram) (s : Destination ι) : Prop where
  answered : s.Answered
  gathered : ∀ i, s.node.fragments (ds i).header.key = if s.arrived i = [] then none else some (gather (s.arrived i))
  pieces : ∀ i, ∀ f ∈ s.arrived i, (ds i).Piece f

theorem Synced.getD_gather (hs : s.Synced ds) (i : ι) :
    (s.node.fragments (ds i).header.key).getD Fragments.new = gather (s.arrived i) := by
  rw [hs.gathered]
  split
  · next hnil => rw [hnil]; rfl
  · rfl

theorem payload_ne_nil {d : Datagram} {f : Ipv4PayloadHeaderPair} (hf : d.Piece f)
    (hfragment : (!f.2.isLastFragment || f.2.fragmentOffset != 0) = true) : d.payload ≠ [] := by
  intro hnil
  have hmore := hf.more
  have hinside := hf.inside
  rw [hnil, List.length_nil] at hmore hinside
  rw [Ipv4Header.isLastFragment, Bool.not_not, hmore, Bool.or_eq_true, decide_eq_true_eq, bne_iff_ne] at hfragment
  omega

/-- The fragments of the datagram are entire when they should be and the last one starts last. -/
theorem Synced.isEntire_iff (hs : s.Synced ds) (hds : ∀ i, (ds i).payload.length ≤ 65515) {i : ι}
    {f : Ipv4PayloadHeaderPair} (hf : (ds i).Piece f) (hne : (ds i).payload ≠ []) :
    (gather (s.arrived i ++ [f])).isEntire = true ↔
      Whole (ds i) (s.arrived i ++ [f]) ∧
        ∀ g fs, s.arrived i ++ [f] = g :: fs → (startsLast g fs).2.moreFragments = false := by
  have hpieces : ∀ g ∈ s.arrived i ++ [f], (ds i).Piece g := fun g hg => by
    rcases List.mem_append.mp hg with hg | hg
    · exact hs.pieces i g hg
    · exact List.mem_singleton.mp hg ▸ hf
  cases hfs : s.arrived i ++ [f] with
  | nil => simp at hfs
  | cons g fs =>
      rw [hfs] at hpieces
      rw [isEntire_gather (hds i) hpieces hne]
      refine and_congr_right fun _ => ⟨fun hlast g' fs' heq => ?_, fun hall => hall g fs rfl⟩
      obtain ⟨rfl, rfl⟩ := List.cons.inj heq
      exact hlast

theorem key_eq {d : Datagram} {f : Ipv4PayloadHeaderPair} (hf : d.Piece f) : f.2.key = d.header.key := by
  rw [hf.header]
  rfl

theorem Synced.pieces_snoc (hs : s.Synced ds) {i : ι} {f : Ipv4PayloadHeaderPair} (hf : (ds i).Piece f) :
    ∀ g ∈ s.arrived i ++ [f], (ds i).Piece g := fun g hg => by
  rcases List.mem_append.mp hg with hg | hg
  · exact hs.pieces i g hg
  · exact List.mem_singleton.mp hg ▸ hf

/-- What `ProcessFragment` does, by what has been gathered. -/
theorem Synced.processFragment (hs : s.Synced ds) {i : ι} {f : Ipv4PayloadHeaderPair} (hf : (ds i).Piece f) :
    (s.node.processFragment f.1 f.2).1 =
        (if (gather (s.arrived i ++ [f])).isEntire then some (gather (s.arrived i ++ [f])).getPacket else none) ∧
      (s.node.processFragment f.1 f.2).2.fragments = Function.update s.node.fragments (ds i).header.key
        (if (gather (s.arrived i ++ [f])).isEntire then none else some (gather (s.arrived i ++ [f]))) := by
  have hget : (s.node.fragments f.2.key).getD Fragments.new = gather (s.arrived i) := by
    rw [key_eq hf]
    exact hs.getD_gather i
  rw [← key_eq hf]
  exact Ipv4Fragments.processFragment_eq hget

variable [DecidableEq ι]

/-- A fragment of a datagram arrives. -/
def step (ds : ι → Datagram) (s : Destination ι) (a : ι × Ipv4PayloadHeaderPair) : Destination ι :=
  let fs := s.arrived a.1 ++ [a.2]
  { node := (s.node.processFragment a.2.1 a.2.2).2
    arrived := Function.update s.arrived a.1 (if Whole (ds a.1) fs then [] else fs)
    answers := s.answers ++ [(s.node.processFragment a.2.1 a.2.2).1]
    expected := s.expected ++ [if Whole (ds a.1) fs then some (ds a.1).payload else none] }

/-- What the step does when the last fragment starts last. -/
theorem Synced.step (hs : s.Synced ds) (hds : ∀ i, (ds i).payload.length ≤ 65515)
    (hids : Function.Injective fun i => (ds i).identity) {i : ι} {f : Ipv4PayloadHeaderPair}
    (hask : Asked ds s (i, f)) (hlast : LastStarts ds s (i, f)) : (step ds s (i, f)).Synced ds := by
  have hpiece := hask.1.piece (hds i)
  have hiff := (hs.isEntire_iff hds hpiece (payload_ne_nil hpiece hask.2)).trans (and_iff_left_of_imp hlast)
  have hpieces := hs.pieces_snoc hpiece
  have hcases : (s.node.processFragment f.1 f.2).1 =
        (if Whole (ds i) (s.arrived i ++ [f]) then some (ds i).payload else none) ∧
      (s.node.processFragment f.1 f.2).2.fragments = Function.update s.node.fragments (ds i).header.key
        (if Whole (ds i) (s.arrived i ++ [f]) then none else some (gather (s.arrived i ++ [f]))) := by
    obtain ⟨hanswer, hnode⟩ := hs.processFragment hpiece
    rw [hanswer, hnode]
    by_cases hwhole : Whole (ds i) (s.arrived i ++ [f])
    · have hentire := hiff.mpr hwhole
      rw [if_pos hentire, if_pos hentire, if_pos hwhole, if_pos hwhole,
        getPacket_gather (hds i) hpieces hentire hwhole]
      exact ⟨rfl, rfl⟩
    · have hentire := mt hiff.mp hwhole
      rw [if_neg hentire, if_neg hentire, if_neg hwhole, if_neg hwhole]
      exact ⟨rfl, rfl⟩
  obtain ⟨hanswer, hnode⟩ := hcases
  have harrived : ∀ j, (Destination.step ds s (i, f)).arrived j =
      if j = i then (if Whole (ds i) (s.arrived i ++ [f]) then [] else s.arrived i ++ [f]) else s.arrived j := fun j =>
    Function.update_apply _ _ _ j
  refine ⟨?_, fun j => ?_, fun j g hg => ?_⟩
  · exact congrArg₂ (· ++ ·) hs.answered (congrArg (fun a => [a]) hanswer)
  · rw [harrived]
    change (s.node.processFragment f.1 f.2).2.fragments _ = _
    rw [hnode]
    by_cases hj : j = i
    · subst hj
      rw [Function.update_self, if_pos rfl]
      split
      · rw [if_pos rfl]
      · rw [if_neg (by simp)]
    · have hkeys : (ds j).header.key ≠ (ds i).header.key := fun heq => hj (hids (Datagram.identity_eq_of_key heq))
      rw [Function.update_of_ne hkeys, if_neg hj]
      exact hs.gathered j
  · rw [harrived] at hg
    split at hg
    · next hj =>
        subst hj
        split at hg
        · cases hg
        · exact hpieces g hg
    · exact hs.pieces j g hg

/-- An answer that is right tells that the last fragment starts last. -/
theorem Synced.lastStarts (hs : s.Synced ds) (hds : ∀ i, (ds i).payload.length ≤ 65515) {i : ι}
    {f : Ipv4PayloadHeaderPair} (hask : Asked ds s (i, f)) (hanswered : (Destination.step ds s (i, f)).Answered) :
    LastStarts ds s (i, f) := by
  intro hwhole
  have hpiece := hask.1.piece (hds i)
  have hentire := hs.isEntire_iff hds hpiece (payload_ne_nil hpiece hask.2)
  have hanswers : s.answers ++ [(s.node.processFragment f.1 f.2).1] =
      s.expected ++ [if Whole (ds i) (s.arrived i ++ [f]) then some (ds i).payload else none] := hanswered
  have hbefore : s.answers = s.expected := hs.answered
  rw [hbefore, if_pos hwhole, (hs.processFragment hpiece).1] at hanswers
  have hsame := List.append_cancel_left hanswers
  by_cases he : (gather (s.arrived i ++ [f])).isEntire = true
  · exact (hentire.mp he).2
  · rw [if_neg he] at hsame
    cases hsame

omit [DecidableEq ι] in
theorem init_synced : (init : Destination ι).Synced ds :=
  ⟨rfl, fun _ => rfl, fun _ f hf => by cases hf⟩

/-- All that routers send fits the link and starts at a unit of 8 bytes; and a datagram is complete at its destination
when its last byte to arrive does, exactly as long as it then is a last fragment that starts last. -/
theorem datagrams_reassembled_iff (ds : ι → Datagram) (hds : ∀ i, (ds i).payload.length ≤ 65515)
    (hids : Function.Injective fun i => (ds i).identity) {tr : List (Destination ι × (ι × Ipv4PayloadHeaderPair))}
    {s : Destination ι} (hrun : Run (step ds) (Asked ds) init tr s) :
    (∀ i f mtu, (ds i).Travels f → 68 ≤ mtu →
      ∃ fs, sendRealOut f.1 f.2 mtu = some fs ∧
        ∀ g ∈ fs, g.2.payloadSize = g.1.length ∧ g.2.payloadSize + Ipv4Header.serializedSize ≤ mtu ∧
          g.2.fragmentOffset % 8 = 0) ∧
    (((∀ q ∈ tr, q.1.Answered) ∧ s.Answered) ↔ ∀ q ∈ tr, LastStarts ds q.1 q.2) := by
  refine ⟨fun i f mtu hf hmtu => ?_, ?_⟩
  · obtain ⟨fs, hsend, -, hall⟩ := (hf.piece (hds i)).sendRealOut (hds i) hmtu
    refine ⟨fs, hsend, fun g hg => ?_⟩
    obtain ⟨hpiece, hfits⟩ := hall g hg
    exact ⟨hpiece.payloadSize_eq, by rw [hpiece.payloadSize_eq]; exact hfits, hpiece.aligned⟩
  · exact hrun.kept_iff init_synced (fun s hs => hs.answered)
      (fun s a hs hask hlast => hs.step hds hids hask hlast) fun s a hs hask hanswered => hs.lastStarts hds hask hanswered

/-- Two datagrams between the same nodes. -/
def twoDatagrams (second : Bool) : Datagram :=
  ⟨1, 2, if second then 8 else 7, 17, if second then List.replicate 100 5 else (List.range 190).map UInt8.ofNat⟩

theorem twoDatagrams_length : ∀ i, (twoDatagrams i).payload.length ≤ 65515 := by decide +kernel

theorem twoDatagrams_identity : Function.Injective fun i => (twoDatagrams i).identity := by
  have hall : ∀ i j, (twoDatagrams i).identity = (twoDatagrams j).identity → i = j := by decide +kernel
  exact fun i j => hall i j

/-- The fragments of a datagram on a link, and what a smaller link makes of them. -/
def onLinks (second : Bool) : List Ipv4PayloadHeaderPair :=
  let fs := Datagram.forward (if second then 68 else 116) ((twoDatagrams second).payload, (twoDatagrams second).header)
  fs ++ fs.flatMap (Datagram.forward 68)

theorem onLinks_travels {second : Bool} {f : Ipv4PayloadHeaderPair} (hf : f ∈ onLinks second) :
    (twoDatagrams second).Travels f := by
  have hmtu : 68 ≤ if second then 68 else 116 := by split <;> omega
  rcases List.mem_append.mp hf with hf | hf
  · exact Datagram.Travels.sent.forward hmtu hf
  · obtain ⟨g, hg, hf⟩ := List.mem_flatMap.mp hf
    exact (Datagram.Travels.sent.forward hmtu hg).forward (Nat.le_refl _) hf

/-- The fragments with the given numbers. -/
def arrivals (order : List (Bool × Nat)) : List (Bool × Ipv4PayloadHeaderPair) :=
  order.filterMap fun a => (onLinks a.1)[a.2]?.map fun f => (a.1, f)

theorem run_arrivals (order : List (Bool × Nat))
    (hfragments : ∀ a ∈ arrivals order, (!a.2.2.isLastFragment || a.2.2.fragmentOffset != 0) = true) :
    Run (step twoDatagrams) (Asked twoDatagrams) init (trace (step twoDatagrams) init (arrivals order))
      ((arrivals order).foldl (step twoDatagrams) init) := by
  refine run_of_passes _ _ _ _ (passes_of_mem fun a ha s => ⟨?_, hfragments a ha⟩)
  obtain ⟨b, -, hb⟩ := List.mem_filterMap.mp ha
  obtain ⟨f, hf, rfl⟩ := Option.map_eq_some_iff.mp hb
  exact onLinks_travels (List.mem_of_getElem? hf)

/-- Both datagrams, with a duplicate, and parts of the first one from both links. -/
def mixedOrder : List (Bool × Nat) := [(true, 2), (false, 5), (false, 0), (true, 0), (true, 2), (false, 4), (true, 1)]

theorem datagrams_reassembled_iff_mixed :
    ((arrivals mixedOrder).foldl (step twoDatagrams) init).answers =
        [none, none, none, none, none, some (twoDatagrams false).payload, some (twoDatagrams true).payload] := by
  have hanswered : ((arrivals mixedOrder).foldl (step twoDatagrams) init).Answered :=
    ((datagrams_reassembled_iff twoDatagrams twoDatagrams_length twoDatagrams_identity
      (run_arrivals mixedOrder (by decide +kernel))).2.mpr (by decide +kernel)).2
  exact Eq.trans hanswered (by decide +kernel)

/-- The last fragment, a part of it that is not the last, and all else. -/
def overwritingOrder : List (Bool × Nat) := [(false, 1), (false, 4), (false, 0)]

/-- All bytes are there, and the datagram is not complete. -/
theorem not_datagrams_reassembled :
    ¬∀ (ds : Bool → Datagram) (tr : List (Destination Bool × (Bool × Ipv4PayloadHeaderPair))) (s : Destination Bool),
      (∀ i, (ds i).payload.length ≤ 65515) → (Function.Injective fun i => (ds i).identity) →
        Run (step ds) (Asked ds) init tr s → s.Answered := fun hall =>
  absurd
    (hall twoDatagrams _ _ twoDatagrams_length twoDatagrams_identity (run_arrivals overwritingOrder (by decide +kernel)))
    (by unfold Answered; decide +kernel)

end Destination

end Ns3Raft.Net
