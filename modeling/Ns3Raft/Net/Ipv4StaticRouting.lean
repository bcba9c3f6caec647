import Mathlib.Data.List.Find
import Mathlib.Data.Prod.Lex
import Ns3Raft.Lib.Scan

/-! # Static routes

The table of network routes and its lookup: the longest mask, and of routes with the same
mask length the one with the smallest metric. The scan stops at a route to a single host.
-/

namespace Ns3Raft.Net

/-! ## Addresses and masks -/

namespace Ipv4Mask

def getZero : UInt32 := 0

def getOnes : UInt32 := 0xffffffff

def isMatch (mask a b : UInt32) : Bool := a &&& mask == b &&& mask

/-- The loop of `GetPrefixLength`. -/
def prefixLoop : Nat → UInt32 → Nat → Nat
  | 0, _, tmp => tmp
  | fuel + 1, mask, tmp => if mask = 0 then tmp else prefixLoop fuel (mask <<< 1) (tmp + 1)

/-- The mask is zero after 32 shifts. -/
def getPrefixLength (mask : UInt32) : Nat := prefixLoop 32 mask 0

/-- Ones, and then zeros. -/
def ofLength (n : Nat) : UInt32 := UInt32.ofNat (2 ^ 32 - 2 ^ (32 - n))

def Contiguous (mask : UInt32) : Prop := ∃ n ≤ 32, mask = ofLength n

/-- The number of ones. -/
def ones (mask : UInt32) : Nat := (List.range 32).countP fun i => (mask.toNat).testBit i

end Ipv4Mask

def Ipv4Address.isLocalMulticast (address : UInt32) : Bool := address &&& 0xffffff00 == 0xe0000000

/-- `Ipv4RoutingTableEntry`. -/
structure Ipv4RoutingTableEntry where
  dest : UInt32
  destNetworkMask : UInt32
  gateway : UInt32
  interface : UInt32
  deriving DecidableEq, Repr

/-- `Ipv4Route`. -/
structure Ipv4Route (Dev : Type) where
  dest : UInt32
  source : UInt32
  gateway : UInt32
  outputDevice : Dev
  deriving DecidableEq

/-- What is asked of the node's IPv4 stack. -/
structure Ipv4 (Dev : Type) where
  getNetDevice : UInt32 → Dev
  sourceAddressSelection : UInt32 → UInt32 → UInt32
  /-- The first local address of the interface for a device. -/
  localAddress : Dev → UInt32

/-! ## The table -/

/-- A route and its metric. -/
abbrev NetworkRoute : Type := Ipv4RoutingTableEntry × UInt32

abbrev NetworkRoutes : Type := List NetworkRoute

namespace Ipv4StaticRouting

def addNetworkRouteTo (table : NetworkRoutes) (network networkMask nextHop interface metric : UInt32) : NetworkRoutes :=
  table ++ [(⟨network, networkMask, nextHop, interface⟩, metric)]

/-- Without a next hop. -/
def addNetworkRouteOn (table : NetworkRoutes) (network networkMask interface metric : UInt32) : NetworkRoutes :=
  table ++ [(⟨network, networkMask, 0, interface⟩, metric)]

def addHostRouteTo (table : NetworkRoutes) (dest nextHop interface metric : UInt32) : NetworkRoutes :=
  addNetworkRouteTo table dest Ipv4Mask.getOnes nextHop interface metric

def addHostRouteOn (table : NetworkRoutes) (dest interface metric : UInt32) : NetworkRoutes :=
  addNetworkRouteOn table dest Ipv4Mask.getOnes interface metric

def setDefaultRoute (table : NetworkRoutes) (nextHop interface metric : UInt32) : NetworkRoutes :=
  addNetworkRouteTo table 0 Ipv4Mask.getZero nextHop interface metric

/-- There has to be a route with the index. -/
def removeRoute (table : NetworkRoutes) (index : Nat) : Option NetworkRoutes :=
  if index < table.length then some (table.eraseIdx index) else none

/-! ## Lookup -/

variable {Dev : Type} [DecidableEq Dev] (ip : Ipv4 Dev)

/-- The variables of the loop. -/
structure Lookup (Dev : Type) where
  rtentry : Option (Ipv4Route Dev)
  longestMask : Nat
  shortestMetric : UInt32

def toRoute (route : Ipv4RoutingTableEntry) : Ipv4Route Dev where
  dest := route.dest
  source := ip.sourceAddressSelection route.interface route.dest
  gateway := route.gateway
  outputDevice := ip.getNetDevice route.interface

def lookupLoop (dest : UInt32) (oif : Option Dev) : Lookup Dev → NetworkRoutes → Lookup Dev
  | st, [] => st
  | st, (j, metric) :: rest =>
      let masklen := Ipv4Mask.getPrefixLength j.destNetworkMask
      if Ipv4Mask.isMatch j.destNetworkMask dest j.dest then
        if oif.any (· ≠ ip.getNetDevice j.interface) then lookupLoop dest oif st rest
        else if masklen < st.longestMask then lookupLoop dest oif st rest
        else
          let shortest := if st.longestMask < masklen then 0xffffffff else st.shortestMetric
          if shortest < metric then lookupLoop dest oif ⟨st.rtentry, masklen, shortest⟩ rest
          else
            let st := ⟨some (toRoute ip j), masklen, metric⟩
            if masklen = 32 then st else lookupLoop dest oif st rest
      else lookupLoop dest oif st rest

/-- `none` is the assertion that link-local multicast names an interface. -/
def lookupStatic (table : NetworkRoutes) (dest : UInt32) (oif : Option Dev) : Option (Option (Ipv4Route Dev)) :=
  if Ipv4Address.isLocalMulticast dest then
    oif.map fun oif => some ⟨dest, ip.localAddress oif, 0, oif⟩
  else some (lookupLoop ip dest oif ⟨none, 0, 0xffffffff⟩ table).rtentry

/-! ## Mask lengths -/

theorem prefixLoop_zero (fuel tmp : Nat) : Ipv4Mask.prefixLoop fuel 0 tmp = tmp := by
  cases fuel <;> rfl

theorem prefixLoop_add (k n : Nat) (mask : UInt32) (tmp : Nat) (h : mask.toNat * 2 ^ k % 2 ^ 32 = 0) :
    Ipv4Mask.prefixLoop (k + n) mask tmp = Ipv4Mask.prefixLoop k mask tmp := by
  induction k generalizing mask tmp with
  | zero =>
      have hlt := mask.toNat_lt
      have hzero : mask = 0 := by
        apply UInt32.toNat.inj
        show mask.toNat = 0
        omega
      rw [hzero, prefixLoop_zero, prefixLoop_zero]
  | succ k ih =>
      have hshift : (mask <<< 1).toNat = mask.toNat * 2 % 2 ^ 32 := by
        rw [UInt32.toNat_shiftLeft]
        simp [Nat.shiftLeft_eq]
      rw [Nat.add_right_comm, Ipv4Mask.prefixLoop, Ipv4Mask.prefixLoop]
      split
      · rfl
      · apply ih
        rw [hshift, Nat.mod_mul_mod, Nat.mul_assoc, ← Nat.pow_succ']
        exact h

/-- The loop of the source, which has no bound, ends by itself. -/
theorem prefixLoop_end (mask : UInt32) (n : Nat) :
    Ipv4Mask.prefixLoop (32 + n) mask 0 = Ipv4Mask.getPrefixLength mask :=
  prefixLoop_add 32 n mask 0 (Nat.mul_mod_left _ _)

theorem getPrefixLength_ofLength {n : Nat} (h : n ≤ 32) : Ipv4Mask.getPrefixLength (Ipv4Mask.ofLength n) = n := by
  have hall : ∀ n ∈ List.range 33, Ipv4Mask.getPrefixLength (Ipv4Mask.ofLength n) = n := by decide
  exact hall n (List.mem_range.mpr (by omega))

theorem ones_ofLength {n : Nat} (h : n ≤ 32) : Ipv4Mask.ones (Ipv4Mask.ofLength n) = n := by
  have hall : ∀ n ∈ List.range 33, Ipv4Mask.ones (Ipv4Mask.ofLength n) = n := by decide
  exact hall n (List.mem_range.mpr (by omega))

theorem getPrefixLength_eq_ones {mask : UInt32} (h : Ipv4Mask.Contiguous mask) :
    Ipv4Mask.getPrefixLength mask = Ipv4Mask.ones mask := by
  obtain ⟨n, hn, rfl⟩ := h
  rw [getPrefixLength_ofLength hn, ones_ofLength hn]

/-! ## The scan -/

variable {ip} {dest : UInt32} {oif : Option Dev} {table : NetworkRoutes}

def maskLength (x : NetworkRoute) : Nat := Ipv4Mask.getPrefixLength x.1.destNetworkMask

/-- A longer mask first, and then a smaller metric. -/
def rank (x : NetworkRoute) : Nat ×ₗ Natᵒᵈ := toLex (maskLength x, OrderDual.toDual x.2.toNat)

theorem rank_le_iff {x y : NetworkRoute} : rank x ≤ rank y ↔
    maskLength x < maskLength y ∨ maskLength x = maskLength y ∧ y.2 ≤ x.2 := by
  rw [rank, rank, Prod.Lex.toLex_le_toLex]
  rfl

/-- The entry matches the destination, on the device if there is one. -/
def usable (ip : Ipv4 Dev) (dest : UInt32) (oif : Option Dev) (x : NetworkRoute) : Bool :=
  Ipv4Mask.isMatch x.1.destNetworkMask dest x.1.dest && !oif.any (· ≠ ip.getNetDevice x.1.interface)

def isHost (x : NetworkRoute) : Bool := maskLength x == 32

/-- The variables when `b` is the best entry so far. -/
def lookupOf (ip : Ipv4 Dev) (b : Option NetworkRoute) : Lookup Dev where
  rtentry := b.map fun x => toRoute ip x.1
  longestMask := (b.map maskLength).getD 0
  shortestMetric := (b.map Prod.snd).getD 0xffffffff

theorem le_maxMetric (metric : UInt32) : ¬ (0xffffffff : UInt32) < metric := by
  have hlt := metric.toNat_lt
  rw [UInt32.lt_iff_toNat_lt]
  show ¬ (4294967295 < metric.toNat)
  omega

theorem prefixLoop_le (fuel : Nat) (mask : UInt32) (tmp : Nat) : Ipv4Mask.prefixLoop fuel mask tmp ≤ tmp + fuel := by
  induction fuel generalizing mask tmp with
  | zero => exact Nat.le_refl tmp
  | succ fuel ih =>
      rw [Ipv4Mask.prefixLoop]
      split
      · omega
      · have hle := ih (mask <<< 1) (tmp + 1)
        omega

theorem maskLength_le (x : NetworkRoute) : maskLength x ≤ 32 :=
  Nat.le_trans (prefixLoop_le 32 _ 0) (by omega)

theorem maskLength_lt {x : NetworkRoute} (h : isHost x = false) : maskLength x < 32 := by
  have hle := maskLength_le x
  have hne : maskLength x ≠ 32 := by simpa [isHost] using h
  omega

theorem better_host {b : Option NetworkRoute} {x : NetworkRoute} (hb : ∀ y ∈ b, isHost y = false) (hx : isHost x = true) :
    Scan.better rank b x = some x := by
  cases b with
  | none => rfl
  | some y =>
      have hlt := maskLength_lt (hb y rfl)
      have hlen : maskLength x = 32 := by simpa [isHost] using hx
      exact if_pos (rank_le_iff.mpr (.inl (by omega)))

/-- The loop at an entry it may use. -/
theorem lookupLoop_cons (st : Lookup Dev) {x : NetworkRoute} (hx : usable ip dest oif x = true) (rest : NetworkRoutes) :
    lookupLoop ip dest oif st (x :: rest) =
      if maskLength x < st.longestMask then lookupLoop ip dest oif st rest
      else
        let shortest := if st.longestMask < maskLength x then 0xffffffff else st.shortestMetric
        if shortest < x.2 then lookupLoop ip dest oif ⟨st.rtentry, maskLength x, shortest⟩ rest
        else if maskLength x = 32 then lookupOf ip (some x) else lookupLoop ip dest oif (lookupOf ip (some x)) rest := by
  obtain ⟨hmatch, hdev⟩ := Bool.and_eq_true_iff.mp hx
  rw [Bool.not_eq_true'] at hdev
  rw [lookupLoop]
  dsimp only
  rw [if_pos hmatch, hdev, if_neg Bool.false_ne_true]
  rfl

/-- There it keeps the better one of the two. -/
theorem lookupLoop_usable (b : Option NetworkRoute) {x : NetworkRoute} (hx : usable ip dest oif x = true)
    (rest : NetworkRoutes) (hb : ∀ y ∈ b, isHost y = false) :
    lookupLoop ip dest oif (lookupOf ip b) (x :: rest) =
      if isHost x then lookupOf ip (some x) else lookupLoop ip dest oif (lookupOf ip (Scan.better rank b x)) rest := by
  have hhost : isHost x = true ↔ maskLength x = 32 := by simp [isHost]
  rw [lookupLoop_cons _ hx]
  simp only [hhost]
  cases b with
  | none =>
      have hlong : (lookupOf ip none).longestMask = 0 := rfl
      have hshort : (lookupOf ip none).shortestMetric = 0xffffffff := rfl
      rw [hlong, hshort, if_neg (Nat.not_lt_zero _), ite_self, if_neg (le_maxMetric _)]
      rfl
  | some y =>
      have hlt := maskLength_lt (hb y rfl)
      have hlong : (lookupOf ip (some y)).longestMask = maskLength y := rfl
      have hshort : (lookupOf ip (some y)).shortestMetric = y.2 := rfl
      have hbetter : Scan.better rank (some y) x = if rank y ≤ rank x then some x else some y := rfl
      rw [hlong, hshort, hbetter]
      simp only [rank_le_iff]
      rcases Nat.lt_trichotomy (maskLength x) (maskLength y) with hless | hsame | hmore
      · rw [if_pos hless, if_neg (by omega : ¬ maskLength x = 32), if_neg (by omega)]
      · rw [if_neg (by omega), if_neg (by omega : ¬ maskLength y < maskLength x), if_neg (by omega : ¬ maskLength x = 32),
          if_neg (by omega : ¬ maskLength x = 32)]
        by_cases hmetric : y.2 < x.2
        · have hworse : ¬ (maskLength y < maskLength x ∨ maskLength y = maskLength x ∧ x.2 ≤ y.2) := by
            rintro (hlen | ⟨-, hle⟩)
            · omega
            · exact absurd hmetric (UInt32.not_lt.mpr hle)
          rw [if_pos hmetric, if_neg hworse, hsame]
          rfl
        · rw [if_neg hmetric, if_pos (.inr ⟨hsame.symm, UInt32.not_lt.mp hmetric⟩)]
      · have hbest : maskLength y < maskLength x ∨ maskLength y = maskLength x ∧ x.2 ≤ y.2 := .inl hmore
        rw [if_neg (by omega), if_pos hmore, if_neg (le_maxMetric _), if_pos hbest]

/-- What it does not use it leaves. -/
theorem lookupLoop_other (st : Lookup Dev) {x : NetworkRoute} (hx : usable ip dest oif x = false)
    (rest : NetworkRoutes) : lookupLoop ip dest oif st (x :: rest) = lookupLoop ip dest oif st rest := by
  rw [lookupLoop]
  dsimp only
  by_cases hmatch : Ipv4Mask.isMatch x.1.destNetworkMask dest x.1.dest = true
  · rw [usable, hmatch, Bool.true_and, Bool.not_eq_false'] at hx
    rw [if_pos hmatch, if_pos hx]
  · rw [if_neg hmatch]

theorem lookupLoop_eq (b : Option NetworkRoute) (hb : ∀ y ∈ b, isHost y = false) :
    lookupLoop ip dest oif (lookupOf ip b) table =
      lookupOf ip ((Scan.upTo isHost (table.filter (usable ip dest oif))).foldl (Scan.better rank) b) := by
  induction table generalizing b with
  | nil => rfl
  | cons x rest ih =>
      by_cases hx : usable ip dest oif x = true
      · rw [lookupLoop_usable b hx rest hb, List.filter_cons_of_pos hx, Scan.upTo]
        by_cases hhost : isHost x = true
        · rw [if_pos hhost, if_pos hhost, List.foldl_cons, List.foldl_nil, better_host hb hhost]
        · rw [if_neg hhost, if_neg hhost, List.foldl_cons]
          refine ih _ fun y hy => ?_
          rcases Scan.better_mem hy with rfl | hy
          · exact Bool.not_eq_true _ ▸ hhost
          · exact hb y hy
      · rw [lookupLoop_other _ (Bool.not_eq_true _ ▸ hx), List.filter_cons_of_neg hx, ih b hb]

/-- The scan of the table keeps the best entry that it comes to. -/
theorem lookupStatic_eq (hdest : Ipv4Address.isLocalMulticast dest = false) :
    lookupStatic ip table dest oif =
      some ((Scan.best rank (Scan.upTo isHost (table.filter (usable ip dest oif)))).map fun x => toRoute ip x.1) := by
  unfold lookupStatic
  rw [if_neg (by rw [hdest]; exact Bool.false_ne_true)]
  have hloop : lookupLoop ip dest oif (lookupOf ip none) table = lookupOf ip _ := lookupLoop_eq none nofun
  exact congrArg (fun st : Lookup Dev => some st.rtentry) hloop

/-! ## Tables -/

/-- What is done to a table. -/
inductive TableOp where
  | addNetworkRouteTo (network networkMask nextHop interface metric : UInt32)
  | addNetworkRouteOn (network networkMask interface metric : UInt32)
  | addHostRouteTo (dest nextHop interface metric : UInt32)
  | addHostRouteOn (dest interface metric : UInt32)
  | setDefaultRoute (nextHop interface metric : UInt32)
  | removeRoute (index : Nat)

def apply (table : NetworkRoutes) : TableOp → Option NetworkRoutes
  | .addNetworkRouteTo network mask nextHop interface metric =>
      some (addNetworkRouteTo table network mask nextHop interface metric)
  | .addNetworkRouteOn network mask interface metric => some (addNetworkRouteOn table network mask interface metric)
  | .addHostRouteTo dest nextHop interface metric => some (addHostRouteTo table dest nextHop interface metric)
  | .addHostRouteOn dest interface metric => some (addHostRouteOn table dest interface metric)
  | .setDefaultRoute nextHop interface metric => some (setDefaultRoute table nextHop interface metric)
  | .removeRoute index => removeRoute table index

def run : NetworkRoutes → List TableOp → Option NetworkRoutes
  | table, [] => some table
  | table, op :: ops => (apply table op).bind fun table => run table ops

/-- The masks that are asked for are contiguous. -/
def TableOp.Masked : TableOp → Prop
  | .addNetworkRouteTo _ mask _ _ _ => Ipv4Mask.Contiguous mask
  | .addNetworkRouteOn _ mask _ _ => Ipv4Mask.Contiguous mask
  | _ => True

def AllMasked (table : NetworkRoutes) : Prop := ∀ x ∈ table, Ipv4Mask.Contiguous x.1.destNetworkMask

theorem contiguous_getOnes : Ipv4Mask.Contiguous Ipv4Mask.getOnes := ⟨32, by decide, by decide⟩

theorem contiguous_getZero : Ipv4Mask.Contiguous Ipv4Mask.getZero := ⟨0, by decide, by decide⟩

theorem AllMasked.snoc (h : AllMasked table) {x : NetworkRoute} (hx : Ipv4Mask.Contiguous x.1.destNetworkMask) :
    AllMasked (table ++ [x]) := by
  intro y hy
  rcases List.mem_append.mp hy with hy | hy
  · exact h y hy
  · rw [List.mem_singleton.mp hy]
    exact hx

theorem AllMasked.apply {table' : NetworkRoutes} (h : AllMasked table) {op : TableOp} (hop : op.Masked)
    (happly : apply table op = some table') : AllMasked table' := by
  cases op with
  | removeRoute index =>
      change (if index < table.length then some (table.eraseIdx index) else none) = some table' at happly
      split at happly
      · obtain rfl := Option.some.inj happly
        exact fun x hx => h x (List.mem_of_mem_eraseIdx hx)
      · cases happly
  | addNetworkRouteTo => exact Option.some.inj happly ▸ h.snoc hop
  | addNetworkRouteOn => exact Option.some.inj happly ▸ h.snoc hop
  | addHostRouteTo => exact Option.some.inj happly ▸ h.snoc contiguous_getOnes
  | addHostRouteOn => exact Option.some.inj happly ▸ h.snoc contiguous_getOnes
  | setDefaultRoute => exact Option.some.inj happly ▸ h.snoc contiguous_getZero

theorem AllMasked.run {table' : NetworkRoutes} (h : AllMasked table) {ops : List TableOp} (hops : ∀ op ∈ ops, op.Masked)
    (hrun : run table ops = some table') : AllMasked table' := by
  induction ops generalizing table with
  | nil => exact Option.some.inj hrun ▸ h
  | cons op ops ih =>
      obtain ⟨mid, happly, hrest⟩ := Option.bind_eq_some_iff.mp hrun
      exact ih (h.apply (hops op List.mem_cons_self) happly) (fun o ho => hops o (List.mem_cons_of_mem _ ho)) hrest

/-! ## The longest match -/

/-- The mask has this many ones, and nothing that matches has more, or as many and a smaller metric. -/
def Chosen (ip : Ipv4 Dev) (table : NetworkRoutes) (dest : UInt32) (oif : Option Dev) (x : NetworkRoute) : Prop :=
  x ∈ table ∧ usable ip dest oif x = true ∧ ∀ y ∈ table, usable ip dest oif y = true →
    Ipv4Mask.ones y.1.destNetworkMask ≤ Ipv4Mask.ones x.1.destNetworkMask ∧
      (Ipv4Mask.ones y.1.destNetworkMask = Ipv4Mask.ones x.1.destNetworkMask → x.2 ≤ y.2)

/-- There is no route when nothing matches, and else the route of an entry that is chosen. -/
def LongestMatch (ip : Ipv4 Dev) (table : NetworkRoutes) (dest : UInt32) (oif : Option Dev) :
    Option (Option (Ipv4Route Dev)) → Prop
  | none => False
  | some none => ∀ x ∈ table, usable ip dest oif x = false
  | some (some route) => ∃ x, Chosen ip table dest oif x ∧ route = toRoute ip x.1

/-- The first host route that matches leads where one with the least metric leads. -/
def FirstHostBest (ip : Ipv4 Dev) (table : NetworkRoutes) (dest : UInt32) (oif : Option Dev) : Prop :=
  ∀ first, (table.filter (usable ip dest oif)).find? (fun x => x.1.destNetworkMask = Ipv4Mask.getOnes) = some first →
    ∃ x ∈ table, usable ip dest oif x = true ∧ x.1.destNetworkMask = Ipv4Mask.getOnes ∧
      toRoute ip x.1 = toRoute ip first.1 ∧
      ∀ y ∈ table, usable ip dest oif y = true → y.1.destNetworkMask = Ipv4Mask.getOnes → x.2 ≤ y.2

theorem chosen_iff (hmask : AllMasked table) {x : NetworkRoute} : Chosen ip table dest oif x ↔
    x ∈ table.filter (usable ip dest oif) ∧ ∀ y ∈ table.filter (usable ip dest oif), rank y ≤ rank x := by
  have hlen {y : NetworkRoute} (hy : y ∈ table) : Ipv4Mask.ones y.1.destNetworkMask = maskLength y :=
    (getPrefixLength_eq_ones (hmask y hy)).symm
  have hrank {x y : NetworkRoute} : rank y ≤ rank x ↔
      maskLength y ≤ maskLength x ∧ (maskLength y = maskLength x → x.2 ≤ y.2) := by
    rw [rank_le_iff]
    constructor
    · rintro (hlt | ⟨heq, hle⟩)
      · exact ⟨by omega, fun heq => by omega⟩
      · exact ⟨by omega, fun _ => hle⟩
    · rintro ⟨hle, hmetric⟩
      rcases Nat.lt_or_eq_of_le hle with hlt | heq
      · exact .inl hlt
      · exact .inr ⟨heq, hmetric heq⟩
  simp only [Chosen, List.mem_filter, hrank, and_imp, and_assoc]
  refine and_congr_right fun hx => and_congr_right fun _ => forall₂_congr fun y hy => ?_
  rw [hlen hx, hlen hy]

theorem isHost_iff (hmask : AllMasked table) {x : NetworkRoute} (hx : x ∈ table) :
    isHost x = true ↔ x.1.destNetworkMask = Ipv4Mask.getOnes := by
  obtain ⟨n, hn, heq⟩ := hmask x hx
  have hones : Ipv4Mask.getOnes = Ipv4Mask.ofLength 32 := by decide
  have hlen : maskLength x = n := by rw [maskLength, heq, getPrefixLength_ofLength hn]
  rw [isHost, hlen, beq_iff_eq, heq, hones]
  constructor
  · rintro rfl
    rfl
  · intro hsame
    have hsame' := congrArg Ipv4Mask.getPrefixLength hsame
    rwa [getPrefixLength_ofLength hn, getPrefixLength_ofLength (by omega)] at hsame'

/-- The lookup is a longest match exactly when the first host route is good enough. -/
theorem lookupStatic_iff (ip : Ipv4 Dev) (ops : List TableOp) (hops : ∀ op ∈ ops, op.Masked) (hrun : run [] ops = some table)
    (hdest : Ipv4Address.isLocalMulticast dest = false) (oif : Option Dev) :
    LongestMatch ip table dest oif (lookupStatic ip table dest oif) ↔ FirstHostBest ip table dest oif := by
  have hmask : AllMasked table := AllMasked.run (show AllMasked [] from nofun) hops hrun
  have hhost {x : NetworkRoute} (hx : x ∈ table.filter (usable ip dest oif)) :
      isHost x = true ↔ x.1.destNetworkMask = Ipv4Mask.getOnes := isHost_iff hmask (List.mem_filter.mp hx).1
  have hfind : (table.filter (usable ip dest oif)).find? (fun x => x.1.destNetworkMask = Ipv4Mask.getOnes) =
      (table.filter (usable ip dest oif)).find? isHost := by
    refine List.find?_congr fun x hx => ?_
    rw [Bool.eq_iff_iff, decide_eq_true_iff, hhost hx]
  rw [lookupStatic_eq hdest]
  unfold FirstHostBest
  rw [hfind]
  cases hfirst : (table.filter (usable ip dest oif)).find? isHost with
  | none =>
      rw [Scan.upTo_of_none isHost hfirst]
      refine iff_of_true ?_ nofun
      cases hbest : Scan.best rank (table.filter (usable ip dest oif)) with
      | none =>
          have hnil := Scan.best_eq_none_iff.mp hbest
          exact fun x hx => Bool.not_eq_true _ ▸ List.filter_eq_nil_iff.mp hnil x hx
      | some x => exact ⟨x, (chosen_iff hmask).mpr (Scan.best_spec hbest), rfl⟩
  | some first =>
      obtain ⟨before, hupTo, hbefore⟩ := Scan.upTo_of_some isHost hfirst
      have hmem : first ∈ table.filter (usable ip dest oif) := List.mem_of_find?_eq_some hfirst
      have htop : maskLength first = 32 := by simpa [isHost] using List.find?_some hfirst
      have hbest : Scan.best rank (before ++ [first]) = some first := by
        refine Scan.best_snoc_of_le fun z hz => rank_le_iff.mpr (.inl ?_)
        rw [htop]
        exact maskLength_lt (hbefore z hz).2
      rw [hupTo, hbest]
      constructor
      · -- the chosen entry is a host route, as the first one is
        rintro ⟨x, hx, hroute⟩ first' hfirst'
        obtain rfl := Option.some.inj hfirst'
        obtain ⟨hxmem, hxbest⟩ := (chosen_iff hmask).mp hx
        have hxtop : isHost x = true := by
          have hle := rank_le_iff.mp (hxbest first hmem)
          have hle' := maskLength_le x
          rw [isHost, beq_iff_eq]
          omega
        refine ⟨x, hx.1, hx.2.1, (hhost hxmem).mp hxtop, hroute.symm, fun y hy hyu hytop => ?_⟩
        have hymem := List.mem_filter.mpr ⟨hy, hyu⟩
        have hylen : maskLength y = 32 := by simpa [isHost] using (hhost hymem).mpr hytop
        have hxlen : maskLength x = 32 := by simpa [isHost] using hxtop
        rcases rank_le_iff.mp (hxbest y hymem) with hlt | ⟨-, hle⟩
        · omega
        · exact hle
      · intro h
        obtain ⟨x, hx, hxu, hxtop, hroute, hmin⟩ := h first rfl
        have hxmem := List.mem_filter.mpr ⟨hx, hxu⟩
        have hxlen : maskLength x = 32 := by simpa [isHost] using (hhost hxmem).mpr hxtop
        refine ⟨x, (chosen_iff hmask).mpr ⟨hxmem, fun y hymem => rank_le_iff.mpr ?_⟩, hroute.symm⟩
        have hle := maskLength_le y
        rcases Nat.lt_or_eq_of_le hle with hlt | hylen
        · exact .inl (by omega)
        · obtain ⟨hy, hyu⟩ := List.mem_filter.mp hymem
          have hytop : isHost y = true := by rw [isHost, hylen, beq_self_eq_true]
          exact .inr ⟨by omega, hmin y hy hyu ((hhost hymem).mp hytop)⟩

/-! ## Two host routes -/

/-- A stack with a device for each interface. -/
def plainIpv4 : Ipv4 Nat where
  getNetDevice interface := interface.toNat
  sourceAddressSelection interface _ := interface
  localAddress device := UInt32.ofNat device

/-- Host routes to 10.1.1.2 by two interfaces, and a route to its network. -/
def hostRoutes (firstMetric secondMetric : UInt32) : List TableOp :=
  [.addNetworkRouteOn 0x0a010100 0xffffff00 3 0, .addHostRouteOn 0x0a010102 1 firstMetric,
    .addHostRouteOn 0x0a010102 2 secondMetric]

def hostTable (firstMetric secondMetric : UInt32) : NetworkRoutes :=
  [(⟨0x0a010100, 0xffffff00, 0, 3⟩, 0), (⟨0x0a010102, 0xffffffff, 0, 1⟩, firstMetric),
    (⟨0x0a010102, 0xffffffff, 0, 2⟩, secondMetric)]

theorem hostRoutes_masked (m n : UInt32) : ∀ op ∈ hostRoutes m n, op.Masked := by
  intro op hop
  simp only [hostRoutes, List.mem_cons, List.not_mem_nil, or_false] at hop
  rcases hop with rfl | rfl | rfl
  · exact ⟨24, by decide, by decide⟩
  · trivial
  · trivial

theorem lookupStatic_iff_hostRoutes :
    LongestMatch plainIpv4 (hostTable 1 5) 0x0a010102 none (lookupStatic plainIpv4 (hostTable 1 5) 0x0a010102 none) :=
  (lookupStatic_iff plainIpv4 (hostRoutes 1 5) (hostRoutes_masked 1 5) rfl (by decide) none).mpr (by
    intro first hfirst
    obtain rfl : (⟨0x0a010102, 0xffffffff, 0, 1⟩, 1) = first := Option.some.inj (hfirst ▸ by decide)
    exact ⟨_, by decide, by decide, by decide, rfl, by decide⟩)

/-- The route with metric 5 is before the one with metric 1, and is taken. -/
theorem not_longestMatch_hostRoutes : run [] (hostRoutes 5 1) = some (hostTable 5 1) ∧
    ¬ LongestMatch plainIpv4 (hostTable 5 1) 0x0a010102 none (lookupStatic plainIpv4 (hostTable 5 1) 0x0a010102 none) := by
  refine ⟨rfl, ?_⟩
  have hlookup : lookupStatic plainIpv4 (hostTable 5 1) 0x0a010102 none = some (some ⟨0x0a010102, 1, 0, 1⟩) := by decide
  rw [hlookup]
  rintro ⟨x, ⟨hx, -, hmax⟩, hroute⟩
  simp only [hostTable, List.mem_cons, List.not_mem_nil, or_false] at hx
  rcases hx with rfl | rfl | rfl
  · exact absurd hroute (by decide)
  · have hle := (hmax (⟨0x0a010102, 0xffffffff, 0, 2⟩, 1) (by decide) (by decide)).2 (by decide)
    exact absurd hle (by decide)
  · exact absurd hroute (by decide)

end Ipv4StaticRouting

end Ns3Raft.Net
