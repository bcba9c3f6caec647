import Mathlib.Data.List.Induction
import Mathlib.Data.List.Nodup
import Mathlib.Data.List.Perm.Subperm
import Mathlib.Logic.Function.Basic

/-! # Lists with shared tails

Singly linked lists in one store, each with a root. A node counts the pointers that
lead to it, from roots and from other nodes, and lists may share a tail. A part of a
list that nothing else points into can be changed in place; a shared node is copied
or passed over.
-/

namespace SharedLists

structure Node (α : Type*) where
  next : Option Nat
  count : Nat
  val : α

/-- An address that is `none` is not allocated any more. -/
structure Store (α : Type*) where
  nodes : List (Option (Node α))
  roots : List (Option Nat)

/-- A place that holds a pointer. -/
inductive Link where
  | root (i : Nat)
  | next (a : Nat)
  deriving DecidableEq

namespace Store

variable {α : Type*}

def node (s : Store α) (a : Nat) : Option (Node α) := (s.nodes[a]?).join

def link (s : Store α) : Link → Option Nat
  | .root i => (s.roots[i]?).join
  | .next a => (s.node a).bind (·.next)

def update (s : Store α) (a : Nat) (f : Node α → Node α) : Store α :=
  { s with nodes := s.nodes.modify a (Option.map f) }

def setLink (s : Store α) : Link → Option Nat → Store α
  | .root i, p => { s with roots := s.roots.set i p }
  | .next a, p => s.update a fun n => { n with next := p }

def alloc (s : Store α) (n : Node α) : Store α := { s with nodes := s.nodes ++ [some n] }

def free (s : Store α) (a : Nat) : Store α := { s with nodes := s.nodes.set a none }

def incr (s : Store α) (a : Nat) : Store α := s.update a fun n => { n with count := n.count + 1 }

def decr (s : Store α) (a : Nat) : Store α := s.update a fun n => { n with count := n.count - 1 }

def incrTo (s : Store α) : Option Nat → Store α
  | none => s
  | some a => s.incr a

def addRoot (s : Store α) (p : Option Nat) : Store α := { s with roots := s.roots ++ [p] }

/-- The pointers in the nodes. -/
def outs (s : Store α) : List (Option Nat) := s.nodes.map fun n => n.bind (·.next)

/-- How many pointers lead to an address. -/
def refs (s : Store α) (a : Nat) : Nat := s.roots.count (some a) + s.outs.count (some a)

/-! ## Reading after writing -/

section
variable {s : Store α} {a b i : Nat} {p : Option Nat} {n : Node α} {f : Node α → Node α}

theorem node_update : (s.update a f).node b = if b = a then (s.node b).map f else s.node b := by
  simp only [node, update, List.getElem?_modify]
  by_cases h : b = a
  · rw [if_pos h]
    cases s.nodes[b]? with
    | none => rfl
    | some o => cases o <;> simp [h]
  · rw [if_neg h]
    cases s.nodes[b]? with
    | none => rfl
    | some o => simp [Ne.symm h]

theorem lt_of_node (h : s.node a = some n) : a < s.nodes.length := by
  by_contra hle
  simp [node, List.getElem?_eq_none (Nat.le_of_not_lt hle)] at h

theorem node_alloc : (s.alloc n).node b = if b = s.nodes.length then some n else s.node b := by
  simp only [node, alloc, List.getElem?_append]
  by_cases h : b < s.nodes.length
  · rw [if_pos h, if_neg (by omega)]
  · by_cases heq : b = s.nodes.length
    · subst heq
      simp
    · have hout : [some n][b - s.nodes.length]? = none := List.getElem?_eq_none (by simp; omega)
      simp [h, heq, hout]

theorem node_free : (s.free a).node b = if b = a then none else s.node b := by
  simp only [node, free, List.getElem?_set]
  by_cases h : a = b
  · subst h
    by_cases hlt : a < s.nodes.length
    · simp [hlt]
    · simp [hlt]
  · rw [if_neg h, if_neg (Ne.symm h)]

@[simp] theorem node_setLink_root : (s.setLink (.root i) p).node b = s.node b := rfl

@[simp] theorem node_addRoot : (s.addRoot p).node b = s.node b := rfl

theorem isSome_setLink {l : Link} : ((s.setLink l p).node b).isSome = (s.node b).isSome := by
  cases l with
  | root i => rfl
  | next a =>
      rw [setLink, node_update]
      split
      · simp
      · rfl

theorem isSome_update : ((s.update a f).node b).isSome = (s.node b).isSome := by
  rw [node_update]
  split
  · simp
  · rfl

theorem outs_update (hf : ∀ n, (f n).next = n.next) : (s.update a f).outs = s.outs := by
  refine List.ext_getElem? fun k => ?_
  simp only [outs, update, List.getElem?_map, List.getElem?_modify]
  cases s.nodes[k]? with
  | none => rfl
  | some o =>
      cases o with
      | none => by_cases h : a = k <;> simp [h]
      | some n => by_cases h : a = k <;> simp [h, hf]

theorem outs_setLink (h : s.node a = some n) : (s.setLink (.next a) p).outs = s.outs.set a p := by
  refine List.ext_getElem? fun k => ?_
  have hlt := lt_of_node h
  simp only [outs, setLink, update, List.getElem?_map, List.getElem?_modify, List.getElem?_set,
    List.length_map]
  by_cases hk : a = k
  · subst hk
    have hat : s.nodes[a] = some n := by
      simpa [node, List.getElem?_eq_getElem hlt] using h
    simp [hat, hlt]
  · simp [hk]

theorem outs_free : (s.free a).outs = s.outs.set a none := by
  simp [outs, free, List.map_set]

theorem outs_alloc : (s.alloc n).outs = s.outs ++ [n.next] := by
  simp [outs, alloc]

theorem outs_length : s.outs.length = s.nodes.length := by simp [outs]

theorem link_next : s.link (.next a) = (s.outs[a]?).join := by
  simp only [link, node, outs, List.getElem?_map]
  cases s.nodes[a]? with
  | none => rfl
  | some o => cases o <;> rfl

end

/-! ## Counting pointers -/

theorem count_set_add {l : List (Option Nat)} {i : Nat} (hi : i < l.length) (p : Option Nat) (x : Nat) :
    (l.set i p).count (some x) + (if (l[i]?).join = some x then 1 else 0) =
      l.count (some x) + (if p = some x then 1 else 0) := by
  have hmem : l[i] = some x → 0 < l.count (some x) := fun h =>
    List.count_pos_iff.mpr (h ▸ List.getElem_mem hi)
  rw [List.count_set hi, List.getElem?_eq_getElem hi]
  by_cases h : l[i] = some x
  · have := hmem h
    simp [h]
    split <;> omega
  · simp [h]

/-- The places that can hold a pointer. -/
def Valid (s : Store α) : Link → Prop
  | .root i => i < s.roots.length
  | .next a => (s.node a).isSome

section
variable {s : Store α} {l : Link} {p : Option Nat} {a b : Nat} {n : Node α}

theorem refs_setLink (h : s.Valid l) :
    (s.setLink l p).refs b + (if s.link l = some b then 1 else 0) =
      s.refs b + (if p = some b then 1 else 0) := by
  cases l with
  | root i =>
      have hcount : (s.roots.set i p).count (some b) + (if s.link (.root i) = some b then 1 else 0) =
          s.roots.count (some b) + (if p = some b then 1 else 0) := count_set_add h p b
      change (s.roots.set i p).count (some b) + s.outs.count (some b) + _ =
        s.roots.count (some b) + s.outs.count (some b) + _
      omega
  | next a =>
      obtain ⟨n, hn⟩ := Option.isSome_iff_exists.mp h
      have hlt : a < s.outs.length := by rw [outs_length]; exact lt_of_node hn
      have hcount := count_set_add hlt p b
      simp only [refs, outs_setLink hn, link_next]
      change s.roots.count (some b) + (s.outs.set a p).count (some b) + _ = _
      omega

theorem link_setLink (h : s.Valid l) {m : Link} : (s.setLink l p).link m = if m = l then p else s.link m := by
  cases l with
  | root i =>
      have hi : i < s.roots.length := h
      cases m with
      | root j =>
          simp only [link, setLink, List.getElem?_set, Link.root.injEq]
          by_cases hij : i = j
          · subst hij
            simp [hi]
          · simp [hij, Ne.symm hij]
      | next b => rfl
  | next a =>
      obtain ⟨n, hn⟩ := Option.isSome_iff_exists.mp h
      cases m with
      | root j => rfl
      | next b =>
          simp only [link, setLink, node_update, Link.next.injEq]
          by_cases hab : b = a
          · subst hab
            simp [hn]
          · simp [hab]

theorem link_update {f : Node α → Node α} (hf : ∀ n, (f n).next = n.next) {m : Link} :
    (s.update a f).link m = s.link m := by
  cases m with
  | root j => rfl
  | next b =>
      simp only [link, node_update]
      split
      · cases s.node b with
        | none => rfl
        | some n => simp [hf]
      · rfl

theorem link_alloc {m : Link} :
    (s.alloc n).link m = if m = .next s.nodes.length then n.next else s.link m := by
  cases m with
  | root j => rfl
  | next b =>
      simp only [link, node_alloc, Link.next.injEq]
      split <;> simp

theorem link_free {m : Link} : (s.free a).link m = if m = .next a then none else s.link m := by
  cases m with
  | root j => rfl
  | next b =>
      simp only [link, node_free, Link.next.injEq]
      split <;> simp

theorem refs_alloc : (s.alloc n).refs b = s.refs b + (if n.next = some b then 1 else 0) := by
  simp only [refs, outs_alloc, List.count_append, List.count_singleton]
  change s.roots.count (some b) + _ = _
  simp only [beq_iff_eq]
  omega

theorem refs_free (h : s.node a = some n) :
    (s.free a).refs b + (if n.next = some b then 1 else 0) = s.refs b := by
  have hlt : a < s.outs.length := by rw [outs_length]; exact lt_of_node h
  have hcount := count_set_add hlt none b
  have hat : (s.outs[a]?).join = n.next := by rw [← link_next, link, h]; rfl
  rw [hat] at hcount
  simp only [refs, outs_free]
  change s.roots.count (some b) + _ + _ = _
  simp only [reduceCtorEq, if_false, Nat.add_zero] at hcount
  omega

theorem refs_update {f : Node α → Node α} (hf : ∀ n, (f n).next = n.next) :
    (s.update a f).refs b = s.refs b := by
  simp only [refs, outs_update hf]
  rfl

theorem refs_addRoot : (s.addRoot p).refs b = s.refs b + (if p = some b then 1 else 0) := by
  simp only [refs, addRoot, List.count_append, List.count_singleton, beq_iff_eq]
  change _ + _ + s.outs.count (some b) = _
  omega

end

@[simp] theorem roots_length_setLink {s : Store α} {l : Link} {p : Option Nat} :
    (s.setLink l p).roots.length = s.roots.length := by
  cases l with
  | root i => exact List.length_set
  | next a => rfl

@[simp] theorem roots_incrTo {s : Store α} {p : Option Nat} : (s.incrTo p).roots = s.roots := by
  cases p <;> rfl

/-- What a node says of the pointers that lead to it; nothing leads to an address without a node. -/
def cnt (s : Store α) (a : Nat) : Nat := ((s.node a).map (·.count)).getD 0

section
variable {s : Store α} {l : Link} {p : Option Nat} {a b : Nat} {n : Node α}

@[simp] theorem cnt_setLink : (s.setLink l p).cnt b = s.cnt b := by
  cases l with
  | root i => rfl
  | next a =>
      simp only [cnt, setLink, node_update]
      split
      · cases s.node b <;> rfl
      · rfl

theorem cnt_incr (h : (s.node a).isSome) : (s.incr a).cnt b = s.cnt b + (if a = b then 1 else 0) := by
  simp only [cnt, incr, node_update]
  by_cases hb : b = a
  · subst hb
    obtain ⟨n, hn⟩ := Option.isSome_iff_exists.mp h
    simp [hn]
  · simp [hb, Ne.symm hb]

theorem cnt_decr : (s.decr a).cnt b = s.cnt b - (if a = b then 1 else 0) := by
  simp only [cnt, decr, node_update]
  by_cases hb : b = a
  · subst hb
    cases s.node b <;> simp
  · simp [hb, Ne.symm hb]

theorem cnt_incrTo (h : ∀ a, p = some a → (s.node a).isSome) :
    (s.incrTo p).cnt b = s.cnt b + (if p = some b then 1 else 0) := by
  cases p with
  | none => simp [incrTo]
  | some a =>
      simp only [incrTo, cnt_incr (h a rfl), Option.some.injEq]

theorem cnt_alloc : (s.alloc n).cnt b = if b = s.nodes.length then n.count else s.cnt b := by
  simp only [cnt, node_alloc]
  split <;> simp

theorem cnt_free : (s.free a).cnt b = if b = a then 0 else s.cnt b := by
  simp only [cnt, node_free]
  split <;> simp

theorem refs_incrTo : (s.incrTo p).refs b = s.refs b := by
  cases p with
  | none => rfl
  | some a => exact refs_update fun _ => rfl

theorem refs_decr : (s.decr a).refs b = s.refs b := refs_update fun _ => rfl

theorem isSome_incrTo : ((s.incrTo p).node b).isSome = (s.node b).isSome := by
  cases p with
  | none => rfl
  | some a => exact isSome_update

theorem link_incrTo {m : Link} : (s.incrTo p).link m = s.link m := by
  cases p with
  | none => rfl
  | some a =>
      apply link_update
      intro n
      rfl

theorem link_decr {m : Link} : (s.decr a).link m = s.link m := by
  apply link_update
  intro n
  rfl

theorem node_length : s.node s.nodes.length = none := by simp [node]

end

/-! ## Paths -/

/-- The nodes that a pointer leads through, to the end of the list. -/
def Path (s : Store α) : Option Nat → List Nat → Prop
  | p, [] => p = none
  | p, a :: as => p = some a ∧ (s.node a).isSome ∧ Path s (s.link (.next a)) as

/-- The pointer behind a part of a list. -/
def linkAfter : Link → List Nat → Link
  | l, [] => l
  | _, a :: as => linkAfter (.next a) as

theorem linkAfter_append (l : Link) (as bs : List Nat) :
    linkAfter l (as ++ bs) = linkAfter (linkAfter l as) bs := by
  induction as generalizing l with
  | nil => rfl
  | cons a as ih => exact ih _

theorem linkAfter_cases (l : Link) (as : List Nat) :
    as = [] ∧ linkAfter l as = l ∨ ∃ a ∈ as, linkAfter l as = .next a := by
  induction as generalizing l with
  | nil => exact Or.inl ⟨rfl, rfl⟩
  | cons a as ih =>
      refine Or.inr ?_
      rcases ih (.next a) with ⟨-, heq⟩ | ⟨b, hb, heq⟩
      · exact ⟨a, by simp, heq⟩
      · exact ⟨b, by simp [hb], heq⟩

section
variable {s s' : Store α} {p : Option Nat} {a b : Nat} {as bs : List Nat}

theorem Path.unique (h : s.Path p as) (h' : s.Path p bs) : as = bs := by
  induction as generalizing p bs with
  | nil =>
      obtain rfl : p = none := h
      cases bs with
      | nil => rfl
      | cons b bs => exact absurd h'.1 (by simp)
  | cons a as ih =>
      obtain ⟨rfl, -, hrest⟩ := h
      cases bs with
      | nil => exact absurd h' (by simp [Path])
      | cons b bs =>
          obtain ⟨heq, -, hrest'⟩ := h'
          obtain rfl : a = b := by simpa using heq
          rw [ih hrest hrest']

theorem Path.suffix (as : List Nat) (h : s.Path p (as ++ b :: bs)) : s.Path (some b) (b :: bs) := by
  induction as generalizing p with
  | nil =>
      obtain ⟨rfl, hb, hrest⟩ := h
      exact ⟨rfl, hb, hrest⟩
  | cons a as ih => exact ih h.2.2

/-- A list that came back to a node would never end. -/
theorem Path.nodup (h : s.Path p as) : as.Nodup := by
  induction as generalizing p with
  | nil => exact List.nodup_nil
  | cons a as ih =>
      refine List.nodup_cons.mpr ⟨fun hmem => ?_, ih h.2.2⟩
      obtain ⟨l₁, l₂, rfl⟩ := List.append_of_mem hmem
      have hagain := (Path.suffix (a :: l₁) h).unique (Path.suffix [] h)
      have hlen := congrArg List.length hagain
      simp at hlen
      omega

theorem Path.isSome (h : s.Path p as) (hmem : a ∈ as) : (s.node a).isSome := by
  obtain ⟨l₁, l₂, rfl⟩ := List.append_of_mem hmem
  exact (h.suffix _).2.1

theorem Path.congr (h : s.Path p as) (hsame : ∀ a ∈ as, (s'.node a).isSome ∧ s'.link (.next a) = s.link (.next a)) :
    s'.Path p as := by
  induction as generalizing p with
  | nil => exact h
  | cons a as ih =>
      obtain ⟨hp, -, hrest⟩ := h
      obtain ⟨ha, hlink⟩ := hsame a (by simp)
      refine ⟨hp, ha, ?_⟩
      rw [hlink]
      exact ih hrest fun b hb => hsame b (by simp [hb])

theorem Path.after {l : Link} (h : s.Path (s.link l) (as ++ bs)) : s.Path (s.link (linkAfter l as)) bs := by
  induction as generalizing l with
  | nil => exact h
  | cons a as ih => exact ih h.2.2

/-- The pointer behind `as` is set, the others in front of it stay. -/
theorem Path.relink {l : Link} {bs' : List Nat} (h : s.Path (s.link l) (as ++ bs))
    (hl : ∀ a ∈ as, l ≠ .next a) (hnodup : as.Nodup) (halive : ∀ a ∈ as, (s'.node a).isSome)
    (hsame : ∀ m, (m = l ∨ ∃ a ∈ as, m = .next a) → m ≠ linkAfter l as → s'.link m = s.link m)
    (hbs : s'.Path (s'.link (linkAfter l as)) bs') : s'.Path (s'.link l) (as ++ bs') := by
  induction as generalizing l with
  | nil => exact hbs
  | cons a as ih =>
      obtain ⟨ha, hnodup⟩ := List.nodup_cons.mp hnodup
      have hne : l ≠ linkAfter (.next a) as := by
        rcases linkAfter_cases (.next a) as with ⟨-, heq⟩ | ⟨b, hb, heq⟩
        · rw [heq]
          exact hl a (by simp)
        · rw [heq]
          exact hl b (by simp [hb])
      have hlink := hsame l (Or.inl rfl) hne
      refine ⟨by rw [hlink]; exact h.1, halive a (by simp), ?_⟩
      refine ih h.2.2 (fun b hb heq => ?_) hnodup (fun b hb => halive b (by simp [hb])) (fun m hm hmne => ?_) hbs
      · obtain rfl : a = b := by simpa using heq
        exact ha hb
      · refine hsame m ?_ hmne
        rcases hm with rfl | ⟨b, hb, rfl⟩
        · exact Or.inr ⟨a, by simp, rfl⟩
        · exact Or.inr ⟨b, by simp [hb], rfl⟩

end

/-! ## Well-formed stores -/

/-- `path i` are the nodes of the list with root `i`. Every count is right, so that no pointer
dangles, and every node is in use. -/
structure Sound (s : Store α) (path : Nat → List Nat) : Prop where
  paths : ∀ i, s.Path (s.link (.root i)) (path i)
  counted : ∀ a, s.cnt a = s.refs a
  reached : ∀ a, (s.node a).isSome → ∃ i, a ∈ path i

section
variable {s : Store α} {path : Nat → List Nat} {l l' : Link} {a b i j : Nat} {as bs : List Nat} {n : Node α}

theorem Valid.of_link (h : s.link l = some a) : s.Valid l := by
  cases l with
  | root i =>
      change i < s.roots.length
      by_contra hle
      simp [link, List.getElem?_eq_none (Nat.le_of_not_lt hle)] at h
  | next b =>
      change (s.node b).isSome
      cases hb : s.node b with
      | none => simp [link, hb] at h
      | some n => rfl

theorem Sound.closed (h : s.Sound path) (hl : s.link l = some a) : (s.node a).isSome := by
  cases l with
  | root i =>
      have hpath := h.paths i
      rw [hl] at hpath
      cases hi : path i with
      | nil => simp [hi, Path] at hpath
      | cons b as =>
          rw [hi] at hpath
          obtain ⟨heq, hb, -⟩ := hpath
          obtain rfl : a = b := by simpa using heq
          exact hb
  | next b =>
      obtain ⟨i, hi⟩ := h.reached b (Valid.of_link hl)
      obtain ⟨l₁, l₂, hsplit⟩ := List.append_of_mem hi
      have hpath := h.paths i
      rw [hsplit] at hpath
      have hrest := (hpath.suffix _).2.2
      rw [hl] at hrest
      cases l₂ with
      | nil => simp [Path] at hrest
      | cons c as =>
          obtain ⟨heq, hc, -⟩ := hrest
          obtain rfl : a = c := by simpa using heq
          exact hc

theorem one_le_count {x : Option Nat} (xs : List (Option Nat)) (i : Nat) (hi : xs[i]? = some x) :
    1 ≤ xs.count x :=
  List.count_pos_iff.mpr (List.mem_of_getElem? hi)

theorem two_le_count {xs : List (Option Nat)} {x : Option Nat} {i j : Nat} (hij : i ≠ j)
    (hi : xs[i]? = some x) (hj : xs[j]? = some x) : 2 ≤ xs.count x := by
  induction xs generalizing i j with
  | nil => simp at hi
  | cons y xs ih =>
      cases i with
      | zero =>
          cases j with
          | zero => exact absurd rfl hij
          | succ j =>
              obtain rfl : y = x := by simpa using hi
              have := one_le_count xs j (by simpa using hj)
              rw [List.count_cons_self]
              omega
      | succ i =>
          cases j with
          | zero =>
              obtain rfl : y = x := by simpa using hj
              have := one_le_count xs i (by simpa using hi)
              rw [List.count_cons_self]
              omega
          | succ j =>
              have hle := ih (fun heq : i = j => hij (congrArg _ heq)) (by simpa using hi) (by simpa using hj)
              exact Nat.le_trans hle (List.count_le_count_cons ..)

theorem getElem?_of_link_root (h : s.link (.root i) = some a) : s.roots[i]? = some (some a) := by
  simpa [link, Option.join_eq_some_iff] using h

theorem getElem?_of_link_next (h : s.link (.next b) = some a) : s.outs[b]? = some (some a) := by
  rw [link_next] at h
  simpa [Option.join_eq_some_iff] using h

theorem two_le_refs (hne : l ≠ l') (hl : s.link l = some a) (hl' : s.link l' = some a) : 2 ≤ s.refs a := by
  unfold refs
  cases l with
  | root i =>
      cases l' with
      | root j =>
          have := two_le_count (fun heq : i = j => hne (congrArg _ heq)) (getElem?_of_link_root hl) (getElem?_of_link_root hl')
          omega
      | next b =>
          have := one_le_count _ _ (getElem?_of_link_root hl)
          have := one_le_count _ _ (getElem?_of_link_next hl')
          omega
  | next c =>
      cases l' with
      | root j =>
          have := one_le_count _ _ (getElem?_of_link_root hl')
          have := one_le_count _ _ (getElem?_of_link_next hl)
          omega
      | next b =>
          have := two_le_count (fun heq : c = b => hne (congrArg _ heq)) (getElem?_of_link_next hl) (getElem?_of_link_next hl')
          omega

theorem exists_link (hrefs : 1 ≤ s.refs a) : ∃ l, s.link l = some a := by
  have hcount : 0 < s.roots.count (some a) ∨ 0 < s.outs.count (some a) := by
    unfold refs at hrefs
    omega
  rcases hcount with hcount | hcount
  · obtain ⟨i, hi⟩ := List.mem_iff_getElem?.mp (List.count_pos_iff.mp hcount)
    exact ⟨.root i, by simp [link, hi]⟩
  · obtain ⟨b, hb⟩ := List.mem_iff_getElem?.mp (List.count_pos_iff.mp hcount)
    exact ⟨.next b, by simp [link_next, hb]⟩

/-- A node that is counted twice has another pointer to it. -/
theorem exists_other_link (hrefs : 2 ≤ s.refs a) (l : Link) : ∃ l', l' ≠ l ∧ s.link l' = some a := by
  by_cases hl : s.Valid l
  · have hset : (s.setLink l none).refs a + (if s.link l = some a then 1 else 0) =
        s.refs a + (if none = some a then 1 else 0) := refs_setLink hl
    have hone : 1 ≤ (s.setLink l none).refs a := by
      simp only [reduceCtorEq, if_false, Nat.add_zero] at hset
      split at hset <;> omega
    obtain ⟨l', hl'⟩ := exists_link hone
    rw [link_setLink hl] at hl'
    split at hl'
    · cases hl'
    · next hne => exact ⟨l', hne, hl'⟩
  · obtain ⟨l', hl'⟩ := exists_link (s := s) (a := a) (by omega)
    exact ⟨l', fun heq => hl (heq ▸ Valid.of_link hl'), hl'⟩

/-- Nothing but the list itself points into this part of it. -/
def Private (s : Store α) (as : List Nat) : Prop := ∀ a ∈ as, s.cnt a = 1

theorem Sound.not_mem_of_private (h : s.Sound path) (hi : path i = as ++ bs) (hp : s.Private as) (hij : j ≠ i)
    (ha : a ∈ as) : a ∉ path j := by
  induction as using List.reverseRecOn generalizing bs a with
  | nil => cases ha
  | append_singleton as b ih =>
      have hfront : ∀ c ∈ as, c ∉ path j := fun c hc =>
        ih (by rw [hi, List.append_assoc]) (fun d hd => hp d (by simp [hd])) hc
      rcases List.mem_append.mp ha with ha | ha
      · exact hfront a ha
      · obtain rfl : a = b := by simpa using ha
        intro hmem
        obtain ⟨l₁, l₂, hsplit⟩ := List.append_of_mem hmem
        have hpath := h.paths i
        rw [hi, List.append_assoc, List.singleton_append] at hpath
        have hpath' := h.paths j
        rw [hsplit] at hpath'
        have hne : linkAfter (.root i) as ≠ linkAfter (.root j) l₁ := by
          rcases linkAfter_cases (.root i) as with ⟨-, heq⟩ | ⟨c, hc, heq⟩
          · rcases linkAfter_cases (.root j) l₁ with ⟨-, heq'⟩ | ⟨d, hd, heq'⟩
            · simp [heq, heq', Ne.symm hij]
            · simp [heq, heq']
          · rcases linkAfter_cases (.root j) l₁ with ⟨-, heq'⟩ | ⟨d, hd, heq'⟩
            · simp [heq, heq']
            · intro hsame
              obtain rfl : c = d := by simpa [heq, heq'] using hsame
              exact hfront c hc (by simp [hsplit, hd])
        have htwo := two_le_refs hne hpath.after.1 hpath'.after.1
        have hone := hp a (by simp)
        rw [h.counted a] at hone
        omega

/-- A shared node is in another list too, with everything behind it. -/
theorem Sound.exists_other_list (h : s.Sound path) (hi : path i = as ++ a :: bs) (hrefs : 2 ≤ s.refs a) :
    ∃ j, j ≠ i ∧ ∀ b ∈ a :: bs, b ∈ path j := by
  have hpath := h.paths i
  rw [hi] at hpath
  have hnot : a ∉ as ∧ a ∉ bs := by
    have hnodup := hpath.nodup
    rw [List.nodup_append, List.nodup_cons] at hnodup
    exact ⟨fun hmem => hnodup.2.2 a hmem a (by simp) rfl, hnodup.2.1.1⟩
  obtain ⟨l', hne, hl'⟩ := exists_other_link hrefs (linkAfter (.root i) as)
  have hother : ∃ j, j ≠ i ∧ a ∈ path j := by
    cases l' with
    | root j =>
        have hpath' := h.paths j
        rw [hl'] at hpath'
        cases hj : path j with
        | nil => simp [hj, Path] at hpath'
        | cons c cs =>
            rw [hj] at hpath'
            obtain rfl : a = c := by simpa using hpath'.1
            refine ⟨j, ?_, by simp [hj]⟩
            rintro rfl
            rw [hi] at hj
            have heq : as ++ a :: bs = [] ++ a :: cs := hj
            have hfront := (List.append_cons_inj_of_notMem hnot.1 hnot.2).mp heq
            exact hne (by rw [hfront.1]; rfl)
    | next b =>
        obtain ⟨j, hj⟩ := h.reached b (Valid.of_link hl')
        obtain ⟨l₁, l₂, hsplit⟩ := List.append_of_mem hj
        have hpath' := h.paths j
        rw [hsplit] at hpath'
        have hrest := (hpath'.suffix _).2.2
        rw [hl'] at hrest
        cases l₂ with
        | nil => simp [Path] at hrest
        | cons c cs =>
            obtain rfl : a = c := by simpa using hrest.1
            refine ⟨j, ?_, by simp [hsplit]⟩
            rintro rfl
            have heq : as ++ a :: bs = (l₁ ++ [b]) ++ a :: cs := by
              rw [← hi, hsplit]
              simp
            have hfront := (List.append_cons_inj_of_notMem hnot.1 hnot.2).mp heq
            exact hne (by rw [hfront.1, linkAfter_append]; rfl)
  obtain ⟨j, hji, hmem⟩ := hother
  refine ⟨j, hji, fun b hb => ?_⟩
  obtain ⟨l₁, l₂, hsplit⟩ := List.append_of_mem hmem
  have hpath' := h.paths j
  rw [hsplit] at hpath'
  have hsame := (hpath.suffix _).unique (hpath'.suffix _)
  rw [hsplit, ← hsame]
  exact List.mem_append_right _ hb

/-- The list behind a private part of it is changed, and the others stay. -/
theorem Sound.of_relink {s' : Store α} {path' : Nat → List Nat} {as' : List Nat} (h : s.Sound path)
    (hi : path i = as ++ bs) (hp : s.Private as) (hpath' : path' = Function.update path i (as ++ as'))
    (halive : ∀ j, ∀ b ∈ path j, j ≠ i ∨ b ∈ as → (s'.node b).isSome)
    (hsame : ∀ m, s.Valid m → m ≠ linkAfter (.root i) as → s'.Valid m → s'.link m = s.link m)
    (hroot : ∀ j, s'.link (.root j) = s.link (.root j) ∨ .root j = linkAfter (.root i) as)
    (hlink : s'.Path (s'.link (linkAfter (.root i) as)) as') (hcounted : ∀ a, s'.cnt a = s'.refs a)
    (hreached : ∀ a, (s'.node a).isSome → ∃ j, a ∈ path' j) : s'.Sound path' := by
  refine ⟨fun j => ?_, hcounted, hreached⟩
  subst hpath'
  by_cases hj : j = i
  · subst hj
    rw [Function.update_self]
    have hpath := h.paths j
    rw [hi] at hpath
    have hnodup : as.Nodup := hpath.nodup.of_append_left
    refine hpath.relink (by simp) hnodup (fun a ha => halive j a (by simp [hi, ha]) (Or.inr ha))
      (fun m hm hne => ?_) hlink
    rcases hm with rfl | ⟨a, ha, rfl⟩
    · rcases hroot j with heq | heq
      · exact heq
      · exact absurd heq hne
    · exact hsame _ (hpath.isSome (by simp [ha])) hne (halive j a (by simp [hi, ha]) (Or.inr ha))
  · rw [Function.update_of_ne hj]
    have hne : .root j ≠ linkAfter (.root i) as := by
      rcases linkAfter_cases (.root i) as with ⟨-, heq⟩ | ⟨c, -, heq⟩
      · simpa [heq] using hj
      · simp [heq]
    have heq := (hroot j).resolve_right hne
    rw [heq]
    refine (h.paths j).congr fun a ha => ⟨halive j a ha (Or.inl hj), ?_⟩
    refine hsame _ ((h.paths j).isSome ha) (fun hlast => ?_) (halive j a ha (Or.inl hj))
    rcases linkAfter_cases (.root i) as with ⟨-, heq⟩ | ⟨c, hc, heq⟩
    · simp [heq] at hlast
    · obtain rfl : a = c := by simpa [heq] using hlast
      exact h.not_mem_of_private hi hp hj hc ha

/-! ## Operations -/

/-- The list `i`, which is empty, gets the nodes of another one. -/
def attach (s : Store α) (i : Nat) (p : Option Nat) : Store α := (s.setLink (.root i) p).incrTo p

/-- A new node in front of the list `i`. -/
def cons (s : Store α) (i : Nat) (v : α) : Store α :=
  (s.alloc ⟨s.link (.root i), 1, v⟩).setLink (.root i) (some s.nodes.length)

/-- A copy of the shared node `c`, with the value `v`, takes its place behind `l`. -/
def branch (s : Store α) (l : Link) (c : Nat) (v : α) : Store α :=
  (((s.decr c).alloc ⟨s.link (.next c), 1, v⟩).incrTo (s.link (.next c))).setLink l (some s.nodes.length)

/-- The shared node `c` behind `l` is passed over. -/
def skip (s : Store α) (l : Link) (c : Nat) : Store α :=
  ((s.setLink l (s.link (.next c))).decr c).incrTo (s.link (.next c))

/-- The private node `c` behind `l` is taken out. -/
def drop (s : Store α) (l : Link) (c : Nat) : Store α := (s.setLink l (s.link (.next c))).free c

/-- The list `i`, which starts with the shared node `c`, ends with nothing. -/
def leave (s : Store α) (i c : Nat) : Store α := (s.decr c).setLink (.root i) none

theorem Sound.attach (h : s.Sound path) (hi : i < s.roots.length) (hempty : path i = []) :
    (s.attach i (s.link (.root j))).Sound (Function.update path i (path j)) := by
  have hnone : s.link (.root i) = none := by
    have hpath := h.paths i
    rwa [hempty] at hpath
  have hvalid : s.Valid (.root i) := hi
  have hlink : ∀ m, (s.attach i (s.link (.root j))).link m =
      if m = .root i then s.link (.root j) else s.link m := fun m => by
    rw [Store.attach, link_incrTo, link_setLink hvalid]
  have halive : ∀ b, ((s.attach i (s.link (.root j))).node b).isSome = (s.node b).isSome := fun b => by
    rw [Store.attach, isSome_incrTo, node_setLink_root]
  have hprivate : s.Private [] := by simp [Private]
  have hpath : Function.update path i (path j) = Function.update path i ([] ++ path j) := rfl
  have hafter : linkAfter (.root i) [] = .root i := rfl
  refine h.of_relink hempty hprivate hpath ?_ ?_ ?_ ?_ ?_ ?_
  · intro k b hb _
    rw [halive]
    exact (h.paths k).isSome hb
  · intro m _ hne _
    rw [hafter] at hne
    rw [hlink, if_neg hne]
  · intro k
    rw [hlink]
    by_cases hk : k = i
    · exact Or.inr (by rw [hk, hafter])
    · exact Or.inl (if_neg (by simpa using hk))
  · rw [hafter, hlink, if_pos rfl]
    refine (h.paths j).congr fun a ha => ⟨?_, ?_⟩
    · rw [halive]
      exact (h.paths j).isSome ha
    · rw [hlink, if_neg (by simp)]
  · intro b
    have hset : (s.setLink (.root i) (s.link (.root j))).refs b + (if s.link (.root i) = some b then 1 else 0) =
      s.refs b + (if s.link (.root j) = some b then 1 else 0) := refs_setLink hvalid
    rw [Store.attach, refs_incrTo, cnt_incrTo, cnt_setLink, h.counted b]
    · simp only [hnone, reduceCtorEq, if_false] at hset
      omega
    · intro a ha
      exact h.closed ha
  · intro b hb
    rw [halive] at hb
    obtain ⟨k, hk⟩ := h.reached b hb
    have hki : k ≠ i := by
      rintro rfl
      simp [hempty] at hk
    exact ⟨k, by rwa [Function.update_of_ne hki]⟩

theorem Sound.refs_fresh (h : s.Sound path) : s.refs s.nodes.length = 0 := by
  rw [← h.counted, cnt, node_length]
  rfl

theorem Sound.cons (h : s.Sound path) (hi : i < s.roots.length) (v : α) :
    (s.cons i v).Sound (Function.update path i (s.nodes.length :: path i)) := by
  have hvalid : (s.alloc ⟨s.link (.root i), 1, v⟩).Valid (.root i) := hi
  have hlink : ∀ m, (s.cons i v).link m =
      if m = .root i then some s.nodes.length
      else if m = .next s.nodes.length then s.link (.root i) else s.link m := fun m => by
    rw [Store.cons, link_setLink hvalid, link_alloc]
  have halive : ∀ b, ((s.cons i v).node b).isSome = (b = s.nodes.length ∨ (s.node b).isSome) := fun b => by
    rw [Store.cons, node_setLink_root, node_alloc]
    by_cases hb : b = s.nodes.length <;> simp [hb]
  have hne : ∀ k, ∀ a ∈ path k, a ≠ s.nodes.length := by
    rintro k a ha rfl
    simpa [node_length] using (h.paths k).isSome ha
  have hprivate : s.Private [] := by simp [Private]
  have hpath : Function.update path i (s.nodes.length :: path i) =
      Function.update path i ([] ++ s.nodes.length :: path i) := rfl
  have hafter : linkAfter (.root i) [] = .root i := rfl
  refine h.of_relink (show path i = [] ++ path i from rfl) hprivate hpath ?_ ?_ ?_ ?_ ?_ ?_
  · intro k b hb _
    rw [halive]
    exact Or.inr ((h.paths k).isSome hb)
  · intro m hm hneRoot _
    rw [hafter] at hneRoot
    rw [hlink, if_neg hneRoot, if_neg]
    rintro rfl
    simp [Valid, node_length] at hm
  · intro k
    rw [hlink]
    by_cases hk : k = i
    · exact Or.inr (by rw [hk, hafter])
    · exact Or.inl (by simp [hk])
  · rw [hafter, hlink, if_pos rfl]
    refine ⟨rfl, by rw [halive]; exact Or.inl rfl, ?_⟩
    rw [hlink, if_neg (by simp), if_pos rfl]
    refine (h.paths i).congr fun a ha => ⟨?_, ?_⟩
    · rw [halive]
      exact Or.inr ((h.paths i).isSome ha)
    · rw [hlink, if_neg (by simp), if_neg (by simpa using hne i a ha)]
  · intro b
    have hset : (s.cons i v).refs b + (if (s.alloc ⟨s.link (.root i), 1, v⟩).link (.root i) = some b then 1 else 0) =
        (s.alloc ⟨s.link (.root i), 1, v⟩).refs b + (if some s.nodes.length = some b then 1 else 0) :=
      refs_setLink hvalid
    have hold : (s.alloc ⟨s.link (.root i), 1, v⟩).link (.root i) = s.link (.root i) := rfl
    rw [hold, refs_alloc] at hset
    rw [Store.cons, cnt_setLink, cnt_alloc]
    by_cases hb : b = s.nodes.length
    · have hzero := h.refs_fresh
      subst hb
      simp only [if_true] at hset ⊢
      rw [Store.cons] at hset
      omega
    · have hcount := h.counted b
      simp only [Option.some.injEq, Ne.symm hb, if_false] at hset
      rw [if_neg hb]
      rw [Store.cons] at hset
      omega
  · intro b hb
    rw [halive] at hb
    rcases hb with rfl | hb
    · exact ⟨i, by simp⟩
    · obtain ⟨k, hk⟩ := h.reached b hb
      by_cases hki : k = i
      · subst hki
        exact ⟨k, by simp [hk]⟩
      · exact ⟨k, by rwa [Function.update_of_ne hki]⟩

section
variable {c : Nat} (h : s.Sound path) (hi : path i = as ++ c :: bs) (hp : s.Private as)
include h hi

theorem Sound.link_here : s.link (linkAfter (.root i) as) = some c := by
  have hpath := h.paths i
  rw [hi] at hpath
  exact hpath.after.1

theorem Sound.tail_path : s.Path (s.link (.next c)) bs := by
  have hpath := h.paths i
  rw [hi] at hpath
  exact hpath.after.2.2

theorem Sound.disjoint_tail : c ∉ as ∧ (∀ a ∈ bs, a ∉ as ∧ a ≠ c) := by
  have hnodup := (h.paths i).nodup
  rw [hi, List.nodup_append, List.nodup_cons] at hnodup
  refine ⟨fun hmem => hnodup.2.2 c hmem c (by simp) rfl, fun a ha => ⟨fun hmem => ?_, ?_⟩⟩
  · exact hnodup.2.2 a hmem a (by simp [ha]) rfl
  · rintro rfl
    exact hnodup.2.1.1 ha

omit h hi in
theorem here_ne_next {a : Nat} (ha : a ∉ as) : Link.next a ≠ linkAfter (.root i) as := by
  intro heq
  rcases linkAfter_cases (.root i) as with ⟨-, hl⟩ | ⟨d, hd, hl⟩
  · simp [hl] at heq
  · obtain rfl : a = d := by simpa [hl] using heq
    exact ha hd

/-- The nodes of the other lists, and those in front of `c`, are on a list that leaves `c` out. -/
theorem Sound.reached_without (hc : 2 ≤ s.cnt c ∨ b ≠ c) (hb : (s.node b).isSome) :
    ∃ j, b ∈ Function.update path i (as ++ bs) j := by
  obtain ⟨k, hk⟩ := h.reached b hb
  by_cases hki : k = i
  · subst hki
    rw [hi] at hk
    by_cases hbc : b = c
    · have hrefs : 2 ≤ s.refs c := by
        rw [← h.counted]
        exact hc.resolve_right (not_not.mpr hbc)
      obtain ⟨j, hj, hall⟩ := h.exists_other_list hi hrefs
      exact ⟨j, by rw [Function.update_of_ne hj, hbc]; exact hall c (by simp)⟩
    · refine ⟨k, ?_⟩
      rw [Function.update_self]
      simpa [hbc] using hk
  · exact ⟨k, by rwa [Function.update_of_ne hki]⟩

include hp

theorem Sound.branch (hc : 2 ≤ s.cnt c) (v : α) :
    (s.branch (linkAfter (.root i) as) c v).Sound
      (Function.update path i (as ++ s.nodes.length :: bs)) := by
  let l := linkAfter (.root i) as
  let t := ((s.decr c).alloc ⟨s.link (.next c), 1, v⟩).incrTo (s.link (.next c))
  have hhere : s.link l = some c := h.link_here hi
  have htail := h.tail_path hi
  obtain ⟨hcas, hbs⟩ := h.disjoint_tail hi
  have hlen : (s.decr c).nodes.length = s.nodes.length := by simp [decr, update]
  have hfresh : ∀ {a}, (s.node a).isSome → a ≠ s.nodes.length := by
    rintro a ha rfl
    simp [node_length] at ha
  have hlnew : l ≠ .next s.nodes.length := by
    rintro heq
    have hvalid := Valid.of_link hhere
    rw [heq] at hvalid
    exact hfresh hvalid rfl
  have htlink : ∀ m, t.link m = if m = .next s.nodes.length then s.link (.next c) else s.link m := fun m => by
    simp only [t, link_incrTo, link_alloc, hlen, link_decr]
  have htalive : ∀ b, (t.node b).isSome = (b = s.nodes.length ∨ (s.node b).isSome) := fun b => by
    rw [isSome_incrTo, node_alloc, hlen]
    by_cases hb : b = s.nodes.length
    · simp [hb]
    · rw [if_neg hb, decr, isSome_update]
      simp [hb]
  have hvalid : t.Valid l := by
    refine Valid.of_link (a := c) ?_
    rw [htlink, if_neg hlnew, hhere]
  have hlink : ∀ m, (s.branch l c v).link m =
      if m = l then some s.nodes.length
      else if m = .next s.nodes.length then s.link (.next c) else s.link m := fun m => by
    rw [Store.branch, link_setLink hvalid, htlink]
  have halive : ∀ b, ((s.branch l c v).node b).isSome = (b = s.nodes.length ∨ (s.node b).isSome) :=
    fun b => by rw [Store.branch, isSome_setLink, htalive]
  refine h.of_relink hi hp rfl ?_ ?_ ?_ ?_ ?_ ?_
  · intro k b hb _
    rw [halive]
    exact Or.inr ((h.paths k).isSome hb)
  · intro m hm hne _
    rw [hlink, if_neg hne, if_neg]
    rintro rfl
    exact hfresh hm rfl
  · intro k
    by_cases hk : .root k = l
    · exact Or.inr hk
    · exact Or.inl (by rw [hlink, if_neg hk, if_neg (by simp)])
  · rw [hlink, if_pos rfl]
    refine ⟨rfl, by rw [halive]; exact Or.inl rfl, ?_⟩
    rw [hlink, if_neg (Ne.symm hlnew), if_pos rfl]
    refine htail.congr fun a ha => ⟨?_, ?_⟩
    · rw [halive]
      exact Or.inr (htail.isSome ha)
    · have hne := hfresh (htail.isSome ha)
      rw [hlink, if_neg (here_ne_next (hbs a ha).1), if_neg (by simpa using hne)]
  · intro b
    have hset : (s.branch l c v).refs b + (if t.link l = some b then 1 else 0) =
        t.refs b + (if some s.nodes.length = some b then 1 else 0) := refs_setLink hvalid
    have hthere : t.link l = some c := by rw [htlink, if_neg hlnew, hhere]
    have htrefs : t.refs b = s.refs b + (if s.link (.next c) = some b then 1 else 0) := by
      simp only [t, refs_incrTo, refs_alloc, refs_decr]
    have htcnt : t.cnt b = (if b = s.nodes.length then 1 else s.cnt b - (if c = b then 1 else 0)) +
        (if s.link (.next c) = some b then 1 else 0) := by
      rw [cnt_incrTo, cnt_alloc, hlen, cnt_decr]
      intro a ha
      rw [node_alloc, hlen]
      split
      · rfl
      · rw [decr, isSome_update]
        exact h.closed ha
    have hcount := h.counted b
    have hcnt : (s.branch l c v).cnt b = t.cnt b := cnt_setLink
    rw [hthere, htrefs] at hset
    change (s.branch l c v).cnt b = (s.branch l c v).refs b
    rw [hcnt, htcnt]
    by_cases hb : b = s.nodes.length
    · have hzero := h.refs_fresh
      have hcb : c ≠ b := by
        rw [hb]
        exact hfresh (h.closed hhere)
      have hnext : s.link (.next c) ≠ some b := fun heq => hfresh (h.closed heq) hb
      subst hb
      simp only [if_true, Option.some.injEq, hcb, hnext, if_false] at hset ⊢
      omega
    · simp only [Option.some.injEq, Ne.symm hb, hb, if_false] at hset ⊢
      by_cases hcb : c = b
      · subst hcb
        simp only [if_true] at hset ⊢
        omega
      · simp only [hcb, if_false] at hset ⊢
        omega
  · intro b hb
    rw [halive] at hb
    rcases hb with rfl | hb
    · exact ⟨i, by simp⟩
    · obtain ⟨k, hk⟩ := h.reached b hb
      by_cases hki : k = i
      · subst hki
        rw [hi] at hk
        by_cases hbc : b = c
        · obtain ⟨j, hj, hall⟩ := h.exists_other_list hi (by rw [← h.counted]; exact hc)
          exact ⟨j, by rw [Function.update_of_ne hj, hbc]; exact hall c (by simp)⟩
        · refine ⟨k, ?_⟩
          rw [Function.update_self]
          simp only [List.mem_append, List.mem_cons, hbc, false_or] at hk ⊢
          exact hk.imp_right Or.inr
      · exact ⟨k, by rwa [Function.update_of_ne hki]⟩

theorem Sound.skip (hc : 2 ≤ s.cnt c) :
    (s.skip (linkAfter (.root i) as) c).Sound (Function.update path i (as ++ bs)) := by
  let l := linkAfter (.root i) as
  have hhere : s.link l = some c := h.link_here hi
  have htail := h.tail_path hi
  obtain ⟨hcas, hbs⟩ := h.disjoint_tail hi
  have hvalid : s.Valid l := Valid.of_link hhere
  have hlink : ∀ m, (s.skip l c).link m = if m = l then s.link (.next c) else s.link m := fun m => by
    rw [Store.skip, link_incrTo, link_decr, link_setLink hvalid]
  have halive : ∀ b, ((s.skip l c).node b).isSome = (s.node b).isSome := fun b => by
    rw [Store.skip, isSome_incrTo, decr, isSome_update, isSome_setLink]
  refine h.of_relink hi hp rfl ?_ ?_ ?_ ?_ ?_ ?_
  · intro k b hb _
    rw [halive]
    exact (h.paths k).isSome hb
  · intro m _ hne _
    rw [hlink, if_neg hne]
  · intro k
    by_cases hk : .root k = l
    · exact Or.inr hk
    · exact Or.inl (by rw [hlink, if_neg hk])
  · rw [hlink, if_pos rfl]
    refine htail.congr fun a ha => ⟨?_, ?_⟩
    · rw [halive]
      exact htail.isSome ha
    · rw [hlink, if_neg (here_ne_next (hbs a ha).1)]
  · intro b
    have hset : (s.setLink l (s.link (.next c))).refs b + (if s.link l = some b then 1 else 0) =
        s.refs b + (if s.link (.next c) = some b then 1 else 0) := refs_setLink hvalid
    have hcount := h.counted b
    change (s.skip l c).cnt b = (s.skip l c).refs b
    rw [Store.skip, refs_incrTo, refs_decr, cnt_incrTo, cnt_decr, cnt_setLink]
    · simp only [hhere, Option.some.injEq] at hset
      by_cases hcb : c = b
      · subst hcb
        simp only [if_true] at hset ⊢
        omega
      · simp only [hcb, if_false] at hset ⊢
        omega
    · intro a ha
      rw [decr, isSome_update, isSome_setLink]
      exact h.closed ha
  · intro b hb
    rw [halive] at hb
    exact h.reached_without hi (Or.inl hc) hb

theorem Sound.drop (hc : s.cnt c = 1) :
    (s.drop (linkAfter (.root i) as) c).Sound (Function.update path i (as ++ bs)) := by
  let l := linkAfter (.root i) as
  have hhere : s.link l = some c := h.link_here hi
  have htail := h.tail_path hi
  obtain ⟨hcas, hbs⟩ := h.disjoint_tail hi
  have hvalid : s.Valid l := Valid.of_link hhere
  have hlink : ∀ m, (s.drop l c).link m =
      if m = .next c then none else if m = l then s.link (.next c) else s.link m := fun m => by
    rw [Store.drop, link_free, link_setLink hvalid]
  have halive : ∀ b, ((s.drop l c).node b).isSome = (b ≠ c ∧ (s.node b).isSome) := fun b => by
    rw [Store.drop, node_free]
    by_cases hb : b = c
    · simp [hb]
    · rw [if_neg hb, isSome_setLink]
      simp [hb]
  have hothers : ∀ j, j ≠ i → c ∉ path j := by
    intro j hj
    have hi' : path i = (as ++ [c]) ++ bs := by rw [hi, List.append_assoc, List.singleton_append]
    have hp' : s.Private (as ++ [c]) := by
      intro a ha
      rcases List.mem_append.mp ha with ha | ha
      · exact hp a ha
      · rw [List.mem_singleton.mp ha]
        exact hc
    exact h.not_mem_of_private hi' hp' hj (by simp)
  refine h.of_relink hi hp rfl ?_ ?_ ?_ ?_ ?_ ?_
  · intro k b hb hk
    rw [halive]
    refine ⟨?_, (h.paths k).isSome hb⟩
    rintro rfl
    rcases hk with hk | hk
    · exact hothers k hk hb
    · exact hcas hk
  · intro m _ hne hm
    rw [hlink, if_neg, if_neg hne]
    rintro rfl
    change ((s.drop l c).node c).isSome at hm
    rw [halive] at hm
    exact hm.1 rfl
  · intro k
    by_cases hk : .root k = l
    · exact Or.inr hk
    · exact Or.inl (by rw [hlink, if_neg (by simp), if_neg hk])
  · rw [hlink, if_neg (Ne.symm (here_ne_next hcas)), if_pos rfl]
    refine htail.congr fun a ha => ⟨?_, ?_⟩
    · rw [halive]
      exact ⟨(hbs a ha).2, htail.isSome ha⟩
    · rw [hlink, if_neg (by simpa using (hbs a ha).2), if_neg (here_ne_next (hbs a ha).1)]
  · intro b
    have hset : (s.setLink l (s.link (.next c))).refs b + (if s.link l = some b then 1 else 0) =
        s.refs b + (if s.link (.next c) = some b then 1 else 0) := refs_setLink hvalid
    have halivec : ((s.setLink l (s.link (.next c))).node c).isSome := by
      rw [isSome_setLink]
      exact h.closed hhere
    obtain ⟨n, hn⟩ := Option.isSome_iff_exists.mp halivec
    have hnext : n.next = s.link (.next c) := by
      have hsame : (s.setLink l (s.link (.next c))).link (.next c) = s.link (.next c) := by
        rw [link_setLink hvalid, if_neg (here_ne_next hcas)]
      rw [← hsame, link, hn]
      rfl
    have hfree : (s.drop l c).refs b + (if n.next = some b then 1 else 0) =
        (s.setLink l (s.link (.next c))).refs b := refs_free hn
    have hcount := h.counted b
    rw [hnext] at hfree
    change (s.drop l c).cnt b = (s.drop l c).refs b
    rw [Store.drop, cnt_free, cnt_setLink, ← Store.drop]
    simp only [hhere, Option.some.injEq] at hset
    by_cases hcb : b = c
    · subst hcb
      simp only [if_true] at hset ⊢
      omega
    · simp only [hcb, Ne.symm hcb, if_false] at hset ⊢
      omega
  · intro b hb
    rw [halive] at hb
    exact h.reached_without hi (Or.inr hb.1) hb.2

end

theorem Sound.leave {c : Nat} (h : s.Sound path) (hi : path i = c :: bs) (hc : 2 ≤ s.cnt c) :
    (s.leave i c).Sound (Function.update path i []) := by
  have hi' : path i = [] ++ c :: bs := hi
  have hprivate : s.Private [] := by simp [Private]
  have hhere : s.link (.root i) = some c := h.link_here hi'
  have hvalid : (s.decr c).Valid (.root i) := by
    refine Valid.of_link (a := c) ?_
    rw [link_decr, hhere]
  have hlink : ∀ m, (s.leave i c).link m = if m = .root i then none else s.link m := fun m => by
    rw [Store.leave, link_setLink hvalid, link_decr]
  have halive : ∀ b, ((s.leave i c).node b).isSome = (s.node b).isSome := fun b => by
    rw [Store.leave, node_setLink_root, decr, isSome_update]
  have hafter : linkAfter (.root i) [] = .root i := rfl
  refine h.of_relink hi' hprivate (show _ = Function.update path i ([] ++ []) from rfl) ?_ ?_ ?_ ?_ ?_ ?_
  · intro k b hb _
    rw [halive]
    exact (h.paths k).isSome hb
  · intro m _ hne _
    rw [hafter] at hne
    rw [hlink, if_neg hne]
  · intro k
    by_cases hk : k = i
    · exact Or.inr (by rw [hk, hafter])
    · exact Or.inl (by rw [hlink, if_neg (by simpa using hk)])
  · rw [hafter, hlink, if_pos rfl]
    rfl
  · intro b
    have hset : (s.leave i c).refs b + (if (s.decr c).link (.root i) = some b then 1 else 0) =
        (s.decr c).refs b + (if none = some b then 1 else 0) := refs_setLink hvalid
    have hcount := h.counted b
    rw [link_decr, hhere, refs_decr] at hset
    have hcnt : (s.leave i c).cnt b = s.cnt b - (if c = b then 1 else 0) := by
      rw [Store.leave, cnt_setLink, cnt_decr]
    rw [hcnt]
    simp only [Option.some.injEq, reduceCtorEq, if_false] at hset
    by_cases hcb : c = b
    · subst hcb
      simp only [if_true] at hset ⊢
      omega
    · simp only [hcb, if_false] at hset ⊢
      omega
  · intro b hb
    rw [halive] at hb
    obtain ⟨k, hk⟩ := h.reached b hb
    by_cases hki : k = i
    · subst hki
      rw [hi] at hk
      obtain ⟨j, hj, hall⟩ := h.exists_other_list hi' (by rw [← h.counted]; exact hc)
      exact ⟨j, by rw [Function.update_of_ne hj]; exact hall b hk⟩
    · exact ⟨k, by rwa [Function.update_of_ne hki]⟩

/-- A change of values keeps a store well-formed. -/
theorem Sound.update {f : Node α → Node α} (h : s.Sound path) (hnext : ∀ n, (f n).next = n.next)
    (hcount : ∀ n, (f n).count = n.count) : (s.update a f).Sound path := by
  refine ⟨fun j => ?_, fun b => ?_, fun b hb => ?_⟩
  · rw [link_update hnext]
    refine (h.paths j).congr fun b hb => ⟨?_, link_update hnext⟩
    rw [isSome_update]
    exact (h.paths j).isSome hb
  · have hcnt : (s.update a f).cnt b = s.cnt b := by
      simp only [cnt, node_update]
      split
      · cases s.node b with
        | none => rfl
        | some n => simp [hcount]
      · rfl
    rw [hcnt, refs_update hnext, h.counted]
  · rw [isSome_update] at hb
    exact h.reached b hb

@[simp] theorem link_addRoot_none {m : Link} : (s.addRoot none).link m = s.link m := by
  cases m with
  | next a => rfl
  | root j =>
      simp only [link, Store.addRoot, List.getElem?_append]
      by_cases hj : j < s.roots.length
      · rw [if_pos hj]
      · rw [if_neg hj, List.getElem?_eq_none (Nat.le_of_not_lt hj)]
        cases j - s.roots.length <;> simp

theorem Sound.addRoot (h : s.Sound path) : (s.addRoot none).Sound path := by
  have hcnt : ∀ b, (s.addRoot none).cnt b = s.cnt b := fun _ => rfl
  refine ⟨fun j => ?_, fun b => ?_, h.reached⟩
  · rw [link_addRoot_none]
    exact (h.paths j).congr fun b hb => ⟨(h.paths j).isSome hb, link_addRoot_none⟩
  · have hrefs : (s.addRoot none).refs b = s.refs b + (if none = some b then 1 else 0) := refs_addRoot
    rw [hrefs, hcnt, h.counted]
    simp

theorem Sound.length_le (h : s.Sound path) (i : Nat) : (path i).length ≤ s.nodes.length := by
  have hsub : path i ⊆ List.range s.nodes.length := by
    intro a ha
    obtain ⟨n, hn⟩ := Option.isSome_iff_exists.mp ((h.paths i).isSome ha)
    exact List.mem_range.mpr (lt_of_node hn)
  have hlen := (List.subperm_of_subset (h.paths i).nodup hsub).length_le
  rwa [List.length_range] at hlen

theorem Sound.cnt_pos (h : s.Sound path) (ha : a ∈ path i) : 1 ≤ s.cnt a := by
  obtain ⟨as, bs, hsplit⟩ := List.append_of_mem ha
  have hlink := h.link_here hsplit
  rw [h.counted]
  unfold refs
  cases hl : linkAfter (.root i) as with
  | root j =>
      have := one_le_count _ _ (getElem?_of_link_root (hl ▸ hlink))
      omega
  | next b =>
      have := one_le_count _ _ (getElem?_of_link_next (hl ▸ hlink))
      omega

/-! ## Values -/

def val? (s : Store α) (a : Nat) : Option α := (s.node a).map (·.val)

theorem val?_setLink {p : Option Nat} : (s.setLink l p).val? b = s.val? b := by
  cases l with
  | root i => rfl
  | next a =>
      simp only [val?, setLink, node_update]
      split
      · cases s.node b <;> rfl
      · rfl

theorem val?_update {f : Node α → Node α} (hf : ∀ n, (f n).val = n.val) :
    (s.update a f).val? b = s.val? b := by
  simp only [val?, node_update]
  split
  · cases s.node b with
    | none => rfl
    | some n => simp [hf]
  · rfl

theorem val?_incrTo {p : Option Nat} : (s.incrTo p).val? b = s.val? b := by
  cases p with
  | none => rfl
  | some a => exact val?_update (f := fun n => { n with count := n.count + 1 }) fun _ => rfl

theorem val?_decr : (s.decr a).val? b = s.val? b :=
  val?_update (f := fun n => { n with count := n.count - 1 }) fun _ => rfl

theorem val?_attach {p : Option Nat} : (s.attach i p).val? b = s.val? b := by
  rw [attach, val?_incrTo, val?_setLink]

theorem val?_alloc : (s.alloc n).val? b = if b = s.nodes.length then some n.val else s.val? b := by
  simp only [val?, node_alloc]
  split <;> rfl

theorem val?_cons {v : α} : (s.cons i v).val? b = if b = s.nodes.length then some v else s.val? b := by
  rw [cons, val?_setLink, val?_alloc]

theorem val?_branch {c : Nat} {v : α} :
    (s.branch l c v).val? b = if b = s.nodes.length then some v else s.val? b := by
  have hlen : (s.decr c).nodes.length = s.nodes.length := by simp [decr, Store.update]
  rw [branch, val?_setLink, val?_incrTo, val?_alloc, hlen, val?_decr]

theorem val?_skip {c : Nat} : (s.skip l c).val? b = s.val? b := by
  rw [skip, val?_incrTo, val?_decr, val?_setLink]

theorem val?_drop {c : Nat} : (s.drop l c).val? b = if b = c then none else s.val? b := by
  have hset := val?_setLink (s := s) (l := l) (b := b) (p := s.link (.next c))
  simp only [val?, drop, node_free] at hset ⊢
  split
  · rfl
  · exact hset

theorem val?_leave {c : Nat} : (s.leave i c).val? b = s.val? b := by
  rw [leave, val?_setLink, val?_decr]

theorem cnt_branch {c : Nat} {v : α} (h : s.Sound path) :
    (s.branch l c v).cnt b =
      (if b = s.nodes.length then 1 else s.cnt b - (if c = b then 1 else 0)) +
        (if s.link (.next c) = some b then 1 else 0) := by
  have hlen : (s.decr c).nodes.length = s.nodes.length := by simp [decr, Store.update]
  rw [branch, cnt_setLink, cnt_incrTo, cnt_alloc, hlen, cnt_decr]
  intro a ha
  rw [node_alloc, hlen]
  split
  · rfl
  · rw [decr, isSome_update]
    exact h.closed ha

/-! ## Contents -/

/-- `content i` are the values in the nodes of the list `i`. -/
structure Holds (s : Store α) (path : Nat → List Nat) (content : Nat → List α) : Prop where
  sound : s.Sound path
  vals : ∀ i, (path i).map s.val? = (content i).map some

variable {s' : Store α} {content : Nat → List α}

theorem Holds.length_eq (h : s.Holds path content) (i : Nat) : (path i).length = (content i).length := by
  simpa using congrArg List.length (h.vals i)

/-- What has no root holds nothing. -/
theorem Holds.eq_nil (h : s.Holds path content) (hi : s.roots.length ≤ i) : content i = [] := by
  have hpath := h.sound.paths i
  have hend : s.link (.root i) = none := by simp [link, List.getElem?_eq_none hi]
  rw [hend] at hpath
  have hempty : path i = [] := hpath.unique (show s.Path none [] from rfl)
  exact List.eq_nil_of_length_eq_zero (by rw [← h.length_eq, hempty]; rfl)

theorem Holds.split (h : s.Holds path content) {c : Nat} (hi : path i = as ++ c :: bs) :
    ∃ cs d ds, content i = cs ++ d :: ds ∧ as.map s.val? = cs.map some ∧ s.val? c = some d ∧
      bs.map s.val? = ds.map some := by
  have hvals := h.vals i
  rw [hi, List.map_append, List.map_cons] at hvals
  obtain ⟨cs, es, hsplit, hcs, hes⟩ := List.map_eq_append_iff.mp hvals.symm
  obtain ⟨d, ds, rfl, hd, hds⟩ := List.map_eq_cons_iff.mp hes
  exact ⟨cs, d, ds, hsplit, hcs.symm, hd.symm, hds.symm⟩

/-- One list changes and the others keep their values. -/
theorem Holds.of_sound {as' : List Nat} {vs : List α} (h : s.Holds path content)
    (hsound : s'.Sound (Function.update path i as')) (hkept : ∀ j, j ≠ i → ∀ a ∈ path j, s'.val? a = s.val? a)
    (hvals : as'.map s'.val? = vs.map some) :
    s'.Holds (Function.update path i as') (Function.update content i vs) := by
  refine ⟨hsound, fun j => ?_⟩
  by_cases hj : j = i
  · subst hj
    simpa using hvals
  · rw [Function.update_of_ne hj, Function.update_of_ne hj, ← h.vals j]
    exact List.map_congr_left fun a ha => hkept j hj a ha

theorem Sound.mem_ne_fresh (h : s.Sound path) {j : Nat} (ha : a ∈ path j) : a ≠ s.nodes.length := by
  rintro rfl
  simpa [node_length] using (h.paths j).isSome ha

theorem Holds.attach (h : s.Holds path content) (hi : i < s.roots.length) (hempty : content i = []) :
    (s.attach i (s.link (.root j))).Holds (Function.update path i (path j))
      (Function.update content i (content j)) := by
  have hpath : path i = [] := List.eq_nil_of_length_eq_zero (by rw [h.length_eq, hempty]; rfl)
  refine h.of_sound (h.sound.attach hi hpath) (fun _ _ _ _ => val?_attach) ?_
  rw [← h.vals j]
  exact List.map_congr_left fun _ _ => val?_attach

theorem Holds.cons (h : s.Holds path content) (hi : i < s.roots.length) (v : α) :
    (s.cons i v).Holds (Function.update path i (s.nodes.length :: path i))
      (Function.update content i (v :: content i)) := by
  have hkept : ∀ j, ∀ a ∈ path j, (s.cons i v).val? a = s.val? a := fun j a ha => by
    rw [val?_cons, if_neg (h.sound.mem_ne_fresh ha)]
  refine h.of_sound (h.sound.cons hi v) (fun j _ => hkept j) ?_
  rw [List.map_cons, List.map_cons, val?_cons, if_pos rfl, ← h.vals i]
  rw [List.map_congr_left (hkept i)]

section
variable {c : Nat} {cs ds : List α} {d : α} (h : s.Holds path content) (hi : path i = as ++ c :: bs)
  (hp : s.Private as) (hcs : as.map s.val? = cs.map some) (hds : bs.map s.val? = ds.map some)
include h hi hp hcs hds

theorem Holds.branch (hc : 2 ≤ s.cnt c) (v : α) :
    (s.branch (linkAfter (.root i) as) c v).Holds (Function.update path i (as ++ s.nodes.length :: bs))
      (Function.update content i (cs ++ v :: ds)) := by
  have hkept : ∀ j, ∀ a ∈ path j, (s.branch (linkAfter (.root i) as) c v).val? a = s.val? a :=
    fun j a ha => by rw [val?_branch, if_neg (h.sound.mem_ne_fresh ha)]
  refine h.of_sound (h.sound.branch hi hp hc v) (fun j _ => hkept j) ?_
  have has := List.map_congr_left fun a (ha : a ∈ as) => hkept i a (by simp [hi, ha])
  have hbs := List.map_congr_left fun a (ha : a ∈ bs) => hkept i a (by simp [hi, ha])
  rw [List.map_append, List.map_cons, has, hbs, hcs, hds, val?_branch, if_pos rfl]
  simp

theorem Holds.skip (hc : 2 ≤ s.cnt c) :
    (s.skip (linkAfter (.root i) as) c).Holds (Function.update path i (as ++ bs))
      (Function.update content i (cs ++ ds)) := by
  refine h.of_sound (h.sound.skip hi hp hc) (fun _ _ _ _ => val?_skip) ?_
  rw [List.map_congr_left fun a _ => val?_skip, List.map_append, hcs, hds, List.map_append]

theorem Holds.drop (hc : s.cnt c = 1) :
    (s.drop (linkAfter (.root i) as) c).Holds (Function.update path i (as ++ bs))
      (Function.update content i (cs ++ ds)) := by
  have hsound := h.sound.drop hi hp hc
  have hkept : ∀ a, a ≠ c → (s.drop (linkAfter (.root i) as) c).val? a = s.val? a := fun a ha => by
    rw [val?_drop, if_neg ha]
  obtain ⟨hcas, hbs⟩ := h.sound.disjoint_tail hi
  refine h.of_sound hsound (fun j hj a ha => hkept a ?_) ?_
  · rintro rfl
    have halive := (hsound.paths j).isSome (a := a) (by rwa [Function.update_of_ne hj])
    simp [Store.drop, node_free] at halive
  · have has := List.map_congr_left fun a (ha : a ∈ as) => hkept a fun heq => hcas (heq ▸ ha)
    have hbs := List.map_congr_left fun a (ha : a ∈ bs) => hkept a (hbs a ha).2
    rw [List.map_append, has, hbs, hcs, hds, List.map_append]

/-- The private node `c` gets another value. -/
theorem Holds.rewrite {f : Node α → Node α} (hc : s.cnt c = 1) (hval : s.val? c = some d)
    (hnext : ∀ n, (f n).next = n.next) (hcount : ∀ n, (f n).count = n.count) {v : α}
    (hv : ∀ n, n.val = d → (f n).val = v) :
    (s.update c f).Holds path (Function.update content i (cs ++ v :: ds)) := by
  have hkept : ∀ a, a ≠ c → (s.update c f).val? a = s.val? a := fun a ha => by
    simp only [val?, node_update, if_neg ha]
  have hthere : (s.update c f).val? c = some v := by
    simp only [val?, node_update, if_pos]
    obtain ⟨n, hn, hd⟩ := Option.map_eq_some_iff.mp hval
    simp [hn, hv n hd]
  have hsame : Function.update path i (path i) = path := Function.update_eq_self i path
  rw [← hsame]
  refine h.of_sound (by rw [hsame]; exact h.sound.update hnext hcount) (fun j hj a ha => hkept a ?_) ?_
  · rintro rfl
    have hi' : path i = (as ++ [a]) ++ bs := by rw [hi, List.append_assoc, List.singleton_append]
    have hp' : s.Private (as ++ [a]) := by
      intro b hb
      rcases List.mem_append.mp hb with hb | hb
      · exact hp b hb
      · rw [List.mem_singleton.mp hb]
        exact hc
    exact h.sound.not_mem_of_private hi' hp' hj (by simp) ha
  · obtain ⟨hcas, hbs⟩ := h.sound.disjoint_tail hi
    have has := List.map_congr_left fun a (ha : a ∈ as) => hkept a fun heq => hcas (heq ▸ ha)
    have hbs := List.map_congr_left fun a (ha : a ∈ bs) => hkept a (hbs a ha).2
    rw [hi, List.map_append, List.map_cons, has, hbs, hcs, hds, hthere]
    simp

end

theorem Holds.leave {c : Nat} (h : s.Holds path content) (hi : path i = c :: bs) (hc : 2 ≤ s.cnt c) :
    (s.leave i c).Holds (Function.update path i []) (Function.update content i []) :=
  h.of_sound (h.sound.leave hi hc) (fun _ _ _ _ => val?_leave) rfl

theorem Holds.addRoot (h : s.Holds path content) : (s.addRoot none).Holds path content :=
  ⟨h.sound.addRoot, h.vals⟩

end

end Store

end SharedLists
