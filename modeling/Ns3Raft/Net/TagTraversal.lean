import Ns3Raft.Net.PacketTagList

/-! # The traversal of a tag list

What `COWTraverse` finds, what it copies and what the writers leave. The contents
of the list change at the tag alone, and no other list changes.
-/

namespace Ns3Raft.Net.PacketTagList

open SharedLists SharedLists.Store

variable {Ty V : Type} [DecidableEq Ty] {F : TagFamily Ty V} {s : TagStore Ty}
  {path : Nat → List Nat} {content : Nat → List (TagData Ty)} {i : Nat} {tid : Ty}

omit [DecidableEq Ty] in
theorem tidOf_eq_map (a : Nat) : tidOf s a = (s.val? a).map (·.tid) := by
  simp [tidOf, val?, Function.comp_def]

omit [DecidableEq Ty] in
theorem tidOf_eq {a : Nat} {d : TagData Ty} (h : s.val? a = some d) : tidOf s a = some d.tid := by
  obtain ⟨n, hn, rfl⟩ := Option.map_eq_some_iff.mp h
  simp [tidOf, hn]

omit [DecidableEq Ty] in
/-- The type of a node is that of the value which stands for it. -/
theorem mem_content_of_tidOf {as : List Nat} {cs : List (TagData Ty)} (h : as.map s.val? = cs.map some) :
    (∃ a ∈ as, tidOf s a = some tid) ↔ ∃ d ∈ cs, d.tid = tid := by
  induction as generalizing cs with
  | nil =>
      cases cs with
      | nil => simp
      | cons d cs => simp at h
  | cons a as ih =>
      cases cs with
      | nil => simp at h
      | cons d cs =>
          simp only [List.map_cons, List.cons.injEq] at h
          simp [tidOf_eq h.1, ih h.2]

theorem find_eq {p : Option Nat} {as : List Nat} (h : s.Path p as) {fuel : Nat} (hfuel : as.length ≤ fuel) :
    find s tid fuel p = as.find? fun a => tidOf s a = some tid := by
  induction as generalizing p fuel with
  | nil =>
      obtain rfl : p = none := h
      cases fuel <;> rfl
  | cons a as ih =>
      obtain ⟨rfl, -, hrest⟩ := h
      cases fuel with
      | zero => simp at hfuel
      | succ fuel =>
          have hthen := ih hrest (Nat.le_of_succ_le_succ hfuel)
          rw [find, List.find?_cons]
          by_cases hat : tidOf s a = some tid
          · simp [hat]
          · simp [hat, hthen]

/-- The cases of the first loop. -/
inductive Searched (s : TagStore Ty) (tid : Ty) (i : Nat) (nodes : List Nat) : Found → Prop where
  | missing : (∀ a ∈ nodes, tidOf s a ≠ some tid) → Searched s tid i nodes .missing
  | owned {as bs : List Nat} {c : Nat} : nodes = as ++ c :: bs → s.Private as →
      (∀ a ∈ as, tidOf s a ≠ some tid) → s.cnt c = 1 → tidOf s c = some tid →
      Searched s tid i nodes (.owned (linkAfter (.root i) as) c)
  | merge {as bs : List Nat} {c : Nat} : nodes = as ++ c :: bs → s.Private as →
      (∀ a ∈ as, tidOf s a ≠ some tid) → 2 ≤ s.cnt c →
      Searched s tid i nodes (.merge (linkAfter (.root i) as) c)

theorem searched_from (h : s.Sound path) {as bs : List Nat} (hi : path i = as ++ bs) (hp : s.Private as)
    (has : ∀ a ∈ as, tidOf s a ≠ some tid) {fuel : Nat} (hfuel : bs.length ≤ fuel) :
    Searched s tid i (path i)
      (search s tid fuel (linkAfter (.root i) as) (s.link (linkAfter (.root i) as))) := by
  induction bs generalizing as fuel with
  | nil =>
      have hpath := h.paths i
      rw [hi] at hpath
      have hend : s.link (linkAfter (.root i) as) = none := hpath.after
      have hall : ∀ a ∈ path i, tidOf s a ≠ some tid := by simpa [hi] using has
      rw [hend]
      cases fuel <;> exact .missing hall
  | cons c bs ih =>
      cases fuel with
      | zero => simp at hfuel
      | succ fuel =>
          rw [h.link_here hi, search]
          by_cases hmerge : 1 < s.cnt c
          · rw [if_pos hmerge]
            exact .merge hi hp has hmerge
          · rw [if_neg hmerge]
            have hone : s.cnt c = 1 := by
              have := h.cnt_pos (show c ∈ path i by simp [hi])
              omega
            by_cases htid : tidOf s c = some tid
            · rw [if_pos htid]
              exact .owned hi hp has hone htid
            · rw [if_neg htid]
              have hi' : path i = (as ++ [c]) ++ bs := by rw [hi, List.append_assoc, List.singleton_append]
              have hp' : s.Private (as ++ [c]) := by
                intro a ha
                rcases List.mem_append.mp ha with ha | ha
                · exact hp a ha
                · rw [List.mem_singleton.mp ha]
                  exact hone
              have has' : ∀ a ∈ as ++ [c], tidOf s a ≠ some tid := by
                intro a ha
                rcases List.mem_append.mp ha with ha | ha
                · exact has a ha
                · rw [List.mem_singleton.mp ha]
                  exact htid
              have hthen := ih hi' hp' has' (Nat.le_of_succ_le_succ hfuel)
              rw [linkAfter_append] at hthen
              exact hthen

theorem searched (h : s.Sound path) :
    Searched s tid i (path i) (search s tid s.nodes.length (.root i) (s.link (.root i))) :=
  searched_from h (show path i = [] ++ path i from rfl) (by simp [Private]) (by simp) (h.length_le i)

/-- The copies have taken the places of the shared nodes in front of the tag. -/
structure Copied (s' : TagStore Ty) (tid : Ty) (i : Nat) (content : Nat → List (TagData Ty))
    (prevNext : Link) (cur : Nat) : Prop where
  holds : ∃ path as bs, s'.Holds path content ∧ path i = as ++ cur :: bs ∧ s'.Private as ∧
    (∀ a ∈ as, tidOf s' a ≠ some tid) ∧ prevNext = linkAfter (.root i) as
  shared : 2 ≤ s'.cnt cur
  tid : tidOf s' cur = some tid

theorem copied (h : s.Holds path content) {as bs : List Nat} {c : Nat} (hi : path i = as ++ c :: bs)
    (hp : s.Private as) (has : ∀ a ∈ as, tidOf s a ≠ some tid) (hc : 2 ≤ s.cnt c)
    (htid : ∃ a ∈ c :: bs, tidOf s a = some tid) {fuel : Nat} (hfuel : bs.length + 1 ≤ fuel) :
    Copied (copyLoop s tid fuel (linkAfter (.root i) as) c).1 tid i content
      (copyLoop s tid fuel (linkAfter (.root i) as) c).2.1
      (copyLoop s tid fuel (linkAfter (.root i) as) c).2.2 := by
  induction bs generalizing s path as c fuel with
  | nil =>
      have hat : tidOf s c = some tid := by simpa using htid
      obtain ⟨fuel, rfl⟩ : ∃ k, fuel = k + 1 := ⟨fuel - 1, by omega⟩
      rw [copyLoop, if_pos hat]
      exact ⟨⟨path, as, [], h, hi, hp, has, rfl⟩, hc, hat⟩
  | cons d bs ih =>
      obtain ⟨fuel, rfl⟩ : ∃ k, fuel = k + 1 := ⟨fuel - 1, by omega⟩
      have hfuel' : bs.length + 1 ≤ fuel := Nat.le_of_succ_le_succ hfuel
      rw [copyLoop]
      by_cases hat : tidOf s c = some tid
      · rw [if_pos hat]
        exact ⟨⟨path, as, d :: bs, h, hi, hp, has, rfl⟩, hc, hat⟩
      · rw [if_neg hat]
        obtain ⟨n, hn⟩ := Option.isSome_iff_exists.mp (h.sound.closed (h.sound.link_here hi))
        have htail := h.sound.tail_path hi
        have hnext : n.next = some d := by
          have heq := htail.1
          simpa [link, hn] using heq
        simp only [hn, hnext]
        let s₁ := s.branch (linkAfter (.root i) as) c n.val
        obtain ⟨cs, e, ds, hcontent, hcs, he, hds⟩ := h.split hi
        obtain rfl : e = n.val := by simpa [val?, hn] using he.symm
        have hholds := h.branch hi hp hcs hds hc n.val
        rw [← hcontent, Function.update_eq_self] at hholds
        obtain ⟨hcas, hbs⟩ := h.sound.disjoint_tail hi
        have hfresh : ∀ a ∈ path i, a ≠ s.nodes.length := fun a ha => h.sound.mem_ne_fresh ha
        have hval : ∀ a ∈ path i, tidOf s₁ a = tidOf s a := fun a ha => by
          rw [tidOf_eq_map, val?_branch, if_neg (hfresh a ha), ← tidOf_eq_map]
        have hnew : tidOf s₁ s.nodes.length = tidOf s c := by
          rw [tidOf_eq_map, val?_branch, if_pos rfl, tidOf_eq_map, he]
        have hcnt : ∀ b, s₁.cnt b = (if b = s.nodes.length then 1 else s.cnt b - (if c = b then 1 else 0)) +
            (if s.link (.next c) = some b then 1 else 0) := fun b => cnt_branch h.sound
        have hlink : s.link (.next c) = some d := htail.1
        have hd : d ≠ s.nodes.length := hfresh d (by simp [hi])
        have hdc : d ≠ c := (hbs d (by simp)).2
        have hprivate : s₁.Private (as ++ [s.nodes.length]) := by
          intro a ha
          rcases List.mem_append.mp ha with ha | ha
          · have hac : c ≠ a := fun heq => hcas (heq ▸ ha)
            have hda : d ≠ a := fun heq => (hbs d (by simp)).1 (heq ▸ ha)
            rw [hcnt, if_neg (hfresh a (by simp [hi, ha])), if_neg hac, hlink]
            simpa [hda] using hp a ha
          · obtain rfl : a = s.nodes.length := by simpa using ha
            rw [hcnt, if_pos rfl, hlink]
            simp [hd]
        have hother : ∀ a ∈ as ++ [s.nodes.length], tidOf s₁ a ≠ some tid := by
          intro a ha
          rcases List.mem_append.mp ha with ha | ha
          · rw [hval a (by simp [hi, ha])]
            exact has a ha
          · obtain rfl : a = s.nodes.length := by simpa using ha
            rwa [hnew]
        have hshared : 2 ≤ s₁.cnt d := by
          have := h.sound.cnt_pos (show d ∈ path i by simp [hi])
          rw [hcnt, if_neg hd, if_neg (Ne.symm hdc), if_pos hlink]
          omega
        have hthere : ∃ a ∈ d :: bs, tidOf s₁ a = some tid := by
          obtain ⟨a, ha, htid⟩ := htid
          rcases List.mem_cons.mp ha with rfl | ha
          · exact absurd htid hat
          · exact ⟨a, ha, by rw [hval a (by rw [hi]; simp [ha])]; exact htid⟩
        have hsplit : Function.update path i (as ++ s.nodes.length :: d :: bs) i =
            (as ++ [s.nodes.length]) ++ d :: bs := by simp
        have hthen := ih hholds hsplit hprivate hother hshared hthere hfuel'
        rw [linkAfter_append] at hthen
        exact hthen

theorem roots_copyLoop {fuel : Nat} {prevNext : Link} {cur : Nat} :
    (copyLoop s tid fuel prevNext cur).1.roots.length = s.roots.length := by
  induction fuel generalizing s prevNext cur with
  | zero => rfl
  | succ fuel ih =>
      rw [copyLoop]
      split
      · rfl
      · split
        · rfl
        · split
          · rfl
          · rw [ih, branch, roots_length_setLink, roots_incrTo]
            rfl

/-- The tag stands behind a part of the list that is its own. -/
structure At (s : TagStore Ty) (path : Nat → List Nat) (content : Nat → List (TagData Ty)) (i : Nat)
    (tid : Ty) (as bs : List Nat) (c : Nat) : Prop where
  holds : s.Holds path content
  split : path i = as ++ c :: bs
  own : s.Private as
  front : ∀ a ∈ as, tidOf s a ≠ some tid
  tid : tidOf s c = some tid

/-- Three ways through `COWTraverse`. -/
inductive Traversed (s : TagStore Ty) (content : Nat → List (TagData Ty)) (i : Nat) (tid : Ty) : Prop where
  | missing : (∀ d ∈ content i, d.tid ≠ tid) →
      (∀ (γ : Type) (writer : Writer Ty γ), cowTraverse s i tid writer = some (none, s)) →
      Traversed s content i tid
  | owned {path : Nat → List Nat} {as bs : List Nat} {c : Nat} : At s path content i tid as bs c →
      s.cnt c = 1 →
      search s tid s.nodes.length (.root i) (s.link (.root i)) = .owned (linkAfter (.root i) as) c →
      (∀ (γ : Type) (writer : Writer Ty γ), cowTraverse s i tid writer =
        (writer s true c (linkAfter (.root i) as)).map fun r => (some r.1, r.2)) →
      Traversed s content i tid
  | shared {s' : TagStore Ty} {path : Nat → List Nat} {as bs : List Nat} {c : Nat} :
      At s' path content i tid as bs c → 2 ≤ s'.cnt c → s'.roots.length = s.roots.length →
      (∀ l a, search s tid s.nodes.length (.root i) (s.link (.root i)) ≠ .owned l a) →
      (∀ (γ : Type) (writer : Writer Ty γ), cowTraverse s i tid writer =
        (writer s' false c (linkAfter (.root i) as)).map fun r => (some r.1, r.2)) →
      Traversed s content i tid

theorem traversed (h : s.Holds path content) (i : Nat) (tid : Ty) : Traversed s content i tid := by
  have hsearched : Searched s tid i (path i) (search s tid s.nodes.length (.root i) (s.link (.root i))) :=
    searched h.sound
  have hnone : (∀ a ∈ path i, tidOf s a ≠ some tid) → ∀ d ∈ content i, d.tid ≠ tid := fun hall d hd heq => by
    obtain ⟨a, ha, htid⟩ := (mem_content_of_tidOf (h.vals i)).mpr ⟨d, hd, heq⟩
    exact hall a ha htid
  cases hsearch : search s tid s.nodes.length (.root i) (s.link (.root i)) with
  | missing =>
      rw [hsearch] at hsearched
      cases hsearched with
      | missing hall => exact .missing (hnone hall) fun γ writer => by simp only [cowTraverse, hsearch]
  | owned l c =>
      rw [hsearch] at hsearched
      cases hsearched with
      | owned hi hp has hc htid =>
          exact .owned ⟨h, hi, hp, has, htid⟩ hc hsearch fun γ writer => by simp only [cowTraverse, hsearch]
  | merge l c =>
      rw [hsearch] at hsearched
      cases hsearched with
      | @merge as bs _ hi hp has hc =>
          have hpath := h.sound.paths i
          rw [hi] at hpath
          have hlen := h.sound.length_le i
          rw [hi, List.length_append, List.length_cons] at hlen
          have hfind : find s tid s.nodes.length (some c) = (c :: bs).find? fun a => tidOf s a = some tid :=
            find_eq hpath.suffix (by simp only [List.length_cons]; omega)
          cases hfound : (c :: bs).find? fun a => tidOf s a = some tid with
          | none =>
              refine .missing (hnone fun a ha => ?_) fun γ writer => by
                simp only [cowTraverse, hsearch, hfind, hfound]
              rw [hi] at ha
              rcases List.mem_append.mp ha with ha | ha
              · exact has a ha
              · simpa using List.find?_eq_none.mp hfound a ha
          | some b =>
              have hthere : ∃ a ∈ c :: bs, tidOf s a = some tid :=
                ⟨b, List.mem_of_find?_eq_some hfound, by simpa using List.find?_some hfound⟩
              have hfuel : bs.length + 1 ≤ s.nodes.length := by omega
              have hcopied := copied h hi hp has hc hthere hfuel
              obtain ⟨⟨path', as', bs', hholds, hi', hp', has', hlink⟩, hshared, htid⟩ := hcopied
              refine .shared ⟨hholds, hi', hp', has', htid⟩ hshared roots_copyLoop
                (fun l a => by rw [hsearch]; simp) fun γ writer => ?_
              simp only [cowTraverse, hsearch, hfind, hfound]
              rw [hlink]

omit [DecidableEq Ty] in
/-- The tag's value between those in front of it and those behind it. -/
theorem At.split_content {as bs : List Nat} {c : Nat} (h : At s path content i tid as bs c) :
    ∃ cs d ds, content i = cs ++ d :: ds ∧ as.map s.val? = cs.map some ∧ s.val? c = some d ∧
      bs.map s.val? = ds.map some ∧ d.tid = tid ∧ ∀ e ∈ cs, e.tid ≠ tid := by
  obtain ⟨cs, d, ds, hcontent, hcs, hd, hds⟩ := h.holds.split h.split
  refine ⟨cs, d, ds, hcontent, hcs, hd, hds, ?_, fun e he heq => ?_⟩
  · simpa [tidOf_eq hd] using h.tid
  · obtain ⟨a, ha, htid⟩ := (mem_content_of_tidOf hcs).mpr ⟨e, he, heq⟩
    exact h.front a ha htid

/-! ## The operations -/

variable (F)

/-- The new value has room where the old one is. -/
def Room (s : TagStore Ty) (i : Nat) (v : V) : Prop :=
  match search s (F.typeOf v) s.nodes.length (.root i) (s.link (.root i)) with
  | .owned _ cur => ∀ n ∈ s.node cur, (F.serialize v).length ≤ n.val.data.length
  | _ => True

instance (s : TagStore Ty) (i : Nat) (v : V) : Decidable (Room F s i v) := by
  unfold Room
  split
  · infer_instance
  · infer_instance

theorem remove_spec (h : s.Holds path content) (i : Nat) (tid : Ty) :
    (remove F s i tid = some (none, s) ∧ ∀ d ∈ content i, d.tid ≠ tid) ∨
      ∃ cs d ds s' path', content i = cs ++ d :: ds ∧ d.tid = tid ∧ (∀ e ∈ cs, e.tid ≠ tid) ∧
        remove F s i tid = some (some (F.deserialize tid d.data), s') ∧
        s'.roots.length = s.roots.length ∧ s'.Holds path' (Function.update content i (cs ++ ds)) := by
  cases traversed h i tid with
  | missing hnone hrun => exact Or.inl ⟨hrun _ _, hnone⟩
  | owned hat hc _ hrun =>
      obtain ⟨cs, d, ds, hcontent, hcs, hd, hds, htid, hfront⟩ := hat.split_content
      obtain ⟨n, hn, rfl⟩ := Option.map_eq_some_iff.mp hd
      refine Or.inr ⟨cs, n.val, ds, _, _, hcontent, htid, hfront, ?_, ?_,
        hat.holds.drop hat.split hat.own hcs hds hc⟩
      · simp [remove, hrun, removeWriter, hn]
      · simp [Store.drop, Store.free]
  | @shared s' _ as _ c hat hc hlen _ hrun =>
      obtain ⟨cs, d, ds, hcontent, hcs, hd, hds, htid, hfront⟩ := hat.split_content
      obtain ⟨n, hn, rfl⟩ := Option.map_eq_some_iff.mp hd
      refine Or.inr ⟨cs, n.val, ds, _, _, hcontent, htid, hfront, ?_, ?_,
        hat.holds.skip hat.split hat.own hcs hds hc⟩
      · simp [remove, hrun, removeWriter, hn]
      · rw [Store.skip, roots_incrTo, ← hlen]
        exact roots_length_setLink

theorem replace_spec (h : s.Holds path content) (i : Nat) (v : V) :
    (Room F s i v ∧ replace F s i v = some (false, add F s i v) ∧ ∀ d ∈ content i, d.tid ≠ F.typeOf v) ∨
      ∃ cs d ds, content i = cs ++ d :: ds ∧ d.tid = F.typeOf v ∧ (∀ e ∈ cs, e.tid ≠ F.typeOf v) ∧
        ((¬ Room F s i v ∧ replace F s i v = none) ∨
          Room F s i v ∧ ∃ rest s' path', replace F s i v = some (true, s') ∧
            s'.roots.length = s.roots.length ∧
            s'.Holds path' (Function.update content i (cs ++ ⟨F.typeOf v, F.serialize v ++ rest⟩ :: ds))) := by
  cases traversed h i (F.typeOf v) with
  | missing hnone hrun =>
      refine Or.inl ⟨?_, by simp [replace, hrun], hnone⟩
      unfold Room
      split
      · next l cur hsearch =>
          have hthen := hrun Unit fun _ _ _ _ => none
          simp [cowTraverse, hsearch] at hthen
      · trivial
  | @owned _ as _ c hat hc hsearch hrun =>
      obtain ⟨cs, d, ds, hcontent, hcs, hd, hds, htid, hfront⟩ := hat.split_content
      refine Or.inr ⟨cs, d, ds, hcontent, htid, hfront, ?_⟩
      obtain ⟨n, hn, hnd⟩ := Option.map_eq_some_iff.mp hd
      have hroom : Room F s i v ↔ (F.serialize v).length ≤ n.val.data.length := by
        simp [Room, hsearch, hn]
      by_cases hfit : (F.serialize v).length ≤ n.val.data.length
      · refine Or.inr ⟨hroom.mpr hfit, d.data.drop (F.serialize v).length, _, _, ?_, ?_,
          hat.holds.rewrite hat.split hat.own hcs hds hc hd (fun _ => rfl) (fun _ => rfl)
            (f := fun n => { n with val.data := F.serialize v ++ n.val.data.drop (F.serialize v).length })
            fun m hm => ?_⟩
        · simp [replace, hrun, replaceWriter, hn, hfit]
        · rfl
        · simp [hm, ← htid]
      · exact Or.inl ⟨fun hr => hfit (hroom.mp hr), by simp [replace, hrun, replaceWriter, hn, hfit]⟩
  | @shared s' _ as _ c hat hc hlen hne hrun =>
      obtain ⟨cs, d, ds, hcontent, hcs, hd, hds, htid, hfront⟩ := hat.split_content
      refine Or.inr ⟨cs, d, ds, hcontent, htid, hfront, Or.inr ⟨?_, [], _, _, ?_, ?_,
        hat.holds.branch hat.split hat.own hcs hds hc _⟩⟩
      · unfold Room
        split
        · next l cur hsearch => exact absurd hsearch (hne l cur)
        · trivial
      · simp [replace, hrun, replaceWriter]
      · rw [Store.branch, roots_length_setLink, roots_incrTo, ← hlen]
        rfl

theorem peek_eq (h : s.Holds path content) (i : Nat) (tid : Ty) :
    peek F s i tid = ((content i).find? (·.tid = tid)).map fun d => F.deserialize tid d.data := by
  have hfind : find s tid s.nodes.length (s.link (.root i)) =
      (path i).find? fun a => tidOf s a = some tid := find_eq (h.sound.paths i) (h.sound.length_le i)
  have hmap : ∀ (as : List Nat) (cs : List (TagData Ty)), as.map s.val? = cs.map some →
      ((as.find? fun a => tidOf s a = some tid).bind (s.node ·)).map (fun n => F.deserialize tid n.val.data) =
        (cs.find? (·.tid = tid)).map fun d => F.deserialize tid d.data := by
    intro as
    induction as with
    | nil =>
        intro cs hcs
        obtain rfl : cs = [] := by simpa using hcs.symm
        rfl
    | cons a as ih =>
        intro cs hcs
        cases cs with
        | nil => simp at hcs
        | cons d cs =>
            simp only [List.map_cons, List.cons.injEq] at hcs
            obtain ⟨n, hn, rfl⟩ := Option.map_eq_some_iff.mp hcs.1
            have htid : tidOf s a = some n.val.tid := tidOf_eq hcs.1
            rw [List.find?_cons, List.find?_cons]
            by_cases heq : n.val.tid = tid
            · simp [htid, heq, hn]
            · simp only [htid, Option.some.injEq, heq, decide_false]
              exact ih cs hcs.2
  rw [peek, hfind]
  exact hmap _ _ (h.vals i)

/-! ## `RemoveAll` -/

omit [DecidableEq Ty] in
theorem store_eq {s s' : TagStore Ty} (hnodes : ∀ k : Nat, s.nodes[k]? = s'.nodes[k]?)
    (hroots : s.roots = s'.roots) : s = s' := by
  cases s
  cases s'
  simp only [Store.mk.injEq]
  exact ⟨List.ext_getElem? hnodes, hroots⟩

omit [DecidableEq Ty] in
theorem freeTag_decr {prev : Option Nat} {c : Nat} (hprev : prev ≠ some c) :
    freeTag (s.decr c) prev = (freeTag s prev).decr c := by
  cases prev with
  | none => rfl
  | some a =>
      have hac : a ≠ c := fun heq => hprev (congrArg some heq)
      refine store_eq (fun k => ?_) rfl
      simp only [freeTag, Store.free, decr, Store.update, List.getElem?_set, List.getElem?_modify,
        List.length_modify]
      by_cases hk : a = k
      · subst hk
        by_cases hlt : a < s.nodes.length <;> simp [Ne.symm hac, hlt]
      · simp [hk]

omit [DecidableEq Ty] in
theorem free_decr {c : Nat} : (s.decr c).free c = s.free c := by
  refine store_eq (fun k => ?_) rfl
  simp only [Store.free, decr, Store.update, List.getElem?_set, List.getElem?_modify, List.length_modify]
  by_cases hk : c = k
  · simp [hk]
  · simp [hk]

omit [DecidableEq Ty] in
theorem cnt_freeTag {prev : Option Nat} {c : Nat} (hprev : prev ≠ some c) :
    (freeTag s prev).cnt c = s.cnt c := by
  cases prev with
  | none => rfl
  | some a =>
      have hca : c ≠ a := fun heq => hprev (congrArg some heq.symm)
      rw [freeTag, cnt_free, if_neg hca]

omit [DecidableEq Ty] in
@[simp] theorem roots_freeTag {prev : Option Nat} : (freeTag s prev).roots = s.roots := by
  cases prev <;> rfl

omit [DecidableEq Ty] in
/-- The loop takes the nodes of the list one by one, as if its head went along with it. -/
theorem removeAllLoop_holds {prev cur : Option Nat} {fuel : Nat} {as : List Nat}
    (h : ((freeTag s prev).setLink (.root i) cur).Holds path content) (hi : i < s.roots.length)
    (has : path i = as) (hprev : ∀ a ∈ as, prev ≠ some a) (hfuel : as.length < fuel) :
    ∃ path', ((removeAllLoop s fuel prev cur).setLink (.root i) none).Holds path'
      (Function.update content i []) := by
  have hvalid : (freeTag s prev).Valid (.root i) := by simpa [Valid] using hi
  have hroot : ((freeTag s prev).setLink (.root i) cur).link (.root i) = cur := by
    rw [link_setLink hvalid, if_pos rfl]
  have hpath := h.sound.paths i
  rw [hroot, has] at hpath
  induction as generalizing s path content prev cur fuel with
  | nil =>
      obtain ⟨fuel, rfl⟩ : ∃ k, fuel = k + 1 := ⟨fuel - 1, by omega⟩
      obtain rfl : cur = none := hpath
      have hempty : content i = [] := List.eq_nil_of_length_eq_zero (by rw [← h.length_eq, has]; rfl)
      refine ⟨path, ?_⟩
      rw [← hempty, Function.update_eq_self, removeAllLoop]
      · exact h
      · simp
  | cons c bs ih =>
      obtain ⟨fuel, rfl⟩ : ∃ k, fuel = k + 1 := ⟨fuel - 1, by omega⟩
      obtain ⟨rfl, -, -⟩ := hpath
      let v := (freeTag s prev).setLink (.root i) (some c)
      have hpc : prev ≠ some c := hprev c (by simp)
      have hcnt : v.cnt c = s.cnt c := by rw [cnt_setLink, cnt_freeTag hpc]
      have hpos := h.sound.cnt_pos (show c ∈ path i by simp [has])
      rw [removeAllLoop]
      by_cases hshared : 0 < (s.decr c).cnt c
      · have htwo : 2 ≤ v.cnt c := by
          rw [cnt_decr, if_pos rfl] at hshared
          omega
        rw [if_pos hshared]
        have heq : (freeTag (s.decr c) prev).setLink (.root i) none = v.leave i c := by
          rw [freeTag_decr hpc]
          refine store_eq (fun k => rfl) ?_
          simp [v, leave, setLink, decr, Store.update]
        rw [heq]
        exact ⟨_, h.leave has htwo⟩
      · have hone : v.cnt c = 1 := by
          change 1 ≤ v.cnt c at hpos
          rw [cnt_decr, if_pos rfl] at hshared
          omega
        rw [if_neg hshared, freeTag_decr hpc]
        obtain ⟨cs, d, ds, hcontent, hcs, hd, hds⟩ := h.split (show path i = [] ++ c :: bs from has)
        have hholds := h.drop (show path i = [] ++ c :: bs from has) (by simp [Private]) hcs hds hone
        let s₂ := (freeTag s prev).decr c
        have hcur : s₂.link (.next c) = v.link (.next c) := link_decr
        have heq : (freeTag s₂ (some c)).setLink (.root i) (s₂.link (.next c)) =
            v.drop (linkAfter (.root i) []) c := by
          rw [hcur, freeTag, free_decr]
          refine store_eq (fun k => rfl) ?_
          simp [v, drop, setLink, linkAfter, Store.free]
        rw [← heq] at hholds
        have hnodup : c ∉ bs := (List.nodup_cons.mp (has ▸ (h.sound.paths i).nodup)).1
        have hvalid' : (freeTag s₂ (some c)).Valid (.root i) := by
          simpa [s₂, Valid, decr, Store.update] using hi
        have hlink : ((freeTag s₂ (some c)).setLink (.root i) (s₂.link (.next c))).link (.root i) =
            s₂.link (.next c) := by
          rw [link_setLink hvalid', if_pos rfl]
        have hthen := hholds.sound.paths i
        rw [hlink, Function.update_self] at hthen
        obtain ⟨path', hpath'⟩ := ih hholds (by simpa [s₂, decr, Store.update] using hi) (by simp)
          (fun a ha heq => hnodup (by obtain rfl : c = a := by simpa using heq
                                      exact ha))
          (by simp at hfuel; omega) hvalid' hlink hthen
        exact ⟨path', by simpa using hpath'⟩

omit [DecidableEq Ty] in
theorem removeAll_spec (h : s.Holds path content) (hi : i < s.roots.length) :
    ∃ path', (removeAll s i).Holds path' (Function.update content i []) := by
  have hself : (freeTag s none).setLink (.root i) (s.link (.root i)) = s := by
    refine store_eq (fun k => rfl) ?_
    have hat : s.link (.root i) = s.roots[i] := by simp [link, List.getElem?_eq_getElem hi]
    simp [freeTag, setLink, hat]
  rw [← hself] at h
  refine removeAllLoop_holds h hi rfl (by simp) ?_
  rw [hself] at h
  exact Nat.lt_succ_of_le (h.sound.length_le i)

omit [DecidableEq Ty] in
theorem roots_removeAllLoop {fuel : Nat} {prev cur : Option Nat} :
    (removeAllLoop s fuel prev cur).roots = s.roots := by
  induction fuel generalizing s prev cur with
  | zero => simp [removeAllLoop]
  | succ fuel ih =>
      cases cur with
      | none => simp [removeAllLoop]
      | some c =>
          rw [removeAllLoop]
          split
          · rw [roots_freeTag]
            rfl
          · rw [ih, roots_freeTag]
            rfl

omit [DecidableEq Ty] in
theorem roots_length_removeAll : (removeAll s i).roots.length = s.roots.length := by
  rw [removeAll, roots_length_setLink, roots_removeAllLoop]

omit [DecidableEq Ty] in
/-- Two lists with one head hold the same. -/
theorem content_eq_of_link (h : s.Holds path content) {j : Nat}
    (heq : s.link (.root i) = s.link (.root j)) : content i = content j := by
  have hpath : path i = path j := (h.sound.paths i).unique (heq ▸ h.sound.paths j)
  have hvals : (content i).map some = (content j).map some := by
    rw [← h.vals i, ← h.vals j, hpath]
  exact (List.map_injective_iff.mpr fun _ _ h => Option.some.inj h) hvals

omit [DecidableEq Ty] in
theorem assign_spec (h : s.Holds path content) (hi : i < s.roots.length) (j : Nat) :
    ∃ path', (assign s i j).Holds path' (Function.update content i (content j)) := by
  rw [assign]
  split
  · next heq =>
      refine ⟨path, ?_⟩
      rw [← content_eq_of_link h heq, Function.update_eq_self]
      exact h
  · next hne =>
      have hij : j ≠ i := fun heq => hne (by rw [heq])
      obtain ⟨path', hpath'⟩ := removeAll_spec h hi
      have hlen : i < (removeAll s i).roots.length := by rwa [roots_length_removeAll]
      have hlink : (removeAll s i).link (.root j) = s.link (.root j) := by
        simp [removeAll, link, setLink, roots_removeAllLoop, List.getElem?_set_ne (Ne.symm hij)]
      have hattach := hpath'.attach hlen (j := j) (by simp)
      rw [hlink, Function.update_of_ne hij, Function.update_idem] at hattach
      exact ⟨_, hattach⟩

omit [DecidableEq Ty] in
theorem roots_length_assign {j : Nat} : (assign s i j).roots.length = s.roots.length := by
  rw [assign]
  split
  · rfl
  · rw [attach, roots_incrTo, roots_length_setLink, roots_length_removeAll]

omit [DecidableEq Ty] in
theorem copy_spec (h : s.Holds path content) (j : Nat) :
    ∃ path', (copy s j).Holds path' (Function.update content s.roots.length (content j)) := by
  have hnone : content s.roots.length = [] := h.eq_nil (Nat.le_refl _)
  have hlen : s.roots.length < (s.addRoot none).roots.length := by simp [Store.addRoot]
  have hattach := h.addRoot.attach hlen hnone (j := j)
  rw [link_addRoot_none] at hattach
  exact ⟨_, hattach⟩

end Ns3Raft.Net.PacketTagList
