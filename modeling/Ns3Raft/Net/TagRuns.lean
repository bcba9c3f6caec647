import Ns3Raft.Net.TagTraversal

/-! # Tag lists as maps

Every list of a program beside a map of its own. They agree, and the counts are
those of the pointers, as long as every value that is rewritten in place has room
where the old one was.
-/

namespace Ns3Raft.Net

open SharedLists SharedLists.Store Transition PacketTagList

variable {Ty V : Type} [DecidableEq Ty]

/-- What a list is meant to be. -/
abbrev TagMap (Ty V : Type) : Type := Ty → Option V

abbrev TagMap.empty : TagMap Ty V := fun _ => none

abbrev TagMap.put (m : TagMap Ty V) (ty : Ty) (v : Option V) : TagMap Ty V := Function.update m ty v

/-- The lists of a program, and what a program with maps has in their place. -/
structure TagRun (Ty V : Type) where
  lists : TagLists Ty V
  maps : List (TagMap Ty V)
  answers : List (TagAnswer V)

namespace TagRun

def mapAt (maps : List (TagMap Ty V)) (i : Nat) : TagMap Ty V := maps.getD i .empty

def mapEffect (F : TagFamily Ty V) (maps : List (TagMap Ty V)) :
    TagOp Ty V → TagAnswer V × List (TagMap Ty V)
  | .construct => (.done, maps ++ [.empty])
  | .copy j => (.done, maps ++ [mapAt maps j])
  | .assign i j => (.done, maps.set i (mapAt maps j))
  | .add i v => (.done, maps.set i ((mapAt maps i).put (F.typeOf v) (some v)))
  | .remove i ty => (.value (mapAt maps i ty), maps.set i ((mapAt maps i).put ty none))
  | .replace i v =>
      (.found (mapAt maps i (F.typeOf v)).isSome,
        maps.set i ((mapAt maps i).put (F.typeOf v) (some v)))
  | .peek i ty => (.value (mapAt maps i ty), maps)
  | .removeAll i => (.done, maps.set i .empty)

def new : TagRun Ty V := ⟨.new, [], []⟩

variable (F : TagFamily Ty V)

def step (p : TagRun Ty V) (op : TagOp Ty V) : TagRun Ty V where
  lists := p.lists.step F op
  maps := (mapEffect F p.maps op).2
  answers := p.answers ++ [(mapEffect F p.maps op).1]

/-- The lists exist, and a type is added once. -/
def Asked (p : TagRun Ty V) : TagOp Ty V → Prop
  | .construct => True
  | .copy j => j < p.maps.length
  | .assign i j => i < p.maps.length ∧ j < p.maps.length
  | .add i v => i < p.maps.length ∧ mapAt p.maps i (F.typeOf v) = none
  | .remove i _ | .replace i _ | .peek i _ | .removeAll i => i < p.maps.length

/-- A value that is rewritten in place has room there. -/
def StepFits (p : TagRun Ty V) : TagOp Ty V → Prop
  | .replace i v => Room F p.lists.store i v
  | _ => True

/-- The lists are maps, and the nodes are counted and all in use. -/
structure Persistent (p : TagRun Ty V) : Prop where
  intact : p.lists.corrupt = false
  answers : p.lists.answers = p.answers
  contents : ∀ i ty, peek F p.lists.store i ty = mapAt p.maps i ty
  counted : ∀ a n, p.lists.store.node a = some n → n.count = p.lists.store.refs a
  closed : ∀ l a, p.lists.store.link l = some a → (p.lists.store.node a).isSome
  used : ∀ a, (p.lists.store.node a).isSome →
    ∃ i as, p.lists.store.Path (p.lists.store.link (.root i)) as ∧ a ∈ as

/-- The map of the values of a list. -/
def valueOf (ds : List (TagData Ty)) : TagMap Ty V := fun ty =>
  (ds.find? (·.tid = ty)).map fun d => F.deserialize ty d.data

/-- The values of every list are those of its map, and no type is there twice. -/
structure Tells (content : Nat → List (TagData Ty)) (maps : List (TagMap Ty V)) : Prop where
  once : ∀ i, ((content i).map (·.tid)).Nodup
  value : ∀ i, valueOf F (content i) = mapAt maps i

/-- What is kept along a run. -/
structure Sound (p : TagRun Ty V) : Prop where
  intact : p.lists.corrupt = false
  answers : p.lists.answers = p.answers
  length : p.lists.store.roots.length = p.maps.length
  holds : ∃ path content, p.lists.store.Holds path content ∧ Tells F content p.maps

variable {F} {p : TagRun Ty V}

theorem Sound.persistent (h : p.Sound F) : p.Persistent F := by
  obtain ⟨path, content, hholds, htells⟩ := h.holds
  refine ⟨h.intact, h.answers, fun i ty => ?_, fun a n hn => ?_, fun l a => hholds.sound.closed, fun a ha => ?_⟩
  · rw [peek_eq F hholds, ← htells.value i]
    rfl
  · rw [← hholds.sound.counted a, cnt, hn]
    rfl
  · obtain ⟨i, hi⟩ := hholds.sound.reached a ha
    exact ⟨i, path i, hholds.sound.paths i, hi⟩

/-! ## Maps of values -/

variable {content : Nat → List (TagData Ty)} {maps : List (TagMap Ty V)} {path : Nat → List Nat} {i : Nat}
  {cs ds : List (TagData Ty)} {d : TagData Ty}

omit [DecidableEq Ty] in
theorem mapAt_set (hi : i < maps.length) (m : TagMap Ty V) (j : Nat) :
    mapAt (maps.set i m) j = if j = i then m else mapAt maps j := by
  rw [mapAt, List.getD_eq_getElem?_getD, List.getElem?_set]
  by_cases hj : i = j
  · simp [← hj, hi]
  · rw [if_neg hj, if_neg (Ne.symm hj), mapAt, List.getD_eq_getElem?_getD]

omit [DecidableEq Ty] in
theorem mapAt_append (m : TagMap Ty V) (j : Nat) :
    mapAt (maps ++ [m]) j = if j = maps.length then m else mapAt maps j := by
  rw [mapAt, mapAt, List.getD_eq_getElem?_getD, List.getD_eq_getElem?_getD]
  rcases Nat.lt_trichotomy j maps.length with hj | rfl | hj
  · rw [List.getElem?_append_left hj, if_neg (Nat.ne_of_lt hj)]
  · simp
  · rw [List.getElem?_eq_none (by simp; omega), List.getElem?_eq_none (by omega),
      if_neg (Nat.ne_of_gt hj)]

theorem valueOf_none (hnone : ∀ e ∈ ds, e.tid ≠ d.tid) : valueOf F ds d.tid = none := by
  have hfind : ds.find? (·.tid = d.tid) = none := List.find?_eq_none.mpr fun e he => by simpa using hnone e he
  rw [valueOf, hfind, Option.map_none]

theorem valueOf_append_cons (cs ds : List (TagData Ty)) (hfront : ∀ e ∈ cs, e.tid ≠ d.tid) :
    valueOf F (cs ++ d :: ds) =
      Function.update (valueOf F (cs ++ ds)) d.tid (some (F.deserialize d.tid d.data)) := by
  funext ty
  have hcs : cs.find? (·.tid = d.tid) = none :=
    List.find?_eq_none.mpr fun e he => by simpa using hfront e he
  by_cases hty : ty = d.tid
  · subst hty
    simp [valueOf, List.find?_append, hcs]
  · rw [Function.update_of_ne hty]
    simp [valueOf, List.find?_append, Ne.symm hty]

omit [DecidableEq Ty] in
/-- The types on both sides of a value are other types. -/
theorem tids_split (honce : ((cs ++ d :: ds).map (·.tid)).Nodup) :
    ((cs ++ ds).map (·.tid)).Nodup ∧ ∀ e ∈ cs ++ ds, e.tid ≠ d.tid := by
  rw [List.map_append, List.map_cons, List.nodup_middle, List.nodup_cons, ← List.map_append] at honce
  refine ⟨honce.2, fun e he heq => honce.1 ?_⟩
  rw [← heq]
  exact List.mem_map_of_mem he

theorem valueOf_without (honce : ((cs ++ d :: ds).map (·.tid)).Nodup) :
    valueOf F (cs ++ ds) = Function.update (valueOf F (cs ++ d :: ds)) d.tid none := by
  have hother := (tids_split honce).2
  rw [valueOf_append_cons _ _ fun e he => hother e (List.mem_append_left _ he), Function.update_idem,
    ← valueOf_none (F := F) hother, Function.update_eq_self]

theorem valueOf_with {e : TagData Ty} (honce : ((cs ++ d :: ds).map (·.tid)).Nodup) (htid : e.tid = d.tid) :
    valueOf F (cs ++ e :: ds) =
      Function.update (valueOf F (cs ++ d :: ds)) d.tid (some (F.deserialize d.tid e.data)) := by
  have hother := (tids_split honce).2
  have hfront : ∀ x ∈ cs, x.tid ≠ d.tid := fun x hx => hother x (List.mem_append_left _ hx)
  rw [valueOf_append_cons _ _ hfront, Function.update_idem, ← htid,
    valueOf_append_cons _ _ fun x hx => htid ▸ hfront x hx]

theorem Tells.set (h : Tells F content maps) (hi : i < maps.length) {m : TagMap Ty V}
    (honce : (cs.map (·.tid)).Nodup) (hvalue : valueOf F cs = m) :
    Tells F (Function.update content i cs) (maps.set i m) := by
  refine ⟨fun j => ?_, fun j => ?_⟩
  · by_cases hj : j = i
    · subst hj
      simpa using honce
    · rw [Function.update_of_ne hj]
      exact h.once j
  · rw [mapAt_set hi]
    by_cases hj : j = i
    · subst hj
      simpa using hvalue
    · rw [Function.update_of_ne hj, if_neg hj]
      exact h.value j

theorem Tells.append (h : Tells F content maps) (m : TagMap Ty V)
    (honce : (cs.map (·.tid)).Nodup) (hvalue : valueOf F cs = m) :
    Tells F (Function.update content maps.length cs) (maps ++ [m]) := by
  refine ⟨fun j => ?_, fun j => ?_⟩
  · by_cases hj : j = maps.length
    · subst hj
      simpa using honce
    · rw [Function.update_of_ne hj]
      exact h.once j
  · rw [mapAt_append]
    by_cases hj : j = maps.length
    · subst hj
      simpa using hvalue
    · rw [Function.update_of_ne hj, if_neg hj]
      exact h.value j

/-! ## Steps -/

variable {op : TagOp Ty V}

theorem sound_new : (new : TagRun Ty V).Sound F where
  intact := rfl
  answers := rfl
  length := rfl
  holds := by
    have hsound : (TagLists.new : TagLists Ty V).store.Sound fun _ => [] :=
      ⟨fun i => rfl, fun a => rfl, fun a ha => by cases ha⟩
    exact ⟨fun _ => [], fun _ => [], ⟨hsound, fun i => rfl⟩, fun i => List.nodup_nil, fun i => rfl⟩

/-- An operation that ends well, with the answer of the maps. -/
theorem Sound.of_effect (store : TagStore Ty) (h : p.Sound F)
    (heffect : TagLists.effect F p.lists.store op = some ((mapEffect F p.maps op).1, store))
    (hlength : store.roots.length = (mapEffect F p.maps op).2.length)
    (hholds : ∃ path content, store.Holds path content ∧ Tells F content (mapEffect F p.maps op).2) :
    (p.step F op).Sound F := by
  have hstep : (p.step F op).lists =
      { p.lists with store := store, answers := p.lists.answers ++ [(mapEffect F p.maps op).1] } := by
    simp only [step, TagLists.step, heffect]
  refine ⟨?_, ?_, ?_, ?_⟩
  · rw [hstep]
    exact h.intact
  · rw [hstep]
    simp only [step, h.answers]
  · rw [hstep]
    exact hlength
  · rw [hstep]
    exact hholds

theorem Sound.construct (h : p.Sound F) : (p.step F .construct).Sound F := by
  obtain ⟨path, content, hholds, htells⟩ := h.holds
  have hnone : content p.maps.length = [] := hholds.eq_nil (Nat.le_of_eq h.length)
  have hthen := htells.append .empty (show (([] : List (TagData Ty)).map (·.tid)).Nodup from List.nodup_nil) rfl
  rw [← hnone, Function.update_eq_self] at hthen
  refine h.of_effect _ rfl ?_ ⟨path, content, hholds.addRoot, hthen⟩
  simp [mapEffect, addRoot, h.length]

theorem Sound.copy {j : Nat} (h : p.Sound F) : (p.step F (.copy j)).Sound F := by
  obtain ⟨path, content, hholds, htells⟩ := h.holds
  obtain ⟨path', hholds'⟩ := copy_spec hholds j
  rw [h.length] at hholds'
  refine h.of_effect _ rfl ?_ ⟨path', _, hholds', htells.append _ (htells.once j) (htells.value j)⟩
  simp [mapEffect, PacketTagList.copy, attach, addRoot, h.length]

theorem Sound.assign {j : Nat} (h : p.Sound F) (hi : i < p.maps.length) :
    (p.step F (.assign i j)).Sound F := by
  obtain ⟨path, content, hholds, htells⟩ := h.holds
  obtain ⟨path', hholds'⟩ := assign_spec hholds (h.length ▸ hi) j
  refine h.of_effect _ rfl ?_ ⟨path', _, hholds', htells.set hi (htells.once j) (htells.value j)⟩
  rw [roots_length_assign, h.length]
  simp [mapEffect]

theorem Sound.removeAll (h : p.Sound F) (hi : i < p.maps.length) :
    (p.step F (.removeAll i)).Sound F := by
  obtain ⟨path, content, hholds, htells⟩ := h.holds
  obtain ⟨path', hholds'⟩ := removeAll_spec hholds (h.length ▸ hi)
  refine h.of_effect _ rfl ?_ ⟨path', _, hholds', htells.set hi List.nodup_nil rfl⟩
  rw [roots_length_removeAll, h.length]
  simp [mapEffect]

theorem Sound.peek {ty : Ty} (h : p.Sound F) : (p.step F (.peek i ty)).Sound F := by
  refine h.of_effect _ ?_ h.length h.holds
  rw [TagLists.effect, h.persistent.contents]
  rfl

/-- A value of a new type in front of the others. -/
theorem tells_add {v : V} (hholds : p.lists.store.Holds path content) (htells : Tells F content p.maps)
    (hlength : p.lists.store.roots.length = p.maps.length) (hi : i < p.maps.length)
    (hnew : ∀ d ∈ content i, d.tid ≠ F.typeOf v) :
    ∃ path content, (PacketTagList.add F p.lists.store i v).Holds path content ∧
      Tells F content (p.maps.set i ((mapAt p.maps i).put (F.typeOf v) (some v))) := by
  refine ⟨_, _, hholds.cons (hlength ▸ hi) ⟨F.typeOf v, F.serialize v⟩, htells.set hi ?_ ?_⟩
  · rw [List.map_cons, List.nodup_cons]
    refine ⟨fun hmem => ?_, htells.once i⟩
    obtain ⟨d, hd, htid⟩ := List.mem_map.mp hmem
    exact hnew d hd htid
  · have hread := F.read v []
    rw [List.append_nil] at hread
    have hcons := valueOf_append_cons (F := F) [] (content i)
      (d := ⟨F.typeOf v, F.serialize v⟩) (by simp)
    simpa [hread, htells.value i] using hcons

theorem mem_of_mapAt (htells : Tells F content p.maps) {ty : Ty} (hnone : mapAt p.maps i ty = none) :
    ∀ d ∈ content i, d.tid ≠ ty := by
  rw [← htells.value i, valueOf, Option.map_eq_none_iff, List.find?_eq_none] at hnone
  exact fun d hd => by simpa using hnone d hd

theorem mapAt_of_mem (htells : Tells F content p.maps) {ty : Ty} (hnone : ∀ d ∈ content i, d.tid ≠ ty) :
    mapAt p.maps i ty = none := by
  rw [← htells.value i, valueOf, Option.map_eq_none_iff, List.find?_eq_none]
  exact fun d hd => by simpa using hnone d hd

theorem Sound.add {v : V} (h : p.Sound F) (hi : i < p.maps.length)
    (hnone : mapAt p.maps i (F.typeOf v) = none) : (p.step F (.add i v)).Sound F := by
  obtain ⟨path, content, hholds, htells⟩ := h.holds
  refine h.of_effect _ rfl ?_ (tells_add hholds htells h.length hi (mem_of_mapAt htells hnone))
  simp [mapEffect, PacketTagList.add, Store.cons, alloc, h.length]

/-- The value of the type that stands between the others. -/
theorem mapAt_split (htells : Tells F content p.maps) (hcontent : content i = cs ++ d :: ds) :
    mapAt p.maps i d.tid = some (F.deserialize d.tid d.data) := by
  have honce := htells.once i
  rw [hcontent] at honce
  rw [← htells.value i, hcontent, valueOf_append_cons _ _ fun e he =>
    (tids_split honce).2 e (List.mem_append_left _ he), Function.update_self]

theorem Sound.remove {ty : Ty} (h : p.Sound F) (hi : i < p.maps.length) :
    (p.step F (.remove i ty)).Sound F := by
  obtain ⟨path, content, hholds, htells⟩ := h.holds
  rcases remove_spec F hholds i ty with ⟨hremove, hnone⟩ |
    ⟨cs, d, ds, s', path', hcontent, rfl, -, hremove, hlength, hholds'⟩
  · have hat : mapAt p.maps i ty = none := mapAt_of_mem htells hnone
    have hsame : (mapAt p.maps i).put ty none = mapAt p.maps i := by
      rw [TagMap.put, ← hat, Function.update_eq_self]
    refine h.of_effect p.lists.store ?_ ?_ ⟨path, content, hholds, ?_⟩
    · simp [TagLists.effect, hremove, mapEffect, hat]
    · simpa [mapEffect] using h.length
    · have hset := htells.set hi (htells.once i) (htells.value i)
      rw [Function.update_eq_self] at hset
      simpa only [mapEffect, hsame] using hset
  · have honce := htells.once i
    rw [hcontent] at honce
    refine h.of_effect s' ?_ ?_ ⟨path', _, hholds', htells.set hi (tids_split honce).1 ?_⟩
    · simp [TagLists.effect, hremove, mapEffect, mapAt_split htells hcontent]
    · simpa [mapEffect, hlength] using h.length
    · rw [valueOf_without honce, ← hcontent, htells.value i]

theorem Sound.replace {v : V} (h : p.Sound F) (hi : i < p.maps.length) (hroom : Room F p.lists.store i v) :
    (p.step F (.replace i v)).Sound F := by
  obtain ⟨path, content, hholds, htells⟩ := h.holds
  rcases replace_spec F hholds i v with ⟨-, hreplace, hnone⟩ |
    ⟨cs, d, ds, hcontent, htid, -, ⟨hno, -⟩ | ⟨-, rest, s', path', hreplace, hlength, hholds'⟩⟩
  · have hat : mapAt p.maps i (F.typeOf v) = none := mapAt_of_mem htells hnone
    refine h.of_effect (PacketTagList.add F p.lists.store i v) ?_ ?_
      (tells_add hholds htells h.length hi hnone)
    · simp [TagLists.effect, hreplace, mapEffect, hat]
    · simp [mapEffect, PacketTagList.add, Store.cons, alloc, h.length]
  · exact absurd hroom hno
  · have honce := htells.once i
    rw [hcontent] at honce
    have hat : mapAt p.maps i (F.typeOf v) = some (F.deserialize d.tid d.data) :=
      htid ▸ mapAt_split htells hcontent
    refine h.of_effect s' ?_ ?_ ⟨path', _, hholds', htells.set hi ?_ ?_⟩
    · simp [TagLists.effect, hreplace, mapEffect, hat]
    · simpa [mapEffect, hlength] using h.length
    · simpa [htid] using honce
    · rw [valueOf_with honce htid.symm, ← hcontent, htells.value i]
      simp only [htid, F.read v rest]

theorem Sound.step (h : p.Sound F) (hok : p.Asked F op) (hfit : p.StepFits F op) :
    (p.step F op).Sound F := by
  cases op with
  | construct => exact h.construct
  | copy j => exact h.copy
  | assign i j => exact h.assign hok.1
  | add i v => exact h.add hok.1 hok.2
  | remove i ty => exact h.remove hok
  | replace i v => exact h.replace hok hfit
  | peek i ty => exact h.peek
  | removeAll i => exact h.removeAll hok

/-- A value that goes behind the end of the old one is the end of every promise. -/
theorem Sound.stepFits (h : p.Sound F) (ht : (p.step F op).Persistent F) : p.StepFits F op := by
  cases op with
  | replace i v =>
      by_contra hno
      obtain ⟨path, content, hholds, htells⟩ := h.holds
      rcases replace_spec F hholds i v with ⟨hroom, -⟩ | ⟨cs, d, ds, -, -, -, ⟨-, hreplace⟩ | ⟨hroom, -⟩⟩
      · exact hno hroom
      · have hintact := ht.intact
        simp [TagRun.step, TagLists.step, TagLists.effect, hreplace] at hintact
      · exact hno hroom
  | construct | copy j | assign i j | add i v | remove i ty | peek i ty | removeAll i => trivial

/-- Exactly the runs in which what is rewritten in place has room there keep every list a map of its
own, with counts that are right and nothing freed early or left over. -/
theorem lists_are_persistent_maps_iff {tr : List (TagRun Ty V × TagOp Ty V)}
    (h : Run (step F) (Asked F) new tr p) :
    ((∀ x ∈ tr, x.1.Persistent F) ∧ p.Persistent F) ↔ ∀ x ∈ tr, x.1.StepFits F x.2 := by
  refine h.kept_iff sound_new (fun s hs => hs.persistent) (fun s op hs hok hfit => ?_) fun s op hs hok ht => ?_
  · exact hs.step hok hfit
  · exact hs.stepFits ht

instance [DecidableEq V] (p : TagRun Ty V) : DecidablePred (p.Asked F)
  | .construct => inferInstanceAs (Decidable True)
  | .copy _ | .remove _ _ | .replace _ _ | .peek _ _ | .removeAll _ => inferInstanceAs (Decidable (_ < _))
  | .assign _ _ => inferInstanceAs (Decidable (_ ∧ _))
  | .add _ _ => inferInstanceAs (Decidable (_ ∧ _))

instance (p : TagRun Ty V) : DecidablePred (p.StepFits F)
  | .replace i v => inferInstanceAs (Decidable (Room F p.lists.store i v))
  | .construct | .copy _ | .assign _ _ | .add _ _ | .remove _ _ | .peek _ _ | .removeAll _ =>
      inferInstanceAs (Decidable True)

/-! ## A tag of two sizes -/

/-- A number for its type, and a byte that may be missing. -/
def byteTags : TagFamily Nat (Nat × Option UInt8) where
  typeOf v := v.1
  serialize v :=
    match v.2 with
    | none => [0]
    | some b => [1, b]
  deserialize ty data :=
    match data with
    | 1 :: b :: _ => (ty, some b)
    | _ => (ty, none)
  read v rest := by
    obtain ⟨ty, _ | b⟩ := v
    · rfl
    · rfl

/-- Two lists with the tag `7` in common, which one of them replaces by a longer one. -/
def sharedRun : List (TagOp Nat (Nat × Option UInt8)) :=
  [.construct, .add 0 (7, none), .add 0 (8, some 2), .copy 0, .replace 1 (7, some 3), .peek 0 7,
    .replace 1 (8, none), .remove 0 8, .assign 0 1, .replace 0 (7, some 4), .remove 1 7, .removeAll 0, .peek 1 8]

theorem lists_are_persistent_maps_iff_shared :
    (sharedRun.foldl (step byteTags) new).Persistent byteTags := by
  have hpasses : Passes (step byteTags) (Asked byteTags) new sharedRun := by decide +kernel
  have hfits : ∀ x ∈ trace (step byteTags) new sharedRun, x.1.StepFits byteTags x.2 := by decide +kernel
  exact ((lists_are_persistent_maps_iff (run_of_passes _ _ _ _ hpasses)).mpr hfits).2

/-- The tag of the only list is replaced by a longer one. -/
def tightRun : List (TagOp Nat (Nat × Option UInt8)) := [.construct, .add 0 (7, none), .replace 0 (7, some 3)]

theorem not_lists_are_persistent_maps :
    ¬ ∀ (tr : List (TagRun Nat (Nat × Option UInt8) × TagOp Nat (Nat × Option UInt8)))
      (p : TagRun Nat (Nat × Option UInt8)), Run (step byteTags) (Asked byteTags) new tr p →
        p.Persistent byteTags := by
  intro hall
  have hpasses : Passes (step byteTags) (Asked byteTags) new tightRun := by decide +kernel
  have hintact := (hall _ _ (run_of_passes _ _ _ _ hpasses)).intact
  revert hintact
  decide +kernel

end TagRun

end Ns3Raft.Net
