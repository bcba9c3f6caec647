import Mathlib.Data.List.MinMax
import Mathlib.Data.List.Nodup

/-! # Keeping the best offer for each key

A list keeps one record for each key. A record that is offered replaces the first one of its key if it
costs less, and otherwise it is kept only if its key is new. The records of one key change as if they were
alone, so that from an empty list the first of the cheapest offers is left, and from a list with one record
for each key a record that is already there wins against what is not cheaper.
-/

namespace Ns3Raft.Lib.BestOffer

variable {ρ κ μ : Type} [DecidableEq κ] [LinearOrder μ] (key : ρ → κ) (cost : ρ → μ)

def offer (kept : List ρ) (r : ρ) : List ρ :=
  match kept.find? (key · = key r) with
  | none => kept ++ [r]
  | some old => if cost r < cost old then kept.eraseP (key · = key r) ++ [r] else kept

/-- The same, of records that have one key. -/
def offerOne (kept : List ρ) (r : ρ) : List ρ :=
  match kept with
  | [] => [r]
  | old :: rest => if cost r < cost old then rest ++ [r] else old :: rest

variable {key cost} {kept offers : List ρ} {r old : ρ} {k : κ}

theorem filter_key_of_find_none (h : kept.find? (key · = k) = none) : kept.filter (key · = k) = [] :=
  List.filter_eq_nil_iff.2 fun r hr => List.find?_eq_none.1 h r hr

/-- The first record of a key leads those of the key, and erasing it leaves the others. -/
theorem filter_key_of_find (h : kept.find? (key · = k) = some old) :
    kept.filter (key · = k) = old :: (kept.eraseP (key · = k)).filter (key · = k) ∧
      ∀ k' ≠ k, (kept.eraseP (key · = k)).filter (key · = k') = kept.filter (key · = k') := by
  induction kept with
  | nil => exact absurd h (by simp)
  | cons r kept ih =>
    by_cases hkey : key r = k
    · rw [List.find?_cons_of_pos (by simpa using hkey)] at h
      obtain rfl := Option.some.inj h
      refine ⟨?_, fun k' hne => ?_⟩
      · rw [List.filter_cons_of_pos (by simpa using hkey), List.eraseP_cons_of_pos (by simpa using hkey)]
      · rw [List.eraseP_cons_of_pos (by simpa using hkey), List.filter_cons_of_neg (by simpa [hkey] using hne.symm)]
    · rw [List.find?_cons_of_neg (by simpa using hkey)] at h
      obtain ⟨hsame, hother⟩ := ih h
      refine ⟨?_, fun k' hne => ?_⟩
      · rw [List.filter_cons_of_neg (by simpa using hkey), List.eraseP_cons_of_neg (by simpa using hkey),
          List.filter_cons_of_neg (by simpa using hkey)]
        exact hsame
      · rw [List.eraseP_cons_of_neg (by simpa using hkey), List.filter_cons, List.filter_cons, hother k' hne]

/-- An offer changes the records of its key only. -/
theorem filter_offer (k : κ) : (offer key cost kept r).filter (key · = k) =
    if key r = k then offerOne cost (kept.filter (key · = k)) r else kept.filter (key · = k) := by
  unfold offer
  cases hfind : kept.find? (key · = key r) with
  | none =>
    dsimp only
    rw [List.filter_append]
    by_cases hkey : key r = k
    · subst hkey
      rw [if_pos rfl, filter_key_of_find_none hfind, List.filter_cons_of_pos (by simp), List.filter_nil]
      rfl
    · rw [if_neg hkey, List.filter_cons_of_neg (by simpa using hkey), List.filter_nil, List.append_nil]
  | some old =>
    dsimp only
    obtain ⟨hsame, hother⟩ := filter_key_of_find hfind
    by_cases hkey : key r = k
    · subst hkey
      rw [if_pos rfl, hsame, offerOne]
      split
      · rw [List.filter_append, List.filter_cons_of_pos (by simp), List.filter_nil]
      · exact hsame
    · rw [if_neg hkey]
      split
      · rw [List.filter_append, hother k (Ne.symm hkey), List.filter_cons_of_neg (by simpa using hkey), List.filter_nil,
          List.append_nil]
      · rfl

theorem filter_foldl_offer (k : κ) : (offers.foldl (offer key cost) kept).filter (key · = k) =
    (offers.filter (key · = k)).foldl (offerOne cost) (kept.filter (key · = k)) := by
  induction offers generalizing kept with
  | nil => rfl
  | cons r offers ih =>
    rw [List.foldl_cons, ih, filter_offer]
    by_cases hkey : key r = k
    · rw [if_pos hkey, List.filter_cons_of_pos (by simpa using hkey), List.foldl_cons]
    · rw [if_neg hkey, List.filter_cons_of_neg (by simpa using hkey)]

/-- The first of the cheapest is left. -/
theorem foldl_offerOne_nil (offers : List ρ) : offers.foldl (offerOne cost) [] = (offers.argmin cost).toList := by
  induction offers using List.reverseRecOn with
  | nil => rfl
  | append_singleton offers r ih =>
    rw [List.foldl_append, ih, List.argmin_concat]
    cases offers.argmin cost with
    | none => rfl
    | some best =>
      dsimp only [Option.toList, List.foldl, offerOne]
      split <;> rfl

theorem foldl_offerOne_singleton (old : ρ) (offers : List ρ) :
    offers.foldl (offerOne cost) [old] = ((old :: offers).argmin cost).toList := by
  rw [← foldl_offerOne_nil]
  rfl

/-- No offer changes how many there are. -/
theorem length_foldl_offerOne (h : kept ≠ []) : (offers.foldl (offerOne cost) kept).length = kept.length := by
  induction offers generalizing kept with
  | nil => rfl
  | cons r offers ih =>
    obtain ⟨old, rest, rfl⟩ := List.exists_cons_of_ne_nil h
    rw [List.foldl_cons, offerOne]
    split
    · rw [ih (by simp)]
      simp
    · exact ih (by simp)

/-- The records that are there do not matter if there is at most one, and the first of the cheapest offers
costs less or is the record itself. -/
theorem foldl_offerOne_eq_iff : offers.foldl (offerOne cost) kept = (offers.argmin cost).toList ↔
    kept.length ≤ 1 ∧ ∀ old ∈ kept, ∃ best ∈ offers.argmin cost, cost best < cost old ∨ old = best := by
  match kept with
  | [] => simp [foldl_offerOne_nil]
  | [old] =>
    rw [foldl_offerOne_singleton, List.argmin_cons]
    cases offers.argmin cost with
    | none => simp
    | some best =>
      by_cases hlt : cost best < cost old <;> simp [hlt]
  | old :: old' :: rest =>
    refine iff_of_false (fun heq => ?_) fun hlen => absurd hlen.1 (by simp)
    have hlength : (offers.foldl (offerOne cost) (old :: old' :: rest)).length = (old :: old' :: rest).length :=
      length_foldl_offerOne (List.cons_ne_nil _ _)
    rw [heq] at hlength
    cases hbest : offers.argmin cost <;> simp [hbest] at hlength

end Ns3Raft.Lib.BestOffer
