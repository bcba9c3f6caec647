import Ns3Raft.Net.NixVector

/-! # Nix-vectors as stacks of fields

The words of a nix-vector are the digits of one number, which the fields make up.
-/

namespace Ns3Raft.Net

namespace NixVector

variable {nv : NixVector} {x n : BitVec 32}

/-! ## Shifts -/

theorem shl_eq (x : BitVec 32) (h : n.toNat < 32) : shl x n = .ok (x <<< n.toNat) :=
  if_pos (BitVec.lt_def.2 h)

theorem shr_eq (x : BitVec 32) (h : n.toNat < 32) : shr x n = .ok (x >>> n.toNat) :=
  if_pos (BitVec.lt_def.2 h)

theorem shl_undefined (x : BitVec 32) (h : 32 ≤ n.toNat) : shl x n = .error .undefinedShift :=
  if_neg fun hlt => Nat.not_lt_of_le h (BitVec.lt_def.1 hlt)

theorem toNat_shl (x : BitVec 32) (k : Nat) : (x <<< k).toNat = x.toNat * 2 ^ k % 2 ^ 32 := by
  rw [BitVec.toNat_shiftLeft, Nat.shiftLeft_eq]

theorem toNat_shr (x : BitVec 32) (k : Nat) : (x >>> k).toNat = x.toNat / 2 ^ k := by
  rw [BitVec.toNat_ushiftRight, Nat.shiftRight_eq_div_pow]

theorem toNat_sub_of_le {a b : BitVec 32} (h : b.toNat ≤ a.toNat) : (a - b).toNat = a.toNat - b.toNat := by
  have ha := a.isLt
  rw [BitVec.toNat_sub]
  omega

/-! ## The number in the words -/

def digits (ws : List (BitVec 32)) : List Nat := ws.map BitVec.toNat

def value (ws : List (BitVec 32)) : Nat := Nat.ofDigits (2 ^ 32) (digits ws)

theorem digits_lt (ws : List (BitVec 32)) : ∀ d ∈ digits ws, d < 2 ^ 32 := by
  intro d hd
  obtain ⟨w, -, rfl⟩ := List.mem_map.1 hd
  exact w.isLt

theorem value_append (ws : List (BitVec 32)) (w : BitVec 32) :
    value (ws ++ [w]) = value ws + 2 ^ (32 * ws.length) * w.toNat := by
  rw [value, digits, List.map_append, Nat.ofDigits_append, List.length_map, ← pow_mul]
  simp [value, digits]

theorem word_eq {i : BitVec 32} (hi : i.toNat < nv.nixVector.length) :
    ∃ w, nv.word i = .ok w ∧ w.toNat = window (value nv.nixVector) (32 * i.toNat) 32 := by
  have hwindow := window.getElem_eq (digits_lt nv.nixVector) i.toNat (by rw [digits, List.length_map]; exact hi)
  refine ⟨nv.nixVector[i.toNat], ?_, ?_⟩
  · rw [word, List.getElem?_eq_getElem hi]
  · rw [value, ← hwindow]
    simp [digits]

/-! ## Fields -/

/-- A number and its width. -/
abbrev Field := BitVec 32 × BitVec 32

def Field.Fits (f : Field) : Prop := 1 ≤ f.2.toNat ∧ f.2.toNat ≤ 32 ∧ f.1.toNat < 2 ^ f.2.toNat

/-- The number of bits. -/
def total (fields : List Field) : Nat := (fields.map fun f => f.2.toNat).sum

/-- The field that was added last is on top of the others. -/
def stackValue : List Field → Nat
  | [] => 0
  | f :: rest => f.1.toNat * 2 ^ total rest + stackValue rest

variable {done rest : List Field} {v b : BitVec 32}

@[simp]
theorem total_cons (v b : BitVec 32) (rest : List Field) : total ((v, b) :: rest) = b.toNat + total rest := by
  simp [total]

theorem stackValue_lt (h : ∀ f ∈ done, f.Fits) : stackValue done < 2 ^ total done := by
  induction done with
  | nil => exact Nat.one_pos
  | cons f rest ih =>
    obtain ⟨v, b⟩ := f
    have hrest := ih fun g hg => h g (List.mem_cons_of_mem _ hg)
    have hv : v.toNat < 2 ^ b.toNat := (h _ List.mem_cons_self).2.2
    have hmul := Nat.mul_le_mul_right (2 ^ total rest) (show v.toNat + 1 ≤ 2 ^ b.toNat from hv)
    rw [Nat.add_mul] at hmul
    rw [total_cons, pow_add]
    show v.toNat * 2 ^ total rest + stackValue rest < _
    omega

/-! ## Adding -/

/-- The fields are all there is in the words. -/
structure Packed (done : List Field) (nv : NixVector) : Prop where
  used : nv.used = 0#32
  total_eq : nv.totalBitSize.toNat = total done
  current_le : nv.currentVectorBitSize.toNat ≤ 32
  words : ∃ ws w, nv.nixVector = ws ++ [w] ∧ total done = 32 * ws.length + nv.currentVectorBitSize.toNat
  value_eq : value nv.nixVector = stackValue done

theorem packed_create : Packed [] create :=
  ⟨rfl, rfl, by decide, ⟨[], 0#32, rfl, rfl⟩, by simp [value, digits, create, stackValue]⟩

/-- The bits of the last word end where the current size says. -/
theorem Packed.last_lt (h : Packed done nv) (hdone : ∀ f ∈ done, f.Fits) {ws : List (BitVec 32)} {w : BitVec 32}
    (hws : nv.nixVector = ws ++ [w]) (htotal : total done = 32 * ws.length + nv.currentVectorBitSize.toNat) :
    w.toNat < 2 ^ nv.currentVectorBitSize.toNat := by
  have hval := h.value_eq
  have hlt := stackValue_lt hdone
  rw [← hval, hws, value_append, htotal, pow_add] at hlt
  exact Nat.lt_of_mul_lt_mul_left (Nat.lt_of_le_of_lt (Nat.le_add_left _ _) hlt)

/-- The disjunction with the shifted bits adds what is not shifted out. -/
theorem value_or {ws : List (BitVec 32)} {w : BitVec 32} {c : Nat} (hw : w.toNat < 2 ^ c) (hc : c ≤ 32) (v : BitVec 32) :
    value (ws ++ [(v <<< c) ||| w]) = value (ws ++ [w]) + 2 ^ (32 * ws.length) * (v.toNat * 2 ^ c % 2 ^ 32) := by
  have hpow : 2 ^ 32 = 2 ^ (32 - c) * 2 ^ c := by
    rw [← pow_add]
    congr 1
    omega
  have hor : ((v <<< c) ||| w).toNat = v.toNat * 2 ^ c % 2 ^ 32 + w.toNat := by
    rw [BitVec.toNat_or, toNat_shl, hpow, Nat.mul_mod_mul_right, window.or_eq_add hw]
  rw [value_append, value_append, hor]
  ring

theorem Packed.addNeighborIndex (h : Packed done nv) (hdone : ∀ f ∈ done, f.Fits) (hf : Field.Fits (v, b))
    (htotal : total ((v, b) :: done) < 2 ^ 32) :
    ∃ nv', nv.addNeighborIndex v b = .ok nv' ∧ Packed ((v, b) :: done) nv' := by
  obtain ⟨hb, hb32, hv⟩ := hf
  obtain ⟨ws, w, hws, hsum⟩ := h.words
  have hw := h.last_lt hdone hws hsum
  have hcurrent := h.current_le
  have hval := h.value_eq
  have hlong : ¬ b > 32#32 := fun hgt => Nat.not_lt_of_le hb32 (BitVec.lt_def.1 hgt)
  have hback : nv.back = w := by simp [back, hws]
  have hset : ∀ w', nv.setBack w' = ws ++ [w'] := fun w' => by simp [setBack, hws]
  rw [hws, value_append] at hval
  simp only at hb hb32 hv
  rw [total_cons] at htotal
  have htotal' : (nv.totalBitSize + b).toNat = total ((v, b) :: done) := by
    rw [BitVec.toNat_add, h.total_eq, total_cons]
    omega
  have hsize : (nv.currentVectorBitSize + b).toNat = nv.currentVectorBitSize.toNat + b.toNat := by
    rw [BitVec.toNat_add]
    omega
  rcases Nat.lt_or_ge 32 (nv.currentVectorBitSize.toNat + b.toNat) with hover | hfit
  · have hgt : nv.currentVectorBitSize + b > 32#32 := BitVec.lt_def.2 (by rw [hsize]; exact hover)
    by_cases hfull : nv.currentVectorBitSize = 32#32
    · -- a new word
      refine ⟨⟨nv.nixVector ++ [v], nv.used, b, nv.totalBitSize + b⟩, ?_, h.used, htotal', hb32, ?_, ?_⟩
      · simp only [NixVector.addNeighborIndex, if_neg hlong, if_pos hgt, if_pos hfull]
        rfl
      · refine ⟨nv.nixVector, v, rfl, ?_⟩
        have hcur : nv.currentVectorBitSize.toNat = 32 := by rw [hfull]; rfl
        rw [total_cons, hws, List.length_append, List.length_singleton]
        simp only
        omega
      · have hcur : nv.currentVectorBitSize.toNat = 32 := by rw [hfull]; rfl
        have hlen : 32 * (ws.length + 1) = total done := by omega
        rw [value_append, h.value_eq, hws, List.length_append, List.length_singleton, hlen, stackValue]
        simp only
        ring
    · -- both words
      have hne : nv.currentVectorBitSize.toNat ≠ 32 := fun heq => hfull (BitVec.eq_of_toNat_eq heq)
      have hrest : (32#32 - nv.currentVectorBitSize).toNat = 32 - nv.currentVectorBitSize.toNat := toNat_sub_of_le hcurrent
      have hsecond : (b - (32#32 - nv.currentVectorBitSize)).toNat = b.toNat - (32 - nv.currentVectorBitSize.toNat) := by
        rw [toNat_sub_of_le (by omega), hrest]
      refine ⟨⟨(ws ++ [(v <<< nv.currentVectorBitSize.toNat) ||| w]) ++ [v >>> (32#32 - nv.currentVectorBitSize).toNat],
        nv.used, b - (32#32 - nv.currentVectorBitSize), nv.totalBitSize + b⟩, ?_, h.used, htotal', ?_, ?_, ?_⟩
      · simp only [NixVector.addNeighborIndex, if_neg hlong, if_pos hgt, if_neg hfull, hback, hset]
        rw [shl_eq v (by omega), shr_eq v (by omega)]
        rfl
      · simp only
        omega
      · refine ⟨_, _, rfl, ?_⟩
        rw [total_cons, List.length_append, List.length_singleton]
        simp only
        omega
      · -- the part that is shifted out of the first word is the second
        have hsplit := Nat.div_add_mod (v.toNat * 2 ^ nv.currentVectorBitSize.toNat) (2 ^ 32)
        have hdiv : v.toNat * 2 ^ nv.currentVectorBitSize.toNat / 2 ^ 32 =
            v.toNat / 2 ^ (32 - nv.currentVectorBitSize.toNat) := by
          have hpow : 2 ^ 32 = 2 ^ (32 - nv.currentVectorBitSize.toNat) * 2 ^ nv.currentVectorBitSize.toNat := by
            rw [← pow_add]
            congr 1
            omega
          rw [hpow, Nat.mul_div_mul_right _ _ (Nat.two_pow_pos _)]
        rw [hdiv] at hsplit
        rw [value_append, value_or hw hcurrent, value_append, hval, toNat_shr, hrest, List.length_append,
          List.length_singleton, stackValue, hsum, pow_add, Nat.mul_add, Nat.mul_one, pow_add]
        calc stackValue done + 2 ^ (32 * ws.length) * (v.toNat * 2 ^ nv.currentVectorBitSize.toNat % 2 ^ 32) +
              2 ^ (32 * ws.length) * 2 ^ 32 * (v.toNat / 2 ^ (32 - nv.currentVectorBitSize.toNat))
            = stackValue done + 2 ^ (32 * ws.length) * (2 ^ 32 * (v.toNat / 2 ^ (32 - nv.currentVectorBitSize.toNat)) +
                v.toNat * 2 ^ nv.currentVectorBitSize.toNat % 2 ^ 32) := by ring
          _ = stackValue done + 2 ^ (32 * ws.length) * (v.toNat * 2 ^ nv.currentVectorBitSize.toNat) := by rw [hsplit]
          _ = v.toNat * (2 ^ (32 * ws.length) * 2 ^ nv.currentVectorBitSize.toNat) + stackValue done := by ring
  · have hgt : ¬ nv.currentVectorBitSize + b > 32#32 := fun hgt => by
      have hlt := BitVec.lt_def.1 hgt
      rw [hsize] at hlt
      exact Nat.not_lt_of_le hfit hlt
    refine ⟨⟨ws ++ [(v <<< nv.currentVectorBitSize.toNat) ||| w], nv.used, nv.currentVectorBitSize + b,
      nv.totalBitSize + b⟩, ?_, h.used, htotal', ?_, ?_, ?_⟩
    · simp only [NixVector.addNeighborIndex, if_neg hlong, if_neg hgt, hback, hset]
      rw [shl_eq v (by omega)]
      rfl
    · simp only [hsize]
      omega
    · refine ⟨_, _, rfl, ?_⟩
      rw [total_cons, hsize]
      omega
    · have hsmall : v.toNat * 2 ^ nv.currentVectorBitSize.toNat < 2 ^ 32 := by
        calc v.toNat * 2 ^ nv.currentVectorBitSize.toNat
            < 2 ^ b.toNat * 2 ^ nv.currentVectorBitSize.toNat := Nat.mul_lt_mul_of_pos_right hv (Nat.two_pow_pos _)
          _ = 2 ^ (b.toNat + nv.currentVectorBitSize.toNat) := (pow_add 2 _ _).symm
          _ ≤ 2 ^ 32 := Nat.pow_le_pow_right (by decide) (by omega)
      rw [value_or hw hcurrent, value_append, hval, Nat.mod_eq_of_lt hsmall, stackValue, hsum, pow_add]
      ring

/-! ## Extracting -/

/-- The fields are what is left in the words, the bits above have been extracted. -/
structure Unwound (done : List Field) (nv : NixVector) : Prop where
  remaining : nv.getRemainingBits.toNat = total done
  length_le : total done ≤ 32 * nv.nixVector.length
  value_eq : value nv.nixVector % 2 ^ total done = stackValue done

theorem Packed.unwound (h : Packed done nv) (hdone : ∀ f ∈ done, f.Fits) : Unwound done nv := by
  obtain ⟨ws, w, hws, hsum⟩ := h.words
  have hcurrent := h.current_le
  refine ⟨?_, ?_, ?_⟩
  · rw [getRemainingBits, h.used, BitVec.sub_zero, h.total_eq]
  · rw [hsum, hws, List.length_append, List.length_singleton]
    omega
  · rw [h.value_eq, Nat.mod_eq_of_lt (stackValue_lt hdone)]

section

variable {i t : BitVec 32}

theorem toNat_mod (t : BitVec 32) : (t % 32#32).toNat = t.toNat % 32 := by
  rw [BitVec.toNat_umod]
  rfl

/-- The shift that brings the top of the field to the top of the word. -/
theorem toNat_up (t : BitVec 32) : (32#32 - t % 32#32).toNat = 32 - t.toNat % 32 := by
  rw [toNat_sub_of_le (by rw [toNat_mod]; show _ ≤ 32; omega), toNat_mod]
  rfl

theorem extractWithin_eq (hi : i.toNat = t.toNat / 32) (hlen : i.toNat < nv.nixVector.length)
    (hb : 1 ≤ b.toNat) (hle : b.toNat ≤ t.toNat % 32) :
    ∃ r, nv.extractWithin i t b = .ok r ∧ r.toNat = window (value nv.nixVector) (t.toNat - b.toNat) b.toNat := by
  obtain ⟨w, hword, hw⟩ := word_eq hlen
  have hup := toNat_up t
  have hdown : (32#32 - b).toNat = 32 - b.toNat := toNat_sub_of_le (by show _ ≤ 32; omega)
  refine ⟨(w <<< (32#32 - t % 32#32).toNat) >>> (32#32 - b).toNat, ?_, ?_⟩
  · rw [extractWithin, hword]
    show (shl w _ >>= fun e => shr e _) = _
    rw [shl_eq w (by omega)]
    exact shr_eq _ (by omega)
  · rw [toNat_shr, toNat_shl, hup, hdown, window.shifts hle (by omega), hw, window.window_of_le (by omega), hi]
    congr 1
    omega

theorem extractSpanning_eq (hi : i.toNat = t.toNat / 32) (hpos : 0 < i.toNat)
    (hlen : i.toNat < nv.nixVector.length) (hb : b.toNat ≤ 32) (hmod : t.toNat % 32 ≠ 0) (hgt : t.toNat % 32 < b.toNat) :
    ∃ r, nv.extractSpanning i t b = .ok r ∧ r.toNat = window (value nv.nixVector) (t.toNat - b.toNat) b.toNat := by
  have hbelow : (i - 1#32).toNat = i.toNat - 1 := toNat_sub_of_le hpos
  obtain ⟨w, hword, hw⟩ := word_eq hlen
  obtain ⟨w', hword', hw'⟩ := word_eq (show (i - 1#32).toNat < nv.nixVector.length by omega)
  have hup := toNat_up t
  have hlow : (b - t % 32#32).toNat = b.toNat - t.toNat % 32 := by
    rw [toNat_sub_of_le (by rw [toNat_mod]; omega), toNat_mod]
  have hdown : ((32#32 - t % 32#32) - (b - t % 32#32)).toNat = 32 - b.toNat := by
    rw [toNat_sub_of_le (by omega), hup, hlow]
    omega
  have hdown' : (32#32 - (b - t % 32#32)).toNat = 32 - (b.toNat - t.toNat % 32) := by
    rw [toNat_sub_of_le (by rw [hlow]; show _ ≤ 32; omega), hlow]
    rfl
  refine ⟨((w <<< (32#32 - t % 32#32).toNat) >>> ((32#32 - t % 32#32) - (b - t % 32#32)).toNat) |||
    (w' >>> (32#32 - (b - t % 32#32)).toNat), ?_, ?_⟩
  · rw [extractSpanning, hword, hword']
    show (shl w _ >>= fun high => shr high _ >>= fun high => shr w' _ >>= fun low => pure (high ||| low)) = _
    rw [shl_eq w (by omega)]
    show (shr _ _ >>= fun high => shr w' _ >>= fun low => pure (high ||| low)) = _
    rw [shr_eq _ (by omega)]
    show (shr w' _ >>= fun low => pure (_ ||| low)) = _
    rw [shr_eq _ (by omega)]
    rfl
  · obtain ⟨k, hk⟩ : ∃ k, b.toNat = k + t.toNat % 32 := ⟨b.toNat - t.toNat % 32, by omega⟩
    have hsub : b.toNat - t.toNat % 32 = k := by omega
    -- the upper part of the field is below in the upper word, and the lower part above in the lower word
    have hlower : w'.toNat / 2 ^ (32 - k) = window (value nv.nixVector) (t.toNat - b.toNat) k := by
      have hsmall : w'.toNat / 2 ^ (32 - k) < 2 ^ k := by
        apply Nat.div_lt_of_lt_mul
        rw [← pow_add, Nat.sub_add_cancel (by omega)]
        exact w'.isLt
      rw [← Nat.mod_eq_of_lt hsmall]
      show window w'.toNat (32 - k) k = _
      rw [hw', hbelow, window.window_of_le (by omega), hi]
      congr 1
      omega
    have hlowerlt := window.lt (value nv.nixVector) (t.toNat - b.toNat) k
    rw [BitVec.toNat_or, toNat_shr, toNat_shr, toNat_shl, hup, hdown, hdown', window.shifts_over (by omega) hb, hsub,
      hlower, window.or_eq_add hlowerlt, hw, window.window_of_le (by omega), hi]
    rw [hk, window.add, Nat.mul_comm, Nat.add_comm]
    congr 3
    omega

end

/-- Where the fields that are left do not end with a word, the last one is extracted. -/
theorem Unwound.extractNeighborIndex (h : Unwound ((v, b) :: rest) nv) (hf : Field.Fits (v, b)) (hrest : ∀ f ∈ rest, f.Fits)
    (hmod : total ((v, b) :: rest) % 32 ≠ 0) :
    ∃ nv', nv.extractNeighborIndex b = .ok (v, nv') ∧ nv'.nixVector = nv.nixVector ∧ Unwound rest nv' := by
  obtain ⟨hb, hb32, hv⟩ := hf
  simp only at hb hb32 hv
  obtain ⟨t, ht⟩ : ∃ t, nv.getRemainingBits = t := ⟨_, rfl⟩
  have htotal := h.remaining
  have hlen := h.length_le
  rw [ht] at htotal
  rw [← htotal] at hmod hlen
  have hone : (t - 1#32).toNat = t.toNat - 1 := toNat_sub_of_le (by show 1 ≤ _; omega)
  have hone' : (b - 1#32).toNat = b.toNat - 1 := toNat_sub_of_le (by show 1 ≤ _; omega)
  have hindex : ((t - 1#32) / 32#32).toNat = t.toNat / 32 := by
    rw [BitVec.toNat_udiv, hone]
    show (t.toNat - 1) / 32 = _
    omega
  have hlast : ((t - 1#32) % 32#32).toNat = t.toNat % 32 - 1 := by
    rw [toNat_mod, hone]
    omega
  have hble : b.toNat ≤ t.toNat := by
    rw [htotal, total_cons]
    omega
  have hfield : window (value nv.nixVector) (t.toNat - b.toNat) b.toNat = v.toNat := by
    have hval := h.value_eq
    rw [← htotal] at hval
    have hsub : t.toNat - b.toNat = total rest := by
      rw [htotal, total_cons]
      omega
    rw [← window.mod_of_le (a := t.toNat) (by omega), hval, hsub]
    exact window.mul_add (stackValue_lt hrest) v.toNat hv
  obtain ⟨r, hr, hrval⟩ : ∃ r, (if (t - 1#32) / 32#32 > 0#32 ∧ b - 1#32 > (t - 1#32) % 32#32 then
      nv.extractSpanning ((t - 1#32) / 32#32) t b else nv.extractWithin ((t - 1#32) / 32#32) t b) = .ok r ∧
      r.toNat = window (value nv.nixVector) (t.toNat - b.toNat) b.toNat := by
    split
    · rename_i hspan
      have hpos := BitVec.lt_def.1 hspan.1
      have hgt := BitVec.lt_def.1 hspan.2
      rw [hlast, hone'] at hgt
      exact extractSpanning_eq hindex hpos (by omega) hb32 hmod (by omega)
    · rename_i hspan
      refine extractWithin_eq hindex (by omega) hb ?_
      refine Decidable.byContradiction fun hgt => hspan ⟨BitVec.lt_def.2 ?_, BitVec.lt_def.2 ?_⟩
      · rw [hindex]
        show 0 < _
        omega
      · rw [hlast, hone']
        omega
  have hrv : r = v := BitVec.eq_of_toNat_eq (hrval.trans hfield)
  rw [hrv] at hr
  have hlong : ¬ b > 32#32 := fun hgt => Nat.not_lt_of_le hb32 (BitVec.lt_def.1 hgt)
  have hmany : ¬ b > t := fun hgt => Nat.not_lt_of_le hble (BitVec.lt_def.1 hgt)
  have hnone : ¬ b ≤ 0#32 := fun hle => Nat.not_lt_of_le (BitVec.le_def.1 hle) hb
  refine ⟨{ nv with used := nv.used + b }, ?_, rfl, ?_, ?_, ?_⟩
  · simp only [NixVector.extractNeighborIndex, ht, if_neg hlong, if_neg hmany, if_neg hnone]
    split at hr <;> rename_i hspan
    · rw [if_pos hspan, hr]
      rfl
    · rw [if_neg hspan, hr]
      rfl
  · have hsub : nv.totalBitSize - (nv.used + b) = t - b := by
      rw [← ht, getRemainingBits, BitVec.sub_sub]
    show (nv.totalBitSize - (nv.used + b)).toNat = total rest
    rw [hsub, toNat_sub_of_le hble, htotal, total_cons]
    omega
  · rw [htotal, total_cons] at hlen
    show total rest ≤ 32 * nv.nixVector.length
    omega
  · have hval := congrArg (· % 2 ^ total rest) h.value_eq
    simp only [total_cons, stackValue] at hval
    rw [Nat.mod_mod_of_dvd _ (pow_dvd_pow 2 (Nat.le_add_left _ _)), Nat.mul_add_mod_of_lt (stackValue_lt hrest)] at hval
    exact hval

/-- Where they end with a word, the shift is by its width. -/
theorem Unwound.undefined (h : Unwound ((v, b) :: rest) nv) (hf : Field.Fits (v, b))
    (hmod : total ((v, b) :: rest) % 32 = 0) : nv.extractNeighborIndex b = .error .undefinedShift := by
  obtain ⟨hb, hb32, -⟩ := hf
  simp only at hb hb32
  obtain ⟨t, ht⟩ : ∃ t, nv.getRemainingBits = t := ⟨_, rfl⟩
  have htotal := h.remaining
  have hlen := h.length_le
  rw [ht] at htotal
  rw [← htotal] at hmod hlen
  have hble : b.toNat ≤ t.toNat := by
    rw [htotal, total_cons]
    omega
  have hone : (t - 1#32).toNat = t.toNat - 1 := toNat_sub_of_le (by show 1 ≤ _; omega)
  have hone' : (b - 1#32).toNat = b.toNat - 1 := toNat_sub_of_le (by show 1 ≤ _; omega)
  have hindex : ((t - 1#32) / 32#32).toNat = t.toNat / 32 - 1 := by
    rw [BitVec.toNat_udiv, hone]
    show (t.toNat - 1) / 32 = _
    omega
  have hlast : ((t - 1#32) % 32#32).toNat = 31 := by
    rw [toNat_mod, hone]
    omega
  have hspan : ¬ ((t - 1#32) / 32#32 > 0#32 ∧ b - 1#32 > (t - 1#32) % 32#32) := fun hspan => by
    have hgt := BitVec.lt_def.1 hspan.2
    rw [hlast, hone'] at hgt
    omega
  obtain ⟨w, hword, -⟩ := word_eq (show ((t - 1#32) / 32#32).toNat < nv.nixVector.length by omega)
  have hlong : ¬ b > 32#32 := fun hgt => Nat.not_lt_of_le hb32 (BitVec.lt_def.1 hgt)
  have hmany : ¬ b > t := fun hgt => Nat.not_lt_of_le hble (BitVec.lt_def.1 hgt)
  have hnone : ¬ b ≤ 0#32 := fun hle => Nat.not_lt_of_le (BitVec.le_def.1 hle) hb
  simp only [NixVector.extractNeighborIndex, ht, if_neg hlong, if_neg hmany, if_neg hnone]
  have hwithin : nv.extractWithin ((t - 1#32) / 32#32) t b = .error .undefinedShift := by
    rw [extractWithin, hword]
    show (shl w _ >>= fun e => shr e _) = _
    rw [shl_undefined w (by rw [toNat_up]; omega)]
    rfl
  rw [if_neg hspan, hwithin]
  rfl

/-! ## Serialization -/

theorem putWords_eq {size maxSize : BitVec 32} {ws : List (BitVec 32)}
    (h : size.toNat + 4 * ws.length ≤ maxSize.toNat) : putWords size maxSize ws = some ws := by
  induction ws generalizing size with
  | nil => rfl
  | cons w ws ih =>
    have hmax := maxSize.isLt
    rw [List.length_cons] at h
    have hadd : (size + 4#32).toNat = size.toNat + 4 := by
      rw [BitVec.toNat_add]
      show (size.toNat + 4) % _ = _
      omega
    rw [putWords, if_pos (BitVec.le_def.2 (by omega)), ih (by omega)]
    rfl

theorem getWords_eq {ws : List (BitVec 32)} {sizeCheck : BitVec 32} (h : sizeCheck.toNat = 4 * ws.length) :
    getWords ws sizeCheck = .ok ws := by
  induction ws generalizing sizeCheck with
  | nil =>
    have hzero : ¬ sizeCheck > 0#32 := fun hgt => by
      have hlt := BitVec.lt_def.1 hgt
      rw [h] at hlt
      exact absurd hlt (by decide)
    unfold getWords
    exact if_neg hzero
  | cons w ws ih =>
    rw [List.length_cons] at h
    have hpos : sizeCheck > 0#32 := BitVec.lt_def.2 (by rw [h]; show 0 < _; omega)
    have hfour : sizeCheck ≥ 4#32 := BitVec.le_def.2 (by rw [h]; show 4 ≤ _; omega)
    have hsub : (sizeCheck - 4#32).toNat = 4 * ws.length := by
      rw [toNat_sub_of_le (BitVec.le_def.1 hfour), h]
      show 4 * (ws.length + 1) - 4 = _
      omega
    unfold getWords
    rw [if_pos hpos, if_pos hfour]
    show (getWords ws (sizeCheck - 4#32)).map _ = _
    rw [ih hsub]
    rfl

/-- What is read back from the words that have been written, their length in front, is the same vector. -/
def Continues (nv : NixVector) : Prop :=
  ∃ words, nv.serialize nv.getSerializedSize = some words ∧ deserialize words (nv.getSerializedSize + 4#32) = .ok nv

theorem continues_of_length (h : 16 + 4 * nv.nixVector.length < 2 ^ 32) : nv.Continues := by
  have hsize : nv.getSerializedSize.toNat = 12 + 4 * nv.nixVector.length := by
    rw [getSerializedSize, BitVec.toNat_ofNat]
    omega
  have hback : nv.getSerializedSize + 4#32 - 4#32 = nv.getSerializedSize := BitVec.add_sub_cancel _ _
  have hsub₁ : (nv.getSerializedSize - 4#32).toNat = 8 + 4 * nv.nixVector.length := by
    rw [toNat_sub_of_le (by rw [hsize]; show 4 ≤ _; omega), hsize]
    show 12 + _ - 4 = _
    omega
  have hsub₂ : (nv.getSerializedSize - 4#32 - 4#32).toNat = 4 + 4 * nv.nixVector.length := by
    rw [toNat_sub_of_le (by rw [hsub₁]; show 4 ≤ _; omega), hsub₁]
    show 8 + _ - 4 = _
    omega
  have hsub₃ : (nv.getSerializedSize - 4#32 - 4#32 - 4#32).toNat = 4 * nv.nixVector.length := by
    rw [toNat_sub_of_le (by rw [hsub₂]; show 4 ≤ _; omega), hsub₂]
    show 4 + _ - 4 = _
    omega
  refine ⟨nv.used :: nv.currentVectorBitSize :: nv.totalBitSize :: nv.nixVector, ?_, ?_⟩
  · apply putWords_eq
    rw [hsize, List.length_cons, List.length_cons, List.length_cons]
    show 0 + _ ≤ _
    omega
  · have hcheck : nv.getSerializedSize ≥ 4#32 ∧ nv.getSerializedSize - 4#32 ≥ 4#32 ∧
        nv.getSerializedSize - 4#32 - 4#32 ≥ 4#32 := by
      refine ⟨BitVec.le_def.2 ?_, BitVec.le_def.2 ?_, BitVec.le_def.2 ?_⟩
      · rw [hsize]
        show 4 ≤ _
        omega
      · rw [hsub₁]
        show 4 ≤ _
        omega
      · rw [hsub₂]
        show 4 ≤ _
        omega
    simp only [deserialize, hback]
    rw [if_pos hcheck, getWords_eq hsub₃]
    rfl

/-! ## Whole runs -/

/-- At this moment the fields are there that are to be extracted. -/
def Holds (done : List Field) (nv : NixVector) : Prop :=
  nv.getRemainingBits.toNat = total done ∧ nv.Continues

/-- The fields are extracted one after another. -/
def Unwinds : List Field → NixVector → Prop
  | [], nv => Holds [] nv
  | (v, b) :: rest, nv =>
      Holds ((v, b) :: rest) nv ∧ ∃ nv', nv.extractNeighborIndex b = .ok (v, nv') ∧ Unwinds rest nv'

/-- The fields are added one after another, and all are extracted then. -/
def Stacks : List Field → List Field → NixVector → Prop
  | done, [], nv => Unwinds done nv
  | done, (v, b) :: rest, nv =>
      Holds done nv ∧ ∃ nv', nv.addNeighborIndex v b = .ok nv' ∧ Stacks ((v, b) :: done) rest nv'

/-- No field ends with a word, counted from the first. -/
def Unaligned : List Field → Prop
  | [] => True
  | f :: rest => total (f :: rest) % 32 ≠ 0 ∧ Unaligned rest

/-- The words are no more than the fields need. -/
theorem Packed.length_lt (h : Packed done nv) (htotal : total done < 2 ^ 32) : 16 + 4 * nv.nixVector.length < 2 ^ 32 := by
  obtain ⟨ws, w, hws, hsum⟩ := h.words
  rw [hws, List.length_append, List.length_singleton]
  omega

theorem Unwound.unwinds_iff (h : Unwound done nv) (hdone : ∀ f ∈ done, f.Fits)
    (hlen : 16 + 4 * nv.nixVector.length < 2 ^ 32) : Unwinds done nv ↔ Unaligned done := by
  induction done generalizing nv with
  | nil => exact ⟨fun _ => trivial, fun _ => ⟨h.remaining, continues_of_length hlen⟩⟩
  | cons f rest ih =>
    obtain ⟨v, b⟩ := f
    have hf := hdone (v, b) List.mem_cons_self
    have hrest : ∀ f ∈ rest, f.Fits := fun f hmem => hdone f (List.mem_cons_of_mem _ hmem)
    by_cases hmod : total ((v, b) :: rest) % 32 = 0
    · constructor
      · rintro ⟨-, nv', hextract, -⟩
        rw [h.undefined hf hmod] at hextract
        exact nomatch hextract
      · exact fun hun => absurd hmod hun.1
    · obtain ⟨nv', hextract, hsame, hun⟩ := h.extractNeighborIndex hf hrest hmod
      have hiff := ih hun hrest (by rw [hsame]; exact hlen)
      constructor
      · rintro ⟨-, nv'', hextract', hunwinds⟩
        rw [hextract] at hextract'
        obtain ⟨-, rfl⟩ := Prod.mk.inj (Except.ok.inj hextract')
        exact ⟨hmod, hiff.1 hunwinds⟩
      · exact fun hunaligned =>
          ⟨⟨h.remaining, continues_of_length hlen⟩, nv', hextract, hiff.2 hunaligned.2⟩

theorem Stacks.holds (h : Stacks done rest nv) : Holds done nv := by
  cases rest with
  | nil => cases done with
    | nil => exact h
    | cons f done => exact h.1
  | cons f rest => exact h.1

theorem total_append (xs ys : List Field) : total (xs ++ ys) = total xs + total ys := by
  simp [total]

theorem Packed.stacks_rest_iff (h : Packed done nv) (hdone : ∀ f ∈ done, f.Fits) (hrest : ∀ f ∈ rest, f.Fits)
    (htotal : total done < 2 ^ 32) :
    Stacks done rest nv ↔ total (rest.reverse ++ done) < 2 ^ 32 ∧ Unaligned (rest.reverse ++ done) := by
  induction rest generalizing done nv with
  | nil => exact ((h.unwound hdone).unwinds_iff hdone (h.length_lt htotal)).trans ⟨fun hun => ⟨htotal, hun⟩, fun hun => hun.2⟩
  | cons f rest ih =>
    obtain ⟨v, b⟩ := f
    have hf := hrest (v, b) List.mem_cons_self
    have hdone' : ∀ f ∈ (v, b) :: done, Field.Fits f := List.forall_mem_cons.2 ⟨hf, hdone⟩
    have hrest' : ∀ f ∈ rest, f.Fits := fun f hmem => hrest f (List.mem_cons_of_mem _ hmem)
    rw [List.reverse_cons, List.append_assoc, List.singleton_append]
    constructor
    · rintro ⟨-, nv', hadd, hstacks⟩
      -- the size is one of 32 bits where it is right
      have hsize := hstacks.holds.1
      have hsmall : total ((v, b) :: done) < 2 ^ 32 := hsize ▸ nv'.getRemainingBits.isLt
      obtain ⟨nv'', hadd', hpacked⟩ := h.addNeighborIndex hdone hf hsmall
      rw [hadd] at hadd'
      rw [← Except.ok.inj hadd'] at hpacked
      exact (ih hpacked hdone' hrest' hsmall).1 hstacks
    · intro hall
      have hsmall : total ((v, b) :: done) < 2 ^ 32 := by
        have hle := hall.1
        rw [total_append] at hle
        omega
      obtain ⟨nv', hadd, hpacked⟩ := h.addNeighborIndex hdone hf hsmall
      exact ⟨⟨(h.unwound hdone).remaining, continues_of_length (h.length_lt htotal)⟩, nv', hadd,
        (ih hpacked hdone' hrest' hsmall).2 hall⟩

theorem unaligned_reverse_iff (fields : List Field) :
    Unaligned fields.reverse ↔ ∀ start, start <+: fields → start ≠ [] → total start % 32 ≠ 0 := by
  have hsuffix : ∀ done : List Field, Unaligned done ↔ ∀ start, start <:+ done → start ≠ [] → total start % 32 ≠ 0 := by
    intro done
    induction done with
    | nil => exact ⟨fun _ start hstart hne => absurd (List.suffix_nil.1 hstart) hne, fun _ => trivial⟩
    | cons f rest ih =>
      rw [Unaligned, ih]
      constructor
      · rintro ⟨hall, hrest⟩ start hstart hne
        rcases List.suffix_cons_iff.1 hstart with rfl | hin
        · exact hall
        · exact hrest start hin hne
      · exact fun h => ⟨h _ (List.suffix_refl _) (List.cons_ne_nil f rest),
          fun start hstart => h start (hstart.trans (List.suffix_cons f rest))⟩
  have hrev : ∀ xs : List Field, total xs.reverse = total xs := fun xs => by simp [total, List.sum_reverse]
  rw [hsuffix]
  constructor
  · intro h start hstart hne
    have hmod := h start.reverse (List.reverse_suffix.2 hstart) (mt List.reverse_eq_nil_iff.1 hne)
    rw [hrev] at hmod
    exact hmod
  · intro h start hstart hne
    have hmod := h start.reverse (List.reverse_suffix.1 (by rw [List.reverse_reverse]; exact hstart))
      (mt List.reverse_eq_nil_iff.1 hne)
    rw [hrev] at hmod
    exact hmod

/-- The fields come back from the stack exactly where they fit in the 32-bit sizes and none of them
ends with a word: an extraction that starts at the end of a word shifts by 32. -/
theorem stacks_iff {fields : List Field} (hfields : ∀ f ∈ fields, f.Fits) :
    Stacks [] fields create ↔
      total fields < 2 ^ 32 ∧ ∀ start, start <+: fields → start ≠ [] → total start % 32 ≠ 0 := by
  have hiff := packed_create.stacks_rest_iff (List.forall_mem_nil _) hfields (by decide : total [] < 2 ^ 32)
  have hrev : total fields.reverse = total fields := by simp [total, List.sum_reverse]
  rw [hiff, List.append_nil, hrev, unaligned_reverse_iff]

theorem stacks_straddling : Stacks [] [(5#32, 3#32), (0xffffffff#32, 32#32), (7#32, 4#32)] create := by
  refine (stacks_iff ?_).2 ⟨by decide, ?_⟩
  · refine List.forall_mem_cons.2 ⟨⟨by decide, by decide, by decide⟩, List.forall_mem_cons.2 ⟨⟨by decide, by decide, ?_⟩,
      List.forall_mem_cons.2 ⟨⟨by decide, by decide, by decide⟩, List.forall_mem_nil _⟩⟩⟩
    exact BitVec.isLt _
  · have hall : ∀ start ∈ [(5#32, 3#32), (0xffffffff#32, 32#32), (7#32, 4#32)].inits, start ≠ [] → total start % 32 ≠ 0 := by
      decide
    exact fun start hstart => hall start ((List.mem_inits start _).2 hstart)

/-- A single field of a whole word. -/
theorem not_stacks_word : ¬ Stacks [] [(1#32, 32#32)] create := by
  rintro ⟨-, nv, hadd, -, nv', hextract, -⟩
  have hword : create.addNeighborIndex 1#32 32#32 = .ok ⟨[1#32], 0#32, 32#32, 32#32⟩ := by decide
  rw [hword] at hadd
  have hshift : (⟨[1#32], 0#32, 32#32, 32#32⟩ : NixVector).extractNeighborIndex 32#32 = .error .undefinedShift := by decide
  rw [← Except.ok.inj hadd, hshift] at hextract
  exact nomatch hextract

end NixVector

end Ns3Raft.Net
