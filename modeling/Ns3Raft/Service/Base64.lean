import Mathlib.Data.List.Basic
import Mathlib.Data.UInt

/-! # Base64

`base64_encode` and `base64_decode`, each one loop that fills a small array. The
decoder counts the characters it has taken in an `int`, whose overflow is
undefined.
-/

namespace Ns3Raft.Service

abbrev Bytes := List UInt8

def base64Chars : Bytes :=
  "ABCDEFGHIJKLMNOPQRSTUVWXYZabcdefghijklmnopqrstuvwxyz0123456789+/".toList.map Char.toUInt8

/-- `'='` -/
def padding : UInt8 := 61

def isAlnum (c : UInt8) : Bool :=
  (48 ≤ c && c ≤ 57) || (65 ≤ c && c ≤ 90) || (97 ≤ c && c ≤ 122)

def isBase64 (c : UInt8) : Bool := isAlnum c || c = 43 || c = 47

def charAt (i : UInt8) : UInt8 := base64Chars.getD i.toNat 0

/-- `base64_chars.find (c) & 0xff` -/
def findChar (c : UInt8) : UInt8 :=
  if c ∈ base64Chars then (base64Chars.idxOf c).toUInt8 else 0xff

/-- `char_array_4` of the three bytes in `char_array_3`. -/
def charArray4 (a b c : UInt8) : UInt8 × UInt8 × UInt8 × UInt8 :=
  ((a &&& 0xfc) >>> 2,
   ((a &&& 0x03) <<< 4) + ((b &&& 0xf0) >>> 4),
   ((b &&& 0x0f) <<< 2) + ((c &&& 0xc0) >>> 6),
   c &&& 0x3f)

/-- `char_array_3` of the four values in `char_array_4`. -/
def charArray3 (w x y z : UInt8) : UInt8 × UInt8 × UInt8 :=
  ((w <<< 2) + ((x &&& 0x30) >>> 4),
   ((x &&& 0xf) <<< 4) + ((y &&& 0x3c) >>> 2),
   ((y &&& 0x3) <<< 6) + z)

def encodeThree (a b c : UInt8) : Bytes :=
  let (w, x, y, z) := charArray4 a b c
  [charAt w, charAt x, charAt y, charAt z]

/-- What is written for the `i` bytes that are left over: `i + 1` characters and the padding. -/
def encodeTail : Bytes → Bytes
  | [a] =>
      let (w, x, _, _) := charArray4 a 0 0
      [charAt w, charAt x, padding, padding]
  | [a, b] =>
      let (w, x, y, _) := charArray4 a b 0
      [charAt w, charAt x, charAt y, padding]
  | _ => []

/-- `arr` is the filled part of `char_array_3`. -/
def encodeLoop (ret arr : Bytes) : Bytes → Bytes
  | [] => ret ++ encodeTail arr
  | byte :: bytes =>
      match arr ++ [byte] with
      | [a, b, c] => encodeLoop (ret ++ encodeThree a b c) [] bytes
      | arr => encodeLoop ret arr bytes

def base64Encode (bytes : Bytes) : Bytes := encodeLoop [] [] bytes

def decodeFour (w x y z : UInt8) : Bytes :=
  let (a, b, c) := charArray3 (findChar w) (findChar x) (findChar y) (findChar z)
  [a, b, c]

/-- The `i - 1` bytes of the `i` characters that are left over. -/
def decodeTail : Bytes → Bytes
  | [w, x] =>
      let (a, _, _) := charArray3 (findChar w) (findChar x) 0 0
      [a]
  | [w, x, y] =>
      let (a, b, _) := charArray3 (findChar w) (findChar x) (findChar y) 0
      [a, b]
  | _ => []

/-- `arr` is the filled part of `char_array_4`; `none` is the overflow of `in_`. -/
def decodeLoop (ret arr : Bytes) (in_ : Nat) : Bytes → Option Bytes
  | [] => some (ret ++ decodeTail arr)
  | char :: chars =>
      if char = padding ∨ ¬ isBase64 char then some (ret ++ decodeTail arr)
      else if in_ + 1 ≥ 2 ^ 31 then none
      else
        match arr ++ [char] with
        | [w, x, y, z] => decodeLoop (ret ++ decodeFour w x y z) [] (in_ + 1) chars
        | arr => decodeLoop ret arr (in_ + 1) chars

def base64Decode (encoded : Bytes) : Option Bytes := decodeLoop [] [] 0 encoded

/-! ## One character -/

theorem charAt_spec : ∀ n : Fin 256, n.val < 64 →
    findChar (charAt (UInt8.ofFin n)) = UInt8.ofFin n ∧ isBase64 (charAt (UInt8.ofFin n)) ∧
      charAt (UInt8.ofFin n) ≠ padding ∧ charAt (UInt8.ofFin n) ≠ 0 := by
  decide +kernel

section
variable {s : UInt8} (hs : s.toNat < 64)
include hs

theorem findChar_charAt : findChar (charAt s) = s := (charAt_spec s.toFin hs).1

theorem isBase64_charAt : isBase64 (charAt s) = true := (charAt_spec s.toFin hs).2.1

theorem charAt_ne_padding : charAt s ≠ padding := (charAt_spec s.toFin hs).2.2.1

theorem charAt_ne_nul : charAt s ≠ 0 := (charAt_spec s.toFin hs).2.2.2

end

/-! ## The bit fields as quotients and remainders -/

/-- One check of all bytes for the fields below. -/
theorem byte_fields : ∀ n : Fin 256,
    ((UInt8.ofFin n &&& 0xfc) >>> 2).toNat = n.val / 4 ∧
    ((UInt8.ofFin n &&& 0x03) <<< 4).toNat = n.val % 4 * 16 ∧
    ((UInt8.ofFin n &&& 0xf0) >>> 4).toNat = n.val / 16 ∧
    ((UInt8.ofFin n &&& 0x0f) <<< 2).toNat = n.val % 16 * 4 ∧
    ((UInt8.ofFin n &&& 0xc0) >>> 6).toNat = n.val / 64 ∧
    (UInt8.ofFin n &&& 0x3f).toNat = n.val % 64 ∧
    (UInt8.ofFin n <<< 2).toNat = n.val % 64 * 4 ∧
    ((UInt8.ofFin n &&& 0x30) >>> 4).toNat = n.val / 16 % 4 ∧
    ((UInt8.ofFin n &&& 0xf) <<< 4).toNat = n.val % 16 * 16 ∧
    ((UInt8.ofFin n &&& 0x3c) >>> 2).toNat = n.val / 4 % 16 ∧
    ((UInt8.ofFin n &&& 0x3) <<< 6).toNat = n.val % 4 * 64 := by
  decide +kernel

theorem high6 (a : UInt8) : ((a &&& 0xfc) >>> 2).toNat = a.toNat / 4 := (byte_fields a.toFin).1

theorem low2 (a : UInt8) : ((a &&& 0x03) <<< 4).toNat = a.toNat % 4 * 16 := (byte_fields a.toFin).2.1

theorem high4 (a : UInt8) : ((a &&& 0xf0) >>> 4).toNat = a.toNat / 16 := (byte_fields a.toFin).2.2.1

theorem low4 (a : UInt8) : ((a &&& 0x0f) <<< 2).toNat = a.toNat % 16 * 4 := (byte_fields a.toFin).2.2.2.1

theorem high2 (a : UInt8) : ((a &&& 0xc0) >>> 6).toNat = a.toNat / 64 := (byte_fields a.toFin).2.2.2.2.1

theorem low6 (a : UInt8) : (a &&& 0x3f).toNat = a.toNat % 64 := (byte_fields a.toFin).2.2.2.2.2.1

theorem shift2 (w : UInt8) : (w <<< 2).toNat = w.toNat % 64 * 4 := (byte_fields w.toFin).2.2.2.2.2.2.1

theorem mid2 (x : UInt8) : ((x &&& 0x30) >>> 4).toNat = x.toNat / 16 % 4 := (byte_fields x.toFin).2.2.2.2.2.2.2.1

theorem shift4 (x : UInt8) : ((x &&& 0xf) <<< 4).toNat = x.toNat % 16 * 16 := (byte_fields x.toFin).2.2.2.2.2.2.2.2.1

theorem mid4 (y : UInt8) : ((y &&& 0x3c) >>> 2).toNat = y.toNat / 4 % 16 := (byte_fields y.toFin).2.2.2.2.2.2.2.2.2.1

theorem shift6 (y : UInt8) : ((y &&& 0x3) <<< 6).toNat = y.toNat % 4 * 64 := (byte_fields y.toFin).2.2.2.2.2.2.2.2.2.2

theorem charArray4_toNat (a b c : UInt8) :
    (charArray4 a b c).1.toNat = a.toNat / 4 ∧
      (charArray4 a b c).2.1.toNat = a.toNat % 4 * 16 + b.toNat / 16 ∧
      (charArray4 a b c).2.2.1.toNat = b.toNat % 16 * 4 + c.toNat / 64 ∧
      (charArray4 a b c).2.2.2.toNat = c.toNat % 64 := by
  have hb := b.toNat_lt
  have hc := c.toNat_lt
  simp only [charArray4, UInt8.toNat_add, high6, low2, high4, low4, high2, low6, true_and, and_true]
  omega

theorem charArray4_lt (a b c : UInt8) :
    (charArray4 a b c).1.toNat < 64 ∧ (charArray4 a b c).2.1.toNat < 64 ∧
      (charArray4 a b c).2.2.1.toNat < 64 ∧ (charArray4 a b c).2.2.2.toNat < 64 := by
  obtain ⟨hw, hx, hy, hz⟩ := charArray4_toNat a b c
  have ha := a.toNat_lt
  have hb := b.toNat_lt
  have hc := c.toNat_lt
  omega

/-- The decoder's three bytes are the encoder's. -/
theorem charArray3_charArray4 (a b c : UInt8) :
    charArray3 (charArray4 a b c).1 (charArray4 a b c).2.1 (charArray4 a b c).2.2.1
      (charArray4 a b c).2.2.2 = (a, b, c) := by
  obtain ⟨hw, hx, hy, hz⟩ := charArray4_toNat a b c
  have ha := a.toNat_lt
  have hb := b.toNat_lt
  have hc := c.toNat_lt
  simp only [charArray3, Prod.mk.injEq, ← UInt8.toNat_inj, UInt8.toNat_add, shift2, mid2, shift4,
    mid4, shift6, hw, hx, hy, hz]
  refine ⟨?_, ?_, ?_⟩
  · have h : (a.toNat % 4 * 16 + b.toNat / 16) / 16 = a.toNat % 4 := by omega
    omega
  · have h : (a.toNat % 4 * 16 + b.toNat / 16) % 16 = b.toNat / 16 := by omega
    have h' : (b.toNat % 16 * 4 + c.toNat / 64) / 4 = b.toNat % 16 := by omega
    omega
  · have h : (b.toNat % 16 * 4 + c.toNat / 64) % 4 = c.toNat / 64 := by omega
    omega

/-! ## The loops, three bytes at a time -/

/-- The characters that the decoder takes for `n` bytes. -/
def charCount (n : Nat) : Nat := (4 * n + 2) / 3

theorem encodeLoop_ret (ret arr bytes : Bytes) :
    encodeLoop ret arr bytes = ret ++ encodeLoop [] arr bytes := by
  induction bytes generalizing ret arr with
  | nil => simp [encodeLoop]
  | cons byte bytes ih =>
      unfold encodeLoop
      split
      · rw [ih, ih ([] ++ _)]
        simp
      · rw [ih]

theorem base64Encode_three (a b c : UInt8) (bytes : Bytes) :
    base64Encode (a :: b :: c :: bytes) = encodeThree a b c ++ base64Encode bytes := by
  simp only [base64Encode, encodeLoop, List.nil_append, List.cons_append]
  exact encodeLoop_ret ..

theorem decodeLoop_char {ret arr chars : Bytes} {in_ : Nat} {s : UInt8} (hs : s.toNat < 64)
    (hin : in_ + 1 < 2 ^ 31) (harr : arr.length < 3) :
    decodeLoop ret arr in_ (charAt s :: chars) = decodeLoop ret (arr ++ [charAt s]) (in_ + 1) chars := by
  rw [decodeLoop, if_neg (by simp [charAt_ne_padding hs, isBase64_charAt hs]), if_neg (by omega)]
  split
  · next h =>
      have := congrArg List.length h
      simp at this
      omega
  · rfl

theorem decodeLoop_four {ret chars : Bytes} {in_ : Nat} (a b c : UInt8) (hin : in_ + 4 < 2 ^ 31) :
    decodeLoop ret [] in_ (encodeThree a b c ++ chars) =
      decodeLoop (ret ++ [a, b, c]) [] (in_ + 4) chars := by
  obtain ⟨hw, hx, hy, hz⟩ := charArray4_lt a b c
  have hfour : decodeFour (charAt (charArray4 a b c).1) (charAt (charArray4 a b c).2.1)
      (charAt (charArray4 a b c).2.2.1) (charAt (charArray4 a b c).2.2.2) = [a, b, c] := by
    simp [decodeFour, findChar_charAt hw, findChar_charAt hx, findChar_charAt hy, findChar_charAt hz,
      charArray3_charArray4]
  simp only [encodeThree, List.cons_append, List.nil_append]
  rw [decodeLoop_char hw (by omega) (by simp), decodeLoop_char hx (by omega) (by simp),
    decodeLoop_char hy (by omega) (by simp), decodeLoop,
    if_neg (by simp [charAt_ne_padding hz, isBase64_charAt hz]), if_neg (by omega)]
  simp only [List.nil_append, List.cons_append, hfour]

theorem decodeLoop_padding {ret arr chars : Bytes} {in_ : Nat} :
    decodeLoop ret arr in_ (padding :: chars) = some (ret ++ decodeTail arr) := by
  simp [decodeLoop]

theorem decodeTail_two (a : UInt8) :
    decodeTail [charAt (charArray4 a 0 0).1, charAt (charArray4 a 0 0).2.1] = [a] := by
  obtain ⟨hw, hx, -, -⟩ := charArray4_lt a 0 0
  have ha := congrArg Prod.fst (charArray3_charArray4 a 0 0)
  simp only [charArray3] at ha
  simp [decodeTail, findChar_charAt hw, findChar_charAt hx, charArray3, ha]

theorem decodeTail_three (a b : UInt8) :
    decodeTail [charAt (charArray4 a b 0).1, charAt (charArray4 a b 0).2.1,
      charAt (charArray4 a b 0).2.2.1] = [a, b] := by
  obtain ⟨hw, hx, hy, -⟩ := charArray4_lt a b 0
  have h := charArray3_charArray4 a b 0
  have ha := congrArg Prod.fst h
  have hb := congrArg (·.2.1) h
  simp only [charArray3] at ha hb
  simp [decodeTail, findChar_charAt hw, findChar_charAt hx, findChar_charAt hy, charArray3, ha, hb]

/-- The decoder, started after `in_` characters, gives the bytes back while its index is an
`int`. -/
theorem decodeLoop_base64Encode (ret bytes : Bytes) (in_ : Nat) (h : in_ + charCount bytes.length < 2 ^ 31) :
    decodeLoop ret [] in_ (base64Encode bytes) = some (ret ++ bytes) := by
  match bytes with
  | [] => simp [base64Encode, encodeLoop, encodeTail, decodeLoop, decodeTail]
  | [a] =>
      obtain ⟨hw, hx, -, -⟩ := charArray4_lt a 0 0
      simp only [charCount, List.length_singleton] at h
      simp only [base64Encode, encodeLoop, List.nil_append, encodeTail]
      rw [decodeLoop_char hw (by omega) (by simp), decodeLoop_char hx (by omega) (by simp),
        decodeLoop_padding]
      simp [decodeTail_two]
  | [a, b] =>
      obtain ⟨hw, hx, hy, -⟩ := charArray4_lt a b 0
      simp only [charCount, List.length_cons, List.length_nil] at h
      simp only [base64Encode, encodeLoop, List.nil_append, List.cons_append, encodeTail]
      rw [decodeLoop_char hw (by omega) (by simp), decodeLoop_char hx (by omega) (by simp),
        decodeLoop_char hy (by omega) (by simp), decodeLoop_padding]
      simp [decodeTail_three]
  | a :: b :: c :: bytes =>
      have hcount : charCount (bytes.length + 3) = charCount bytes.length + 4 := by
        simp only [charCount]
        omega
      simp only [List.length_cons, hcount] at h
      rw [base64Encode_three, decodeLoop_four a b c (by omega),
        decodeLoop_base64Encode _ bytes (in_ + 4) (by omega)]
      simp

theorem decodeLoop_overflow {ret arr rest : Bytes} {sextets : List UInt8} {in_ : Nat}
    (hs : ∀ s ∈ sextets, s.toNat < 64) (hin : in_ < 2 ^ 31) (h : 2 ^ 31 ≤ in_ + sextets.length) :
    decodeLoop ret arr in_ (sextets.map charAt ++ rest) = none := by
  induction sextets generalizing ret arr in_ with
  | nil => simp at h; omega
  | cons s sextets ih =>
      have hs0 := hs s (by simp)
      have hrest : ∀ s ∈ sextets, s.toNat < 64 := fun s hmem => hs s (by simp [hmem])
      simp only [List.length_cons] at h
      simp only [List.map_cons, List.cons_append]
      rw [decodeLoop, if_neg (by simp [charAt_ne_padding hs0, isBase64_charAt hs0])]
      split
      · rfl
      · split
        · exact ih hrest (by omega) (by omega)
        · exact ih hrest (by omega) (by omega)

/-- What the encoder writes: `charCount` characters of the alphabet, and the padding. -/
theorem base64Encode_chars (bytes : Bytes) :
    ∃ (sextets : List UInt8) (rest : Bytes), base64Encode bytes = sextets.map charAt ++ rest ∧
      (∀ s ∈ sextets, s.toNat < 64) ∧ (∀ c ∈ rest, c = padding) ∧
        sextets.length = charCount bytes.length := by
  match bytes with
  | [] => exact ⟨[], [], by simp [base64Encode, encodeLoop, encodeTail], by simp, by simp, rfl⟩
  | [a] =>
      obtain ⟨hw, hx, -, -⟩ := charArray4_lt a 0 0
      refine ⟨[(charArray4 a 0 0).1, (charArray4 a 0 0).2.1], [padding, padding], rfl, ?_,
        by simp, by simp [charCount]⟩
      simp only [List.mem_cons, List.not_mem_nil, or_false, forall_eq_or_imp, forall_eq]
      exact ⟨hw, hx⟩
  | [a, b] =>
      obtain ⟨hw, hx, hy, -⟩ := charArray4_lt a b 0
      refine ⟨[(charArray4 a b 0).1, (charArray4 a b 0).2.1, (charArray4 a b 0).2.2.1], [padding], rfl,
        ?_, by simp, by simp [charCount]⟩
      simp only [List.mem_cons, List.not_mem_nil, or_false, forall_eq_or_imp, forall_eq]
      exact ⟨hw, hx, hy⟩
  | a :: b :: c :: bytes =>
      obtain ⟨hw, hx, hy, hz⟩ := charArray4_lt a b c
      obtain ⟨sextets, rest, heq, hlt, hpad, hlen⟩ := base64Encode_chars bytes
      refine ⟨(charArray4 a b c).1 :: (charArray4 a b c).2.1 :: (charArray4 a b c).2.2.1 ::
        (charArray4 a b c).2.2.2 :: sextets, rest, ?_, ?_, hpad, ?_⟩
      · rw [base64Encode_three, heq]
        simp [encodeThree]
      · simpa [hw, hx, hy, hz] using hlt
      · simp only [List.length_cons, hlen, charCount]
        omega

/-- The length from which a payload overflows the decoder's index. -/
def payloadLimit : Nat := 0x60000000

theorem charCount_lt_iff (n : Nat) : charCount n < 2 ^ 31 ↔ n < payloadLimit := by
  simp only [charCount, payloadLimit]
  omega

/-- The decoder undoes the encoder, while its index is an `int`. -/
theorem base64Decode_base64Encode (bytes : Bytes) :
    base64Decode (base64Encode bytes) = if bytes.length < payloadLimit then some bytes else none := by
  split
  · next h =>
      rw [← charCount_lt_iff] at h
      exact decodeLoop_base64Encode [] bytes 0 (by omega)
  · next h =>
      obtain ⟨sextets, rest, heq, hlt, -, hlen⟩ := base64Encode_chars bytes
      rw [← charCount_lt_iff] at h
      rw [heq]
      exact decodeLoop_overflow hlt (by decide) (by omega)

theorem base64Encode_no_nul (bytes : Bytes) : (0 : UInt8) ∉ base64Encode bytes := by
  obtain ⟨sextets, rest, heq, hlt, hpad, -⟩ := base64Encode_chars bytes
  rw [heq]
  intro hmem
  rcases List.mem_append.mp hmem with hmem | hmem
  · obtain ⟨s, hs, h0⟩ := List.mem_map.mp hmem
    exact charAt_ne_nul (hlt s hs) h0
  · exact absurd (hpad 0 hmem) (by decide)

end Ns3Raft.Service
