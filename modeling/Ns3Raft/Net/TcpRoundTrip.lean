import Ns3Raft.Net.TcpChecksum

/-! # What a TCP header says when it is read again

A header is built by calls of its setters and of `AppendOption`. Read from its own bytes it has every
field and every option, and behind the options the END that stands for the padding.
-/

namespace Ns3Raft.Net

/-! ## Words and blocks -/

theorem toNat_ofNat {n : Nat} (h : n < 2 ^ 8) : (UInt8.ofNat n).toNat = n := by
  rw [UInt8.toNat_ofNat']
  exact Nat.mod_eq_of_lt h

theorem readNtohU16_write {n : Nat} (h : n < 2 ^ 16) (rest : List UInt8) :
    readNtohU16 (writeHtonU16 n ++ rest) = some (n, rest) := by
  have hhigh : (UInt8.ofNat (n >>> 8)).toNat = n / 2 ^ 8 := by
    rw [Nat.shiftRight_eq_div_pow, toNat_ofNat (by omega)]
  have hlow : (UInt8.ofNat n).toNat = n % 2 ^ 8 := UInt8.toNat_ofNat'
  show some ((UInt8.ofNat (n >>> 8)).toNat * 2 ^ 8 + (UInt8.ofNat n).toNat, rest) = _
  rw [hhigh, hlow, Nat.div_add_mod' n (2 ^ 8)]

theorem writeHtonU16_mod (n : Nat) : writeHtonU16 (n % 2 ^ 16) = writeHtonU16 n := by
  have hhigh : UInt8.ofNat ((n % 2 ^ 16) >>> 8) = UInt8.ofNat (n >>> 8) := by
    apply UInt8.toNat_inj.1
    have hdiv : n % 2 ^ 16 / 2 ^ 8 % 2 ^ 8 = n / 2 ^ 8 % 2 ^ 8 := by omega
    rw [UInt8.toNat_ofNat', UInt8.toNat_ofNat', Nat.shiftRight_eq_div_pow, Nat.shiftRight_eq_div_pow, hdiv]
  have hlow : UInt8.ofNat (n % 2 ^ 16) = UInt8.ofNat n := by
    apply UInt8.toNat_inj.1
    have hmod : n % 2 ^ 16 % 2 ^ 8 = n % 2 ^ 8 := by omega
    rw [UInt8.toNat_ofNat', UInt8.toNat_ofNat', hmod]
  rw [writeHtonU16, writeHtonU16, hhigh, hlow]

theorem readNtohU32_write {n : Nat} (h : n < 2 ^ 32) (rest : List UInt8) :
    readNtohU32 (writeHtonU32 n ++ rest) = some (n, rest) := by
  have hhigh : n >>> 16 < 2 ^ 16 := by
    rw [Nat.shiftRight_eq_div_pow]
    omega
  have hlow : n % 2 ^ 16 < 2 ^ 16 := Nat.mod_lt n (by decide)
  have hread : readNtohU16 (writeHtonU16 n ++ rest) = some (n % 2 ^ 16, rest) := by
    rw [← writeHtonU16_mod n, readNtohU16_write hlow]
  have hsum : n >>> 16 * 2 ^ 16 + n % 2 ^ 16 = n := by
    rw [Nat.shiftRight_eq_div_pow, Nat.div_add_mod']
  rw [readNtohU32, writeHtonU32, List.append_assoc, readNtohU16_write hhigh, Option.bind_eq_bind, Option.bind_some]
  dsimp only
  rw [hread, Option.bind_some]
  dsimp only
  rw [hsum]

namespace TcpOption

/-- The values are within their types, and the kind of an unknown option is unknown. -/
def InRange : TcpOption → Prop
  | mss value => value < 2 ^ 16
  | winScale scale => scale < 2 ^ 8
  | sack sackList => ∀ block ∈ sackList, block.1 < 2 ^ 32 ∧ block.2 < 2 ^ 32
  | ts timestamp echo => timestamp < 2 ^ 32 ∧ echo < 2 ^ 32
  | unknown kind _ _ => isKindKnown kind = false
  | _ => True

theorem readBlocks_write {sackList : List (Nat × Nat)} (h : ∀ block ∈ sackList, block.1 < 2 ^ 32 ∧ block.2 < 2 ^ 32)
    (rest : List UInt8) :
    readBlocks sackList.length ((sackList.flatMap fun s => writeHtonU32 s.1 ++ writeHtonU32 s.2) ++ rest) =
      some (sackList, rest) := by
  induction sackList with
  | nil => rfl
  | cons block sackList ih =>
    obtain ⟨hleft, hright⟩ := h block List.mem_cons_self
    have hblocks := ih fun b hb => h b (List.mem_cons_of_mem _ hb)
    rw [List.length_cons, readBlocks, List.flatMap_cons, List.append_assoc, List.append_assoc, readNtohU32_write hleft,
      Option.bind_eq_bind, Option.bind_some]
    dsimp only
    rw [readNtohU32_write hright, Option.bind_some]
    dsimp only
    rw [hblocks]
    rfl

theorem blocks_length (sackList : List (Nat × Nat)) :
    (sackList.flatMap fun s => writeHtonU32 s.1 ++ writeHtonU32 s.2).length = sackList.length * 8 := by
  induction sackList with
  | nil => rfl
  | cons block sackList ih =>
    rw [List.flatMap_cons, List.length_append, ih, List.length_cons]
    show 8 + sackList.length * 8 = _
    omega

/-- An option that a header keeps. -/
structure Kept (op : TcpOption) : Prop where
  in_range : op.InRange
  known : isKindKnown op.getKind = true
  not_end : op.getKind ≠ 0
  size : op.getSerializedSize ≤ 40

theorem Kept.length_serialize {op : TcpOption} (h : op.Kept) : op.serialize.length = op.getSerializedSize := by
  cases op with
  | sack sackList =>
    show (_ :: _ :: sackList.flatMap _).length = _
    rw [List.length_cons, List.length_cons, blocks_length]
    exact Nat.add_comm _ 2
  | unknown kind size content => exact absurd h.known (by rw [show getKind _ = kind from rfl, h.in_range]; decide)
  | _ => rfl

end TcpOption

namespace OptionLoop

theorem parse_serialize {op : TcpOption} (h : op.Kept) (rest : List UInt8) :
    parse (op.serialize ++ rest) = some ⟨op.getSerializedSize, op, rest⟩ := by
  have hrange := h.in_range
  cases op with
  | endOfOptions => exact absurd rfl h.not_end
  | nop => rfl
  | mss value =>
    have hparse : parse ((TcpOption.mss value).serialize ++ rest) =
        (readNtohU16 (writeHtonU16 value ++ rest)).bind fun r => some ⟨4, .mss r.1, r.2⟩ := rfl
    rw [hparse, readNtohU16_write hrange]
    rfl
  | winScale scale =>
    have hparse : parse ((TcpOption.winScale scale).serialize ++ rest) =
        some ⟨3, .winScale (UInt8.ofNat scale).toNat, rest⟩ := rfl
    rw [hparse, toNat_ofNat hrange]
    rfl
  | sackPermitted => rfl
  | sack sackList =>
    have hcount : sackList.length * 8 + 2 < 2 ^ 8 := by
      have hsize : 2 + sackList.length * 8 ≤ 40 := h.size
      omega
    have hparse : parse ((TcpOption.sack sackList).serialize ++ rest) =
        (TcpOption.readBlocks (((UInt8.ofNat (sackList.length * 8 + 2)).toNat - 2) / 8)
          ((sackList.flatMap fun s => writeHtonU32 s.1 ++ writeHtonU32 s.2) ++ rest)).bind fun r =>
            some ⟨(TcpOption.sack r.1).getSerializedSize, .sack r.1, r.2⟩ := rfl
    rw [hparse, toNat_ofNat hcount, Nat.add_sub_cancel, Nat.mul_div_cancel _ (by decide), TcpOption.readBlocks_write hrange]
    rfl
  | ts timestamp echo =>
    have hparse : parse ((TcpOption.ts timestamp echo).serialize ++ rest) =
        (readNtohU32 ((writeHtonU32 timestamp ++ writeHtonU32 echo) ++ rest)).bind fun r =>
          (readNtohU32 r.2).bind fun r' => some ⟨10, .ts r.1 r'.1, r'.2⟩ := rfl
    rw [hparse, List.append_assoc, readNtohU32_write hrange.1, Option.bind_some, readNtohU32_write hrange.2]
    rfl
  | unknown kind size content => exact absurd h.known (by rw [show TcpOption.getKind _ = kind from rfl, hrange]; decide)

/-- What the zeros behind the options are read as. -/
def padding (k : Nat) : List TcpOption := if k = 0 then [] else [.endOfOptions]

variable {s : OptionLoop} {options : List TcpOption} {fuel k : Nat} {rest : List UInt8}

theorem loop_padding (hi : s.i = List.replicate k 0 ++ rest) (hleft : s.optionLen = k) (hbytes : s.optionsLen + k < 2 ^ 8) :
    loop (fuel + 2) s = some ⟨rest, 0, s.options ++ padding k, s.optionsLen + k, s.inside⟩ := by
  cases k with
  | zero =>
    rw [loop_done hleft]
    obtain ⟨i, optionLen, options, optionsLen, inside⟩ := s
    obtain rfl : i = rest := hi
    obtain rfl : optionLen = 0 := hleft
    rw [padding, if_pos rfl, List.append_nil]
    rfl
  | succ k =>
    have hcons : s.i = 0 :: (List.replicate k 0 ++ rest) := hi
    have hparse : parse s.i = some ⟨1, .endOfOptions, s.i.drop 1⟩ := by
      rw [hcons]
      rfl
    have hne : s.optionLen ≠ 0 := by omega
    have hnext := advance_padding (s := s) hne
    have hdrop : (s.i.drop 1).drop (s.optionLen - 1) = rest := by
      rw [hleft, hcons]
      exact List.drop_left' (List.length_replicate ..)
    rw [if_pos (by rw [hcons, hleft]; simp), read_drop (by rw [hcons]; simp), hdrop,
      decide_eq_true (show 1 ≤ s.optionLen by omega), Bool.and_true] at hnext
    rw [loop_next hne hparse hnext, loop_done rfl, padding, if_neg (Nat.succ_ne_zero k)]
    congr 2
    omega

theorem loop_serialize (hkept : ∀ op ∈ options, op.Kept)
    (hi : s.i = options.flatMap TcpOption.serialize ++ (List.replicate k 0 ++ rest))
    (hleft : s.optionLen = TcpHeader.optionsSize options + k)
    (hbytes : s.optionsLen + s.optionLen < 2 ^ 8) (hfuel : options.length + 2 ≤ fuel) :
    loop fuel s = some ⟨rest, 0, s.options ++ options ++ padding k, s.optionsLen + s.optionLen, s.inside⟩ := by
  induction options generalizing s fuel with
  | nil =>
    obtain ⟨fuel, rfl⟩ := Nat.exists_eq_add_of_le' (show 2 ≤ fuel from hfuel)
    have hk : s.optionLen = k := hleft.trans (Nat.zero_add k)
    rw [loop_padding hi hk (by omega), List.append_nil, hk]
  | cons op options ih =>
    have hop := hkept op List.mem_cons_self
    have hlength := hop.length_serialize
    have hsize : TcpHeader.optionsSize (op :: options) = op.getSerializedSize + TcpHeader.optionsSize options := rfl
    rw [List.flatMap_cons, List.append_assoc] at hi
    have hpos : 0 < op.getSerializedSize := by
      cases op with
      | unknown kind size content =>
        exact absurd hop.known (by rw [show TcpOption.getKind _ = kind from rfl, hop.in_range]; decide)
      | sack sackList => exact Nat.add_pos_left (by decide) _
      | _ => exact Nat.succ_pos _
    have hdrop : s.i.drop op.getSerializedSize = options.flatMap TcpOption.serialize ++ (List.replicate k 0 ++ rest) := by
      rw [hi]
      exact List.drop_left' hlength
    have hparse : parse s.i = some ⟨op.getSerializedSize, op, s.i.drop op.getSerializedSize⟩ := by
      rw [hdrop, hi]
      exact parse_serialize hop _
    have hne : s.optionLen ≠ 0 := by omega
    have hfits : op.getSerializedSize ≤ s.optionLen := by omega
    have hread : s.i.length - (s.i.drop op.getSerializedSize).length = op.getSerializedSize := by
      apply read_drop
      rw [hi, List.length_append, hlength]
      exact Nat.le_add_right _ _
    have hnext := advance_whole (s := s) rfl hop.not_end hfits
    rw [hread, decide_eq_true hfits, Bool.and_true, Nat.mod_eq_of_lt (by omega), hdrop] at hnext
    obtain ⟨fuel, rfl⟩ := Nat.exists_eq_add_of_le' (show 1 ≤ fuel by simp only [List.length_cons] at hfuel; omega)
    rw [hdrop] at hparse
    rw [loop_next hne hparse hnext]
    have hshort : options.length + 2 ≤ fuel := by
      rw [List.length_cons] at hfuel
      omega
    have hrest := ih (fun o ho => hkept o (List.mem_cons_of_mem _ ho))
      (s := ⟨options.flatMap TcpOption.serialize ++ (List.replicate k 0 ++ rest), s.optionLen - op.getSerializedSize,
        s.options ++ [op], s.optionsLen + op.getSerializedSize, s.inside⟩) rfl
      (by show s.optionLen - _ = _; omega) (by show s.optionsLen + _ + (s.optionLen - _) < _; omega)
      hshort
    rw [hrest]
    congr 2
    · rw [List.append_assoc s.options, List.singleton_append]
    · show s.optionsLen + _ + (s.optionLen - _) = _
      omega

end OptionLoop

/-! ## Building a header -/

/-- The calls that a sender makes. -/
inductive HeaderCall where
  | enableChecksums
  | setSourcePort (port : Nat)
  | setDestinationPort (port : Nat)
  | setSequenceNumber (sequenceNumber : Nat)
  | setAckNumber (ackNumber : Nat)
  | setFlags (flags : Nat)
  | setWindowSize (windowSize : Nat)
  | setUrgentPointer (urgentPointer : Nat)
  | appendOption (option : TcpOption)

/-- The arguments are within their types. -/
def HeaderCall.InRange : HeaderCall → Prop
  | enableChecksums => True
  | setSourcePort n | setDestinationPort n | setWindowSize n | setUrgentPointer n => n < 2 ^ 16
  | setSequenceNumber n | setAckNumber n => n < 2 ^ 32
  | setFlags n => n < 2 ^ 8
  | appendOption option => option.InRange

namespace TcpHeader

/-- `AppendOption`, and whether it succeeds. -/
def appendOption (h : TcpHeader) (option : TcpOption) : TcpHeader × Bool :=
  if h.optionsLen + option.getSerializedSize ≤ maxOptionsLen then
    if ¬ TcpOption.isKindKnown option.getKind then (h, false)
    else if option.getKind ≠ 0 then
      let optionsLen := (h.optionsLen + option.getSerializedSize) % 2 ^ 8
      ({ h with options := h.options ++ [option], optionsLen, length := ((20 + 3 + optionsLen) >>> 2) % 2 ^ 8 }, true)
    else (h, true)
  else (h, false)

def call (h : TcpHeader) : HeaderCall → TcpHeader
  | .enableChecksums => h.enableChecksums
  | .setSourcePort port => { h with sourcePort := port }
  | .setDestinationPort port => { h with destinationPort := port }
  | .setSequenceNumber sequenceNumber => { h with sequenceNumber }
  | .setAckNumber ackNumber => { h with ackNumber }
  | .setFlags flags => { h with flags }
  | .setWindowSize windowSize => { h with windowSize }
  | .setUrgentPointer urgentPointer => { h with urgentPointer }
  | .appendOption option => (h.appendOption option).1

/-- The header that the calls build. -/
def built (pseudo : PseudoHeader) (calls : List HeaderCall) : TcpHeader := calls.foldl call (new pseudo)

/-- What every call keeps. -/
structure Built (h : TcpHeader) : Prop where
  sourcePort : h.sourcePort < 2 ^ 16
  destinationPort : h.destinationPort < 2 ^ 16
  sequenceNumber : h.sequenceNumber < 2 ^ 32
  ackNumber : h.ackNumber < 2 ^ 32
  flags : h.flags < 2 ^ 8
  windowSize : h.windowSize < 2 ^ 16
  urgentPointer : h.urgentPointer < 2 ^ 16
  kept : ∀ op ∈ h.options, op.Kept
  optionsLen : h.optionsLen = optionsSize h.options
  room : optionsSize h.options ≤ maxOptionsLen
  length : h.length = (20 + 3 + optionsSize h.options) / 4
  goodChecksum : h.goodChecksum = true

theorem built_new (pseudo : PseudoHeader) : (new pseudo).Built :=
  ⟨Nat.two_pow_pos 16, Nat.two_pow_pos 16, Nat.two_pow_pos 32, Nat.two_pow_pos 32, Nat.two_pow_pos 8,
    show 0xffff < 2 ^ 16 by decide, Nat.two_pow_pos 16, fun _ h => absurd h List.not_mem_nil, rfl, Nat.zero_le _,
    show 5 = (20 + 3 + 0) / 4 by decide, rfl⟩

theorem Built.appendOption {h : TcpHeader} (hb : h.Built) {op : TcpOption} (hop : op.InRange) : (h.appendOption op).1.Built := by
  unfold TcpHeader.appendOption
  split
  · next hroom =>
    split
    · exact hb
    · next hknown =>
      split
      · next hend =>
        have hlen := hb.optionsLen
        have hmax : maxOptionsLen = 40 := rfl
        have hsize := OptionLoop.optionsSize_append h.options op
        have hmod : (h.optionsLen + op.getSerializedSize) % 2 ^ 8 = optionsSize (h.options ++ [op]) := by
          rw [Nat.mod_eq_of_lt (by omega), hsize, hlen]
        have hkept : op.Kept := ⟨hop, Decidable.not_not.1 hknown, hend, by omega⟩
        refine { hb with kept := fun o ho => ?_, optionsLen := hmod, room := ?_, length := ?_ }
        · rcases List.mem_append.1 ho with hold | hnew
          · exact hb.kept o hold
          · exact List.mem_singleton.1 hnew ▸ hkept
        · show optionsSize (h.options ++ [op]) ≤ _
          omega
        · show ((20 + 3 + (h.optionsLen + op.getSerializedSize) % 2 ^ 8) >>> 2) % 2 ^ 8 = (20 + 3 + optionsSize (h.options ++ [op])) / 4
          rw [hmod, Nat.shiftRight_eq_div_pow]
          omega
      · exact hb
  · exact hb

theorem Built.call {h : TcpHeader} (hb : h.Built) {c : HeaderCall} (hc : c.InRange) : (h.call c).Built := by
  cases c with
  | enableChecksums => exact { hb with }
  | setSourcePort port => exact { hb with sourcePort := hc }
  | setDestinationPort port => exact { hb with destinationPort := hc }
  | setSequenceNumber sequenceNumber => exact { hb with sequenceNumber := hc }
  | setAckNumber ackNumber => exact { hb with ackNumber := hc }
  | setFlags flags => exact { hb with flags := hc }
  | setWindowSize windowSize => exact { hb with windowSize := hc }
  | setUrgentPointer urgentPointer => exact { hb with urgentPointer := hc }
  | appendOption option => exact hb.appendOption hc

theorem built_calls (pseudo : PseudoHeader) {calls : List HeaderCall} (hcalls : ∀ c ∈ calls, c.InRange) :
    (built pseudo calls).Built := by
  have hstep : ∀ h : TcpHeader, h.Built → ((calls.foldl call h).Built) := by
    induction calls with
    | nil => exact fun h hb => hb
    | cons c calls ih =>
      intro h hb
      exact ih (fun d hd => hcalls d (List.mem_cons_of_mem _ hd)) _ (hb.call (hcalls c List.mem_cons_self))
  exact hstep _ (built_new pseudo)

/-! ## The round trip -/

variable {h : TcpHeader} {payload : List UInt8}

/-- The zeros that `Serialize` writes behind the options. -/
def padded (h : TcpHeader) : Nat := (4 - optionsSize h.options % 4) % 4

theorem Built.length_eq (hb : h.Built) : (h.length - 5) * 4 = optionsSize h.options + h.padded := by
  rw [hb.length, padded]
  omega

theorem Built.calculateHeaderLength (hb : h.Built) : h.calculateHeaderLength = h.length := by
  have hroom : optionsSize h.options ≤ 40 := hb.room
  rw [TcpHeader.calculateHeaderLength, hb.length, Nat.shiftRight_eq_div_pow]
  split <;> omega

theorem Built.field (hb : h.Built) : h.length <<< 12 ||| h.flags = h.length * 2 ^ 12 + h.flags := by
  have hflags := hb.flags
  rw [Nat.shiftLeft_eq, Nat.mul_comm, Nat.two_pow_add_eq_or_of_lt (by omega)]

/-- The fields up to the checksum, the checksum, and what is behind it. -/
theorem serialize_eq (h : TcpHeader) (payload : List UInt8) :
    ∃ low high, h.serialize payload =
      writeHtonU16 h.sourcePort ++ (writeHtonU16 h.destinationPort ++ (writeHtonU32 h.sequenceNumber ++
        (writeHtonU32 h.ackNumber ++ (writeHtonU16 (h.length <<< 12 ||| h.flags) ++ (writeHtonU16 h.windowSize ++
          (low :: high :: (writeHtonU16 h.urgentPointer ++ (h.options.flatMap TcpOption.serialize ++
            (List.replicate h.padded 0 ++ payload))))))))) := by
  unfold serialize
  dsimp only
  split
  · generalize calculateIpChecksum (h.serializeFields ++ payload) _ _ = checksum
    refine ⟨UInt8.ofNat checksum, UInt8.ofNat (checksum >>> 8), ?_⟩
    simp only [serializeFields, writeHtonU16, writeHtonU32, List.append_assoc, List.cons_append, List.nil_append, List.set_cons_succ,
      List.set_cons_zero]
    rfl
  · refine ⟨0, 0, ?_⟩
    simp only [serializeFields, writeHtonU16, writeHtonU32, List.append_assoc, List.cons_append, List.nil_append]
    rfl

theorem Built.readFields_serialize (hb : h.Built) (r : TcpHeader) (payload : List UInt8) :
    r.readFields (h.serialize payload) =
      some ({ h with options := [], optionsLen := 0, calcChecksum := r.calcChecksum, goodChecksum := r.goodChecksum, pseudo := r.pseudo },
        h.options.flatMap TcpOption.serialize ++ (List.replicate h.padded 0 ++ payload)) := by
  obtain ⟨low, high, hbytes⟩ := h.serialize_eq payload
  have hroom : optionsSize h.options ≤ 40 := hb.room
  have hlength := hb.length
  have hflags := hb.flags
  have hfield : h.length * 2 ^ 12 + h.flags < 2 ^ 16 := by omega
  have hlow : (h.length * 2 ^ 12 + h.flags) % 2 ^ 8 = h.flags := by omega
  have hhigh : (h.length * 2 ^ 12 + h.flags) / 2 ^ 12 = h.length := by omega
  rw [hbytes, readFields, hb.field]
  simp only [readNtohU16_write hb.sourcePort, readNtohU16_write hb.destinationPort, readNtohU32_write hb.sequenceNumber,
    readNtohU32_write hb.ackNumber, readNtohU16_write hfield, readNtohU16_write hb.windowSize, readNtohU16_write hb.urgentPointer,
    Option.bind_eq_bind, Option.bind_some, List.drop_succ_cons, List.drop_zero, hlow, hhigh]

theorem le_sumWords (p : List UInt8) (k : Nat) : (p.getD k 0).toNat ≤ sumWords p := by
  induction p using sumWords.induct generalizing k with
  | case1 => exact Nat.le_refl 0
  | case2 b =>
    cases k with
    | zero => exact Nat.le_refl _
    | succ k => exact Nat.zero_le _
  | case3 low high rest ih =>
    cases k with
    | zero =>
      show low.toNat ≤ low.toNat + _ + _
      omega
    | succ k =>
      cases k with
      | zero =>
        show high.toNat ≤ _ + high.toNat * 2 ^ 8 + _
        omega
      | succ k => exact Nat.le_trans (ih k) (Nat.le_add_left _ _)

theorem Built.dataOffset (hb : h.Built) (payload : List UInt8) : TcpHeader.dataOffset (h.serialize payload) = h.length := by
  obtain ⟨low, high, hbytes⟩ := h.serialize_eq payload
  have hroom : optionsSize h.options ≤ 40 := hb.room
  have hlength := hb.length
  have hflags := hb.flags
  have hbyte : (h.serialize payload).getD 12 0 = UInt8.ofNat ((h.length <<< 12 ||| h.flags) >>> 8) := by
    rw [hbytes]
    rfl
  rw [TcpHeader.dataOffset, hbyte, UInt8.toNat_ofNat', Nat.shiftRight_eq_div_pow, hb.field]
  omega

theorem Built.verify_serialize (hb : h.Built) (payload : List UInt8) {r : TcpHeader} (hcalc : r.calcChecksum = h.calcChecksum) (hpseudo : r.pseudo = h.pseudo)
    (hgood : r.goodChecksum = true) (hlength : h.calcChecksum = true → (h.serialize payload).length < 2 ^ 16) :
    r.verify (h.serialize payload) = { r with goodChecksum := true } := by
  unfold verify
  split
  · next hcalc' =>
    have hon := hcalc.symm.trans hcalc'
    have hdvd := dvd_sum_serialize hon (hlength hon)
    have hpos : 0 < sumWords (h.serialize payload) := by
      have hoffset := hb.dataOffset payload
      have hle := le_sumWords (h.serialize payload) 12
      have hlong := hb.length
      rw [TcpHeader.dataOffset] at hoffset
      omega
    have hzero := (calculateIpChecksum_eq_zero_iff (hlength hon) (h.calculateHeaderChecksum_lt _)).2
      ⟨Nat.add_pos_right _ hpos, hdvd⟩
    rw [calculateHeaderChecksum_congr hpseudo, hzero]
    rfl
  · obtain ⟨⟩ := r
    obtain rfl := hgood
    rfl

/-- The header as it is read: behind its options is the END that stands for the padding. -/
def readBack (h : TcpHeader) : TcpHeader :=
  { h with options := h.options ++ OptionLoop.padding h.padded, optionsLen := (h.length - 5) * 4 }

theorem serializeFields_readBack (h : TcpHeader) : h.readBack.serializeFields = h.serializeFields := by
  have hbytes : (OptionLoop.padding h.padded).flatMap TcpOption.serialize ++
      List.replicate ((4 - optionsSize h.readBack.options % 4) % 4) 0 = List.replicate h.padded 0 := by
    by_cases hzero : h.padded = 0
    · rw [readBack, OptionLoop.padding, if_pos hzero, List.append_nil]
      rfl
    · have hsize : optionsSize h.readBack.options = optionsSize h.options + 1 := by
        rw [readBack, OptionLoop.padding, if_neg hzero]
        exact OptionLoop.optionsSize_append _ _
      have hpadded : h.padded = (4 - (optionsSize h.options + 1) % 4) % 4 + 1 := by
        rw [padded] at hzero ⊢
        omega
      rw [hsize, OptionLoop.padding, if_neg hzero, hpadded]
      rfl
  rw [serializeFields, serializeFields, readBack, List.flatMap_append, List.append_assoc, ← readBack, hbytes]
  rfl

theorem Built.getSerializedSize_readBack (hb : h.Built) : h.readBack.getSerializedSize = h.getSerializedSize := by
  have hroom : optionsSize h.options ≤ 40 := hb.room
  rw [getSerializedSize, getSerializedSize, TcpHeader.calculateHeaderLength, TcpHeader.calculateHeaderLength, readBack]
  by_cases hzero : h.padded = 0
  · rw [OptionLoop.padding, if_pos hzero, List.append_nil]
  · have hsize : optionsSize (h.options ++ OptionLoop.padding h.padded) = optionsSize h.options + 1 := by
      rw [OptionLoop.padding, if_neg hzero]
      exact OptionLoop.optionsSize_append _ _
    rw [padded] at hzero
    rw [hsize, Nat.shiftRight_eq_div_pow, Nat.shiftRight_eq_div_pow]
    split <;> split <;> omega

/-- The header that a receiver reads into: the checksum is enabled at both ends or at none. -/
def receiver (h : TcpHeader) : TcpHeader := if h.calcChecksum then fresh h.pseudo else new h.pseudo

theorem Built.deserialize_serialize (hb : h.Built) (payload : List UInt8)
    (hlength : h.calcChecksum = true → (h.serialize payload).length < 2 ^ 16) {fuel : Nat} (hfuel : h.options.length + 2 ≤ fuel) :
    h.receiver.deserialize fuel (h.serialize payload) =
      some (h.readBack, h.getSerializedSize, true) := by
  have hroom : optionsSize h.options ≤ 40 := hb.room
  have hlen := hb.length
  have htotal := hb.length_eq
  have hcalc : h.receiver.calcChecksum = h.calcChecksum := by
    unfold receiver
    split
    · next hon => exact hon.symm
    · next hoff => exact (Bool.eq_false_iff.2 hoff).symm
  have hpseudo : h.receiver.pseudo = h.pseudo := by
    unfold receiver
    split <;> rfl
  have hgood : h.receiver.goodChecksum = true := by
    unfold receiver
    split <;> rfl
  have hloop := OptionLoop.loop_serialize (s := ⟨h.options.flatMap TcpOption.serialize ++ (List.replicate h.padded 0 ++ payload),
    (h.length - 5) * 4, [], 0, true⟩) hb.kept rfl htotal (by dsimp only; omega) hfuel
  dsimp only at hloop
  rw [List.nil_append, Nat.zero_add] at hloop
  have hverify := hb.verify_serialize payload (r := { h.readBack with
    calcChecksum := h.receiver.calcChecksum
    goodChecksum := h.receiver.goodChecksum
    pseudo := h.receiver.pseudo }) hcalc hpseudo hgood hlength
  rw [deserialize, hb.readFields_serialize, Option.bind_eq_bind, Option.bind_some]
  dsimp only
  rw [if_neg (by rw [maxOptionsLen]; omega), hloop, Option.bind_eq_bind, Option.bind_some]
  dsimp only
  have hread : { h.readBack with calcChecksum := h.calcChecksum, goodChecksum := true, pseudo := h.pseudo } = h.readBack := by
    rw [← hb.goodChecksum]
    rfl
  rw [← hb.getSerializedSize_readBack, ← hread, ← hcalc, ← hpseudo]
  exact congrArg (fun r : TcpHeader => some (r, r.getSerializedSize, true)) hverify

/-- A header that calls have built is read again as it is, and what is read has the same bytes. -/
theorem deserialize_built {pseudo : PseudoHeader} {calls : List HeaderCall} (hcalls : ∀ c ∈ calls, c.InRange) (payload : List UInt8)
    (hlength : (built pseudo calls).calcChecksum = true → ((built pseudo calls).serialize payload).length < 2 ^ 16) :
    (∃ fuel, (built pseudo calls).receiver.deserialize fuel ((built pseudo calls).serialize payload) =
      some ((built pseudo calls).readBack, (built pseudo calls).getSerializedSize, true)) ∧
        (built pseudo calls).readBack.serialize payload = (built pseudo calls).serialize payload := by
  refine ⟨⟨_, (built_calls pseudo hcalls).deserialize_serialize payload hlength (Nat.le_refl _)⟩, ?_⟩
  rw [serialize, serialize, serializeFields_readBack]
  rfl

/-- A segment that opens a connection. -/
def synCalls : List HeaderCall :=
  [.enableChecksums, .setSourcePort 49152, .setDestinationPort 80, .setSequenceNumber (2 ^ 32 - 1), .setFlags 2,
    .appendOption (.mss 1460), .appendOption .sackPermitted, .appendOption (.ts 7 0), .appendOption (.winScale 2)]

theorem deserialize_built_syn :
    (∃ fuel, (built hosts synCalls).receiver.deserialize fuel ((built hosts synCalls).serialize [65]) =
      some ((built hosts synCalls).readBack, (built hosts synCalls).getSerializedSize, true)) ∧
        (built hosts synCalls).readBack.serialize [65] = (built hosts synCalls).serialize [65] :=
  deserialize_built (by simp [synCalls, HeaderCall.InRange, TcpOption.InRange]) [65] (by decide)

end TcpHeader

end Ns3Raft.Net
