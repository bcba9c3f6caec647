import Ns3Raft.Net.TcpHeader

/-! # The option space of a TCP header

Which byte strings the option loop of `Deserialize` gets through: it then reads no byte behind the
options, and comes back to the data offset.
-/

namespace Ns3Raft.Net

/-- What an option parser makes of the bytes at the front. -/
inductive Span where
  /-- An option of a size that the parser reads and answers. -/
  | whole (size : Nat)
  /-- The end of the options. -/
  | padding
  /-- An option whose parser answers a wrong size, after its length octet. -/
  | malformed
  /-- The program ends, or the loop stays where it is. -/
  | never

def lengthSpan (kind len : Nat) : Span :=
  if kind = 2 then if len = 4 then .whole 4 else .never
  else if kind = 3 then if len = 3 then .whole 3 else .malformed
  else if kind = 4 then if len = 2 then .whole 2 else .malformed
  else if kind = 5 then .whole (2 + (len - 2) / 8 * 8)
  else if kind = 8 then if len = 10 then .whole 10 else .malformed
  else if len = 0 then .never
  else if len < 2 ∨ 40 < len then .malformed
  else .whole len

def span : List UInt8 → Span
  | [] => .never
  | kind :: rest =>
      if kind.toNat = 0 then .padding
      else if kind.toNat = 1 then .whole 1
      else
        match rest with
        | [] => .never
        | len :: _ => lengthSpan kind.toNat len.toNat

/-- The options end where the data offset says, or less than a word before it. -/
def aligned (i : List UInt8) (optionLen : Nat) : Bool :=
  if _ : optionLen = 0 then true
  else
    match span i with
    | .whole n => if 0 < n ∧ n ≤ optionLen then aligned (i.drop n) (optionLen - n) else false
    | .padding => decide (optionLen ≤ 4)
    | .malformed => decide (2 ≤ optionLen ∧ optionLen < 4)
    | .never => false
termination_by optionLen
decreasing_by omega

/-! ## The parsers -/

namespace OptionLoop

/-- The parser that the loop calls. -/
def parse (i : List UInt8) : Option TcpOption.Parsed := do
  let (kind, _) ← readU8 i
  (if TcpOption.isKindKnown kind then TcpOption.createOption kind else TcpOption.createOption 255).deserialize i

/-- A parser against the bytes at the front. -/
def Parses (i : List UInt8) : Span → Prop
  | .whole n => 0 < n ∧ (n ≤ i.length → ∃ op, parse i = some ⟨n, op, i.drop n⟩ ∧ op.getSerializedSize = n ∧ op.getKind ≠ 0) ∧
      (i.length < n → parse i = none)
  | .padding => parse i = some ⟨1, .endOfOptions, i.drop 1⟩ ∧ 1 ≤ i.length
  | .malformed => ∃ op, parse i = some ⟨0, op, i.drop 2⟩ ∧ op.getSerializedSize ≠ 0 ∧ 2 ≤ i.length
  | .never => parse i = none ∨ ∃ op, parse i = some ⟨0, op, i.drop 2⟩ ∧ op.getSerializedSize = 0 ∧ op.getKind ≠ 0

variable {kind len : UInt8} {rest : List UInt8}

theorem parse_known {n : Nat} (hkind : kind.toNat = n) (hknown : TcpOption.isKindKnown n = true) :
    parse (kind :: rest) = (TcpOption.createOption n).deserialize (kind :: rest) := by
  show (if TcpOption.isKindKnown kind.toNat then _ else _ : TcpOption).deserialize _ = _
  rw [hkind, if_pos hknown]

theorem parse_unknown (hunknown : TcpOption.isKindKnown kind.toNat = false) :
    parse (kind :: rest) = (TcpOption.unknown 0xff 0 []).deserialize (kind :: rest) := by
  show (if TcpOption.isKindKnown kind.toNat then _ else _ : TcpOption).deserialize _ = _
  rw [hunknown]
  rfl

/-- Of every known kind other than END and NOP the parser reads the length octet. -/
theorem parse_single (h0 : kind.toNat ≠ 0) (h1 : kind.toNat ≠ 1) : parse [kind] = none := by
  cases hknown : TcpOption.isKindKnown kind.toNat with
  | false => exact parse_unknown hknown
  | true =>
    rw [parse_known rfl hknown]
    have hkinds : kind.toNat ∈ [0, 1, 2, 3, 4, 5, 8] := of_decide_eq_true hknown
    simp only [List.mem_cons, List.not_mem_nil, or_false] at hkinds
    rcases hkinds with h | h | h | h | h | h | h
    · exact absurd h h0
    · exact absurd h h1
    all_goals
      rw [h]
      simp only [TcpOption.createOption, TcpOption.deserialize, readU8, TcpOption.getKind, Option.bind_eq_bind, Option.bind_some,
        h, ne_eq, not_true_eq_false, if_false, Option.bind_none]

theorem parses_mss (hkind : kind.toNat = 2) : Parses (kind :: len :: rest) (if len.toNat = 4 then .whole 4 else .never) := by
  have hparse : parse (kind :: len :: rest) =
      if len.toNat ≠ 4 then none
      else (readNtohU16 rest).bind fun (value, i) => some ⟨4, .mss value, i⟩ := by
    rw [parse_known hkind rfl]
    show (if kind.toNat ≠ 2 then _ else _) = _
    rw [if_neg (fun hne => hne hkind)]
    rfl
  split
  · next hlen =>
    rw [if_neg (fun hne => hne hlen)] at hparse
    refine ⟨by decide, fun hle => ?_, fun hlt => ?_⟩
    · obtain ⟨value, hvalue⟩ := readNtohU16_some (show 2 ≤ rest.length by simp only [List.length_cons] at hle; omega)
      rw [hvalue] at hparse
      exact ⟨.mss value, hparse, rfl, show 2 ≠ 0 by decide⟩
    · rw [hparse]
      cases hread : readNtohU16 rest with
      | none => rfl
      | some r =>
        have hlength := (readNtohU16_length hread).1
        simp only [List.length_cons] at hlt
        omega
  · next hlen => exact .inl (hparse.trans (if_pos hlen))

theorem parses_winScale (hkind : kind.toNat = 3) : Parses (kind :: len :: rest) (if len.toNat = 3 then .whole 3 else .malformed) := by
  have hparse : parse (kind :: len :: rest) =
      if len.toNat ≠ 3 then some ⟨0, .winScale 0, rest⟩
      else (readU8 rest).bind fun (scale, i) => some ⟨3, .winScale scale, i⟩ := by
    rw [parse_known hkind rfl]
    show (if kind.toNat ≠ 3 then _ else _) = _
    rw [if_neg (fun hne => hne hkind)]
    rfl
  split
  · next hlen =>
    rw [if_neg (fun hne => hne hlen)] at hparse
    cases rest with
    | nil => exact ⟨by decide, fun hle => absurd hle (by simp), fun _ => hparse⟩
    | cons scale rest => exact ⟨by decide, fun _ => ⟨_, hparse, rfl, show 3 ≠ 0 by decide⟩, fun hlt => absurd hlt (by simp)⟩
  · next hlen => exact ⟨_, hparse.trans (if_pos hlen), by decide, by simp⟩

theorem parses_sackPermitted (hkind : kind.toNat = 4) :
    Parses (kind :: len :: rest) (if len.toNat = 2 then .whole 2 else .malformed) := by
  have hparse : parse (kind :: len :: rest) =
      some (if len.toNat ≠ 2 then ⟨0, .sackPermitted, rest⟩ else ⟨2, .sackPermitted, rest⟩) := by
    rw [parse_known hkind rfl]
    show (if kind.toNat ≠ 4 then _ else _) = _
    rw [if_neg (fun hne => hne hkind)]
    rfl
  split
  · next hlen =>
    rw [if_neg (fun hne => hne hlen)] at hparse
    exact ⟨by decide, fun _ => ⟨_, hparse, rfl, by decide⟩, fun hlt => absurd hlt (by simp)⟩
  · next hlen =>
    rw [if_pos hlen] at hparse
    exact ⟨_, hparse, by decide, by simp⟩

theorem parses_sack (hkind : kind.toNat = 5) : Parses (kind :: len :: rest) (.whole (2 + (len.toNat - 2) / 8 * 8)) := by
  have hparse : parse (kind :: len :: rest) =
      (TcpOption.readBlocks ((len.toNat - 2) / 8) rest).bind fun r =>
        some ⟨(TcpOption.sack r.1).getSerializedSize, .sack r.1, r.2⟩ := by
    rw [parse_known hkind rfl]
    show (if kind.toNat ≠ 5 then _ else _) = _
    rw [if_neg (fun hne => hne hkind)]
    rfl
  refine ⟨by omega, fun hle => ?_, fun hlt => ?_⟩
  · have hroom : 8 * ((len.toNat - 2) / 8) ≤ rest.length := by
      simp only [List.length_cons] at hle
      omega
    obtain ⟨sackList, hblocks⟩ := TcpOption.readBlocks_some hroom
    have hsize : (TcpOption.sack sackList).getSerializedSize = 2 + (len.toNat - 2) / 8 * 8 := by
      show 2 + sackList.length * 8 = _
      rw [(TcpOption.readBlocks_length hblocks).1]
    refine ⟨.sack sackList, ?_, hsize, show 5 ≠ 0 by decide⟩
    rw [hparse, hblocks, Option.bind_some]
    dsimp only
    rw [hsize, Nat.add_comm 2, Nat.mul_comm _ 8]
    rfl
  · rw [hparse]
    cases hread : TcpOption.readBlocks ((len.toNat - 2) / 8) rest with
    | none => rfl
    | some r =>
      have hlength := (TcpOption.readBlocks_length hread).2.1
      simp only [List.length_cons] at hlt
      omega

theorem parses_ts (hkind : kind.toNat = 8) : Parses (kind :: len :: rest) (if len.toNat = 10 then .whole 10 else .malformed) := by
  have hparse : parse (kind :: len :: rest) =
      if len.toNat ≠ 10 then some ⟨0, .ts 0 0, rest⟩
      else (readNtohU32 rest).bind fun r => (readNtohU32 r.2).bind fun r' => some ⟨10, .ts r.1 r'.1, r'.2⟩ := by
    rw [parse_known hkind rfl]
    show (if kind.toNat ≠ 8 then _ else _) = _
    rw [if_neg (fun hne => hne hkind)]
    rfl
  split
  · next hlen =>
    rw [if_neg (fun hne => hne hlen)] at hparse
    refine ⟨by decide, fun hle => ?_, fun hlt => ?_⟩
    · simp only [List.length_cons] at hle
      obtain ⟨timestamp, htimestamp⟩ := readNtohU32_some (show 4 ≤ rest.length by omega)
      obtain ⟨echo, hecho⟩ := readNtohU32_some (show 4 ≤ (rest.drop 4).length by rw [List.length_drop]; omega)
      rw [htimestamp, Option.bind_some] at hparse
      dsimp only at hparse
      rw [hecho, Option.bind_some, List.drop_drop] at hparse
      exact ⟨.ts timestamp echo, hparse, rfl, show 8 ≠ 0 by decide⟩
    · rw [hparse]
      cases hread : readNtohU32 rest with
      | none => rfl
      | some r =>
        rw [Option.bind_some]
        cases hread' : readNtohU32 r.2 with
        | none => rfl
        | some r' =>
          have hlength := (readNtohU32_length hread).1
          have hlength' := (readNtohU32_length hread').1
          simp only [List.length_cons] at hlt
          omega
  · next hlen => exact ⟨_, hparse.trans (if_pos hlen), by decide, by simp⟩

theorem parses_unknown (hunknown : TcpOption.isKindKnown kind.toNat = false) :
    Parses (kind :: len :: rest)
      (if len.toNat = 0 then .never else if len.toNat < 2 ∨ 40 < len.toNat then .malformed else .whole len.toNat) := by
  have hzero : kind.toNat ≠ 0 := fun h => by
    rw [h] at hunknown
    exact absurd hunknown (by decide)
  have hparse : parse (kind :: len :: rest) =
      if len.toNat < 2 ∨ len.toNat > 40 then some ⟨0, .unknown kind.toNat len.toNat [], rest⟩
      else (readBytes (len.toNat - 2) rest).bind fun r => some ⟨len.toNat, .unknown kind.toNat len.toNat r.1, r.2⟩ :=
    parse_unknown hunknown
  split
  · next hlen =>
    rw [if_pos (.inl (by omega))] at hparse
    exact .inr ⟨_, hparse, hlen, hzero⟩
  · next hlen =>
    split
    · next hsize => exact ⟨_, hparse.trans (if_pos hsize), hlen, by simp⟩
    · next hsize =>
      rw [if_neg hsize] at hparse
      refine ⟨by omega, fun hle => ?_, fun hlt => ?_⟩
      · simp only [List.length_cons] at hle
        rw [readBytes, if_pos (by omega), Option.bind_some] at hparse
        refine ⟨.unknown kind.toNat len.toNat (rest.take (len.toNat - 2)), hparse.trans ?_, rfl, hzero⟩
        obtain ⟨n, hn⟩ : ∃ n, len.toNat = n + 2 := ⟨len.toNat - 2, by omega⟩
        rw [hn]
        rfl
      · simp only [List.length_cons] at hlt
        rw [hparse, readBytes, if_neg (by omega)]
        rfl

theorem parses_lengthSpan (h0 : kind.toNat ≠ 0) (h1 : kind.toNat ≠ 1) :
    Parses (kind :: len :: rest) (lengthSpan kind.toNat len.toNat) := by
  unfold lengthSpan
  by_cases h2 : kind.toNat = 2
  · rw [if_pos h2]
    exact parses_mss h2
  rw [if_neg h2]
  by_cases h3 : kind.toNat = 3
  · rw [if_pos h3]
    exact parses_winScale h3
  rw [if_neg h3]
  by_cases h4 : kind.toNat = 4
  · rw [if_pos h4]
    exact parses_sackPermitted h4
  rw [if_neg h4]
  by_cases h5 : kind.toNat = 5
  · rw [if_pos h5]
    exact parses_sack h5
  rw [if_neg h5]
  by_cases h8 : kind.toNat = 8
  · rw [if_pos h8]
    exact parses_ts h8
  rw [if_neg h8]
  refine parses_unknown (decide_eq_false ?_)
  simp only [List.mem_cons, List.not_mem_nil, or_false]
  tauto

theorem parses_span (i : List UInt8) : Parses i (span i) := by
  match i with
  | [] => exact .inl rfl
  | kind :: rest =>
    unfold span
    dsimp only
    by_cases h0 : kind.toNat = 0
    · rw [if_pos h0]
      refine ⟨?_, by simp⟩
      rw [parse_known h0 rfl]
      show some (if kind.toNat ≠ 0 then _ else _) = _
      rw [if_neg (fun hne => hne h0)]
      rfl
    rw [if_neg h0]
    by_cases h1 : kind.toNat = 1
    · rw [if_pos h1]
      refine ⟨by decide, fun _ => ⟨.nop, ?_, rfl, by decide⟩, fun hlt => absurd hlt (by simp)⟩
      rw [parse_known h1 rfl]
      show some (if kind.toNat ≠ 1 then _ else _) = _
      rw [if_neg (fun hne => hne h1)]
      rfl
    rw [if_neg h1]
    cases rest with
    | nil => exact .inl (parse_single h0 h1)
    | cons len rest => exact parses_lengthSpan h0 h1

/-! ## The loop -/

variable {s s' : OptionLoop} {n fuel : Nat} {op : TcpOption}

theorem round_of_none (h : parse s.i = none) : s.round = none := by
  unfold parse at h
  unfold round
  cases hread : readU8 s.i with
  | none => rfl
  | some r =>
    rw [hread] at h
    simp only [Option.bind_eq_bind, Option.bind_some] at h ⊢
    rw [h]
    rfl

/-- One round, after its parser. -/
def advance (s : OptionLoop) (parsed : TcpOption.Parsed) : Option Round :=
  let s := { s with inside := s.inside && decide (s.i.length - parsed.rest.length ≤ s.optionLen) }
  if parsed.size ≠ parsed.option.getSerializedSize then some (.stop s)
  else if s.optionLen < parsed.size then some (.stop s)
  else
    let s := { s with
      i := s.i.drop parsed.size
      optionLen := s.optionLen - parsed.size
      options := s.options ++ [parsed.option]
      optionsLen := (s.optionsLen + parsed.size) % 2 ^ 8 }
    if parsed.option.getKind = 0 then
      if s.optionLen ≤ s.i.length then
        some (.next { s with i := s.i.drop s.optionLen, optionLen := 0, optionsLen := (s.optionsLen + s.optionLen) % 2 ^ 8 })
      else none
    else some (.next s)

theorem round_of_some {parsed : TcpOption.Parsed} (h : parse s.i = some parsed) : s.round = s.advance parsed := by
  unfold parse at h
  unfold round
  cases hread : readU8 s.i with
  | none =>
    rw [hread] at h
    exact nomatch h
  | some r =>
    rw [hread] at h
    simp only [Option.bind_eq_bind, Option.bind_some] at h ⊢
    rw [h, Option.bind_some]
    rfl

theorem loop_done (h : s.optionLen = 0) : loop (fuel + 1) s = some s := by
  rw [loop, if_pos h]

theorem loop_none (hleft : s.optionLen ≠ 0) (h : parse s.i = none) : loop fuel s = none := by
  cases fuel with
  | zero => rfl
  | succ fuel => rw [loop, if_neg hleft, round_of_none h]

theorem loop_abort {parsed : TcpOption.Parsed} (hleft : s.optionLen ≠ 0) (h : parse s.i = some parsed)
    (habort : s.advance parsed = none) : loop fuel s = none := by
  cases fuel with
  | zero => rfl
  | succ fuel => rw [loop, if_neg hleft, round_of_some h, habort]

theorem loop_stop {parsed : TcpOption.Parsed} (hleft : s.optionLen ≠ 0) (h : parse s.i = some parsed)
    (hstop : s.advance parsed = some (.stop s')) : loop (fuel + 1) s = some s' := by
  rw [loop, if_neg hleft, round_of_some h, hstop]

theorem loop_next {parsed : TcpOption.Parsed} (hleft : s.optionLen ≠ 0) (h : parse s.i = some parsed)
    (hnext : s.advance parsed = some (.next s')) : loop (fuel + 1) s = loop fuel s' := by
  rw [loop, if_neg hleft, round_of_some h, hnext]

/-- With a length octet of zero an unknown option is read again and again. -/
theorem loop_never (hleft : s.optionLen ≠ 0) (hspan : span s.i = .never) : loop fuel s = none := by
  have hparses := parses_span s.i
  rw [hspan] at hparses
  rcases hparses with hnone | ⟨op, hsome, hsize, hkind⟩
  · exact loop_none hleft hnone
  · induction fuel generalizing s with
    | zero => rfl
    | succ fuel ih =>
      have hnext : s.advance ⟨0, op, s.i.drop 2⟩ =
          some (.next { s with
            inside := s.inside && decide (s.i.length - (s.i.drop 2).length ≤ s.optionLen)
            options := s.options ++ [op]
            optionsLen := (s.optionsLen + 0) % 2 ^ 8 }) := by
        unfold advance
        rw [if_neg (fun hne => hne hsize.symm), if_neg (Nat.not_lt_zero _)]
        exact if_neg hkind
      rw [loop_next hleft hsome hnext]
      exact ih (s := { s with
        inside := s.inside && decide (s.i.length - (s.i.drop 2).length ≤ s.optionLen)
        options := s.options ++ [op]
        optionsLen := (s.optionsLen + 0) % 2 ^ 8 }) hleft hspan hsome

theorem optionsSize_append (options : List TcpOption) (op : TcpOption) :
    TcpHeader.optionsSize (options ++ [op]) = TcpHeader.optionsSize options + op.getSerializedSize := by
  simp [TcpHeader.optionsSize]

theorem advance_stop {parsed : TcpOption.Parsed} (h : s.advance parsed = some (.stop s')) : s'.options = s.options := by
  unfold advance at h
  dsimp only at h
  by_cases hsize : parsed.size ≠ parsed.option.getSerializedSize
  · rw [if_pos hsize] at h
    exact Round.stop.inj (Option.some.inj h) ▸ rfl
  rw [if_neg hsize] at h
  by_cases hfits : s.optionLen < parsed.size
  · rw [if_pos hfits] at h
    exact Round.stop.inj (Option.some.inj h) ▸ rfl
  rw [if_neg hfits] at h
  split at h
  · split at h <;> exact nomatch h
  · exact nomatch h

/-- What a round takes from the options it adds to the list. -/
theorem advance_next {parsed : TcpOption.Parsed} (h : s.advance parsed = some (.next s')) :
    TcpHeader.optionsSize s'.options + s'.optionLen ≤ TcpHeader.optionsSize s.options + s.optionLen := by
  unfold advance at h
  dsimp only at h
  by_cases hsize : parsed.size ≠ parsed.option.getSerializedSize
  · rw [if_pos hsize] at h
    exact nomatch h
  rw [if_neg hsize] at h
  have hsize := Decidable.not_not.1 hsize
  by_cases hfits : s.optionLen < parsed.size
  · rw [if_pos hfits] at h
    exact nomatch h
  rw [if_neg hfits] at h
  split at h
  · split at h
    · obtain rfl := Round.next.inj (Option.some.inj h)
      dsimp only
      rw [optionsSize_append]
      omega
    · exact nomatch h
  · obtain rfl := Round.next.inj (Option.some.inj h)
    dsimp only
    rw [optionsSize_append]
    omega

/-- The options that are kept are within the option space. -/
theorem loop_size (h : loop fuel s = some s') :
    TcpHeader.optionsSize s'.options ≤ TcpHeader.optionsSize s.options + s.optionLen := by
  induction fuel generalizing s with
  | zero => exact nomatch h
  | succ fuel ih =>
    by_cases hleft : s.optionLen = 0
    · rw [loop_done hleft] at h
      obtain rfl := Option.some.inj h
      exact Nat.le_add_right _ _
    · cases hparse : parse s.i with
      | none =>
        rw [loop_none hleft hparse] at h
        exact nomatch h
      | some parsed =>
        match hround : s.advance parsed with
        | none =>
          rw [loop_abort hleft hparse hround] at h
          exact nomatch h
        | some (.stop s₁) =>
          rw [loop_stop hleft hparse hround] at h
          obtain rfl := Option.some.inj h
          rw [advance_stop hround]
          exact Nat.le_add_right _ _
        | some (.next s₁) =>
          rw [loop_next hleft hparse hround] at h
          exact Nat.le_trans (ih h) (advance_next hround)

/-- The loop ends, in a state that is `P`. -/
def EndsIn (s : OptionLoop) (P : OptionLoop → Prop) : Prop :=
  ∃ fuel s', loop fuel s = some s' ∧ P s'

variable {P : OptionLoop → Prop} {total : Nat}

theorem endsIn_done (hleft : s.optionLen = 0) : s.EndsIn P ↔ P s := by
  constructor
  · rintro ⟨fuel, s₁, hloop, hresult⟩
    cases fuel with
    | zero => exact nomatch hloop
    | succ fuel =>
      rw [loop_done hleft] at hloop
      obtain rfl := Option.some.inj hloop
      exact hresult
  · exact fun hresult => ⟨1, s, loop_done hleft, hresult⟩

theorem endsIn_stop {parsed : TcpOption.Parsed} (hleft : s.optionLen ≠ 0) (h : parse s.i = some parsed)
    (hstop : s.advance parsed = some (.stop s')) : s.EndsIn P ↔ P s' := by
  constructor
  · rintro ⟨fuel, s₁, hloop, hresult⟩
    cases fuel with
    | zero => exact nomatch hloop
    | succ fuel =>
      rw [loop_stop hleft h hstop] at hloop
      obtain rfl := Option.some.inj hloop
      exact hresult
  · exact fun hresult => ⟨1, s', loop_stop hleft h hstop, hresult⟩

theorem endsIn_next {parsed : TcpOption.Parsed} (hleft : s.optionLen ≠ 0) (h : parse s.i = some parsed)
    (hnext : s.advance parsed = some (.next s')) : s.EndsIn P ↔ s'.EndsIn P := by
  constructor
  · rintro ⟨fuel, s₁, hloop, hresult⟩
    cases fuel with
    | zero => exact nomatch hloop
    | succ fuel =>
      rw [loop_next hleft h hnext] at hloop
      exact ⟨fuel, s₁, hloop, hresult⟩
  · rintro ⟨fuel, s₁, hloop, hresult⟩
    exact ⟨fuel + 1, s₁, by rw [loop_next hleft h hnext]; exact hloop, hresult⟩

theorem not_endsIn (h : ∀ fuel, loop fuel s = none) : ¬ s.EndsIn P := by
  rintro ⟨fuel, s₁, hloop, -⟩
  rw [h] at hloop
  exact nomatch hloop

/-- A round whose parser answers a wrong size. -/
theorem advance_malformed {n : Nat} (hsize : op.getSerializedSize ≠ 0) : s.advance ⟨0, op, s.i.drop n⟩ =
    some (.stop { s with inside := s.inside && decide (s.i.length - (s.i.drop n).length ≤ s.optionLen) }) :=
  if_pos (Ne.symm hsize)

theorem advance_padding (hleft : s.optionLen ≠ 0) : s.advance ⟨1, .endOfOptions, s.i.drop 1⟩ =
    if s.optionLen - 1 ≤ (s.i.drop 1).length then
      some (.next ⟨(s.i.drop 1).drop (s.optionLen - 1), 0, s.options ++ [.endOfOptions],
        ((s.optionsLen + 1) % 2 ^ 8 + (s.optionLen - 1)) % 2 ^ 8,
        s.inside && decide (s.i.length - (s.i.drop 1).length ≤ s.optionLen)⟩)
    else none := by
  unfold advance
  dsimp only
  rw [if_neg (fun hne => hne rfl), if_neg (by omega)]
  rfl

theorem advance_whole (hsize : op.getSerializedSize = n) (hkind : op.getKind ≠ 0) (hle : n ≤ s.optionLen) :
    s.advance ⟨n, op, s.i.drop n⟩ =
      some (.next ⟨s.i.drop n, s.optionLen - n, s.options ++ [op], (s.optionsLen + n) % 2 ^ 8,
        s.inside && decide (s.i.length - (s.i.drop n).length ≤ s.optionLen)⟩) := by
  unfold advance
  dsimp only
  rw [if_neg (fun hne => hne hsize.symm), if_neg (Nat.not_lt.2 hle), if_neg hkind]

theorem advance_beyond (hsize : op.getSerializedSize = n) (hlt : s.optionLen < n) :
    s.advance ⟨n, op, s.i.drop n⟩ =
      some (.stop { s with inside := s.inside && decide (s.i.length - (s.i.drop n).length ≤ s.optionLen) }) := by
  unfold advance
  dsimp only
  rw [if_neg (fun hne => hne hsize.symm), if_pos hlt]

theorem read_drop {n : Nat} (h : n ≤ s.i.length) : s.i.length - (s.i.drop n).length = n := by
  rw [List.length_drop]
  omega

/-- No parser has read behind the options, and less than a word of `total` is missing. -/
def Whole (total : Nat) (s : OptionLoop) : Prop :=
  s.inside = true ∧ total ≤ TcpHeader.optionsSize s.options + 3

theorem ends_iff (hinside : s.inside = true) (hroom : s.optionLen ≤ s.i.length)
    (htotal : TcpHeader.optionsSize s.options + s.optionLen = total) :
    s.EndsIn (Whole total) ↔ aligned s.i s.optionLen = true := by
  induction hn : s.optionLen using Nat.strongRecOn generalizing s with
  | ind n ih =>
    by_cases hleft : s.optionLen = 0
    · rw [← hn, hleft, aligned, dif_pos rfl, endsIn_done hleft]
      exact iff_of_true ⟨hinside, by omega⟩ rfl
    · have hparses := parses_span s.i
      rw [← hn, aligned, dif_neg hleft]
      cases hspan : span s.i with
      | never => exact iff_of_false (not_endsIn fun fuel => loop_never hleft hspan) Bool.false_ne_true
      | malformed =>
        rw [hspan] at hparses
        obtain ⟨op, hparse, hsize, hlength⟩ := hparses
        rw [endsIn_stop hleft hparse (advance_malformed hsize), Whole]
        dsimp only
        rw [hinside, read_drop hlength, Bool.true_and, decide_eq_true_eq, decide_eq_true_eq]
        omega
      | padding =>
        rw [hspan] at hparses
        obtain ⟨hparse, hlength⟩ := hparses
        have hnext := advance_padding (s := s) hleft
        rw [if_pos (by rw [List.length_drop]; omega)] at hnext
        rw [endsIn_next hleft hparse hnext, endsIn_done rfl, Whole]
        have hone : TcpOption.getSerializedSize .endOfOptions = 1 := rfl
        dsimp only
        rw [hinside, read_drop hlength, Bool.true_and, decide_eq_true_eq, decide_eq_true_eq, optionsSize_append]
        omega
      | whole k =>
        rw [hspan] at hparses
        obtain ⟨hpos, hsome, hnone⟩ := hparses
        dsimp only
        by_cases hk : k ≤ s.optionLen
        · rw [if_pos ⟨hpos, hk⟩]
          have hlong := Nat.le_trans hk hroom
          obtain ⟨op, hparse, hsize, hkind⟩ := hsome hlong
          have hnext := advance_whole (s := s) hsize hkind hk
          rw [hinside, read_drop hlong, decide_eq_true hk] at hnext
          rw [endsIn_next hleft hparse hnext]
          refine ih (s.optionLen - k) (by omega) (s := ⟨s.i.drop k, s.optionLen - k, s.options ++ [op],
            (s.optionsLen + k) % 2 ^ 8, true⟩) rfl ?_ ?_ rfl
          · show s.optionLen - k ≤ (s.i.drop k).length
            rw [List.length_drop]
            omega
          · show TcpHeader.optionsSize (s.options ++ [op]) + (s.optionLen - k) = total
            rw [optionsSize_append]
            omega
        · rw [if_neg (fun h => hk h.2)]
          refine iff_of_false ?_ Bool.false_ne_true
          by_cases hlong : k ≤ s.i.length
          · obtain ⟨op, hparse, hsize, hkind⟩ := hsome hlong
            rw [endsIn_stop hleft hparse (advance_beyond hsize (Nat.lt_of_not_le hk)), Whole]
            dsimp only
            rw [read_drop hlong, decide_eq_false hk, Bool.and_false]
            exact fun hwhole => Bool.false_ne_true hwhole.1
          · exact not_endsIn fun fuel => loop_none hleft (hnone (Nat.lt_of_not_le hlong))

/-- The options end, or an option that is not whole does. -/
def finite (i : List UInt8) (optionLen : Nat) : Bool :=
  if _ : optionLen = 0 then true
  else
    match span i with
    | .whole n => decide (n ≤ i.length) && if 0 < n ∧ n ≤ optionLen then finite (i.drop n) (optionLen - n) else true
    | .padding => decide (optionLen ≤ i.length)
    | .malformed => true
    | .never => false
termination_by optionLen
decreasing_by omega

theorem returns_iff : s.EndsIn (fun _ => True) ↔ finite s.i s.optionLen = true := by
  induction hn : s.optionLen using Nat.strongRecOn generalizing s with
  | ind n ih =>
    by_cases hleft : s.optionLen = 0
    · rw [← hn, hleft, finite, dif_pos rfl, endsIn_done hleft]
      exact iff_of_true trivial rfl
    · have hparses := parses_span s.i
      rw [← hn, finite, dif_neg hleft]
      cases hspan : span s.i with
      | never => exact iff_of_false (not_endsIn fun fuel => loop_never hleft hspan) Bool.false_ne_true
      | malformed =>
        rw [hspan] at hparses
        obtain ⟨op, hparse, hsize, hlength⟩ := hparses
        rw [endsIn_stop hleft hparse (advance_malformed hsize)]
        exact iff_of_true trivial rfl
      | padding =>
        rw [hspan] at hparses
        obtain ⟨hparse, hlength⟩ := hparses
        have hnext := advance_padding (s := s) hleft
        rw [decide_eq_true_eq]
        by_cases hroom : s.optionLen ≤ s.i.length
        · rw [if_pos (by rw [List.length_drop]; omega)] at hnext
          rw [endsIn_next hleft hparse hnext, endsIn_done rfl]
          exact iff_of_true trivial hroom
        · rw [if_neg (by rw [List.length_drop]; omega)] at hnext
          exact iff_of_false (not_endsIn fun fuel => loop_abort hleft hparse hnext) hroom
      | whole k =>
        rw [hspan] at hparses
        obtain ⟨hpos, hsome, hnone⟩ := hparses
        dsimp only
        by_cases hlong : k ≤ s.i.length
        · obtain ⟨op, hparse, hsize, hkind⟩ := hsome hlong
          rw [decide_eq_true hlong, Bool.true_and]
          by_cases hk : k ≤ s.optionLen
          · rw [if_pos ⟨hpos, hk⟩, endsIn_next hleft hparse (advance_whole hsize hkind hk)]
            exact ih (s.optionLen - k) (by omega) rfl
          · rw [if_neg (fun h => hk h.2), endsIn_stop hleft hparse (advance_beyond hsize (Nat.lt_of_not_le hk))]
            exact iff_of_true trivial rfl
        · rw [decide_eq_false hlong, Bool.false_and]
          exact iff_of_false (not_endsIn fun fuel => loop_none hleft (hnone (Nat.lt_of_not_le hlong))) Bool.false_ne_true

end OptionLoop

/-! ## The whole header -/

namespace TcpHeader

variable {h : TcpHeader} {p : List UInt8}

theorem readNtohU16_eq {i : List UInt8} (hi : 2 ≤ i.length) :
    readNtohU16 i = some ((i.getD 0 0).toNat * 2 ^ 8 + (i.getD 1 0).toNat, i.drop 2) := by
  match i with
  | [] => exact absurd hi (by decide)
  | [_] => exact absurd hi (by simp)
  | high :: low :: i => rfl

theorem readFields_some (h : TcpHeader) (hp : 20 ≤ p.length) :
    ∃ h', h.readFields p = some (h', p.drop 20) ∧ h'.length = dataOffset p ∧ h'.options = [] ∧
      h'.calcChecksum = h.calcChecksum ∧ h'.goodChecksum = h.goodChecksum ∧ h'.pseudo = h.pseudo := by
  have hroom : ∀ k m : Nat, k + m ≤ 20 → m ≤ (p.drop k).length := by
    intro k m hk
    rw [List.length_drop]
    omega
  have hsource := readNtohU16_eq (hroom 0 2 (by decide))
  have hdestination := readNtohU16_eq (hroom 2 2 (by decide))
  obtain ⟨sequence, hsequence⟩ := readNtohU32_some (hroom 4 4 (by decide))
  obtain ⟨ack, hack⟩ := readNtohU32_some (hroom 8 4 (by decide))
  have hfield := readNtohU16_eq (hroom 12 2 (by decide))
  have hwindow := readNtohU16_eq (hroom 14 2 (by decide))
  have hurgent := readNtohU16_eq (hroom 18 2 (by decide))
  rw [List.drop_zero] at hsource
  rw [List.drop_drop] at hdestination hsequence hack hfield hwindow hurgent
  have hoffset : ((p.drop 12).getD 0 0).toNat = (p.getD 12 0).toNat := by
    rw [List.getD_eq_getElem?_getD, List.getElem?_drop, List.getD_eq_getElem?_getD]
  simp only [readFields, Option.bind_eq_bind, Option.bind_some, hsource, hdestination, hsequence, hack, hfield, hwindow,
    List.drop_drop, hurgent]
  refine ⟨_, rfl, ?_, rfl, rfl, rfl, rfl⟩
  dsimp only
  rw [hoffset, dataOffset]
  have hlow := ((p.drop 12).getD 1 0).toNat_lt
  omega

theorem calculateHeaderLength_iff {options : List TcpOption} {k : Nat} (hk : k ≤ 10) (hle : optionsSize options ≤ k * 4)
    (hoptions : h.options = options) : h.getSerializedSize = 4 * (k + 5) ↔ k * 4 ≤ optionsSize options + 3 := by
  rw [getSerializedSize, calculateHeaderLength, hoptions, Nat.shiftRight_eq_div_pow]
  split <;> omega

theorem dataOffset_lt (p : List UInt8) : dataOffset p < 16 := by
  have hlt := (p.getD 12 0).toNat_lt
  rw [dataOffset]
  omega

/-- With less than five words the options are not read, and the checksum is not either. -/
theorem deserialize_short (h : TcpHeader) (hp : 20 ≤ p.length) (hshort : dataOffset p < 5) (fuel : Nat) :
    ∃ h', h.deserialize fuel p = some (h', 20, true) ∧ h'.goodChecksum = h.goodChecksum := by
  obtain ⟨h', hfields, hlength, -, -, hgood, -⟩ := h.readFields_some hp
  refine ⟨h', ?_, hgood⟩
  rw [deserialize, hfields, Option.bind_eq_bind, Option.bind_some]
  exact if_pos (.inl (by rw [hlength]; exact hshort))

/-- What is left of `Deserialize` when the option loop has ended. -/
def finish (h : TcpHeader) (start : List UInt8) (s : OptionLoop) : TcpHeader × Nat × Bool :=
  let h := verify { h with options := s.options, optionsLen := s.optionsLen } start
  (h, h.getSerializedSize, s.inside)

/-- The option loop at its start. -/
def optionLoop (p : List UInt8) : OptionLoop := ⟨p.drop 20, (dataOffset p - 5) * 4, [], 0, true⟩

theorem deserialize_long (h : TcpHeader) (hp : 20 ≤ p.length) (hlong : 5 ≤ dataOffset p) :
    ∃ h' : TcpHeader, h'.calcChecksum = h.calcChecksum ∧ h'.pseudo = h.pseudo ∧
      ∀ fuel, h.deserialize fuel p = (OptionLoop.loop fuel (optionLoop p)).map (h'.finish p) := by
  obtain ⟨h', hfields, hlength, -, hcalc, -, hpseudo⟩ := h.readFields_some hp
  have hoffset := dataOffset_lt p
  refine ⟨h', hcalc, hpseudo, fun fuel => ?_⟩
  rw [deserialize, hfields, Option.bind_eq_bind, Option.bind_some]
  dsimp only
  rw [if_neg (by rw [hlength, maxOptionsLen]; omega), optionLoop, ← hlength]
  exact Option.map_eq_bind.symm

theorem verify_options (h : TcpHeader) (p : List UInt8) : (h.verify p).options = h.options := by
  unfold verify
  split <;> rfl

/-- Less than a word is missing where the data offset is returned. -/
theorem finish_size (h : TcpHeader) {fuel : Nat} {s : OptionLoop} (hlong : 5 ≤ dataOffset p)
    (hloop : OptionLoop.loop fuel (optionLoop p) = some s) :
    (h.finish p s).2.1 = 4 * dataOffset p ↔ (dataOffset p - 5) * 4 ≤ optionsSize s.options + 3 := by
  have hoffset := dataOffset_lt p
  obtain ⟨k, hk⟩ := Nat.exists_eq_add_of_le hlong
  have hle := OptionLoop.loop_size hloop
  simp only [optionLoop, show optionsSize [] = 0 from rfl, Nat.zero_add] at hle
  have hiff := calculateHeaderLength_iff (by omega) hle
    (verify_options { h with options := s.options, optionsLen := s.optionsLen } p)
  rwa [show dataOffset p - 5 + 5 = dataOffset p by omega] at hiff

/-- The option parsers keep to the options, and the data offset is what is returned. -/
def KeepsToOptions (h : TcpHeader) (p : List UInt8) : Prop :=
  ∃ fuel h' size inside, h.deserialize fuel p = some (h', size, inside) ∧
    (5 ≤ dataOffset p → inside = true ∧ size = 4 * dataOffset p)

theorem keepsToOptions_iff (h : TcpHeader) (hp : 60 ≤ p.length) :
    KeepsToOptions h p ↔ dataOffset p < 5 ∨ aligned (p.drop 20) ((dataOffset p - 5) * 4) = true := by
  have hfixed : 20 ≤ p.length := Nat.le_trans (by decide) hp
  have hoffset := dataOffset_lt p
  rcases Nat.lt_or_ge (dataOffset p) 5 with hshort | hlong
  · obtain ⟨h', hresult, -⟩ := h.deserialize_short hfixed hshort 0
    exact iff_of_true ⟨0, h', 20, true, hresult, fun hge => absurd hshort (Nat.not_lt.2 hge)⟩ (.inl hshort)
  · obtain ⟨h', -, -, hrun⟩ := h.deserialize_long hfixed hlong
    have hroom : (dataOffset p - 5) * 4 ≤ (p.drop 20).length := by
      rw [List.length_drop]
      omega
    have hends := OptionLoop.ends_iff (s := optionLoop p) rfl hroom (Nat.zero_add _)
    rw [or_iff_right (Nat.not_lt.2 hlong)]
    refine Iff.trans ?_ hends
    constructor
    · rintro ⟨fuel, h₁, size, inside, hresult, hright⟩
      obtain ⟨hinside, hsized⟩ := hright hlong
      rw [hrun, Option.map_eq_some_iff] at hresult
      obtain ⟨s, hloop, heq⟩ := hresult
      have hin : s.inside = inside := congrArg (·.2.2) heq
      have hreturned : (h'.finish p s).2.1 = size := congrArg (·.2.1) heq
      exact ⟨fuel, s, hloop, hin.trans hinside, (finish_size h' hlong hloop).1 (hreturned.trans hsized)⟩
    · rintro ⟨fuel, s, hloop, hinside, hle⟩
      refine ⟨fuel, (h'.finish p s).1, (h'.finish p s).2.1, s.inside, ?_, fun _ => ?_⟩
      · rw [hrun, hloop]
        rfl
      · exact ⟨hinside, (finish_size h' hlong hloop).2 hle⟩

/-- A segment from one host to another. -/
def hosts : PseudoHeader := ⟨true, [10, 0, 0, 1], [10, 0, 0, 2], 6, rfl, rfl⟩

/-- A header of so many words, with these options, and zeros behind. -/
def segmentOf (words : UInt8) (options : List UInt8) : List UInt8 :=
  List.replicate 12 0 ++ (words * 2 ^ 4 :: List.replicate 7 0 ++ (options ++ List.replicate 60 0))

theorem keepsToOptions_padded : KeepsToOptions (new hosts) (segmentOf 6 [1, 1, 1, 0]) := by
  have hwords : dataOffset (segmentOf 6 [1, 1, 1, 0]) = 6 := by decide
  refine (keepsToOptions_iff (new hosts) (by decide)).2 (.inr ?_)
  rw [hwords]
  simp [aligned, span, segmentOf]

/-- An unknown option of no length is read for ever. -/
theorem not_keepsToOptions_unknown : ¬ KeepsToOptions (new hosts) (segmentOf 6 [77, 0]) := by
  rintro ⟨fuel, h', size, inside, hresult, -⟩
  obtain ⟨h₁, -, -, hrun⟩ := (new hosts).deserialize_long (p := segmentOf 6 [77, 0]) (by decide) (by decide)
  have hloop : OptionLoop.loop fuel (optionLoop (segmentOf 6 [77, 0])) = none := OptionLoop.loop_never (by decide) rfl
  rw [hrun, hloop] at hresult
  exact nomatch hresult

end TcpHeader

end Ns3Raft.Net
