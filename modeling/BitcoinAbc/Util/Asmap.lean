import Mathlib
import BitcoinAbc.Script.SigEncoding

/-!
# The asmap interpreter and its sanity check (util/asmap.cpp)

An asmap is a bit string encoding a program of four instructions (`RETURN`,
`JUMP`, `MATCH`, `DEFAULT`) with forward jumps only. `Interpret` runs it on the
bits of an IP address and answers an AS number; it reaches `assert(false)`
through one of its `break`s when the program is malformed for that input.
`SanityCheckASMap` scans the program once, in order of position, keeping the
stack of the targets of the jumps it has passed with the number of input bits
left at each, and accepts only programs on which every execution with
`bits` input bits ends in a `RETURN` or a failed `MATCH`.

Both loops are modelled one turn at a time (`interpretStep`, `scanStep`),
positions being bit offsets in the asmap. Each turn moves forward, which
justifies the recursion of the loops.

- `ScanAccepts`: the runs of the scan that accept, which `sanityLoop`
  computes;
- `jump_target_reached`: on an accepting run, every pending jump target is
  later a state of the run, with the bits the jump leaves;
- `interpretStep_vouched`, `interpretLoop_isSome`: a state of `Interpret`
  whose position and bits are those of a state of an accepting run never
  aborts; `Interpret` starts at the first state of the scan when the input
  has as many bits as the scan was given.
-/

namespace BitcoinAbc

namespace Asmap

/-- The portable loop of `CountBits(x)` (crypto/common.h), `while (x) { x >>= 1;
++ret; }`, with at most `fuel` more turns: the position of the highest set
bit plus one. -/
def countBitsLoop : Nat → Nat → Nat
  | 0, _ => 0
  | fuel + 1, x => if x = 0 then 0 else countBitsLoop fuel (x >>> 1) + 1

/-- `CountBits(x)` for a `uint64_t`, which the loop runs down in 64 turns at
most. The `__builtin_clzl` branches compute the same number. -/
def CountBits (x : UInt64) : Nat := countBitsLoop 64 x.toNat

/-- `INVALID`: what the decoders return when the asmap ends too early. -/
def INVALID : Nat := 0xFFFFFFFF

/-- The mantissa loop of `DecodeBits`: `k` more bits, most significant first,
added to `val`. -/
def decodeMantissa (asmap : List Bool) : Nat → Nat → Nat → Nat × Nat
  | val, bitpos, 0 => (val, bitpos)
  | val, bitpos, k + 1 =>
    -- Reached EOF in mantissa
    if bitpos = asmap.length then (INVALID, bitpos)
    else decodeMantissa asmap (val + if asmap.getD bitpos false then 2 ^ k else 0) (bitpos + 1) k

/-- `DecodeBits(bitpos, endpos, minval, bit_sizes)`, from the value `val`
(initially `minval`): the value and the position after it. An exponent bit
`1` moves to the next class; the last class takes no exponent bit. -/
def DecodeBits (asmap : List Bool) (val bitpos : Nat) : List Nat → Nat × Nat
  | [] => (INVALID, bitpos)
  | [size] => decodeMantissa asmap val bitpos size
  | size :: next :: rest =>
    -- Reached EOF in exponent
    if bitpos = asmap.length then (INVALID, bitpos)
    else if asmap.getD bitpos false then DecodeBits asmap (val + 2 ^ size) (bitpos + 1) (next :: rest)
    else decodeMantissa asmap val (bitpos + 1) size

/-- `Instruction`. -/
inductive Instruction where
  | RETURN
  | JUMP
  | MATCH
  | DEFAULT
  deriving DecidableEq, Repr

/-- `Instruction(v)`: the instruction a decoded value names, if any. -/
def Instruction.ofVal : Nat → Option Instruction
  | 0 => some .RETURN
  | 1 => some .JUMP
  | 2 => some .MATCH
  | 3 => some .DEFAULT
  | _ => none

/-- `TYPE_BIT_SIZES`. -/
def TYPE_BIT_SIZES : List Nat := [0, 0, 1]

/-- `ASN_BIT_SIZES`. -/
def ASN_BIT_SIZES : List Nat := [15, 16, 17, 18, 19, 20, 21, 22, 23, 24]

/-- `MATCH_BIT_SIZES`. -/
def MATCH_BIT_SIZES : List Nat := [1, 2, 3, 4, 5, 6, 7, 8]

/-- `JUMP_BIT_SIZES`. -/
def JUMP_BIT_SIZES : List Nat :=
  [5, 6, 7, 8, 9, 10, 11, 12, 13, 14, 15, 16, 17, 18, 19, 20, 21, 22, 23, 24, 25, 26, 27, 28, 29,
    30]

/-- `DecodeType(bitpos, endpos)`. -/
def DecodeType (asmap : List Bool) (bitpos : Nat) : Option Instruction × Nat :=
  ((Instruction.ofVal (DecodeBits asmap 0 bitpos TYPE_BIT_SIZES).1),
    (DecodeBits asmap 0 bitpos TYPE_BIT_SIZES).2)

/-- `DecodeASN(bitpos, endpos)`. -/
def DecodeASN (asmap : List Bool) (bitpos : Nat) : Nat × Nat :=
  DecodeBits asmap 1 bitpos ASN_BIT_SIZES

/-- `DecodeMatch(bitpos, endpos)`. -/
def DecodeMatch (asmap : List Bool) (bitpos : Nat) : Nat × Nat :=
  DecodeBits asmap 2 bitpos MATCH_BIT_SIZES

/-- `DecodeJump(bitpos, endpos)`. -/
def DecodeJump (asmap : List Bool) (bitpos : Nat) : Nat × Nat :=
  DecodeBits asmap 17 bitpos JUMP_BIT_SIZES

/-! ## Decoding moves forward -/

theorem decodeMantissa_pos (asmap : List Bool) :
    ∀ (val bitpos k : Nat), bitpos ≤ (decodeMantissa asmap val bitpos k).2 ∧
      (bitpos ≤ asmap.length → (decodeMantissa asmap val bitpos k).2 ≤ asmap.length)
  | val, bitpos, 0 => ⟨Nat.le_refl _, fun h => h⟩
  | val, bitpos, k + 1 => by
    rw [decodeMantissa]
    split
    · exact ⟨Nat.le_refl _, fun h => h⟩
    · next hend =>
      obtain ⟨hle, hbound⟩ := decodeMantissa_pos asmap _ (bitpos + 1) k
      exact ⟨by omega, fun h => hbound (by omega)⟩

theorem DecodeBits_pos (asmap : List Bool) :
    ∀ (val bitpos : Nat) (sizes : List Nat), bitpos ≤ (DecodeBits asmap val bitpos sizes).2 ∧
      (bitpos ≤ asmap.length → (DecodeBits asmap val bitpos sizes).2 ≤ asmap.length)
  | val, bitpos, [] => by
    rw [DecodeBits]
    exact ⟨Nat.le_refl _, fun h => h⟩
  | val, bitpos, [size] => by
    rw [DecodeBits]
    exact decodeMantissa_pos asmap val bitpos size
  | val, bitpos, size :: s :: rest => by
    rw [DecodeBits]
    split
    · exact ⟨Nat.le_refl _, fun h => h⟩
    · next hend =>
      split
      · obtain ⟨hle, hbound⟩ := DecodeBits_pos asmap (val + 2 ^ size) (bitpos + 1) (s :: rest)
        exact ⟨by omega, fun h => hbound (by omega)⟩
      · obtain ⟨hle, hbound⟩ := decodeMantissa_pos asmap val (bitpos + 1) size
        exact ⟨by omega, fun h => hbound (by omega)⟩

/-- An instruction type that decodes takes at least one bit. -/
theorem DecodeType_pos {asmap : List Bool} {bitpos p : Nat} {op : Instruction}
    (h : DecodeType asmap bitpos = (some op, p)) (hle : bitpos ≤ asmap.length) :
    bitpos < p ∧ p ≤ asmap.length := by
  rw [DecodeType, Prod.mk.injEq] at h
  obtain ⟨hop, hp⟩ := h
  rw [← hp]
  rw [TYPE_BIT_SIZES, DecodeBits] at hop ⊢
  split at hop
  · -- no bit left: `INVALID` names no instruction
    cases hop
  · next hend =>
    rw [if_neg hend]
    split
    · obtain ⟨hpos, hbound⟩ := DecodeBits_pos asmap (0 + 2 ^ 0) (bitpos + 1) [0, 1]
      exact ⟨by omega, hbound (by omega)⟩
    · obtain ⟨hpos, hbound⟩ := decodeMantissa_pos asmap 0 (bitpos + 1) 0
      exact ⟨by omega, hbound (by omega)⟩

/-! ## `Interpret` -/

/-- The state of `Interpret` at the top of its loop: the position, the input
bits left, and `default_asn`. -/
structure InterpretState where
  pos : Nat
  bits : Nat
  default_asn : Nat
  deriving DecidableEq, Repr

/-- How one turn of the loop of `Interpret` ends. -/
inductive InterpretStep where
  /-- `return`, with the AS number. -/
  | done (asn : Nat)
  /-- a `break`, which leads to `assert(false)`. -/
  | abort
  /-- the next turn. -/
  | next (s : InterpretState)
  deriving DecidableEq, Repr

/-- The bit loop of a `MATCH` with `k` bits of `m` left to compare against the
input, `bits` input bits being left: the bits left after a full match, or
`none` at the first bit that differs. -/
def matchLoop (ip : List Bool) (m : Nat) : Nat → Nat → Option Nat
  | 0, bits => some bits
  | k + 1, bits =>
    -- `ip[ip.size() - bits] != ((match >> (matchlen - 1 - bit)) & 1)`
    if ip.getD (ip.length - bits) false ≠ decide (m >>> k % 2 = 1) then none
    else matchLoop ip m k (bits - 1)

/-- A full match consumes one input bit for each bit of the pattern. -/
theorem matchLoop_eq_some {ip : List Bool} {m : Nat} :
    ∀ {k bits b : Nat}, matchLoop ip m k bits = some b → b = bits - k
  | 0, bits, b, h => by
    rw [matchLoop] at h
    cases h
    rfl
  | k + 1, bits, b, h => by
    rw [matchLoop] at h
    split at h
    · cases h
    · rw [matchLoop_eq_some h]
      omega

/-- One turn of the loop of `Interpret(asmap, ip)`. -/
def interpretStep (asmap ip : List Bool) (s : InterpretState) : InterpretStep :=
  match DecodeType asmap s.pos with
  | (some .RETURN, pos) =>
    let default_asn := (DecodeASN asmap pos).1
    -- ASN straddles EOF
    if default_asn = INVALID then .abort else .done default_asn
  | (some .JUMP, pos) =>
    let (jump, pos) := DecodeJump asmap pos
    -- Jump offset straddles EOF; no input bits left; overflow; jumping past EOF
    if jump = INVALID then .abort
    else if s.bits = 0 then .abort
    else if pos + jump < pos then .abort
    else if pos + jump ≥ asmap.length then .abort
    else if ip.getD (ip.length - s.bits) false then .next ⟨pos + jump, s.bits - 1, s.default_asn⟩
    else .next ⟨pos, s.bits - 1, s.default_asn⟩
  | (some .MATCH, pos) =>
    let (m, pos) := DecodeMatch asmap pos
    -- Match bits straddle EOF
    if m = INVALID then .abort
    else
      let matchlen := CountBits m.toUInt64 - 1
      -- Not enough input bits
      if s.bits < matchlen then .abort
      else
        match matchLoop ip m matchlen s.bits with
        | none => .done s.default_asn
        | some bits => .next ⟨pos, bits, s.default_asn⟩
  | (some .DEFAULT, pos) =>
    let (default_asn, pos) := DecodeASN asmap pos
    -- ASN straddles EOF
    if default_asn = INVALID then .abort else .next ⟨pos, s.bits, default_asn⟩
  -- Instruction straddles EOF
  | (none, _) => .abort

/-- A decoded value ends at or after where it starts, and within the asmap. -/
theorem DecodeBits_pos_of_eq {asmap : List Bool} {val bitpos v p : Nat} {sizes : List Nat}
    (h : DecodeBits asmap val bitpos sizes = (v, p)) (hle : bitpos ≤ asmap.length) :
    bitpos ≤ p ∧ p ≤ asmap.length := by
  obtain ⟨hpos, hbound⟩ := DecodeBits_pos asmap val bitpos sizes
  rw [h] at hpos hbound
  exact ⟨hpos, hbound hle⟩

section InterpretStep

variable {asmap ip : List Bool} {s : InterpretState} {p1 p2 : Nat}

/-! What one turn of `Interpret` does, one lemma per instruction. -/

theorem interpretStep_none (hty : DecodeType asmap s.pos = (none, p1)) :
    interpretStep asmap ip s = .abort := by
  rw [interpretStep, hty]

theorem interpretStep_RETURN {asn : Nat} (hty : DecodeType asmap s.pos = (some .RETURN, p1))
    (ha : DecodeASN asmap p1 = (asn, p2)) (hasn : asn ≠ INVALID) :
    interpretStep asmap ip s = .done asn := by
  rw [interpretStep, hty]
  simp only [ha, if_neg hasn]

theorem interpretStep_JUMP {jump : Nat} (hty : DecodeType asmap s.pos = (some .JUMP, p1))
    (hj : DecodeJump asmap p1 = (jump, p2)) (hjump : jump ≠ INVALID) (hbits : 0 < s.bits)
    (hlt : p2 + jump < asmap.length) :
    interpretStep asmap ip s =
      .next ⟨if ip.getD (ip.length - s.bits) false then p2 + jump else p2, s.bits - 1,
        s.default_asn⟩ := by
  rw [interpretStep, hty]
  simp only [hj, if_neg hjump, if_neg (Nat.pos_iff_ne_zero.mp hbits),
    if_neg (Nat.not_lt.mpr (Nat.le_add_right p2 jump)), if_neg (Nat.not_le.mpr hlt)]
  split <;> rfl

theorem interpretStep_MATCH {m : Nat} (hty : DecodeType asmap s.pos = (some .MATCH, p1))
    (hm : DecodeMatch asmap p1 = (m, p2)) (hinv : m ≠ INVALID)
    (hlen : CountBits m.toUInt64 - 1 ≤ s.bits) :
    interpretStep asmap ip s = .done s.default_asn ∨
      ∃ bits, matchLoop ip m (CountBits m.toUInt64 - 1) s.bits = some bits ∧
        interpretStep asmap ip s = .next ⟨p2, bits, s.default_asn⟩ := by
  rw [interpretStep, hty]
  simp only [hm, if_neg hinv, if_neg (Nat.not_lt.mpr hlen)]
  split
  · exact .inl rfl
  · next bits hloop => exact .inr ⟨bits, hloop, rfl⟩

theorem interpretStep_DEFAULT {asn : Nat} (hty : DecodeType asmap s.pos = (some .DEFAULT, p1))
    (ha : DecodeASN asmap p1 = (asn, p2)) (hasn : asn ≠ INVALID) :
    interpretStep asmap ip s = .next ⟨p2, s.bits, asn⟩ := by
  rw [interpretStep, hty]
  simp only [ha, if_neg hasn]

/-- Each turn of `Interpret` moves forward, and stays within the asmap. -/
theorem interpretStep_pos {s' : InterpretState} (hle : s.pos ≤ asmap.length)
    (h : interpretStep asmap ip s = .next s') :
    s.pos < s'.pos ∧ s'.pos ≤ asmap.length := by
  rcases hty : DecodeType asmap s.pos with ⟨_ | op, p1⟩
  · rw [interpretStep_none hty] at h
    cases h
  obtain ⟨hp1, hp1le⟩ := DecodeType_pos hty hle
  rw [interpretStep, hty] at h
  cases op with
  | RETURN =>
    simp only at h
    split_ifs at h
  | JUMP =>
    rcases hj : DecodeJump asmap p1 with ⟨jump, p2⟩
    obtain ⟨hp2, hp2le⟩ := DecodeBits_pos_of_eq hj (hp1le)
    simp only [hj] at h
    split_ifs at h <;> cases h
    · -- the jump is taken
      show s.pos < p2 + jump ∧ p2 + jump ≤ asmap.length
      omega
    · exact ⟨Nat.lt_of_lt_of_le hp1 hp2, hp2le⟩
  | MATCH =>
    rcases hm : DecodeMatch asmap p1 with ⟨m, p2⟩
    obtain ⟨hp2, hp2le⟩ := DecodeBits_pos_of_eq hm (hp1le)
    simp only [hm] at h
    split_ifs at h
    split at h
    · cases h
    · cases h
      exact ⟨Nat.lt_of_lt_of_le hp1 hp2, hp2le⟩
  | DEFAULT =>
    rcases ha : DecodeASN asmap p1 with ⟨asn, p2⟩
    obtain ⟨hp2, hp2le⟩ := DecodeBits_pos_of_eq ha (hp1le)
    simp only [ha] at h
    split_ifs at h
    cases h
    exact ⟨Nat.lt_of_lt_of_le hp1 hp2, hp2le⟩

end InterpretStep

/-- The loop of `Interpret`: `none` when it reaches `assert(false)`, by a
`break` or at the end of the asmap. Positions never pass the end, so
`pos != endpos` is `pos < asmap.size()`. -/
def interpretLoop (asmap ip : List Bool) (s : InterpretState) : Option Nat :=
  if _ : s.pos < asmap.length then
    match _ : interpretStep asmap ip s with
    | .done asn => some asn
    | .abort => none
    | .next s' => interpretLoop asmap ip s'
  else none
termination_by asmap.length - s.pos
decreasing_by
  have := interpretStep_pos (Nat.le_of_lt ‹s.pos < asmap.length›) ‹interpretStep asmap ip s = .next s'›
  omega

/-- `Interpret(asmap, ip)`: `none` when it reaches `assert(false)`. The input
bits are counted in a `uint8_t`. -/
def Interpret (asmap ip : List Bool) : Option Nat :=
  interpretLoop asmap ip ⟨0, ip.length % 256, 0⟩

/-! ## `SanityCheckASMap` -/

/-- The state of `SanityCheckASMap` at the top of its loop. `jumps` lists the
pending jumps, the last pushed first, each with its target offset and the
input bits left after it. -/
structure ScanState where
  pos : Nat
  bits : Nat
  jumps : List (Nat × Nat)
  prevopcode : Instruction
  had_incomplete_match : Bool
  deriving DecidableEq, Repr

/-- How one turn of the loop of `SanityCheckASMap` ends. -/
inductive ScanStep where
  | accept
  | reject
  | next (s : ScanState)
  deriving DecidableEq, Repr

/-- `!jumps.empty() && offset >= jumps.back().first`. -/
def atOrPastTarget (jumps : List (Nat × Nat)) (offset : Nat) : Bool :=
  match jumps with
  | (target, _) :: _ => decide (offset ≥ target)
  | [] => false

/-- One turn of the loop of `SanityCheckASMap(asmap, bits)`. -/
def scanStep (asmap : List Bool) (s : ScanState) : ScanStep :=
  -- There was a jump into the middle of the previous instruction
  if atOrPastTarget s.jumps s.pos then .reject
  else
    match DecodeType asmap s.pos with
    | (some .RETURN, pos) =>
      -- There should not be any RETURN immediately after a DEFAULT
      if s.prevopcode = .DEFAULT then .reject
      else
        let (asn, pos) := DecodeASN asmap pos
        -- ASN straddles EOF
        if asn = INVALID then .reject
        else
          match s.jumps with
          | [] =>
            -- Excessive padding; nonzero padding bit; else sanely reached EOF
            if asmap.length - pos > 7 then .reject
            else if (asmap.drop pos).any id then .reject
            else .accept
          | (offset, bits) :: jumps =>
            -- Unreachable code; else continue as after the jump
            if pos ≠ offset then .reject
            else .next ⟨pos, bits, jumps, .JUMP, s.had_incomplete_match⟩
    | (some .JUMP, pos) =>
      let (jump, pos) := DecodeJump asmap pos
      -- Jump offset straddles EOF; overflow; jump out of range; consuming bits
      -- past the end of the input
      if jump = INVALID then .reject
      else if pos + jump < pos then .reject
      else if pos + jump > asmap.length then .reject
      else if s.bits = 0 then .reject
      -- Intersecting jumps
      else if atOrPastTarget s.jumps (pos + jump) then .reject
      else .next ⟨pos, s.bits - 1, (pos + jump, s.bits - 1) :: s.jumps, .JUMP,
        s.had_incomplete_match⟩
    | (some .MATCH, pos) =>
      let (m, pos) := DecodeMatch asmap pos
      -- Match bits straddle EOF
      if m = INVALID then .reject
      else
        let matchlen := CountBits m.toUInt64 - 1
        let had_incomplete_match :=
          if s.prevopcode ≠ .MATCH then false else s.had_incomplete_match
        -- Within a sequence of matches only at most one should be incomplete;
        -- consuming bits past the end of the input
        if matchlen < 8 ∧ had_incomplete_match then .reject
        else if s.bits < matchlen then .reject
        else .next ⟨pos, s.bits - matchlen, s.jumps, .MATCH, decide (matchlen < 8)⟩
    | (some .DEFAULT, pos) =>
      -- There should not be two successive DEFAULTs
      if s.prevopcode = .DEFAULT then .reject
      else
        let (asn, pos) := DecodeASN asmap pos
        -- ASN straddles EOF
        if asn = INVALID then .reject
        else .next ⟨pos, s.bits, s.jumps, .DEFAULT, s.had_incomplete_match⟩
    -- Instruction straddles EOF
    | (none, _) => .reject

section ScanStep

variable {asmap : List Bool} {t : ScanState} {p1 p2 : Nat}

/-! What one turn of the scan does when it does not reject, one lemma per
instruction. -/

theorem scanStep_none (hty : DecodeType asmap t.pos = (none, p1)) :
    scanStep asmap t = .reject := by
  rw [scanStep, hty]
  split_ifs <;> rfl

theorem scanStep_RETURN {asn : Nat} (hty : DecodeType asmap t.pos = (some .RETURN, p1))
    (ha : DecodeASN asmap p1 = (asn, p2)) (h : scanStep asmap t ≠ .reject) :
    asn ≠ INVALID ∧
      (t.jumps = [] ∧ scanStep asmap t = .accept ∨
        ∃ bits jumps, t.jumps = (p2, bits) :: jumps ∧
          scanStep asmap t = .next ⟨p2, bits, jumps, .JUMP, t.had_incomplete_match⟩) := by
  rw [scanStep, hty] at h ⊢
  simp only [ha] at h ⊢
  rcases hjs : t.jumps with _ | ⟨⟨offset, bits⟩, jumps⟩
  · -- nothing to execute anymore: the padding decides
    simp only [hjs] at h ⊢
    split_ifs at h ⊢ with htop hdef hinv hpad hnonzero <;> try contradiction
    exact ⟨hinv, .inl ⟨trivial, rfl⟩⟩
  · -- the end of the code that the pending jump skips
    simp only [hjs] at h ⊢
    split_ifs at h ⊢ with htop hdef hinv hoff <;> try contradiction
    simp only [ne_eq, Decidable.not_not] at hoff
    exact ⟨hinv, .inr ⟨bits, jumps, by rw [hoff], rfl⟩⟩

theorem scanStep_JUMP {jump : Nat} (hty : DecodeType asmap t.pos = (some .JUMP, p1))
    (hj : DecodeJump asmap p1 = (jump, p2)) (h : scanStep asmap t ≠ .reject) :
    jump ≠ INVALID ∧ p2 + jump ≤ asmap.length ∧ 0 < t.bits ∧
      scanStep asmap t = .next ⟨p2, t.bits - 1, (p2 + jump, t.bits - 1) :: t.jumps, .JUMP,
        t.had_incomplete_match⟩ := by
  rw [scanStep, hty] at h ⊢
  simp only [hj] at h ⊢
  split_ifs at h ⊢ with htop hinv hover hrange hbits hcross <;> try contradiction
  exact ⟨hinv, Nat.le_of_not_gt hrange, Nat.pos_of_ne_zero hbits, rfl⟩

theorem scanStep_MATCH {m : Nat} (hty : DecodeType asmap t.pos = (some .MATCH, p1))
    (hm : DecodeMatch asmap p1 = (m, p2)) (h : scanStep asmap t ≠ .reject) :
    m ≠ INVALID ∧ CountBits m.toUInt64 - 1 ≤ t.bits ∧
      ∃ had, scanStep asmap t =
        .next ⟨p2, t.bits - (CountBits m.toUInt64 - 1), t.jumps, .MATCH, had⟩ := by
  rw [scanStep, hty] at h ⊢
  simp only [hm] at h ⊢
  -- the two goals left differ in whether the match follows another match
  split_ifs at h ⊢ <;> try contradiction
  all_goals exact ⟨‹¬m = INVALID›, Nat.le_of_not_gt ‹¬t.bits < _›, _, rfl⟩

theorem scanStep_DEFAULT {asn : Nat} (hty : DecodeType asmap t.pos = (some .DEFAULT, p1))
    (ha : DecodeASN asmap p1 = (asn, p2)) (h : scanStep asmap t ≠ .reject) :
    asn ≠ INVALID ∧
      scanStep asmap t = .next ⟨p2, t.bits, t.jumps, .DEFAULT, t.had_incomplete_match⟩ := by
  rw [scanStep, hty] at h ⊢
  simp only [ha] at h ⊢
  split_ifs at h ⊢ with htop hdef hinv <;> try contradiction
  exact ⟨hinv, rfl⟩

/-- What every turn of the scan that goes on does: it moves forward within
the asmap, and it either pops the pending jump whose target it reaches, with
the bits that jump left, or keeps every pending jump. -/
theorem scanStep_next {t' : ScanState} (hle : t.pos ≤ asmap.length)
    (h : scanStep asmap t = .next t') :
    (t.pos < t'.pos ∧ t'.pos ≤ asmap.length) ∧
      (t.jumps = (t'.pos, t'.bits) :: t'.jumps ∨ ∀ j ∈ t.jumps, j ∈ t'.jumps) := by
  have hnr : scanStep asmap t ≠ .reject := by simp [h]
  rcases hty : DecodeType asmap t.pos with ⟨_ | op, p1⟩
  · rw [scanStep_none hty] at h
    cases h
  obtain ⟨hp1, hp1le⟩ := DecodeType_pos hty hle
  cases op with
  | RETURN =>
    rcases ha : DecodeASN asmap p1 with ⟨asn, p2⟩
    obtain ⟨hp2, hp2le⟩ := DecodeBits_pos_of_eq ha hp1le
    obtain ⟨-, ⟨-, hacc⟩ | ⟨bits, jumps, hjs, hnext⟩⟩ := scanStep_RETURN hty ha hnr
    · rw [hacc] at h
      cases h
    · rw [hnext] at h
      cases h
      exact ⟨⟨Nat.lt_of_lt_of_le hp1 hp2, hp2le⟩, .inl hjs⟩
  | JUMP =>
    rcases hj : DecodeJump asmap p1 with ⟨jump, p2⟩
    obtain ⟨hp2, hp2le⟩ := DecodeBits_pos_of_eq hj hp1le
    obtain ⟨-, -, -, hnext⟩ := scanStep_JUMP hty hj hnr
    rw [hnext] at h
    cases h
    exact ⟨⟨Nat.lt_of_lt_of_le hp1 hp2, hp2le⟩, .inr fun j hj => List.mem_cons_of_mem _ hj⟩
  | MATCH =>
    rcases hm : DecodeMatch asmap p1 with ⟨m, p2⟩
    obtain ⟨hp2, hp2le⟩ := DecodeBits_pos_of_eq hm hp1le
    obtain ⟨-, -, had, hnext⟩ := scanStep_MATCH hty hm hnr
    rw [hnext] at h
    cases h
    exact ⟨⟨Nat.lt_of_lt_of_le hp1 hp2, hp2le⟩, .inr fun j hj => hj⟩
  | DEFAULT =>
    rcases ha : DecodeASN asmap p1 with ⟨asn, p2⟩
    obtain ⟨hp2, hp2le⟩ := DecodeBits_pos_of_eq ha hp1le
    obtain ⟨-, hnext⟩ := scanStep_DEFAULT hty ha hnr
    rw [hnext] at h
    cases h
    exact ⟨⟨Nat.lt_of_lt_of_le hp1 hp2, hp2le⟩, .inr fun j hj => hj⟩

/-- The scan accepts only with no jump pending. -/
theorem scanStep_accept (h : scanStep asmap t = .accept) : t.jumps = [] := by
  have hnr : scanStep asmap t ≠ .reject := by simp [h]
  rcases hty : DecodeType asmap t.pos with ⟨_ | op, p1⟩
  · rw [scanStep_none hty] at h
    cases h
  cases op with
  | RETURN =>
    rcases ha : DecodeASN asmap p1 with ⟨asn, p2⟩
    obtain ⟨-, ⟨hjs, -⟩ | ⟨bits, jumps, -, hnext⟩⟩ := scanStep_RETURN hty ha hnr
    · exact hjs
    · rw [hnext] at h
      cases h
  | JUMP =>
    rcases hj : DecodeJump asmap p1 with ⟨jump, p2⟩
    obtain ⟨-, -, -, hnext⟩ := scanStep_JUMP hty hj hnr
    rw [hnext] at h
    cases h
  | MATCH =>
    rcases hm : DecodeMatch asmap p1 with ⟨m, p2⟩
    obtain ⟨-, -, had, hnext⟩ := scanStep_MATCH hty hm hnr
    rw [hnext] at h
    cases h
  | DEFAULT =>
    rcases ha : DecodeASN asmap p1 with ⟨asn, p2⟩
    obtain ⟨-, hnext⟩ := scanStep_DEFAULT hty ha hnr
    rw [hnext] at h
    cases h

end ScanStep

/-- The loop of `SanityCheckASMap`. -/
def sanityLoop (asmap : List Bool) (t : ScanState) : Bool :=
  if _ : t.pos < asmap.length then
    match _ : scanStep asmap t with
    | .accept => true
    | .reject => false
    | .next t' => sanityLoop asmap t'
  else
    -- Reached EOF without RETURN instruction
    false
termination_by asmap.length - t.pos
decreasing_by
  have := (scanStep_next (Nat.le_of_lt ‹t.pos < asmap.length›) ‹scanStep asmap t = .next t'›).1
  omega

/-- `SanityCheckASMap(asmap, bits)`. -/
def SanityCheckASMap (asmap : List Bool) (bits : Nat) : Bool :=
  sanityLoop asmap ⟨0, bits, [], .JUMP, false⟩

/-- The runs of the scan that accept, from a given state. -/
inductive ScanAccepts (asmap : List Bool) : ScanState → Prop where
  | accept {t : ScanState} :
    t.pos < asmap.length → scanStep asmap t = .accept → ScanAccepts asmap t
  | next {t t' : ScanState} :
    t.pos < asmap.length → scanStep asmap t = .next t' → ScanAccepts asmap t' →
      ScanAccepts asmap t

/-- `ScanAccepts` is what the loop of the scan computes. -/
theorem sanityLoop_iff {asmap : List Bool} {t : ScanState} :
    sanityLoop asmap t = true ↔ ScanAccepts asmap t := by
  constructor
  · intro h
    fun_induction sanityLoop asmap t with
    | case1 _ hpos hs => exact .accept hpos hs
    | case2 => cases h
    | case3 _ hpos _ hs ih => exact .next hpos hs (ih h)
    | case4 => cases h
  · intro h
    induction h with
    | accept hpos hacc =>
      rw [sanityLoop, dif_pos hpos]
      split <;> simp_all
    | next hpos hnext _ ih =>
      rw [sanityLoop, dif_pos hpos]
      split <;> simp_all

namespace ScanAccepts

variable {asmap : List Bool} {t : ScanState}

theorem pos_lt : ScanAccepts asmap t → t.pos < asmap.length
  | accept hpos _ => hpos
  | next hpos _ _ => hpos

theorem not_reject : ScanAccepts asmap t → scanStep asmap t ≠ .reject
  | accept _ hs => by simp [hs]
  | next _ hs _ => by simp [hs]

theorem of_next {t' : ScanState} (h : ScanAccepts asmap t)
    (hs : scanStep asmap t = .next t') : ScanAccepts asmap t' := by
  cases h with
  | accept _ hacc => rw [hacc] at hs; cases hs
  | next _ hnext h' => rw [hnext] at hs; cases hs; exact h'

end ScanAccepts

/-- On a run of the scan that accepts, every pending jump is popped later: its
target is then a state of the run, with the input bits the jump left. -/
theorem jump_target_reached {asmap : List Bool} {t : ScanState} (h : ScanAccepts asmap t) :
    ∀ j ∈ t.jumps, ∃ u, ScanAccepts asmap u ∧ u.pos = j.1 ∧ u.bits = j.2 := by
  induction h with
  | accept _ hacc =>
    rw [scanStep_accept hacc]
    nofun
  | @next t t' hpos hs h' ih =>
    intro j hj
    rcases (scanStep_next (Nat.le_of_lt hpos) hs).2 with hpop | hkeep
    · -- the turn pops the head, which lands on the next state
      rw [hpop, List.mem_cons] at hj
      rcases hj with rfl | hj
      · exact ⟨t', h', rfl, rfl⟩
      · exact ih j hj
    · exact ih j (hkeep j hj)

/-! ## The scan vouches for `Interpret` -/

/-- A state of `Interpret` that the scan vouches for: a state of an accepting
run of the scan has its position and its input bits left. -/
def Vouched (asmap : List Bool) (s : InterpretState) : Prop :=
  ∃ t : ScanState, ScanAccepts asmap t ∧ t.pos = s.pos ∧ t.bits = s.bits

/-- From a vouched state, a turn of `Interpret` does not abort, and the next
turn is vouched for too. On a taken `JUMP` the scan has gone on to the next
instruction instead; the state it vouches with is the one where it pops that
jump. -/
theorem interpretStep_vouched {asmap ip : List Bool} {s : InterpretState}
    (h : Vouched asmap s) :
    interpretStep asmap ip s ≠ .abort ∧
      ∀ s', interpretStep asmap ip s = .next s' → Vouched asmap s' := by
  obtain ⟨t, hacc, hpos, hbits⟩ := h
  have hnr := hacc.not_reject
  have hle : t.pos ≤ asmap.length := Nat.le_of_lt hacc.pos_lt
  rcases hty : DecodeType asmap t.pos with ⟨_ | op, p1⟩
  · exact absurd (scanStep_none hty) hnr
  have hty' : DecodeType asmap s.pos = (some op, p1) := hpos ▸ hty
  cases op with
  | RETURN =>
    rcases ha : DecodeASN asmap p1 with ⟨asn, p2⟩
    obtain ⟨hasn, -⟩ := scanStep_RETURN hty ha hnr
    rw [interpretStep_RETURN hty' ha hasn]
    exact ⟨nofun, nofun⟩
  | JUMP =>
    rcases hj : DecodeJump asmap p1 with ⟨jump, p2⟩
    obtain ⟨hjump, -, hb, hnext⟩ := scanStep_JUMP hty hj hnr
    have hacc' := hacc.of_next hnext
    -- the target is a state of the accepting run, so it lies before the end:
    -- a jump to the very end passes the scan's range check but not this
    obtain ⟨u, hu, hupos, hubits⟩ := jump_target_reached hacc' _ (List.mem_cons_self ..)
    have hlt : p2 + jump < asmap.length := by
      have := hu.pos_lt
      rwa [hupos] at this
    rw [interpretStep_JUMP hty' hj hjump (hbits ▸ hb) hlt]
    refine ⟨nofun, ?_⟩
    rintro s' ⟨⟩
    split
    · exact ⟨u, hu, hupos, by rw [hubits, hbits]⟩
    · exact ⟨_, hacc', rfl, by rw [hbits]⟩
  | MATCH =>
    rcases hm : DecodeMatch asmap p1 with ⟨m, p2⟩
    obtain ⟨hinv, hlen, had, hnext⟩ := scanStep_MATCH hty hm hnr
    rcases @interpretStep_MATCH asmap ip s p1 p2 m hty' hm hinv (hbits ▸ hlen) with
      hdone | ⟨bits, hloop, hstep⟩
    · -- a failing match returns `default_asn`
      rw [hdone]
      exact ⟨nofun, nofun⟩
    · rw [hstep]
      refine ⟨nofun, ?_⟩
      rintro s' ⟨⟩
      exact ⟨_, hacc.of_next hnext, rfl, by rw [matchLoop_eq_some hloop, hbits]⟩
  | DEFAULT =>
    rcases ha : DecodeASN asmap p1 with ⟨asn, p2⟩
    obtain ⟨hasn, hnext⟩ := scanStep_DEFAULT hty ha hnr
    rw [interpretStep_DEFAULT hty' ha hasn]
    refine ⟨nofun, ?_⟩
    rintro s' ⟨⟩
    exact ⟨_, hacc.of_next hnext, rfl, hbits⟩

/-- From a vouched state, `Interpret` ends in a `RETURN` or a failing `MATCH`. -/
theorem interpretLoop_isSome {asmap ip : List Bool} {s : InterpretState}
    (h : Vouched asmap s) : (interpretLoop asmap ip s).isSome = true := by
  fun_induction interpretLoop asmap ip s with
  | case1 => rfl
  | case2 _ _ hs => exact absurd hs (interpretStep_vouched h).1
  | case3 _ _ s' hs ih => exact ih ((interpretStep_vouched h).2 s' hs)
  | case4 _ hpos =>
    obtain ⟨t, hacc, htpos, -⟩ := h
    exact absurd (htpos ▸ hacc.pos_lt) hpos

/-- An asmap that passes the check with `b` bits runs to a result on every
input of `b` bits, for `b` below the range of the `uint8_t` that counts them. -/
theorem Interpret_isSome {asmap : List Bool} {b : Nat} (hb : b < 256)
    (hsane : SanityCheckASMap asmap b = true) {ip : List Bool} (hlen : ip.length = b) :
    (Interpret asmap ip).isSome = true := by
  rw [Interpret]
  apply interpretLoop_isSome
  refine ⟨_, sanityLoop_iff.mp hsane, rfl, ?_⟩
  show b = ip.length % 256
  rw [hlen, Nat.mod_eq_of_lt hb]

/-! ## Loading an asmap and looking an address up -/

/-- `Network`. -/
inductive Network where
  | NET_UNROUTABLE
  | NET_IPV4
  | NET_IPV6
  | NET_ONION
  | NET_I2P
  | NET_CJDNS
  | NET_INTERNAL
  deriving DecidableEq, Repr

/-- `DecodeAsmap(path)`, from the bytes of the file (`none` when it does not
open): the bits of each byte, least significant first, if they pass the
check with 128 bits, and no bits otherwise. -/
def DecodeAsmap (file : Option (List UInt8)) : List Bool :=
  match file with
  | none => []
  | some bytes =>
    let bits := bytes.flatMap fun cur_byte =>
      (List.range 8).map fun bit => decide ((cur_byte.toNat >>> bit) % 2 = 1)
    if SanityCheckASMap bits 128 then bits else []

/-- An asmap that `DecodeAsmap` loads passes the check with 128 bits, or is
empty. -/
theorem DecodeAsmap_sane (file : Option (List UInt8)) :
    DecodeAsmap file = [] ∨ SanityCheckASMap (DecodeAsmap file) 128 = true := by
  rcases file with _ | bytes
  · exact .inl rfl
  · rw [DecodeAsmap]
    split
    · next hsane => exact .inr hsane
    · exact .inl rfl

/-- `CNetAddr::GetMappedAS(asmap)` for an address of class `net_class`, with
`addr` the 16 bytes it looks up: the IPv6 address, or `IPV4_IN_IPV6_PREFIX`
followed by the linked IPv4 address. `none` when `Interpret` reaches
`assert(false)`. -/
def GetMappedAS (asmap : List Bool) (net_class : Network) (addr : Vector UInt8 16) :
    Option Nat :=
  if asmap.length = 0 ∨ (net_class ≠ .NET_IPV4 ∧ net_class ≠ .NET_IPV6) then some 0
  else
    let ip_bits := addr.toList.flatMap fun cur_byte =>
      (List.range 8).map fun bit_i => decide ((cur_byte.toNat >>> (7 - bit_i)) % 2 = 1)
    Interpret asmap ip_bits

theorem SanityCheckASMap_sound :
    (∀ (asmap : List Bool) (b : Nat), b < 256 → SanityCheckASMap asmap b = true →
      ∀ ip : List Bool, ip.length = b → (Interpret asmap ip).isSome = true) ∧
    ∀ (file : Option (List UInt8)) (net_class : Network) (addr : Vector UInt8 16),
      (GetMappedAS (DecodeAsmap file) net_class addr).isSome = true := by
  refine ⟨fun asmap b hb hsane ip hlen => Interpret_isSome hb hsane hlen, ?_⟩
  intro file net_class addr
  rw [GetMappedAS]
  split
  · rfl
  · next hnot =>
    -- a nonempty asmap is one that passed the check with 128 bits
    have hsane : SanityCheckASMap (DecodeAsmap file) 128 = true := by
      rcases DecodeAsmap_sane file with hnil | hsane
      · exact absurd (.inl (by rw [hnil]; rfl)) hnot
      · exact hsane
    apply Interpret_isSome (by decide) hsane
    simp

/-- An asmap for two input bits: `JUMP` by 24 bits; on the bit `0`, `MATCH 4`,
whose highest set bit leaves the two bits `00` to compare, then `RETURN 2`;
on the bit `1`, `RETURN 3`. -/
def asmapJumpMatch : List Bool :=
  [true, false] ++ [false, false, false, true, true, true] ++ [true, true, false] ++
    [true, false, false, false] ++ [false] ++ ([false] ++ List.replicate 14 false ++ [true]) ++
    [false] ++ ([false] ++ List.replicate 13 false ++ [true, false])

theorem SanityCheckASMap_sound_jumpMatch :
    SanityCheckASMap asmapJumpMatch 3 = true ∧ (Interpret asmapJumpMatch [false, false, false]).isSome = true ∧
      (Interpret asmapJumpMatch [true, false, false]).isSome = true := by
  -- the scan: the jump, the match of two bits, the `RETURN` that pops the
  -- jump, the last `RETURN`
  have h0 : scanStep asmapJumpMatch ⟨0, 3, [], .JUMP, false⟩ =
      .next ⟨8, 2, [(32, 2)], .JUMP, false⟩ := by decide
  have h1 : scanStep asmapJumpMatch ⟨8, 2, [(32, 2)], .JUMP, false⟩ =
      .next ⟨15, 0, [(32, 2)], .MATCH, true⟩ := by decide
  have h2 : scanStep asmapJumpMatch ⟨15, 0, [(32, 2)], .MATCH, true⟩ =
      .next ⟨32, 2, [], .JUMP, true⟩ := by decide
  have h3 : scanStep asmapJumpMatch ⟨32, 2, [], .JUMP, true⟩ = .accept := by decide
  have hsane : SanityCheckASMap asmapJumpMatch 3 = true :=
    sanityLoop_iff.mpr (.next (by decide) h0 (.next (by decide) h1
      (.next (by decide) h2 (.accept (by decide) h3))))
  exact ⟨hsane, SanityCheckASMap_sound.1 asmapJumpMatch 3 (by decide) hsane [false, false, false] rfl,
    SanityCheckASMap_sound.1 asmapJumpMatch 3 (by decide) hsane [true, false, false] rfl⟩

end Asmap

end BitcoinAbc
