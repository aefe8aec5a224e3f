import Mathlib
import BitcoinAbc.Lib.CarryBuffer
import BitcoinAbc.Util.MoneyStr

/-!
# Base58 (base58.cpp)

`EncodeBase58` writes each leading zero byte as a `1` and the rest of the
bytes as the base-58 digits of the big-endian number they stand for;
`DecodeBase58` reads such a text back, between white space. Both multiply a
buffer in place (`CarryBuffer.mulAddLoop`), by 256 and by 58, the buffer
sized from a rational bound on the ratio of the two logarithms:
`n * 138 / 100 + 1` base-58 digits for `n` bytes, and `n * 733 / 1000 + 1`
bytes for `n` characters. Each size is stored in an `int`.

- `EncodeBase58_eq`: on fewer than `2^30` bytes, the text is a `1` for each
  leading zero byte and then `base58Text` of the number the rest stand for;
- `DecodeBase58_text`: that text is read back, and `DecodeBase58_cases`: on
  fewer than `2^30` characters the decoder refuses, or the text between
  white space is of that form and it returns the bytes it stands for;
- `base58_roundtrip`: the two are inverse on such lengths, and neither
  reaches `assert(carry == 0)`;
- `EncodeBase58_long_input`: on 3112295143 bytes the size of the digit
  buffer wraps to 2 in its `int`, and the assert fires.
-/

namespace BitcoinAbc

namespace Base58

open CarryBuffer

/-! ## The code -/

/-- `pszBase58`: all alphanumeric characters except for `0`, `I`, `O` and
`l`. -/
def pszBase58 : List Char := "123456789ABCDEFGHJKLMNPQRSTUVWXYZabcdefghijkmnopqrstuvwxyz".toList

/-- `mapBase58`: the digit of each byte, `-1` where there is none. -/
def mapBase58Table : List Int := [
    -1, -1, -1, -1, -1, -1, -1, -1, -1, -1, -1, -1, -1, -1, -1, -1, -1, -1, -1,
    -1, -1, -1, -1, -1, -1, -1, -1, -1, -1, -1, -1, -1, -1, -1, -1, -1, -1, -1,
    -1, -1, -1, -1, -1, -1, -1, -1, -1, -1, -1, 0, 1, 2, 3, 4, 5, 6, 7,
    8, -1, -1, -1, -1, -1, -1, -1, 9, 10, 11, 12, 13, 14, 15, 16, -1, 17, 18,
    19, 20, 21, -1, 22, 23, 24, 25, 26, 27, 28, 29, 30, 31, 32, -1, -1, -1, -1,
    -1, -1, 33, 34, 35, 36, 37, 38, 39, 40, 41, 42, 43, -1, 44, 45, 46, 47, 48,
    49, 50, 51, 52, 53, 54, 55, 56, 57, -1, -1, -1, -1, -1, -1, -1, -1, -1, -1,
    -1, -1, -1, -1, -1, -1, -1, -1, -1, -1, -1, -1, -1, -1, -1, -1, -1, -1, -1,
    -1, -1, -1, -1, -1, -1, -1, -1, -1, -1, -1, -1, -1, -1, -1, -1, -1, -1, -1,
    -1, -1, -1, -1, -1, -1, -1, -1, -1, -1, -1, -1, -1, -1, -1, -1, -1, -1, -1,
    -1, -1, -1, -1, -1, -1, -1, -1, -1, -1, -1, -1, -1, -1, -1, -1, -1, -1, -1,
    -1, -1, -1, -1, -1, -1, -1, -1, -1, -1, -1, -1, -1, -1, -1, -1, -1, -1, -1,
    -1, -1, -1, -1, -1, -1, -1, -1, -1, -1, -1, -1, -1, -1, -1, -1, -1, -1, -1,
    -1, -1, -1, -1, -1, -1, -1, -1, -1
  ]

/-- `mapBase58[(uint8_t)c]`. -/
def mapBase58 (c : Char) : Int := mapBase58Table.getD c.toNat (-1)

/-- `std::vector<uint8_t> v(size)` for an `int` size: a negative one converts
to a `size_t` beyond `max_size()`, and the constructor throws. -/
def allocate (size : Int) : Except (CheckError Unit) (List Nat) :=
  if size < 0 then throw (.throws "cannot create std::vector larger than max_size()")
  else pure (List.replicate size.toNat 0)

/-- `while (*psz == '1') { zeroes++; if (zeroes > max_ret_len) return false; psz++; }`:
the number of leading `1`s and the characters after them. -/
def countOnes (max_ret_len : Int) : List Char → Nat → Option (Nat × List Char)
  | '1' :: psz, zeroes =>
    if (zeroes + 1 : Int) > max_ret_len then none else countOnes max_ret_len psz (zeroes + 1)
  | psz, zeroes => some (zeroes, psz)

/-- `while (*psz && !IsSpace(*psz))` of `DecodeBase58`: each character's digit
multiplied into `b256`, kept least significant first as the reverse iterator
walks it; the buffer, `length` and the characters left. -/
def decodeLoop (zeroes : Nat) (max_ret_len : Int) :
    List Char → List Nat → Nat → Except (CheckError Unit) (Option (List Nat × Nat × List Char))
  | [], b256, length => pure (some (b256, length, []))
  | c :: psz, b256, length =>
    if IsSpace c then pure (some (b256, length, c :: psz))
    else
      -- Decode base58 character
      let carry := mapBase58 c
      -- Invalid b58 character
      if carry = -1 then pure none
      else
        match mulAddLoop 58 256 b256 carry.toNat 0 length with
        | (b256, i, carry) =>
          if carry ≠ 0 then throw .assertFails
          else if (i + zeroes : Int) > max_ret_len then pure none
          else decodeLoop zeroes max_ret_len psz b256 i

/-- `DecodeBase58(str, vchRet, max_ret_len)`: `none` for `false`, `some vch`
for `true`. -/
def DecodeBase58 (str : List Char) (max_ret_len : Int) : Except (CheckError Unit) (Option (List UInt8)) :=
  if !ValidAsCString str then pure none
  else
    -- Skip leading spaces; skip and count leading '1's.
    match countOnes max_ret_len (str.dropWhile IsSpace) 0 with
    | none => pure none
    | some (zeroes, psz) => do
      -- Allocate enough space in big-endian base256 representation.
      let b256 ← allocate (BitVec.ofNat 32 (psz.length * 733 / 1000 + 1)).toInt
      -- Process the characters.
      let some (b256, length, psz) ← decodeLoop zeroes max_ret_len psz b256 0 | return none
      -- Skip trailing spaces.
      if !(psz.dropWhile IsSpace).isEmpty then return none
      -- Skip leading zeroes in b256; copy result into output vector.
      return some (List.replicate zeroes 0 ++ (b256.take length).reverse.map UInt8.ofNat)

/-- The loop over the bytes of `EncodeBase58`: each byte multiplied into
`b58`, kept least significant first; the buffer and `length`. -/
def encodeLoop : List UInt8 → List Nat → Nat → Except (CheckError Unit) (List Nat × Nat)
  | [], b58, length => pure (b58, length)
  | x :: input, b58, length =>
    -- Apply "b58 = b58 * 256 + ch".
    match mulAddLoop 256 58 b58 x.toNat 0 length with
    | (b58, i, carry) =>
      if carry ≠ 0 then throw .assertFails
      else encodeLoop input b58 i

/-- `EncodeBase58(input)`. -/
def EncodeBase58 (input : List UInt8) : Except (CheckError Unit) (List Char) := do
  -- Skip & count leading zeroes.
  let zeroes := (input.takeWhile (· == 0)).length
  let input := input.dropWhile (· == 0)
  -- Allocate enough space in big-endian base58 representation.
  let b58 ← allocate (BitVec.ofNat 32 (input.length * 138 / 100 + 1)).toInt
  -- Process the bytes.
  let (b58, length) ← encodeLoop input b58 0
  -- Skip leading zeroes in base58 result.
  let digits := ((b58.take length).reverse).dropWhile (· == 0)
  -- Translate the result into a string.
  return List.replicate zeroes '1' ++ digits.map (pszBase58.getD · '1')

example : EncodeBase58 [0, 0, 1, 2] = .ok "115T".toList := by decide
example : DecodeBase58 " 115T ".toList 4 = .ok (some [0, 0, 1, 2]) := by decide

/-! ## The alphabet -/

theorem mapBase58_pszBase58 {d : Nat} (hd : d < 58) : mapBase58 (pszBase58.getD d '1') = d := by
  have key : ∀ i : Fin 58, mapBase58 (pszBase58.getD i '1') = i := by decide
  exact key ⟨d, hd⟩

theorem isSpace_pszBase58 {d : Nat} (hd : d < 58) : IsSpace (pszBase58.getD d '1') = false := by
  have key : ∀ i : Fin 58, IsSpace (pszBase58.getD i '1') = false := by decide
  exact key ⟨d, hd⟩

theorem pszBase58_ne_nul {d : Nat} (hd : d < 58) : pszBase58.getD d '1' ≠ '\x00' := by
  have key : ∀ i : Fin 58, pszBase58.getD i '1' ≠ '\x00' := by decide
  exact key ⟨d, hd⟩

set_option maxRecDepth 10000 in
/-- A character with a digit is the one `pszBase58` writes for it. -/
theorem pszBase58_mapBase58 {c : Char} (hc : mapBase58 c ≠ -1) :
    0 ≤ mapBase58 c ∧ mapBase58 c < 58 ∧ pszBase58.getD (mapBase58 c).toNat '1' = c := by
  have key : ∀ i : Fin 256, mapBase58Table.getD i (-1) ≠ -1 →
      0 ≤ mapBase58Table.getD i (-1) ∧ mapBase58Table.getD i (-1) < 58 ∧
        pszBase58.getD (mapBase58Table.getD i (-1)).toNat '1' = Char.ofNat i := by
    decide
  have hlt : c.toNat < 256 := by
    by_contra h
    have hlen : mapBase58Table.length = 256 := by decide
    exact hc (List.getD_eq_default _ _ (by omega))
  have := key ⟨c.toNat, hlt⟩ hc
  rwa [Char.ofNat_toNat] at this

theorem allocate_ofNat {n : Nat} (h : n < 2 ^ 31) : allocate (BitVec.ofNat 32 n).toInt = .ok (List.replicate n 0) := by
  have hint : (BitVec.ofNat 32 n).toInt = n := by
    rw [BitVec.toInt_ofNat', Int.bmod_eq_of_le (by omega) (by omega)]
  rw [hint, allocate, if_neg (by omega), Int.toNat_natCast]
  rfl

/-! ## What the two functions compute -/

/-- The number a byte string stands for, the first byte the most
significant. -/
def bytesValue (xs : List UInt8) : Nat := horner 256 0 (xs.map UInt8.toNat)

/-- The bytes of a number, the most significant first, without leading
zeros. -/
def bytesOf (N : Nat) : List UInt8 := (Nat.digits 256 N).reverse.map UInt8.ofNat

/-- The base-58 text of a number, the most significant digit first, without
leading zeros. -/
def base58Text (N : Nat) : List Char := (Nat.digits 58 N).reverse.map (pszBase58.getD · '1')

/-- The number base-58 characters stand for. -/
def textValue (cs : List Char) : Nat := horner 58 0 (cs.map fun c => (mapBase58 c).toNat)

theorem bytesValue_append_singleton (xs : List UInt8) (x : UInt8) :
    bytesValue (xs ++ [x]) = 256 * bytesValue xs + x.toNat := by
  unfold bytesValue
  rw [List.map_append, horner_append]
  rfl

theorem bytesValue_le_append (xs ys : List UInt8) : bytesValue xs ≤ bytesValue (xs ++ ys) := by
  unfold bytesValue
  rw [List.map_append, horner_append]
  exact le_horner (by decide) _ _

theorem bytesValue_lt (xs : List UInt8) : bytesValue xs < 256 ^ xs.length := by
  have := @horner_lt 256 (by decide) 0 (xs.map UInt8.toNat)
    (fun d hd => by obtain ⟨x, -, rfl⟩ := List.mem_map.mp hd; exact x.toNat_lt)
  rwa [Nat.zero_add, Nat.one_mul, List.length_map] at this

/-- `n * 138 / 100 + 1` base-58 digits hold the number of `n` bytes. -/
theorem bytesValue_lt_pow (xs : List UInt8) : bytesValue xs < 58 ^ (xs.length * 138 / 100 + 1) :=
  lt_of_lt_of_le (bytesValue_lt _) (pow_le_pow_div_add_one (by decide) (by decide) (by decide) _)

/-- `log 58 / log 256 ≤ 733 / 1000`, the ratio `DecodeBase58` sizes its
buffer with. The margin is six bits, so the powers are compared in four
chunks of 250 digits that each stay under 1466 bits. -/
theorem pow_58_le_pow_256 : (58 : Nat) ^ 1000 ≤ 256 ^ 733 := by
  have hchunk : (58 : Nat) ^ 250 ≤ 256 ^ 183 * 4 := by decide
  calc (58 : Nat) ^ 1000 = (58 ^ 250) ^ 4 := by rw [← pow_mul]
    _ ≤ (256 ^ 183 * 4) ^ 4 := Nat.pow_le_pow_left hchunk 4
    _ = 256 ^ 733 := by rw [mul_pow, ← pow_mul, show (4 : Nat) ^ 4 = 256 from rfl, ← pow_succ]

/-- The digits of a number, the most significant first, start with a
non-zero one. -/
theorem dropWhile_reverse_digits {b : Nat} (N : Nat) :
    ((Nat.digits b N).reverse).dropWhile (· == 0) = (Nat.digits b N).reverse := by
  rcases Nat.eq_zero_or_pos N with rfl | hN
  · simp
  · have hne := (Nat.digits_ne_nil_iff_ne_zero (b := b)).mpr (Nat.pos_iff_ne_zero.mp hN)
    have hlast := Nat.getLast_digit_ne_zero b (Nat.pos_iff_ne_zero.mp hN)
    rw [← List.dropLast_append_getLast hne, List.reverse_append, List.reverse_singleton, List.singleton_append,
      List.dropWhile_cons_of_neg (by simpa using hlast)]

/-! ## `EncodeBase58` -/

/-- The loop over the bytes keeps the buffer holding the number read so far,
as long as the whole number fits. -/
theorem encodeLoop_run {size : Nat} : ∀ (input pre : List UInt8), bytesValue (pre ++ input) < 58 ^ size →
    encodeLoop input (holding 58 size (bytesValue pre)) (Nat.digits 58 (bytesValue pre)).length =
      .ok (holding 58 size (bytesValue (pre ++ input)), (Nat.digits 58 (bytesValue (pre ++ input))).length)
  | [], pre, _ => by
    rw [List.append_nil]
    rfl
  | x :: input, pre, h => by
    have hfit : 256 * bytesValue pre + x.toNat < 58 ^ size := by
      rw [← bytesValue_append_singleton]
      exact lt_of_le_of_lt (bytesValue_le_append _ input) (by rwa [List.append_assoc])
    rw [encodeLoop, mulAddLoop_digits (by decide) (by decide) hfit]
    dsimp only
    rw [if_neg (by decide), ← bytesValue_append_singleton]
    have := encodeLoop_run input (pre ++ [x]) (by rwa [List.append_assoc])
    rwa [List.append_assoc, List.singleton_append] at this

/-- On fewer than `2^30` bytes, `EncodeBase58` writes a `1` for each leading
zero byte and then the base-58 text of the number the other bytes stand for. -/
theorem EncodeBase58_eq {input : List UInt8} (h : input.length < 2 ^ 30) :
    EncodeBase58 input = .ok (List.replicate (input.takeWhile (· == 0)).length '1' ++
      base58Text (bytesValue (input.dropWhile (· == 0)))) := by
  have hrest : (input.dropWhile (· == 0)).length ≤ input.length := List.length_dropWhile_le _ _
  have hrun := @encodeLoop_run ((input.dropWhile (· == 0)).length * 138 / 100 + 1) (input.dropWhile (· == 0)) []
    (bytesValue_lt_pow _)
  rw [List.nil_append, show bytesValue [] = 0 from rfl, holding_zero, Nat.digits_zero, List.length_nil] at hrun
  rw [EncodeBase58, allocate_ofNat (by omega), Except.ok_bind, hrun, Except.ok_bind]
  dsimp only
  rw [take_holding, dropWhile_reverse_digits]
  rfl

/-! ## `DecodeBase58` -/

/-- The leading `1`s, each checked against `max_ret_len`. -/
theorem countOnes_append (max_ret_len : Int) {q : List Char} (hq : q.head? ≠ some '1') :
    ∀ (k zeroes : Nat), countOnes max_ret_len (List.replicate k '1' ++ q) zeroes =
      if k = 0 ∨ (zeroes + k : Int) ≤ max_ret_len then some (zeroes + k, q) else none
  | 0, zeroes => by
    rw [List.replicate_zero, List.nil_append, countOnes.eq_def]
    split
    · exact absurd rfl hq
    · simp
  | k + 1, zeroes => by
    rw [List.replicate_succ, List.cons_append, countOnes, countOnes_append max_ret_len hq k (zeroes + 1)]
    by_cases hz : (zeroes + 1 : Int) > max_ret_len
    · have hout : ¬(k + 1 = 0 ∨ (zeroes : Int) + ((k + 1 : Nat) : Int) ≤ max_ret_len) := by omega
      rw [if_pos hz, if_neg hout]
    · rw [if_neg hz]
      by_cases hfin : (zeroes + (k + 1) : Int) ≤ max_ret_len
      · have hin : k = 0 ∨ ((zeroes + 1 : Nat) : Int) + k ≤ max_ret_len := .inr (by omega)
        have hin' : k + 1 = 0 ∨ (zeroes : Int) + ((k + 1 : Nat) : Int) ≤ max_ret_len := .inr (by omega)
        rw [if_pos hin, if_pos hin', Nat.add_assoc, Nat.add_comm 1 k]
      · have hout : ¬(k = 0 ∨ ((zeroes + 1 : Nat) : Int) + k ≤ max_ret_len) := by omega
        have hout' : ¬(k + 1 = 0 ∨ (zeroes : Int) + ((k + 1 : Nat) : Int) ≤ max_ret_len) := by omega
        rw [if_neg hout, if_neg hout']

theorem decodeLoop_space (zeroes : Nat) (max_ret_len : Int) {c : Char} (hc : IsSpace c = true)
    (psz : List Char) (b256 : List Nat) (length : Nat) :
    decodeLoop zeroes max_ret_len (c :: psz) b256 length = .ok (some (b256, length, c :: psz)) := by
  rw [decodeLoop, if_pos hc]
  rfl

theorem decodeLoop_invalid (zeroes : Nat) (max_ret_len : Int) {c : Char} (hs : IsSpace c = false)
    (hc : mapBase58 c = -1) (psz : List Char) (b256 : List Nat) (length : Nat) :
    decodeLoop zeroes max_ret_len (c :: psz) b256 length = .ok none := by
  rw [decodeLoop, if_neg (by simp [hs]), if_pos hc]
  rfl

/-- Over a run of base-58 characters, the loop keeps the buffer holding the
number read so far. It returns `false` once the bytes in use and the leading
zeros pass `max_ret_len`; as the number only grows, that happens by the end
of the run or never. -/
theorem decodeLoop_append (zeroes : Nat) (max_ret_len : Int) {size : Nat} : ∀ (cs rest : List Char) (N : Nat),
    (∀ c ∈ cs, IsSpace c = false ∧ mapBase58 c ≠ -1) →
    horner 58 N (cs.map fun c => (mapBase58 c).toNat) < 256 ^ size →
    decodeLoop zeroes max_ret_len (cs ++ rest) (holding 256 size N) (Nat.digits 256 N).length =
      if cs = [] ∨ ((Nat.digits 256 (horner 58 N (cs.map fun c => (mapBase58 c).toNat))).length + zeroes : Int) ≤
          max_ret_len then
        decodeLoop zeroes max_ret_len rest (holding 256 size (horner 58 N (cs.map fun c => (mapBase58 c).toNat)))
          (Nat.digits 256 (horner 58 N (cs.map fun c => (mapBase58 c).toNat))).length
      else .ok none
  | [], rest, N, _, _ => by
    rw [if_pos (.inl rfl)]
    rfl
  | c :: cs, rest, N, hcs, hfit => by
    obtain ⟨hsp, hvalid⟩ := hcs c List.mem_cons_self
    simp only [List.map_cons, horner_cons] at hfit ⊢
    -- the number after this character, and after the whole run
    have hstep : 58 * N + (mapBase58 c).toNat < 256 ^ size := lt_of_le_of_lt (le_horner (by decide) _ _) hfit
    have hmono := Nat.le_length_digits_le 256 _ _
      (le_horner (b := 58) (by decide) (58 * N + (mapBase58 c).toNat) (cs.map fun c => (mapBase58 c).toNat))
    rw [List.cons_append, decodeLoop, if_neg (by simp [hsp]), if_neg hvalid, mulAddLoop_digits (by decide) (by decide) hstep]
    dsimp only
    rw [if_neg (by decide)]
    by_cases hchk : ((Nat.digits 256 (58 * N + (mapBase58 c).toNat)).length + zeroes : Int) > max_ret_len
    · have hout : ¬(c :: cs = [] ∨ ((Nat.digits 256 (horner 58 (58 * N + (mapBase58 c).toNat)
          (cs.map fun c => (mapBase58 c).toNat))).length + zeroes : Int) ≤ max_ret_len) := by
        simp only [reduceCtorEq, false_or, not_le]
        omega
      rw [if_pos hchk, if_neg hout]
      rfl
    · rw [if_neg hchk, decodeLoop_append zeroes max_ret_len cs rest _ (fun d hd => hcs d (List.mem_cons_of_mem c hd)) hfit]
      by_cases hfin : ((Nat.digits 256 (horner 58 (58 * N + (mapBase58 c).toNat)
          (cs.map fun c => (mapBase58 c).toNat))).length + zeroes : Int) ≤ max_ret_len
      · rw [if_pos (.inr hfin), if_pos (.inr hfin)]
      · -- the run goes on past this character, or the check here would be the last one
        have hcs0 : cs ≠ [] := by
          rintro rfl
          exact hfin (by simpa [horner] using hchk)
        rw [if_neg (by simp [hcs0, hfin]), if_neg (by simp [hfin])]

/-! ## The base-58 text of a number -/

theorem mem_base58Text {N : Nat} {c : Char} (hc : c ∈ base58Text N) : ∃ d < 58, c = pszBase58.getD d '1' := by
  obtain ⟨d, hd, rfl⟩ := List.mem_map.mp hc
  exact ⟨d, Nat.digits_lt_base (by decide) (List.mem_reverse.mp hd), rfl⟩

theorem base58Text_valid (N : Nat) : ∀ c ∈ base58Text N, IsSpace c = false ∧ mapBase58 c ≠ -1 := by
  intro c hc
  obtain ⟨d, hd, rfl⟩ := mem_base58Text hc
  exact ⟨isSpace_pszBase58 hd, by rw [mapBase58_pszBase58 hd]; omega⟩

theorem map_base58Text (N : Nat) :
    (base58Text N).map (fun c => (mapBase58 c).toNat) = (Nat.digits 58 N).reverse := by
  rw [base58Text, List.map_map]
  conv => rhs; rw [← List.map_id (Nat.digits 58 N).reverse]
  apply List.map_congr_left
  intro d hd
  show (mapBase58 (pszBase58.getD d '1')).toNat = d
  rw [mapBase58_pszBase58 (Nat.digits_lt_base (by decide) (List.mem_reverse.mp hd)), Int.toNat_natCast]

theorem textValue_base58Text (N : Nat) : textValue (base58Text N) = N := by
  rw [textValue, map_base58Text, horner_eq, List.reverse_reverse, Nat.zero_mul, Nat.zero_add, Nat.ofDigits_digits]

/-- The text of a number starts with a non-zero digit. -/
theorem head_base58Text (N : Nat) : (base58Text N).head? ≠ some '1' := by
  intro h
  obtain ⟨c, rest, hcs⟩ : ∃ c rest, base58Text N = c :: rest := by
    cases hb : base58Text N with
    | nil => rw [hb] at h; cases h
    | cons c rest => exact ⟨c, rest, rfl⟩
  rw [hcs, List.head?_cons, Option.some.injEq] at h
  subst h
  -- the leading digit would be `0`
  have hmap := congrArg List.head? (map_base58Text N)
  rw [hcs, List.map_cons, List.head?_cons, List.head?_reverse] at hmap
  have hN : N ≠ 0 := by
    rintro rfl
    simp [base58Text] at hcs
  rw [List.getLast?_eq_some_getLast (Nat.digits_ne_nil_iff_ne_zero.mpr hN)] at hmap
  exact Nat.getLast_digit_ne_zero 58 hN (Option.some.inj hmap).symm

theorem length_base58Text_le (xs : List UInt8) :
    (base58Text (bytesValue xs)).length ≤ xs.length * 138 / 100 + 1 := by
  rw [base58Text, List.length_map, List.length_reverse, Nat.digits_length_le_iff (by decide)]
  exact bytesValue_lt_pow xs

theorem length_bytesOf (N : Nat) : (bytesOf N).length = (Nat.digits 256 N).length := by
  simp [bytesOf]

/-- A run of base-58 characters that does not start with `1` is the text of
the number it stands for. -/
theorem base58Text_textValue {cs : List Char} (hcs : ∀ c ∈ cs, IsSpace c = false ∧ mapBase58 c ≠ -1)
    (hhead : cs.head? ≠ some '1') : base58Text (textValue cs) = cs := by
  have hlt : ∀ d ∈ (cs.map fun c => (mapBase58 c).toNat).reverse, d < 58 := by
    intro d hd
    obtain ⟨c, hc, rfl⟩ := List.mem_map.mp (List.mem_reverse.mp hd)
    have := pszBase58_mapBase58 (hcs c hc).2
    omega
  have hlast : ∀ hne : (cs.map fun c => (mapBase58 c).toNat).reverse ≠ [],
      (cs.map fun c => (mapBase58 c).toNat).reverse.getLast hne ≠ 0 := by
    intro hne
    obtain ⟨c, rest, rfl⟩ : ∃ c rest, cs = c :: rest := by
      cases cs with
      | nil => simp at hne
      | cons c rest => exact ⟨c, rest, rfl⟩
    simp only [List.map_cons, List.reverse_cons, List.getLast_append_singleton]
    intro h0
    obtain ⟨-, -, hchar⟩ := pszBase58_mapBase58 (hcs c List.mem_cons_self).2
    rw [h0] at hchar
    exact hhead (by rw [List.head?_cons, ← hchar]; rfl)
  rw [textValue, horner_eq, Nat.zero_mul, Nat.zero_add, base58Text, Nat.digits_ofDigits 58 (by decide) _ hlt hlast,
    List.reverse_reverse, List.map_map]
  conv => rhs; rw [← List.map_id cs]
  apply List.map_congr_left
  intro c hc
  exact (pszBase58_mapBase58 (hcs c hc).2).2.2

/-! ## `DecodeBase58` on its text, and on any text -/

/-- What `EncodeBase58` writes is read back, when the bytes fit in
`max_ret_len`. -/
theorem DecodeBase58_text {z N : Nat} {max_ret_len : Int}
    (hlen : (List.replicate z '1' ++ base58Text N).length < 2 ^ 31)
    (hmax : (z + (bytesOf N).length : Int) ≤ max_ret_len) :
    DecodeBase58 (List.replicate z '1' ++ base58Text N) max_ret_len =
      .ok (some (List.replicate z 0 ++ bytesOf N)) := by
  have hvalid := base58Text_valid N
  have hsize : (base58Text N).length * 733 / 1000 + 1 < 2 ^ 31 := by
    rw [List.length_append, List.length_replicate] at hlen
    omega
  have hfit : horner 58 0 ((base58Text N).map fun c => (mapBase58 c).toNat) <
      256 ^ ((base58Text N).length * 733 / 1000 + 1) := by
    have hlt := Nat.lt_base_pow_length_digits (b := 58) (m := N) (by decide)
    rw [← textValue, textValue_base58Text]
    refine lt_of_lt_of_le hlt (le_trans ?_ (pow_le_pow_div_add_one (a := 58) (by decide) (by decide) pow_58_le_pow_256 _))
    rw [base58Text, List.length_map, List.length_reverse]
  have hloop := decodeLoop_append z max_ret_len (base58Text N) [] 0 hvalid hfit
  rw [holding_zero, Nat.digits_zero, List.length_nil, List.append_nil, ← textValue, textValue_base58Text,
    if_pos (.inr (by rw [length_bytesOf] at hmax; omega))] at hloop
  -- the text has no NUL and does not start with white space
  have hnul : ValidAsCString (List.replicate z '1' ++ base58Text N) = true := by
    simp only [ValidAsCString, Bool.not_eq_eq_eq_not, Bool.not_true, List.contains_eq_mem, decide_eq_false_iff_not]
    intro hmem
    rcases List.mem_append.mp hmem with h | h
    · exact absurd (List.eq_of_mem_replicate h) (by decide)
    · obtain ⟨d, hd, hc⟩ := mem_base58Text h
      exact pszBase58_ne_nul hd hc.symm
  have hspace : (List.replicate z '1' ++ base58Text N).dropWhile IsSpace = List.replicate z '1' ++ base58Text N := by
    rw [List.dropWhile_eq_self_iff]
    intro hpos
    cases z with
    | zero =>
      simp only [List.replicate_zero, List.nil_append] at hpos ⊢
      simp [(hvalid _ (List.getElem_mem hpos)).1]
    | succ z => simp [IsSpace]
  rw [DecodeBase58, hnul, Bool.not_true, if_neg Bool.false_ne_true, hspace,
    countOnes_append max_ret_len (head_base58Text N) z 0,
    if_pos (.inr (by rw [length_bytesOf] at hmax; omega)), Nat.zero_add]
  dsimp only
  rw [allocate_ofNat hsize, Except.ok_bind, hloop, decodeLoop]
  show Except.ok (some (List.replicate z 0 ++
    ((holding 256 _ N).take (Nat.digits 256 N).length).reverse.map UInt8.ofNat)) = _
  rw [take_holding]
  rfl

theorem exists_replicate_append (c : Char) : ∀ l : List Char, ∃ k q, l = List.replicate k c ++ q ∧ q.head? ≠ some c
  | [] => ⟨0, [], rfl, by simp⟩
  | d :: l => by
    by_cases hd : d = c
    · obtain ⟨k, q, rfl, hq⟩ := exists_replicate_append c l
      exact ⟨k + 1, q, by rw [hd]; rfl, hq⟩
    · exact ⟨0, d :: l, rfl, by simpa using hd⟩

/-- Every text is a run of base-58 characters and a text that does not start
with one. -/
theorem exists_valid_append : ∀ q : List Char, ∃ cs rest, q = cs ++ rest ∧
    (∀ c ∈ cs, IsSpace c = false ∧ mapBase58 c ≠ -1) ∧
      ∀ c r, rest = c :: r → ¬(IsSpace c = false ∧ mapBase58 c ≠ -1)
  | [] => ⟨[], [], rfl, (fun _ h => nomatch h), fun _ _ h => nomatch h⟩
  | c :: q => by
    by_cases hc : IsSpace c = false ∧ mapBase58 c ≠ -1
    · obtain ⟨cs, rest, rfl, hcs, hrest⟩ := exists_valid_append q
      exact ⟨c :: cs, rest, rfl, List.forall_mem_cons.mpr ⟨hc, hcs⟩, hrest⟩
    · refine ⟨[], c :: q, rfl, (fun _ h => nomatch h), fun d r h => ?_⟩
      obtain ⟨rfl, rfl⟩ := List.cons.inj h
      exact hc

theorem decodeLoop_stop (zeroes : Nat) (max_ret_len : Int) {rest : List Char}
    (h : ∀ c r, rest = c :: r → IsSpace c = true) (b256 : List Nat) (length : Nat) :
    decodeLoop zeroes max_ret_len rest b256 length = .ok (some (b256, length, rest)) := by
  cases rest with
  | nil => rfl
  | cons c r => exact decodeLoop_space zeroes max_ret_len (h c r rfl) r b256 length

/-- On fewer than `2^30` characters, `DecodeBase58` returns `false`, or the
text between white space is a run of `1`s followed by the base-58 text of a
number, and it returns a zero byte for each `1` followed by the bytes of the
number. -/
theorem DecodeBase58_cases (str : List Char) (max_ret_len : Int) (hlen : str.length < 2 ^ 30) :
    DecodeBase58 str max_ret_len = .ok none ∨
      ∃ z N, DecodeBase58 str max_ret_len = .ok (some (List.replicate z 0 ++ bytesOf N)) ∧
        TrimString str = List.replicate z '1' ++ base58Text N ∧ z + (bytesOf N).length ≤ str.length := by
  unfold DecodeBase58
  by_cases hnul : ValidAsCString str = false
  · rw [hnul]
    exact .inl rfl
  rw [Bool.not_eq_false] at hnul
  rw [hnul, Bool.not_true, if_neg Bool.false_ne_true]
  -- white space, then `1`s, then a run of base-58 characters
  obtain ⟨k, q, hkq, hq⟩ := exists_replicate_append '1' (str.dropWhile IsSpace)
  obtain ⟨cs, rest, rfl, hcs, hrest⟩ := exists_valid_append q
  have hlq : k + (cs ++ rest).length ≤ str.length := by
    have := List.length_dropWhile_le IsSpace str
    rw [hkq, List.length_append, List.length_replicate] at this
    omega
  rw [hkq, countOnes_append max_ret_len hq k 0]
  by_cases hones : k = 0 ∨ ((0 : Nat) + k : Int) ≤ max_ret_len
  swap
  · rw [if_neg hones]
    exact .inl rfl
  rw [if_pos hones, Nat.zero_add]
  dsimp only
  have hsize : (cs ++ rest).length * 733 / 1000 + 1 < 2 ^ 31 := by omega
  have hdigits : textValue cs < 58 ^ cs.length := by
    have := @horner_lt 58 (by decide) 0 (cs.map fun c => (mapBase58 c).toNat) (by
      intro d hd
      obtain ⟨c, hc, rfl⟩ := List.mem_map.mp hd
      have := pszBase58_mapBase58 (hcs c hc).2
      omega)
    rwa [Nat.zero_add, Nat.one_mul, List.length_map] at this
  have hfit : horner 58 0 (cs.map fun c => (mapBase58 c).toNat) < 256 ^ ((cs ++ rest).length * 733 / 1000 + 1) := by
    refine lt_of_lt_of_le hdigits (le_trans (Nat.pow_le_pow_right (by decide) (?_ : cs.length ≤ (cs ++ rest).length))
      (pow_le_pow_div_add_one (a := 58) (by decide) (by decide) pow_58_le_pow_256 _))
    simp
  have hloop := decodeLoop_append k max_ret_len cs rest 0 hcs hfit
  rw [holding_zero, Nat.digits_zero, List.length_nil, ← textValue] at hloop
  rw [allocate_ofNat hsize, Except.ok_bind, hloop]
  by_cases hchk : cs = [] ∨ ((Nat.digits 256 (textValue cs)).length + k : Int) ≤ max_ret_len
  swap
  · rw [if_neg hchk]
    exact .inl rfl
  rw [if_pos hchk]
  -- the run ends at the end of the text, at white space, or at a character with no digit
  by_cases hstop : ∀ c r, rest = c :: r → IsSpace c = true
  swap
  · obtain ⟨c, r, rfl, hs⟩ : ∃ c r, rest = c :: r ∧ IsSpace c = false := by
      simp only [not_forall] at hstop
      obtain ⟨c, r, h, hs⟩ := hstop
      exact ⟨c, r, h, by simpa using hs⟩
    have hinv : mapBase58 c = -1 := by
      have := hrest c r rfl
      simp only [hs, true_and, ne_eq, not_not] at this
      exact this
    rw [decodeLoop_invalid k max_ret_len hs hinv]
    exact .inl rfl
  rw [decodeLoop_stop k max_ret_len hstop, Except.ok_bind]
  dsimp only
  by_cases hall : (rest.dropWhile IsSpace).isEmpty = true
  swap
  · rw [if_pos (by simpa using hall)]
    exact .inl rfl
  rw [if_neg (by simpa using hall)]
  right
  refine ⟨k, textValue cs, by rw [take_holding]; rfl, ?_, ?_⟩
  · -- the text between white space is the `1`s and the run
    have hhead : cs.head? ≠ some '1' := by
      cases cs with
      | nil => simp
      | cons c cs => simpa using hq
    have hspaces : ∀ x ∈ rest.reverse, IsSpace x = true := by
      intro x hx
      exact List.dropWhile_eq_nil_iff.mp (List.isEmpty_iff.mp hall) x (List.mem_reverse.mp hx)
    have hword : ∀ x ∈ (List.replicate k '1' ++ cs).reverse, IsSpace x = false := by
      intro x hx
      rcases List.mem_append.mp (List.mem_reverse.mp hx) with h | h
      · rw [List.eq_of_mem_replicate h]
        rfl
      · exact (hcs x h).1
    have hkeep : (List.replicate k '1' ++ cs).reverse.dropWhile IsSpace = (List.replicate k '1' ++ cs).reverse :=
      List.dropWhile_eq_self_iff.mpr fun hpos => by
        rw [hword _ (List.getElem_mem hpos)]
        exact Bool.false_ne_true
    rw [base58Text_textValue hcs hhead, TrimString, hkq, ← List.append_assoc, List.reverse_append,
      List.dropWhile_append_of_pos hspaces, hkeep, List.reverse_reverse]
  · -- a base-58 digit needs less than a byte
    have hbytes : (bytesOf (textValue cs)).length ≤ cs.length := by
      rw [length_bytesOf, Nat.digits_length_le_iff (by decide)]
      exact lt_of_lt_of_le hdigits (Nat.pow_le_pow_left (by decide) _)
    rw [List.length_append] at hlq
    omega

/-! ## Bytes and their number -/

/-- The bytes of a number start with a non-zero byte. -/
theorem head_bytesOf (N : Nat) : (bytesOf N).head? ≠ some 0 := by
  intro h
  have hN : N ≠ 0 := by
    rintro rfl
    simp [bytesOf] at h
  have hne := Nat.digits_ne_nil_iff_ne_zero (b := 256).mpr hN
  rw [bytesOf, List.head?_map, List.head?_reverse, List.getLast?_eq_some_getLast hne, Option.map_some,
    Option.some.injEq] at h
  have hlt := Nat.digits_lt_base (b := 256) (by decide) (List.getLast_mem hne)
  have hval := congrArg UInt8.toNat h
  rw [UInt8.toNat_ofNat_of_lt' hlt] at hval
  exact Nat.getLast_digit_ne_zero 256 hN hval

theorem bytesValue_bytesOf (N : Nat) : bytesValue (bytesOf N) = N := by
  have hmap : ((Nat.digits 256 N).reverse.map UInt8.ofNat).map UInt8.toNat = (Nat.digits 256 N).reverse := by
    rw [List.map_map]
    conv => rhs; rw [← List.map_id (Nat.digits 256 N).reverse]
    apply List.map_congr_left
    intro d hd
    exact UInt8.toNat_ofNat_of_lt' (Nat.digits_lt_base (by decide) (List.mem_reverse.mp hd))
  rw [bytesValue, bytesOf, hmap, horner_eq, Nat.zero_mul, Nat.zero_add, List.reverse_reverse, Nat.ofDigits_digits]

/-- Bytes with no leading zero are the bytes of the number they stand for. -/
theorem bytesOf_bytesValue {xs : List UInt8} (hxs : xs.head? ≠ some 0) : bytesOf (bytesValue xs) = xs := by
  have hlt : ∀ d ∈ (xs.map UInt8.toNat).reverse, d < 256 := by
    intro d hd
    obtain ⟨x, -, rfl⟩ := List.mem_map.mp (List.mem_reverse.mp hd)
    exact x.toNat_lt
  have hlast : ∀ hne : (xs.map UInt8.toNat).reverse ≠ [], (xs.map UInt8.toNat).reverse.getLast hne ≠ 0 := by
    intro hne
    obtain ⟨x, rest, rfl⟩ : ∃ x rest, xs = x :: rest := by
      cases xs with
      | nil => simp at hne
      | cons x rest => exact ⟨x, rest, rfl⟩
    simp only [List.map_cons, List.reverse_cons, List.getLast_append_singleton]
    intro h0
    exact hxs (by rw [List.head?_cons, (UInt8.toNat_inj (b := 0)).mp h0])
  rw [bytesValue, horner_eq, Nat.zero_mul, Nat.zero_add, bytesOf, Nat.digits_ofDigits 256 (by decide) _ hlt hlast,
    List.reverse_reverse, List.map_map]
  conv => rhs; rw [← List.map_id xs]
  apply List.map_congr_left
  intro x _
  exact UInt8.ofNat_toNat

/-- A run of zero bytes and bytes that do not start with one: the zeros are
what is skipped. -/
theorem dropWhile_replicate_zero {q : List UInt8} (hq : q.head? ≠ some 0) :
    ∀ z, (List.replicate z 0 ++ q).dropWhile (· == 0) = q
  | 0 => by
    cases q with
    | nil => rfl
    | cons x q => exact List.dropWhile_cons_of_neg (by simpa using hq)
  | z + 1 => by
    rw [List.replicate_succ, List.cons_append, List.dropWhile_cons_of_pos rfl]
    exact dropWhile_replicate_zero hq z

theorem takeWhile_replicate_zero {q : List UInt8} (hq : q.head? ≠ some 0) :
    ∀ z, (List.replicate z 0 ++ q).takeWhile (· == 0) = List.replicate z 0
  | 0 => by
    cases q with
    | nil => rfl
    | cons x q => exact List.takeWhile_cons_of_neg (by simpa using hq)
  | z + 1 => by
    rw [List.replicate_succ, List.cons_append, List.takeWhile_cons_of_pos rfl, takeWhile_replicate_zero hq z]

/-- Bytes are their leading zeros and bytes that do not start with one. -/
theorem replicate_append_dropWhile (x : List UInt8) :
    List.replicate (x.takeWhile (· == 0)).length 0 ++ x.dropWhile (· == 0) = x ∧
      (x.dropWhile (· == 0)).head? ≠ some 0 := by
  constructor
  · have hzeros : x.takeWhile (· == 0) = List.replicate (x.takeWhile (· == 0)).length 0 :=
      List.eq_replicate_iff.mpr ⟨rfl, fun b hb => by simpa using List.mem_takeWhile_imp hb⟩
    rw [← hzeros, List.takeWhile_append_dropWhile]
  · intro h
    have hne : x.dropWhile (· == 0) ≠ [] := by
      intro h0
      rw [h0] at h
      exact nomatch h
    have := List.head_dropWhile_not (· == 0) hne
    rw [(List.head_eq_iff_head?_eq_some hne).mpr h] at this
    exact absurd this (by decide)

/-! ## The round trip -/

theorem base58_roundtrip :
    (∀ (x : List UInt8) (max_ret_len : Int), x.length < 2 ^ 30 → (x.length : Int) ≤ max_ret_len →
      ∃ s, EncodeBase58 x = .ok s ∧ DecodeBase58 s max_ret_len = .ok (some x)) ∧
    (∀ (s : List Char) (max_ret_len : Int) (v : List UInt8), s.length < 2 ^ 30 →
      DecodeBase58 s max_ret_len = .ok (some v) → EncodeBase58 v = .ok (TrimString s)) ∧
    (∀ x : List UInt8, x.length < 2 ^ 30 → ∃ s, EncodeBase58 x = .ok s) ∧
    (∀ (s : List Char) (max_ret_len : Int), s.length < 2 ^ 30 → ∃ r, DecodeBase58 s max_ret_len = .ok r) := by
  refine ⟨?encode_decode, ?decode_encode, fun x hx => ⟨_, EncodeBase58_eq hx⟩, ?decode_total⟩
  case encode_decode =>
    intro x max_ret_len hx hmax
    obtain ⟨hsplit, hhead⟩ := replicate_append_dropWhile x
    refine ⟨_, EncodeBase58_eq hx, ?_⟩
    have hlen := length_base58Text_le (x.dropWhile (· == 0))
    have hx' := congrArg List.length hsplit
    rw [List.length_append, List.length_replicate] at hx'
    rw [DecodeBase58_text (by rw [List.length_append, List.length_replicate]; omega)
      (by rw [bytesOf_bytesValue hhead]; omega), bytesOf_bytesValue hhead, hsplit]
  case decode_encode =>
    intro s max_ret_len v hs hdec
    rcases DecodeBase58_cases s max_ret_len hs with hnone | ⟨z, N, hsome, htrim, hlen⟩
    · rw [hnone] at hdec
      exact nomatch hdec
    obtain rfl : v = List.replicate z 0 ++ bytesOf N := by
      rw [hsome] at hdec
      exact (Option.some.inj (Except.ok.inj hdec)).symm
    rw [EncodeBase58_eq (by rw [List.length_append, List.length_replicate]; omega),
      takeWhile_replicate_zero (head_bytesOf N), dropWhile_replicate_zero (head_bytesOf N), List.length_replicate,
      bytesValue_bytesOf, htrim]
  case decode_total =>
    intro s max_ret_len hs
    rcases DecodeBase58_cases s max_ret_len hs with h | ⟨z, N, h, -⟩
    · exact ⟨_, h⟩
    · exact ⟨_, h⟩

theorem base58_roundtrip_spaced :
    DecodeBase58 " 12 ".toList 2 = .ok (some [0, 1]) ∧ EncodeBase58 [0, 1] = .ok (TrimString " 12 ".toList) :=
  ⟨by decide, base58_roundtrip.2.1 _ 2 _ (by decide) (by decide)⟩

/-- The size of the digit buffer, stored in an `int`, wraps: on 3112295143
bytes of 255 it is 2, and the second byte leaves a carry. -/
theorem EncodeBase58_long_input : EncodeBase58 (List.replicate 3112295143 255) = .error .assertFails := by
  rewrite [show 3112295143 = 3112295141 + 1 + 1 from rfl, List.replicate_succ, List.replicate_succ]
  -- only the length of the other bytes is read before the assert fires
  generalize hr : List.replicate 3112295141 (255 : UInt8) = r
  have hrlen : r.length = 3112295141 := by rw [← hr, List.length_replicate]
  unfold EncodeBase58
  rw [List.takeWhile_cons_of_neg (by decide), List.dropWhile_cons_of_neg (by decide)]
  dsimp only
  rw [List.length_cons, List.length_cons, hrlen]
  rfl

end Base58

end BitcoinAbc
