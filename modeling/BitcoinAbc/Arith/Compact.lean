import Mathlib
import BitcoinAbc.Arith.BaseUintVal

/-!
# The compact encoding of targets (`arith_uint256::SetCompact`, `GetCompact`)

A block header keeps its target in 32 bits `nBits`: an exponent byte `e` over a
sign bit and a 23-bit mantissa `m`, standing for `m * 256^(e - 3)`.
`GetCompact` rounds a number down to its three leading bytes, or to two where
the leading byte would set the sign bit, and `SetCompact` reads a number back
with the sign and overflow flags.

The abstract side is arithmetic on `Nat`: the byte length, the rounding
`keepBytes`, the encoder `compactOf` and the decoder `compactValue`. On it:

- `compactValue_compactOf`: decoding an encoding rounds the number;
- `compactOf_compactValue`: encoding a decoded mantissa in normal form, with no
  nonzero byte shifted out, gives the encoding back.

`GetCompact_eq`, `SetCompact_val`, `SetCompact_fNegative` and
`SetCompact_fOverflow` say that the code computes these, with the overflow flag
set exactly where the number is `2^256` or more.
-/

namespace BitcoinAbc

/-! ## The encoding in numbers -/

/-- The number of bytes of `x`, `(bits() + 7) / 8`. -/
def byteLength (x : Nat) : Nat := (Nat.size x + 7) / 8

/-- `x` rounded down to its `keep` most significant bytes. -/
def keepBytes (keep x : Nat) : Nat :=
  x / 256 ^ (byteLength x - keep) * 256 ^ (byteLength x - keep)

/-- The most significant byte of `x`. -/
def leadingByte (x : Nat) : Nat := x / 256 ^ (byteLength x - 1)

/-- The three leading bytes of `x`, as `GetCompact` first reads them. -/
def leadingBytes (x : Nat) : Nat := x * 256 ^ 3 / 256 ^ byteLength x

/-- The compact encoding of `x` as `GetCompact` forms it, without the sign: the
three leading bytes under the byte length, or two under the byte length plus
one where the three would set the sign bit `2^23`. -/
def compactOf (x : Nat) : Nat :=
  if 2 ^ 23 ≤ leadingBytes x then leadingBytes x / 256 + (byteLength x + 1) * 2 ^ 24
  else leadingBytes x + byteLength x * 2 ^ 24

/-- The number an encoding `c` stands for, `m * 256^(e - 3)` rounded down. -/
def compactValue (c : Nat) : Nat := c % 2 ^ 23 * 256 ^ (c / 2 ^ 24) / 256 ^ 3

theorem pow256 (k : Nat) : 256 ^ k = 2 ^ (8 * k) := by
  rw [Nat.pow_mul]

theorem lt_pow_byteLength (x : Nat) : x < 256 ^ byteLength x := by
  rw [pow256]
  exact Nat.lt_of_lt_of_le (Nat.lt_size_self x)
    (Nat.pow_le_pow_right (by decide) (by unfold byteLength; omega))

theorem byteLength_bounds {x : Nat} (hx : x ≠ 0) :
    256 ^ (byteLength x - 1) ≤ x ∧ x < 256 ^ byteLength x := by
  have hs : 0 < Nat.size x := Nat.size_pos.mpr (Nat.pos_of_ne_zero hx)
  have hlo : 2 ^ (Nat.size x - 1) ≤ x := Nat.lt_size.mp (by omega)
  refine ⟨?_, lt_pow_byteLength x⟩
  rw [pow256]
  unfold byteLength
  exact Nat.le_trans (Nat.pow_le_pow_right (by decide) (by omega)) hlo

theorem byteLength_eq {x B : Nat} (hB : 0 < B) (hlo : 256 ^ (B - 1) ≤ x) (hhi : x < 256 ^ B) :
    byteLength x = B := by
  rw [pow256] at hlo hhi
  have h₁ : Nat.size x ≤ 8 * B := Nat.size_le.mpr hhi
  have h₂ : 8 * (B - 1) < Nat.size x := Nat.lt_size.mpr hlo
  unfold byteLength
  omega

theorem byteLength_le {x n : Nat} (hx : x < 256 ^ n) : byteLength x ≤ n := by
  rw [pow256] at hx
  have h := Nat.size_le.mpr hx
  unfold byteLength
  omega

/-- Scaling up by `B^a`, down by `B^b` and back loses the digits below `B^(b - a)`. -/
theorem mul_pow_div_pow_mul_pow_div (x : Nat) {B : Nat} (hB : 0 < B) (a b : Nat) :
    x * B ^ a / B ^ b * B ^ b / B ^ a = x / B ^ (b - a) * B ^ (b - a) := by
  rcases Nat.le_total b a with hba | hab
  · -- `B^b` divides `B^a`: nothing is lost
    have hsplit : x * B ^ a = x * B ^ (a - b) * B ^ b := by
      rw [Nat.mul_assoc, ← Nat.pow_add, Nat.sub_add_cancel hba]
    rw [Nat.sub_eq_zero_of_le hba, Nat.pow_zero, Nat.div_one, Nat.mul_one, hsplit,
      Nat.mul_div_cancel _ (Nat.pow_pos hB), ← hsplit, Nat.mul_div_cancel _ (Nat.pow_pos hB)]
  · have hsplit : B ^ b = B ^ (b - a) * B ^ a := by
      rw [← Nat.pow_add, Nat.sub_add_cancel hab]
    rw [hsplit, Nat.mul_div_mul_right _ _ (Nat.pow_pos hB), ← Nat.mul_assoc,
      Nat.mul_div_cancel _ (Nat.pow_pos hB)]

theorem leadingBytes_lt (x : Nat) : leadingBytes x < 2 ^ 24 := by
  by_cases hx : x = 0
  · simp [leadingBytes, hx]
  · have hhi := (byteLength_bounds hx).2
    unfold leadingBytes
    rw [Nat.div_lt_iff_lt_mul (Nat.pow_pos (by decide)), show (2 : Nat) ^ 24 = 256 ^ 3 from rfl,
      Nat.mul_comm (256 ^ 3)]
    exact Nat.mul_lt_mul_of_pos_right hhi (by decide)

/-- The leading bytes set the sign bit exactly when the leading byte is `0x80`
or more. -/
theorem sign_le_leadingBytes_iff (x : Nat) : 2 ^ 23 ≤ leadingBytes x ↔ 0x80 ≤ leadingByte x := by
  by_cases hx : x = 0
  · simp [leadingBytes, leadingByte, hx]
  · have hB : 0 < byteLength x := by
      have h := (byteLength_bounds hx).2
      by_contra h0
      rw [Nat.eq_zero_of_not_pos h0, Nat.pow_zero] at h
      omega
    -- both are `x * 256 / 256^B`, read in different units
    have hsplit : 256 ^ byteLength x = 256 ^ (byteLength x - 1) * 256 := by
      rw [← Nat.pow_succ, Nat.succ_eq_add_one, Nat.sub_add_cancel hB]
    have hlead : leadingBytes x / 2 ^ 16 = leadingByte x := by
      unfold leadingBytes leadingByte
      rw [Nat.div_div_eq_div_mul, hsplit, Nat.mul_assoc, show (256 : Nat) * 2 ^ 16 = 256 ^ 3 from rfl,
        Nat.mul_div_mul_right _ _ (show 0 < 256 ^ 3 by decide)]
    rw [← hlead, Nat.le_div_iff_mul_le (by decide)]
    exact Iff.rfl

/-- Where `x` has bytes, its three leading bytes are at least `2^16`. -/
theorem leadingBytes_ge {x : Nat} (hx : x ≠ 0) : 2 ^ 16 ≤ leadingBytes x := by
  have hlo := (byteLength_bounds hx).1
  have hpos : 0 < byteLength x := by
    have h := (byteLength_bounds hx).2
    by_contra h0
    rw [Nat.eq_zero_of_not_pos h0, Nat.pow_zero] at h
    omega
  unfold leadingBytes
  rw [Nat.le_div_iff_mul_le (Nat.pow_pos (by decide))]
  calc 2 ^ 16 * 256 ^ byteLength x = 256 ^ (byteLength x - 1) * 256 ^ 3 := by
        rw [show (2 : Nat) ^ 16 = 256 ^ 2 from rfl, Nat.mul_comm, ← Nat.pow_add, ← Nat.pow_add]
        congr 1
        omega
    _ ≤ x * 256 ^ 3 := Nat.mul_le_mul_right _ hlo

/-- The two parts of an encoding `m + e * 2^24` with `m` below the sign bit. -/
theorem mantissa_exponent {m e : Nat} (hm : m < 2 ^ 23) :
    (m + e * 2 ^ 24) % 2 ^ 23 = m ∧ (m + e * 2 ^ 24) / 2 ^ 24 = e ∧
      (m + e * 2 ^ 24).testBit 23 = false := by
  refine ⟨by omega, by omega, ?_⟩
  rw [Nat.testBit_eq_decide_div_mod_eq, decide_eq_false_iff_not]
  omega

theorem compactValue_of_three_le {c : Nat} (he : 3 ≤ c / 2 ^ 24) :
    compactValue c = c % 2 ^ 23 * 256 ^ (c / 2 ^ 24 - 3) := by
  unfold compactValue
  rw [← Nat.sub_add_cancel he, Nat.pow_add, ← Nat.mul_assoc, Nat.add_sub_cancel,
    Nat.mul_div_cancel _ (by decide)]

theorem compactValue_of_le_three {c : Nat} (he : c / 2 ^ 24 ≤ 3) :
    compactValue c = c % 2 ^ 23 / 256 ^ (3 - c / 2 ^ 24) := by
  unfold compactValue
  rw [show (256 : Nat) ^ 3 = 256 ^ (3 - c / 2 ^ 24) * 256 ^ (c / 2 ^ 24) by
      rw [← Nat.pow_add, Nat.sub_add_cancel he],
    Nat.mul_div_mul_right _ _ (Nat.pow_pos (by decide))]

theorem leadingBytes_eq_zero_iff {x : Nat} : leadingBytes x = 0 ↔ x = 0 := by
  constructor
  · intro h
    by_contra hx
    have := leadingBytes_ge hx
    omega
  · rintro rfl
    simp [leadingBytes]

/-- Decoding `compactOf x` gives `x` rounded to its three leading bytes, or to
two where the leading byte is `0x80` or more. -/
theorem compactValue_compactOf (x : Nat) :
    compactValue (compactOf x) = keepBytes (if 0x80 ≤ leadingByte x then 2 else 3) x := by
  have hM := leadingBytes_lt x
  unfold compactOf
  by_cases hs : 2 ^ 23 ≤ leadingBytes x
  · -- the sign bit is set: one byte less, the exponent one more
    rw [if_pos hs, if_pos ((sign_le_leadingBytes_iff x).mp hs)]
    obtain ⟨hm, he, -⟩ := mantissa_exponent (m := leadingBytes x / 256) (e := byteLength x + 1)
      (by omega)
    unfold compactValue keepBytes
    rw [hm, he, leadingBytes, Nat.div_div_eq_div_mul, ← Nat.pow_succ,
      mul_pow_div_pow_mul_pow_div x (by decide) 3 (byteLength x + 1),
      show byteLength x + 1 - 3 = byteLength x - 2 by omega]
  · rw [if_neg hs, if_neg (mt (sign_le_leadingBytes_iff x).mpr hs)]
    obtain ⟨hm, he, -⟩ := mantissa_exponent (m := leadingBytes x) (e := byteLength x) (by omega)
    unfold compactValue keepBytes
    rw [hm, he, leadingBytes, mul_pow_div_pow_mul_pow_div x (by decide)]

theorem keepBytes_le (keep x : Nat) : keepBytes keep x ≤ x :=
  Nat.div_mul_le_self _ _

theorem compactValue_lt_iff (c : Nat) :
    compactValue c < 2 ^ 256 ↔ c % 2 ^ 23 * 256 ^ (c / 2 ^ 24) < 2 ^ 256 * 256 ^ 3 :=
  Nat.div_lt_iff_lt_mul (Nat.pow_pos (by decide))

theorem testBit_compactOf (x : Nat) : (compactOf x).testBit 23 = false := by
  have hM := leadingBytes_lt x
  unfold compactOf
  split
  · exact (mantissa_exponent (by omega)).2.2
  · exact (mantissa_exponent (by omega)).2.2

/-- With no nonzero byte below the exponent's reach, the mantissa times
`256^e` is a whole number of `256^3`. -/
theorem dvd_mul_pow_of_mod {m e : Nat} (hexact : m % 256 ^ (3 - e) = 0) : 256 ^ 3 ∣ m * 256 ^ e := by
  rcases Nat.le_total 3 e with he | he
  · exact Nat.dvd_mul_left_of_dvd (Nat.pow_dvd_pow 256 he) m
  · have hsplit : 256 ^ 3 = 256 ^ (3 - e) * 256 ^ e := by
      rw [← Nat.pow_add, Nat.sub_add_cancel he]
    rw [hsplit]
    exact Nat.mul_dvd_mul_right (Nat.dvd_of_mod_eq_zero hexact) _

/-- Encoding the number a normal mantissa stands for gives the encoding back.
With `m ≥ 2^15` the number has `e` bytes, or `e - 1` where the top byte of the
mantissa is zero, and then `GetCompact` moves the mantissa back down a byte. -/
theorem compactOf_compactValue {c : Nat} (h23 : c.testBit 23 = false)
    (hnorm : 2 ^ 15 ≤ c % 2 ^ 23) (hexact : c % 2 ^ 23 % 256 ^ (3 - c / 2 ^ 24) = 0) :
    compactOf (compactValue c) = c := by
  have hbit : c / 2 ^ 23 % 2 ≠ 1 := by
    rw [Nat.testBit_eq_decide_div_mod_eq, decide_eq_false_iff_not] at h23
    exact h23
  have hv : compactValue c * 256 ^ 3 = c % 2 ^ 23 * 256 ^ (c / 2 ^ 24) :=
    Nat.div_mul_cancel (dvd_mul_pow_of_mod hexact)
  generalize compactValue c = v at hv ⊢
  generalize hm : c % 2 ^ 23 = m at hnorm hv
  generalize he : c / 2 ^ 24 = e at hv
  have hc : c = m + e * 2 ^ 24 := by omega
  have hm23 : m < 2 ^ 23 := by omega
  by_cases htop : 2 ^ 16 ≤ m
  · -- the top byte of the mantissa is set: `e` bytes, and the mantissa comes back as it is
    have he1 : 1 ≤ e := by
      by_contra h0
      rw [show e = 0 by omega, Nat.pow_zero] at hv
      omega
    have hlo : 256 ^ (e - 1) ≤ v := by
      refine Nat.le_of_mul_le_mul_right ?_ (Nat.pow_pos (by decide : 0 < 256) (n := 3))
      calc 256 ^ (e - 1) * 256 ^ 3 = 256 ^ 2 * 256 ^ e := by
            rw [← Nat.pow_add, ← Nat.pow_add]
            congr 1
            omega
        _ ≤ m * 256 ^ e := Nat.mul_le_mul_right _ htop
        _ = v * 256 ^ 3 := hv.symm
    have hhi : v < 256 ^ e := by
      refine Nat.lt_of_mul_lt_mul_right (a := 256 ^ 3) ?_
      rw [hv, Nat.mul_comm (256 ^ e)]
      exact Nat.mul_lt_mul_of_pos_right (by omega) (Nat.pow_pos (by decide))
    have hB := byteLength_eq he1 hlo hhi
    have hL : leadingBytes v = m := by
      rw [leadingBytes, hB, hv, Nat.mul_div_cancel _ (Nat.pow_pos (by decide))]
    rw [compactOf, hL, hB, if_neg (by omega)]
    exact hc.symm
  · -- the top byte is zero: `e - 1` bytes, read with a zero byte below, which sets the sign bit
    have he2 : 2 ≤ e := by
      by_contra h0
      have hsmall : m * 256 ^ e < 256 ^ 3 :=
        calc m * 256 ^ e < 2 ^ 16 * 256 ^ 1 :=
              Nat.mul_lt_mul_of_lt_of_le (by omega) (Nat.pow_le_pow_right (by decide) (by omega))
                (Nat.pow_pos (by decide))
          _ = 256 ^ 3 := rfl
      rw [← hv] at hsmall
      have hv0 : v = 0 := by
        by_contra hv0
        exact Nat.not_le_of_gt hsmall (Nat.le_mul_of_pos_left _ (Nat.pos_of_ne_zero hv0))
      rw [hv0, Nat.zero_mul] at hv
      exact absurd hv.symm (Nat.mul_ne_zero (by omega) (Nat.pow_pos (by decide)).ne')
    have hsplit : 256 ^ e = 256 ^ (e - 1) * 256 := by
      rw [← Nat.pow_succ, Nat.succ_eq_add_one, Nat.sub_add_cancel (by omega)]
    have hlo : 256 ^ (e - 1 - 1) ≤ v := by
      refine Nat.le_of_mul_le_mul_right ?_ (Nat.pow_pos (by decide : 0 < 256) (n := 3))
      calc 256 ^ (e - 1 - 1) * 256 ^ 3 = 256 * 256 ^ e := by
            rw [← Nat.pow_add, ← Nat.pow_succ']
            congr 1
            omega
        _ ≤ m * 256 ^ e := Nat.mul_le_mul_right _ (by omega)
        _ = v * 256 ^ 3 := hv.symm
    have hhi : v < 256 ^ (e - 1) := by
      refine Nat.lt_of_mul_lt_mul_right (a := 256 ^ 3) ?_
      calc v * 256 ^ 3 = m * 256 ^ e := hv
        _ < 2 ^ 16 * 256 ^ e := Nat.mul_lt_mul_of_pos_right (by omega) (Nat.pow_pos (by decide))
        _ = 256 ^ (e - 1) * 256 ^ 3 := by
            rw [show (2 : Nat) ^ 16 = 256 ^ 2 from rfl, ← Nat.pow_add, ← Nat.pow_add]
            congr 1
            omega
    have hB := byteLength_eq (by omega) hlo hhi
    have hL : leadingBytes v = m * 256 := by
      rw [leadingBytes, hB, hv, hsplit, ← Nat.mul_assoc, Nat.mul_right_comm,
        Nat.mul_div_cancel _ (Nat.pow_pos (by decide : 0 < 256))]
    rw [compactOf, hL, hB, if_pos (by omega), Nat.mul_div_cancel _ (by decide),
      Nat.sub_add_cancel (by omega)]
    exact hc.symm

/-- The overflow test of `SetCompact` in closed form: for a nonzero mantissa
below `2^23`, its three size thresholds are where `m * 256^(e - 3)` reaches
`2^256`. -/
theorem overflow_iff {m e : Nat} (hm0 : m ≠ 0) (hm : m < 2 ^ 23) :
    (34 < e ∨ 0xff < m ∧ 33 < e ∨ 0xffff < m ∧ 32 < e) ↔ 2 ^ 256 * 256 ^ 3 ≤ m * 256 ^ e := by
  rcases Nat.lt_or_ge 34 e with he | he
  · -- 35 bytes or more: any nonzero mantissa overflows
    refine iff_of_true (Or.inl he) ?_
    calc 2 ^ 256 * 256 ^ 3 = 256 ^ 35 := rfl
      _ ≤ 256 ^ e := Nat.pow_le_pow_right (by decide) he
      _ ≤ m * 256 ^ e := Nat.le_mul_of_pos_left _ (Nat.pos_of_ne_zero hm0)
  · -- below: `2^280 = 256^(35 - e) * 256^e`, and the mantissa must reach `256^(35 - e)`
    have hsplit : 2 ^ 256 * 256 ^ 3 = 256 ^ (35 - e) * 256 ^ e := by
      rw [← Nat.pow_add, Nat.sub_add_cancel (by omega)]
      rfl
    rw [hsplit, Nat.mul_le_mul_right_iff (Nat.pow_pos (by decide))]
    rcases Nat.lt_or_ge e 33 with he' | he'
    · have hbig : 2 ^ 23 ≤ 256 ^ (35 - e) :=
        calc 2 ^ 23 ≤ 256 ^ 3 := by decide
          _ ≤ 256 ^ (35 - e) := Nat.pow_le_pow_right (by decide) (by omega)
      exact iff_of_false (by omega) (by omega)
    · obtain rfl | rfl : e = 33 ∨ e = 34 := by omega
      · exact ⟨fun h => by omega, fun h => Or.inr (Or.inr ⟨Nat.lt_of_lt_of_le (by decide) h, by decide⟩)⟩
      · exact ⟨fun h => by omega, fun h => Or.inr (Or.inl ⟨Nat.lt_of_lt_of_le (by decide) h, by decide⟩)⟩

/-! ## `SetCompact` and `GetCompact` -/

/-- What `SetCompact` leaves: the number, and the flags it writes through
`pfNegative` and `pfOverflow`. -/
structure CompactDecoded where
  value : ArithUint256
  fNegative : Bool
  fOverflow : Bool

namespace ArithUint256

/-- `nWord` of `SetCompact`: the mantissa, shifted down for an exponent below 3. -/
def compactWord (nCompact : UInt32) : UInt32 :=
  let nSize := (nCompact >>> 24).toNat
  if nSize ≤ 3 then (nCompact &&& 0x007fffff) >>> (8 * (3 - nSize)).toUInt32
  else nCompact &&& 0x007fffff

/-- `arith_uint256::SetCompact`. -/
def SetCompact (nCompact : UInt32) : CompactDecoded :=
  let nSize := (nCompact >>> 24).toNat
  let nWord := compactWord nCompact
  { value :=
      if nSize ≤ 3 then BaseUint.ofUInt64 nWord.toUInt64
      else (BaseUint.ofUInt64 nWord.toUInt64).shiftLeft (8 * (nSize - 3)).toUInt32
    fNegative := nWord != 0 && nCompact &&& 0x00800000 != 0
    fOverflow := nWord != 0 &&
      (nSize > 34 || nWord > 0xff && nSize > 33 || nWord > 0xffff && nSize > 32) }

/-- The first `nCompact` of `GetCompact`: the three bytes from the top of a
number of `nSize` bytes. -/
def compactBytes (a : ArithUint256) (nSize : Nat) : UInt32 :=
  if nSize ≤ 3 then (a.GetLow64 <<< (8 * (3 - nSize)).toUInt64).toUInt32
  else (a.shiftRight (8 * (nSize - 3)).toUInt32).GetLow64.toUInt32

/-- `arith_uint256::GetCompact`, `none` where one of its `assert`s fails. -/
def GetCompact (a : ArithUint256) (fNegative : Bool) : Option UInt32 :=
  let nSize := (a.bits + 7) / 8
  let nCompact := compactBytes a nSize
  -- the 0x00800000 bit is the sign: where it is set, move the mantissa down a byte
  let signed := nCompact &&& 0x00800000 != 0
  let nCompact := if signed then nCompact >>> 8 else nCompact
  let nSize := if signed then nSize + 1 else nSize
  if nCompact &&& ~~~0x007fffff = 0 ∧ nSize < 256 then
    let nCompact := nCompact ||| nSize.toUInt32 <<< 24
    some (nCompact ||| (if fNegative && nCompact &&& 0x007fffff != 0 then 0x00800000 else 0))
  else none

end ArithUint256

namespace ArithUint256

/-! ## What the code computes -/

theorem toNat_mantissa (c : UInt32) : (c &&& 0x007fffff).toNat = c.toNat % 2 ^ 23 := by
  rw [UInt32.toNat_and, show (0x007fffff : UInt32).toNat = 2 ^ 23 - 1 from rfl,
    Nat.and_two_pow_sub_one_eq_mod]

theorem toNat_exponent (c : UInt32) : (c >>> 24).toNat = c.toNat / 2 ^ 24 := by
  rw [UInt32.toNat_shiftRight, show (24 : UInt32).toNat % 32 = 24 from rfl,
    Nat.shiftRight_eq_div_pow]

theorem exponent_lt (c : UInt32) : c.toNat / 2 ^ 24 < 256 := by
  have := c.toNat_lt
  omega

/-- The sign test `nCompact & 0x00800000` reads bit 23. -/
theorem signBit_ne_zero (c : UInt32) : (c &&& 0x00800000 != 0) = c.toNat.testBit 23 := by
  have h : (c &&& 0x00800000).toNat = (c.toNat.testBit 23).toNat * 2 ^ 23 := by
    rw [UInt32.toNat_and, show (0x00800000 : UInt32).toNat = 2 ^ 23 from rfl, Nat.and_two_pow]
  cases hb : c.toNat.testBit 23
  · rw [hb] at h
    simp [← UInt32.toNat_inj, h]
  · rw [hb] at h
    simp [← UInt32.toNat_inj, h]

theorem testBit_23_of_lt {n : Nat} (h : n < 2 ^ 24) : n.testBit 23 = decide (2 ^ 23 ≤ n) := by
  rw [Nat.testBit_eq_decide_div_mod_eq, decide_eq_decide]
  omega

theorem toNat_compactWord (c : UInt32) :
    (compactWord c).toNat = if c.toNat / 2 ^ 24 ≤ 3 then compactValue c.toNat else c.toNat % 2 ^ 23 := by
  unfold compactWord
  dsimp only
  rw [toNat_exponent]
  split
  · rename_i he
    have hshift : (8 * (3 - c.toNat / 2 ^ 24)).toUInt32.toNat % 32 = 8 * (3 - c.toNat / 2 ^ 24) := by
      simp only [Nat.toUInt32, UInt32.toNat_ofNat']
      omega
    rw [UInt32.toNat_shiftRight, toNat_mantissa, hshift, Nat.shiftRight_eq_div_pow,
      compactValue_of_le_three he, pow256]
  · exact toNat_mantissa c

theorem compactWord_eq_zero_iff (c : UInt32) : compactWord c = 0 ↔ compactValue c.toNat = 0 := by
  rw [← UInt32.toNat_inj, toNat_compactWord, UInt32.toNat_zero]
  split
  · exact Iff.rfl
  · rename_i he
    rw [compactValue_of_three_le (by omega), Nat.mul_eq_zero]
    simp

/-- The number `SetCompact` decodes: `m * 256^(e - 3)`, modulo `2^256`. -/
theorem SetCompact_val (c : UInt32) : (SetCompact c).value.val = compactValue c.toNat % 2 ^ 256 := by
  have he := exponent_lt c
  unfold SetCompact
  dsimp only
  rw [toNat_exponent]
  split
  · -- three bytes or fewer: the shifted mantissa itself
    rename_i hle
    have hw : (compactWord c).toNat = compactValue c.toNat := by
      rw [toNat_compactWord, if_pos hle]
    have hlt : compactValue c.toNat < 2 ^ 256 := by
      rw [compactValue_of_le_three hle]
      exact Nat.lt_of_le_of_lt (Nat.div_le_self _ _) (by omega)
    rw [BaseUint.val_ofUInt64 _ (by decide), UInt32.toNat_toUInt64, hw, Nat.mod_eq_of_lt hlt]
  · rename_i hgt
    have hw : (compactWord c).toNat = c.toNat % 2 ^ 23 := by
      rw [toNat_compactWord, if_neg hgt]
    have hshift : (8 * (c.toNat / 2 ^ 24 - 3)).toUInt32.toNat = 8 * (c.toNat / 2 ^ 24 - 3) := by
      simp only [Nat.toUInt32, UInt32.toNat_ofNat']
      omega
    rw [BaseUint.val_shiftLeft, BaseUint.val_ofUInt64 _ (by decide), UInt32.toNat_toUInt64, hw,
      hshift, compactValue_of_three_le (by omega), pow256]

theorem compactWord_ne_zero (c : UInt32) : (compactWord c != 0) = (compactValue c.toNat != 0) := by
  rw [Bool.eq_iff_iff, bne_iff_ne, bne_iff_ne]
  exact not_congr (compactWord_eq_zero_iff c)

/-- The sign flag: a nonzero number with bit 23 set. -/
theorem SetCompact_fNegative (c : UInt32) :
    (SetCompact c).fNegative = (compactValue c.toNat != 0 && c.toNat.testBit 23) := by
  unfold SetCompact
  dsimp only
  rw [compactWord_ne_zero, signBit_ne_zero]

/-- The overflow flag: a nonzero mantissa whose number reaches `2^256`. -/
theorem SetCompact_fOverflow (c : UInt32) :
    (SetCompact c).fOverflow =
      decide (c.toNat % 2 ^ 23 ≠ 0 ∧ 2 ^ 256 * 256 ^ 3 ≤ c.toNat % 2 ^ 23 * 256 ^ (c.toNat / 2 ^ 24)) := by
  have hm : c.toNat % 2 ^ 23 < 2 ^ 23 := Nat.mod_lt _ (by decide)
  unfold SetCompact
  dsimp only
  rw [toNat_exponent]
  by_cases hle : c.toNat / 2 ^ 24 ≤ 3
  · -- three bytes or fewer never overflow
    have hsmall : c.toNat % 2 ^ 23 * 256 ^ (c.toNat / 2 ^ 24) < 2 ^ 256 * 256 ^ 3 :=
      calc c.toNat % 2 ^ 23 * 256 ^ (c.toNat / 2 ^ 24) < 2 ^ 23 * 256 ^ 3 :=
            Nat.mul_lt_mul_of_lt_of_le hm (Nat.pow_le_pow_right (by decide) hle) (by decide)
        _ ≤ 2 ^ 256 * 256 ^ 3 := by decide
    have hfalse : ¬ (c.toNat % 2 ^ 23 ≠ 0 ∧ 2 ^ 256 * 256 ^ 3 ≤ c.toNat % 2 ^ 23 * 256 ^ (c.toNat / 2 ^ 24)) :=
      fun h => Nat.not_le_of_gt hsmall h.2
    rw [decide_eq_false hfalse]
    simp only [gt_iff_lt, show ¬ 34 < c.toNat / 2 ^ 24 by omega, show ¬ 33 < c.toNat / 2 ^ 24 by omega,
      show ¬ 32 < c.toNat / 2 ^ 24 by omega, decide_false, Bool.and_false, Bool.or_false]
  · have hw : (compactWord c).toNat = c.toNat % 2 ^ 23 := by
      rw [toNat_compactWord, if_neg hle]
    rw [Bool.eq_iff_iff, decide_eq_true_iff]
    simp only [Bool.and_eq_true, Bool.or_eq_true, decide_eq_true_eq, bne_iff_ne, ne_eq,
      UInt32.lt_iff_toNat_lt, ← UInt32.toNat_inj, hw, UInt32.toNat_zero, gt_iff_lt, or_assoc,
      show UInt32.toNat 255 = 255 from rfl, show UInt32.toNat 65535 = 65535 from rfl]
    constructor
    · rintro ⟨hm0, hcases⟩
      exact ⟨hm0, (overflow_iff hm0 hm).mp hcases⟩
    · rintro ⟨hm0, hge⟩
      exact ⟨hm0, (overflow_iff hm0 hm).mpr hge⟩

theorem bytes_eq_byteLength (a : ArithUint256) : (a.bits + 7) / 8 = byteLength a.val := by
  rw [BaseUint.bits_eq_size]
  rfl

theorem val_lt_pow256 (a : ArithUint256) : a.val < 256 ^ 32 := by
  rw [pow256]
  exact BaseUint.val_lt a

/-- The first `nCompact` of `GetCompact` is the three leading bytes: the number
shifted up to three bytes, or down to them. -/
theorem toNat_compactBytes (a : ArithUint256) :
    (compactBytes a (byteLength a.val)).toNat = leadingBytes a.val := by
  have hx := lt_pow_byteLength a.val
  have hB : byteLength a.val ≤ 32 := byteLength_le (val_lt_pow256 a)
  unfold compactBytes leadingBytes
  split
  · -- three bytes or fewer: `GetLow64()` is the whole number
    rename_i hle
    have hshift : (8 * (3 - byteLength a.val)).toUInt64.toNat % 64 = 8 * (3 - byteLength a.val) := by
      simp only [Nat.toUInt64, UInt64.toNat_ofNat']
      omega
    have hsplit : (256 : Nat) ^ 3 = 256 ^ (3 - byteLength a.val) * 256 ^ byteLength a.val := by
      rw [← Nat.pow_add, Nat.sub_add_cancel hle]
    have hlt : a.val * 256 ^ (3 - byteLength a.val) < 2 ^ 24 := by
      calc a.val * 256 ^ (3 - byteLength a.val)
          < 256 ^ byteLength a.val * 256 ^ (3 - byteLength a.val) :=
            Nat.mul_lt_mul_of_pos_right hx (Nat.pow_pos (by decide))
        _ = 2 ^ 24 := by rw [Nat.mul_comm, ← hsplit]; rfl
    have hx3 : a.val < 2 ^ 64 :=
      calc a.val < 256 ^ byteLength a.val := hx
        _ ≤ 256 ^ 3 := Nat.pow_le_pow_right (by decide) hle
        _ < 2 ^ 64 := by decide
    rw [UInt64.toNat_toUInt32, UInt64.toNat_shiftLeft, BaseUint.val_GetLow64, hshift,
      Nat.mod_eq_of_lt hx3, Nat.shiftLeft_eq, ← pow256, Nat.mod_eq_of_lt (Nat.lt_trans hlt (by decide)),
      Nat.mod_eq_of_lt (Nat.lt_trans hlt (by decide)), hsplit, ← Nat.mul_assoc,
      Nat.mul_div_cancel _ (Nat.pow_pos (by decide))]
  · -- more: the number shifted down to its three leading bytes
    rename_i hgt
    have hshift : (8 * (byteLength a.val - 3)).toUInt32.toNat = 8 * (byteLength a.val - 3) := by
      simp only [Nat.toUInt32, UInt32.toNat_ofNat']
      omega
    have hsplit : 256 ^ byteLength a.val = 256 ^ (byteLength a.val - 3) * 256 ^ 3 := by
      rw [← Nat.pow_add, Nat.sub_add_cancel (by omega)]
    have hlt : a.val / 256 ^ (byteLength a.val - 3) < 2 ^ 24 := by
      rw [Nat.div_lt_iff_lt_mul (Nat.pow_pos (by decide)), show (2 : Nat) ^ 24 = 256 ^ 3 from rfl,
        Nat.mul_comm, ← hsplit]
      exact hx
    rw [UInt64.toNat_toUInt32, BaseUint.val_GetLow64, BaseUint.val_shiftRight, hshift, ← pow256,
      Nat.mod_eq_of_lt (Nat.lt_trans hlt (by decide)), Nat.mod_eq_of_lt (Nat.lt_trans hlt (by decide)),
      hsplit,
      Nat.mul_div_mul_right _ _ (Nat.pow_pos (by decide))]

/-- The first `assert` of `GetCompact`: a mantissa below the sign bit has no bit
outside `0x007fffff`. -/
theorem and_not_mask_eq_zero {m : UInt32} (hm : m.toNat < 2 ^ 23) : m &&& ~~~0x007fffff = 0 := by
  have hmask : m &&& 0x007fffff = m :=
    UInt32.toNat_inj.mp (by rw [toNat_mantissa, Nat.mod_eq_of_lt hm])
  rw [← hmask, UInt32.and_assoc, show (0x007fffff : UInt32) &&& ~~~0x007fffff = 0 by decide,
    UInt32.and_zero]

theorem toNat_or_exponent {m : UInt32} {n : Nat} (hm : m.toNat < 2 ^ 24) (hn : n < 256) :
    (m ||| n.toUInt32 <<< 24).toNat = m.toNat + n * 2 ^ 24 := by
  have hexp : (n.toUInt32 <<< 24).toNat = 2 ^ 24 * n := by
    rw [UInt32.toNat_shiftLeft, show (24 : UInt32).toNat % 32 = 24 from rfl, Nat.shiftLeft_eq]
    simp only [Nat.toUInt32, UInt32.toNat_ofNat']
    rw [Nat.mod_eq_of_lt (by omega), Nat.mod_eq_of_lt (by omega), Nat.mul_comm]
  rw [UInt32.toNat_or, hexp, Nat.or_comm, ← Nat.two_pow_add_eq_or_of_lt hm, Nat.add_comm,
    Nat.mul_comm]

/-- The word `GetCompact` returns: the mantissa below the sign bit, the sign,
and the exponent above. -/
theorem toNat_pack {m : UInt32} {n : Nat} (hm : m.toNat < 2 ^ 23) (hn : n < 256) (b : Bool) :
    (m ||| n.toUInt32 <<< 24 ||| (if b then 0x00800000 else 0)).toNat =
      m.toNat + n * 2 ^ 24 + (if b then 2 ^ 23 else 0) := by
  rw [UInt32.toNat_or, toNat_or_exponent (by omega) hn]
  cases b
  · rw [if_neg Bool.false_ne_true, if_neg Bool.false_ne_true, UInt32.toNat_zero, Nat.or_zero,
      Nat.add_zero]
  · -- bit 23 of `m + n * 2^24` is clear, so or-ing it in adds it
    show (m.toNat + n * 2 ^ 24) ||| 2 ^ 23 = m.toNat + n * 2 ^ 24 + 2 ^ 23
    have hlow : m.toNat + n * 2 ^ 24 = 2 ^ 24 * n ||| m.toNat := by
      rw [← Nat.two_pow_add_eq_or_of_lt (show m.toNat < 2 ^ 24 by omega) n]
      omega
    calc (m.toNat + n * 2 ^ 24) ||| 2 ^ 23 = 2 ^ 24 * n ||| (m.toNat ||| 2 ^ 23) := by
          rw [hlow, Nat.or_assoc]
      _ = 2 ^ 24 * n + (m.toNat + 2 ^ 23) := by
          rw [Nat.or_two_pow_eq_add_of_lt hm,
            Nat.two_pow_add_eq_or_of_lt (show m.toNat + 2 ^ 23 < 2 ^ 24 by omega) n]
      _ = m.toNat + n * 2 ^ 24 + 2 ^ 23 := by omega

/-- The sign test of `GetCompact` looks at the mantissa alone. -/
theorem sign_pack {m : UInt32} {n : Nat} (hm : m.toNat < 2 ^ 23) (hn : n < 256) (f : Bool) :
    (f && (m ||| n.toUInt32 <<< 24) &&& 0x007fffff != 0) = (f && m.toNat != 0) := by
  have hmant : ((m ||| n.toUInt32 <<< 24) &&& 0x007fffff).toNat = m.toNat := by
    rw [toNat_mantissa, toNat_or_exponent (by omega) hn]
    omega
  congr 1
  rw [Bool.eq_iff_iff, bne_iff_ne, bne_iff_ne, ne_eq, ne_eq, ← UInt32.toNat_inj, hmant,
    UInt32.toNat_zero]

/-- `GetCompact` never trips its `assert`s, and returns `compactOf` of the
number, with the sign bit where it is asked for and the number is nonzero. -/
theorem GetCompact_eq (a : ArithUint256) (fNegative : Bool) :
    ∃ c, a.GetCompact fNegative = some c ∧
      c.toNat = compactOf a.val + if fNegative ∧ a.val ≠ 0 then 2 ^ 23 else 0 := by
  have hM := leadingBytes_lt a.val
  have hB : byteLength a.val ≤ 32 := byteLength_le (val_lt_pow256 a)
  have hbytes := toNat_compactBytes a
  unfold GetCompact
  dsimp only
  rw [bytes_eq_byteLength]
  generalize compactBytes a (byteLength a.val) = c₀ at hbytes ⊢
  rw [signBit_ne_zero, hbytes, testBit_23_of_lt hM]
  -- the mantissa is nonzero exactly for a nonzero number
  have hsign : ∀ m : Nat, (m = 0 ↔ a.val = 0) →
      (if (fNegative && m != 0) = true then (2 : Nat) ^ 23 else 0) =
        if fNegative ∧ a.val ≠ 0 then 2 ^ 23 else 0 := by
    intro m hm
    simp [hm]
  by_cases hs : 2 ^ 23 ≤ leadingBytes a.val
  · -- the sign bit is set: the mantissa moves down a byte, the exponent up one
    have hc₁ : (c₀ >>> 8).toNat = leadingBytes a.val / 256 := by
      rw [UInt32.toNat_shiftRight, hbytes, show (8 : UInt32).toNat % 32 = 8 from rfl,
        Nat.shiftRight_eq_div_pow]
    simp only [hs, decide_true, if_true]
    rw [if_pos ⟨and_not_mask_eq_zero (by omega), by omega⟩]
    refine ⟨_, rfl, ?_⟩
    rw [sign_pack (by omega) (by omega), toNat_pack (by omega) (by omega), hc₁, compactOf, if_pos hs,
      hsign _ ⟨fun h => by have := leadingBytes_ge (x := a.val); omega,
        fun h => by rw [leadingBytes_eq_zero_iff.mpr h]⟩]
  · simp only [hs, decide_false, Bool.false_eq_true, if_false]
    rw [if_pos ⟨and_not_mask_eq_zero (by omega), by omega⟩]
    refine ⟨_, rfl, ?_⟩
    rw [sign_pack (by omega) (by omega), toNat_pack (by omega) (by omega), hbytes, compactOf,
      if_neg hs, hsign _ leadingBytes_eq_zero_iff]

/-! ## The round trips -/

/-- The compact encoding is a rounding: `SetCompact (GetCompact x)` is `x`
rounded to its three leading bytes (two where the leading byte is `0x80` or
more), never negative nor overflowing; an encoding whose mantissa is in normal
form and loses no nonzero byte to a small exponent comes back from
`GetCompact (SetCompact c)`; and the overflow flag is set exactly where the
nonzero mantissa times `256^(e - 3)` reaches `2^256`. -/
theorem compact_encoding_rounds (x : ArithUint256) (nCompact : UInt32) :
    (∃ c, x.GetCompact false = some c ∧
      (SetCompact c).value.val = keepBytes (if 0x80 ≤ leadingByte x.val then 2 else 3) x.val ∧
      (SetCompact c).fNegative = false ∧ (SetCompact c).fOverflow = false) ∧
    ((SetCompact nCompact).fNegative = false → (SetCompact nCompact).fOverflow = false →
      0x8000 ≤ (nCompact &&& 0x007fffff).toNat →
      (nCompact &&& 0x007fffff).toNat % 256 ^ (3 - (nCompact >>> 24).toNat) = 0 →
      (SetCompact nCompact).value.GetCompact false = some nCompact) ∧
    ((SetCompact nCompact).fOverflow = true ↔
      (nCompact &&& 0x007fffff).toNat ≠ 0 ∧
        2 ^ 256 * 256 ^ 3 ≤ (nCompact &&& 0x007fffff).toNat * 256 ^ (nCompact >>> 24).toNat) := by
  rw [toNat_mantissa, toNat_exponent]
  refine ⟨?_, ?_, by rw [SetCompact_fOverflow, decide_eq_true_iff]⟩
  · -- encoding then decoding rounds the number
    obtain ⟨c, hc, hval⟩ := GetCompact_eq x false
    rw [if_neg (fun h => Bool.false_ne_true h.1), Nat.add_zero] at hval
    have hlt : compactValue c.toNat < 2 ^ 256 := by
      rw [hval, compactValue_compactOf]
      exact Nat.lt_of_le_of_lt (keepBytes_le _ _) (BaseUint.val_lt x)
    refine ⟨c, hc, ?_, ?_, ?_⟩
    · rw [SetCompact_val, Nat.mod_eq_of_lt hlt, hval, compactValue_compactOf]
    · rw [SetCompact_fNegative, hval, testBit_compactOf, Bool.and_false]
    · rw [SetCompact_fOverflow, decide_eq_false_iff_not]
      exact fun h => Nat.not_le_of_gt ((compactValue_lt_iff _).mp hlt) h.2
  · -- decoding then encoding gives a normal encoding back
    intro hneg hover hnorm hexact
    rw [SetCompact_fOverflow, decide_eq_false_iff_not] at hover
    have hfits : nCompact.toNat % 2 ^ 23 * 256 ^ (nCompact.toNat / 2 ^ 24) < 2 ^ 256 * 256 ^ 3 :=
      Nat.lt_of_not_le fun h => hover ⟨by omega, h⟩
    have hv : compactValue nCompact.toNat * 256 ^ 3 = nCompact.toNat % 2 ^ 23 * 256 ^ (nCompact.toNat / 2 ^ 24) :=
      Nat.div_mul_cancel (dvd_mul_pow_of_mod hexact)
    have hv0 : compactValue nCompact.toNat ≠ 0 := by
      intro h0
      rw [h0, Nat.zero_mul] at hv
      exact Nat.mul_ne_zero (by omega) (Nat.pow_pos (by decide)).ne' hv.symm
    have h23 : nCompact.toNat.testBit 23 = false := by
      rw [SetCompact_fNegative] at hneg
      simpa [hv0] using hneg
    obtain ⟨c, hc, hval⟩ := GetCompact_eq (SetCompact nCompact).value false
    rw [if_neg (fun h => Bool.false_ne_true h.1), Nat.add_zero] at hval
    rw [SetCompact_val, Nat.mod_eq_of_lt ((compactValue_lt_iff _).mpr hfits),
      compactOf_compactValue h23 hnorm hexact] at hval
    rw [hc, UInt32.toNat_inj.mp hval]

/-- An exponent below 3 shifts mantissa bytes out that `GetCompact` cannot give
back: `0x02123456`, with a normal mantissa and neither flag, decodes to
`0x1234`, which encodes as `0x02123400`. -/
theorem SetCompact_drops_mantissa_bytes :
    (SetCompact 0x02123456).fNegative = false ∧ (SetCompact 0x02123456).fOverflow = false ∧
      0x8000 ≤ ((0x02123456 : UInt32) &&& 0x007fffff).toNat ∧
      (SetCompact 0x02123456).value.GetCompact false = some 0x02123400 := by
  decide

/-- The encoding `0x1d00ffff` of the proof-of-work limit comes back. -/
theorem compact_encoding_rounds_powLimit :
    (SetCompact 0x1d00ffff).value.GetCompact false = some 0x1d00ffff :=
  (compact_encoding_rounds BaseUint.zero 0x1d00ffff).2.1 (by decide) (by decide) (by decide)
    (by decide)

end ArithUint256

end BitcoinAbc
