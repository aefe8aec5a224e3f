import Mathlib
import BitcoinAbc.Arith.BaseUintVal
import BitcoinAbc.Script.ScriptNum
import BitcoinAbc.Lib.FixedPoint
import BitcoinAbc.Lib.ExceptRefine

/-!
# ASERT target computation (pow/aserti32d.cpp)

`CalculateASERT` scales a reference target by `2^(x / nHalfLife)`, where `x`
is how far the chain runs ahead of or behind its schedule. It computes the
exponent in 16.16 fixed point with `int64_t` arithmetic, approximates the
fractional power by a cubic polynomial in `uint64_t`, multiplies the
`arith_uint256` target by that factor and shifts it by the whole part, then
clamps the result to `[1, powLimit]`.

The model keeps every `int64_t` operation as the exact integer or a signed
overflow (`int64Op`), and the conversions of the shift count to `unsigned
int` as the reduction modulo `2^32` they are. It follows the source's three
blocks: the asserts and the exponent (`calcExponent`), the product and the
shift (`shiftTarget`), and the clamp.

- `toNat_factorOf`: the cubic never wraps its `uint64_t`, and the factor is in
  `[65536, 131072)`;
- `CalculateASERT_bounds`: a result is always in `[1, powLimit]`;
- `CalculateASERT_eq_ok`: under the asserts, when the products of the exponent
  stay in `int64_t` (`NoOverflow`) and its whole part is within `2^32` of
  `16`, the result is the clamp of `scaledTarget`, the reference target times
  `2^(exponent / 65536)` in the fixed point of `Lib/FixedPoint`;
- `CalculateASERT_halfLife`: `k` half-lives ahead scale by `2^k` exactly;
- `CalculateASERT_mono`: the result grows with the time and the reference
  target and falls with the height;
- `CalculateASERT_overflow_and_wrap`: the asserts alone keep neither of the
  two conditions above.
-/

namespace BitcoinAbc

namespace Pow

open Script CScriptNum

/-- What `CalculateASERT` may run into besides a result: a signed overflow, a
division by zero, or a failed `assert`. -/
inductive Fault where
  | signedOverflow
  | divisionByZero
  | assertFails
  deriving DecidableEq, Repr

/-- An `int64_t` operation: the exact value when it fits, a signed overflow
otherwise. -/
def int64Op (v : Int) : Except Fault Int := if inInt64 v then .ok v else .error .signedOverflow

/-- The conversion of an integer to `unsigned int`: its residue modulo
`2^32`. -/
def toUnsigned (x : Int) : UInt32 := UInt32.ofNat (x % 2 ^ 32).toNat

/-- `65536 + ((195766423245049 * frac + 971821376 * frac^2 + 5127 * frac^3 +
2^47) >> 48)`, computed in `uint64_t` and kept as a `uint32_t`: `65536` times
an approximation of `2^(frac / 65536)`. -/
def factorOf (frac : UInt16) : UInt32 :=
  let f := frac.toUInt64
  ((65536 : UInt64) + (((195766423245049 : UInt64) * f + (971821376 : UInt64) * f * f +
    (5127 : UInt64) * f * f * f + ((1 : UInt64) <<< 47)) >>> 48)).toUInt32

/-- The asserts of `CalculateASERT` and its exponent, `((nTimeDiff -
nPowTargetSpacing * (nHeightDiff + 1)) * 65536) / nHalfLife`, in `int64_t`. -/
def calcExponent (refTarget : ArithUint256) (nPowTargetSpacing nTimeDiff nHeightDiff : Int)
    (powLimit : ArithUint256) (nHalfLife : Int) : Except Fault Int := do
  unless refTarget.CompareTo (BaseUint.ofUInt64 0) > 0 ∧ refTarget.CompareTo powLimit ≤ 0 do
    throw .assertFails
  unless (powLimit.shiftRight 224).EqualTo 0 do throw .assertFails
  unless nHeightDiff ≥ 0 do throw .assertFails
  let scheduled ← int64Op (nPowTargetSpacing * nHeightDiff)
  let drift ← int64Op (nTimeDiff - scheduled)
  -- `llabs(INT64_MIN)` does not fit either
  let driftAbs ← int64Op drift.natAbs
  unless driftAbs < 2 ^ 47 do throw .assertFails
  let nextHeight ← int64Op (nHeightDiff + 1)
  let nextScheduled ← int64Op (nPowTargetSpacing * nextHeight)
  let ahead ← int64Op (nTimeDiff - nextScheduled)
  let scaled ← int64Op (ahead * 65536)
  if nHalfLife = 0 then throw .divisionByZero
  int64Op (scaled.tdiv nHalfLife)

/-- `nextTarget` before the clamp: `refTarget * factor`, shifted by the whole
part of the exponent less 16. -/
def shiftTarget (refTarget powLimit : ArithUint256) (exponent : Int) :
    Except Fault ArithUint256 := do
  -- an arithmetic shift: the floor of the quotient
  let shifts := exponent >>> (16 : Nat)
  let frac := UInt16.ofNat (exponent % 65536).toNat
  let whole ← int64Op (shifts * 65536)
  let recomposed ← int64Op (whole + frac.toNat)
  unless exponent = recomposed do throw .assertFails
  let nextTarget := refTarget.mulU32 (factorOf frac)
  let shifts ← int64Op (shifts - 16)
  if shifts ≤ 0 then do
    let amount ← int64Op (-shifts)
    pure (nextTarget.shiftRight (toUnsigned amount))
  else
    let nextTargetShifted := nextTarget.shiftLeft (toUnsigned shifts)
    -- an overflow of the shift would discard high bits
    pure (if nextTargetShifted.shiftRight (toUnsigned shifts) ≠ nextTarget then powLimit
      else nextTargetShifted)

/-- `CalculateASERT(refTarget, nPowTargetSpacing, nTimeDiff, nHeightDiff,
powLimit, nHalfLife)`. -/
def CalculateASERT (refTarget : ArithUint256) (nPowTargetSpacing nTimeDiff nHeightDiff : Int)
    (powLimit : ArithUint256) (nHalfLife : Int) : Except Fault ArithUint256 := do
  let exponent ← calcExponent refTarget nPowTargetSpacing nTimeDiff nHeightDiff powLimit nHalfLife
  let nextTarget ← shiftTarget refTarget powLimit exponent
  -- 0 is not a valid target, but 1 is
  if nextTarget.EqualTo 0 then return BaseUint.ofUInt64 1
  else if nextTarget.CompareTo powLimit > 0 then return powLimit
  else return nextTarget

/-! ## The factor -/

/-- The cubic of `factorOf`, over the naturals. -/
def polyNat (f : Nat) : Nat := 195766423245049 * f + 971821376 * f * f + 5127 * f * f * f + 2 ^ 47

theorem polyNat_mono {f g : Nat} (h : f ≤ g) : polyNat f ≤ polyNat g := by
  unfold polyNat
  refine Nat.add_le_add (Nat.add_le_add (Nat.add_le_add ?_ ?_) ?_) (Nat.le_refl _)
  · exact Nat.mul_le_mul_left _ h
  · exact Nat.mul_le_mul (Nat.mul_le_mul_left _ h) h
  · exact Nat.mul_le_mul (Nat.mul_le_mul (Nat.mul_le_mul_left _ h) h) h

/-- The cubic at a 16-bit fraction stays below `2^64`. -/
theorem polyNat_lt {f : Nat} (hf : f < 2 ^ 16) : polyNat f < 2 ^ 64 :=
  Nat.lt_of_le_of_lt (polyNat_mono (show f ≤ 65535 by omega)) (by decide)

theorem polyNat_div_lt {f : Nat} (hf : f < 2 ^ 16) : polyNat f / 2 ^ 48 < 2 ^ 16 := by
  have := polyNat_lt hf
  rw [Nat.div_lt_iff_lt_mul (by decide)]
  omega

/-- The `uint64_t` arithmetic of `factorOf` never wraps: every partial sum and
product is a part of the cubic, which stays below `2^64`. -/
theorem toNat_factorOf (frac : UInt16) :
    (factorOf frac).toNat = 65536 + polyNat frac.toNat / 2 ^ 48 := by
  have hf : frac.toNat < 2 ^ 16 := frac.toNat_lt
  have hp := polyNat_lt hf
  have hq := polyNat_div_lt hf
  unfold polyNat at hp
  have hsq : 5127 * frac.toNat * frac.toNat ≤ 971821376 * frac.toNat * frac.toNat :=
    Nat.mul_le_mul_right _ (Nat.mul_le_mul_right _ (by decide))
  have e1 : ((195766423245049 : UInt64) * frac.toUInt64).toNat = 195766423245049 * frac.toNat := by
    rw [UInt64.toNat_mul, UInt16.toNat_toUInt64, show (195766423245049 : UInt64).toNat = 195766423245049 from rfl]
    exact Nat.mod_eq_of_lt (by omega)
  have e2 : ((971821376 : UInt64) * frac.toUInt64 * frac.toUInt64).toNat =
      971821376 * frac.toNat * frac.toNat := by
    rw [UInt64.toNat_mul, UInt64.toNat_mul, UInt16.toNat_toUInt64,
      show (971821376 : UInt64).toNat = 971821376 from rfl,
      Nat.mod_eq_of_lt (show 971821376 * frac.toNat < 2 ^ 64 by omega)]
    exact Nat.mod_eq_of_lt (by omega)
  have e3 : ((5127 : UInt64) * frac.toUInt64 * frac.toUInt64 * frac.toUInt64).toNat =
      5127 * frac.toNat * frac.toNat * frac.toNat := by
    rw [UInt64.toNat_mul, UInt64.toNat_mul, UInt64.toNat_mul, UInt16.toNat_toUInt64,
      show (5127 : UInt64).toNat = 5127 from rfl,
      Nat.mod_eq_of_lt (show 5127 * frac.toNat < 2 ^ 64 by omega),
      Nat.mod_eq_of_lt (show 5127 * frac.toNat * frac.toNat < 2 ^ 64 by omega)]
    exact Nat.mod_eq_of_lt (by omega)
  have hsum : ((195766423245049 : UInt64) * frac.toUInt64 + (971821376 : UInt64) * frac.toUInt64 * frac.toUInt64 +
      (5127 : UInt64) * frac.toUInt64 * frac.toUInt64 * frac.toUInt64 + ((1 : UInt64) <<< 47)).toNat =
      polyNat frac.toNat := by
    rw [UInt64.toNat_add, UInt64.toNat_add, UInt64.toNat_add, e1, e2, e3,
      show ((1 : UInt64) <<< 47).toNat = 2 ^ 47 from rfl, polyNat]
    omega
  unfold factorOf
  rw [UInt64.toNat_toUInt32, UInt64.toNat_add, UInt64.toNat_shiftRight, hsum]
  show (65536 + polyNat frac.toNat >>> 48) % 2 ^ 64 % 2 ^ 32 = _
  rw [Nat.shiftRight_eq_div_pow]
  omega

theorem factorOf_lt (frac : UInt16) : (factorOf frac).toNat < 131072 := by
  have := polyNat_div_lt frac.toNat_lt
  rw [toNat_factorOf]
  omega

theorem le_factorOf (frac : UInt16) : 65536 ≤ (factorOf frac).toNat := by
  rw [toNat_factorOf]
  exact Nat.le_add_right _ _

/-- The approximation of `2^x` grows with `x`. -/
theorem factorOf_mono {f g : UInt16} (h : f.toNat ≤ g.toNat) : (factorOf f).toNat ≤ (factorOf g).toNat := by
  rw [toNat_factorOf, toNat_factorOf]
  exact Nat.add_le_add_left (Nat.div_le_div_right (polyNat_mono h)) _

theorem factorOf_zero : factorOf 0 = 65536 := by decide

/-! ## What the computation aims at -/

/-- The exponent in 16.16 fixed point, `(nTimeDiff - nPowTargetSpacing *
(nHeightDiff + 1)) * 65536 / nHalfLife`, truncated toward zero as the C++
division is. -/
def exactExponent (nPowTargetSpacing nTimeDiff nHeightDiff nHalfLife : Int) : Int :=
  ((nTimeDiff - nPowTargetSpacing * (nHeightDiff + 1)) * 65536).tdiv nHalfLife

/-- The factor of a fraction `f < 65536`. -/
def factorNat (f : Nat) : Nat := (factorOf (UInt16.ofNat f)).toNat

/-- `refTarget * 2^(exponent / 65536)` as `CalculateASERT` approximates it,
over unbounded naturals: the factor of the fraction, shifted by the whole part
less 16. -/
def scaledTarget (refTarget : Nat) (exponent : Int) : Nat :=
  FixedPoint.pow2Approx 16 factorNat 16 refTarget exponent

/-- The clamp to `[1, powLimit]`. -/
def clampTarget (powLimit t : Nat) : Nat := if t = 0 then 1 else min t powLimit

/-- What `CalculateASERT` asserts of its arguments, and a positive half-life. -/
structure Preconditions (refTarget powLimit : ArithUint256)
    (nPowTargetSpacing nTimeDiff nHeightDiff nHalfLife : Int) : Prop where
  refTarget_pos : 0 < refTarget.val
  refTarget_le : refTarget.val ≤ powLimit.val
  powLimit_lt : powLimit.val < 2 ^ 224
  heightDiff_nonneg : 0 ≤ nHeightDiff
  drift_lt : (nTimeDiff - nPowTargetSpacing * nHeightDiff).natAbs < 2 ^ 47
  halfLife_pos : 0 < nHalfLife

/-- The `int64_t` products of `CalculateASERT` that its asserts leave unbounded. -/
structure NoOverflow (nPowTargetSpacing nTimeDiff nHeightDiff : Int) : Prop where
  scheduled : inInt64 (nPowTargetSpacing * nHeightDiff)
  nextHeight : inInt64 (nHeightDiff + 1)
  nextScheduled : inInt64 (nPowTargetSpacing * (nHeightDiff + 1))
  scaled : inInt64 ((nTimeDiff - nPowTargetSpacing * (nHeightDiff + 1)) * 65536)

theorem int64Op_eq_ok {v : Int} (h : inInt64 v = true) : int64Op v = .ok v := if_pos h

theorem inInt64_of_int64Op_eq_ok {v r : Int} (h : int64Op v = .ok r) : inInt64 v = true ∧ r = v := by
  unfold int64Op at h
  split at h
  · rename_i hv
    exact ⟨hv, (Except.ok.inj h).symm⟩
  · exact (nomatch h)

/-! ## The exponent -/

section Exponent

variable {refTarget powLimit : ArithUint256} {nPowTargetSpacing nTimeDiff nHeightDiff nHalfLife : Int}

/-- Dividing by a positive half-life keeps the exponent in `int64_t`. -/
theorem exactExponent_inInt64 (hpre : Preconditions refTarget powLimit nPowTargetSpacing nTimeDiff nHeightDiff nHalfLife)
    (hov : NoOverflow nPowTargetSpacing nTimeDiff nHeightDiff) :
    inInt64 (exactExponent nPowTargetSpacing nTimeDiff nHeightDiff nHalfLife) = true := by
  have hscaled := inInt64_iff.mp hov.scaled
  have habs := Int.natAbs_tdiv_le_natAbs ((nTimeDiff - nPowTargetSpacing * (nHeightDiff + 1)) * 65536)
    nHalfLife
  -- a negative numerator gives a quotient of the same sign
  have hsign : (nTimeDiff - nPowTargetSpacing * (nHeightDiff + 1)) * 65536 ≤ 0 →
      ((nTimeDiff - nPowTargetSpacing * (nHeightDiff + 1)) * 65536).tdiv nHalfLife ≤ 0 := fun h => by
    simpa using Int.tdiv_le_tdiv hpre.halfLife_pos h
  rw [exactExponent, inInt64_iff]
  omega

/-- Under the preconditions and without overflow, the exponent is the exact
truncated quotient. -/
theorem calcExponent_eq_ok (hpre : Preconditions refTarget powLimit nPowTargetSpacing nTimeDiff nHeightDiff nHalfLife)
    (hov : NoOverflow nPowTargetSpacing nTimeDiff nHeightDiff) :
    calcExponent refTarget nPowTargetSpacing nTimeDiff nHeightDiff powLimit nHalfLife =
      .ok (exactExponent nPowTargetSpacing nTimeDiff nHeightDiff nHalfLife) := by
  have hc₁ : refTarget.CompareTo (BaseUint.ofUInt64 0) > 0 ∧ refTarget.CompareTo powLimit ≤ 0 := by
    rw [BaseUint.CompareTo_pos_iff, BaseUint.CompareTo_nonpos_iff, BaseUint.val_ofUInt64 _ (by decide)]
    exact ⟨hpre.refTarget_pos, hpre.refTarget_le⟩
  have hc₂ : (powLimit.shiftRight 224).EqualTo 0 = true := by
    rw [BaseUint.EqualTo_zero_iff _ (by decide), BaseUint.val_shiftRight]
    exact Nat.div_eq_of_lt hpre.powLimit_lt
  have hdriftlt := hpre.drift_lt
  have hdrift : inInt64 (nTimeDiff - nPowTargetSpacing * nHeightDiff) = true :=
    inInt64_of_natAbs_lt (by omega)
  have habs : inInt64 ((nTimeDiff - nPowTargetSpacing * nHeightDiff).natAbs : Int) = true :=
    inInt64_of_natAbs_lt (by omega)
  have hscaled := inInt64_iff.mp hov.scaled
  have hahead : inInt64 (nTimeDiff - nPowTargetSpacing * (nHeightDiff + 1)) = true := by
    rw [inInt64_iff]
    omega
  have hexp := exactExponent_inInt64 hpre hov
  have h47 : ((nTimeDiff - nPowTargetSpacing * nHeightDiff).natAbs : Int) < 2 ^ 47 := by omega
  simp only [calcExponent, hc₁, hc₂, hpre.heightDiff_nonneg, and_self, if_true,
    int64Op_eq_ok hov.scheduled, int64Op_eq_ok hdrift, Except.ok_bind]
  -- `driftAbs` opaque, and the remaining steps rewritten one by one: `simp`
  -- would rebuild the comparisons' decidability instances, which the kernel
  -- then unfolds against the literals
  generalize ((nTimeDiff - nPowTargetSpacing * nHeightDiff).natAbs : Int) = driftAbs at habs h47 ⊢
  rw [int64Op_eq_ok habs, Except.ok_bind, if_pos h47, int64Op_eq_ok hov.nextHeight, Except.ok_bind,
    int64Op_eq_ok hov.nextScheduled, Except.ok_bind, int64Op_eq_ok hahead, Except.ok_bind,
    int64Op_eq_ok hov.scaled, Except.ok_bind, if_neg hpre.halfLife_pos.ne']
  exact int64Op_eq_ok hexp

end Exponent

/-! ## The product and the shift -/

/-- A shift count in `[0, 2^32)` survives the conversion to `unsigned int`. -/
theorem toNat_toUnsigned {x : Int} (h0 : 0 ≤ x) (h : x < 2 ^ 32) : (toUnsigned x).toNat = x.toNat := by
  rw [toUnsigned, UInt32.toNat_ofNat', Int.emod_eq_of_lt h0 h]
  omega

theorem clampTarget_self {powLimit : Nat} (hL : 0 < powLimit) : clampTarget powLimit powLimit = powLimit := by
  rw [clampTarget, if_neg (by omega), Nat.min_self]

theorem clampTarget_of_lt {powLimit t : Nat} (h : powLimit < t) : clampTarget powLimit t = powLimit := by
  rw [clampTarget, if_neg (by omega), Nat.min_eq_right (by omega)]

/-- The product `refTarget * factor` below `2^241`, exact in 256 bits. -/
theorem val_mulU32_factorOf {refTarget : ArithUint256} (hr : refTarget.val < 2 ^ 224) (frac : UInt16) :
    (refTarget.mulU32 (factorOf frac)).val = refTarget.val * (factorOf frac).toNat := by
  have hf := factorOf_lt frac
  have hlt : refTarget.val * (factorOf frac).toNat < 2 ^ 224 * 131072 :=
    Nat.mul_lt_mul'' hr hf
  rw [BaseUint.val_mulU32, Nat.mod_eq_of_lt (Nat.lt_of_lt_of_le hlt (by decide))]

/-- A left shift that the check finds lossless is exact; one that loses bits
gives `powLimit`, which the clamp would give for the exact value too. -/
theorem shiftLeft_checked_clamp {nextTarget powLimit : ArithUint256} {k : UInt32} (hL : 0 < powLimit.val) :
    clampTarget powLimit.val (if (nextTarget.shiftLeft k).shiftRight k ≠ nextTarget then powLimit
        else nextTarget.shiftLeft k).val =
      clampTarget powLimit.val (nextTarget.val * 2 ^ k.toNat) := by
  have hM : (2 : Nat) ^ (32 * 8) = 2 ^ 256 := rfl
  have hLlt : powLimit.val < 2 ^ 256 := hM ▸ BaseUint.val_lt powLimit
  have hback : ((nextTarget.shiftLeft k).shiftRight k).val = nextTarget.val * 2 ^ k.toNat % 2 ^ 256 / 2 ^ k.toNat := by
    rw [BaseUint.val_shiftRight, BaseUint.val_shiftLeft, hM]
  have hpow : 0 < 2 ^ k.toNat := Nat.two_pow_pos _
  by_cases hfits : nextTarget.val * 2 ^ k.toNat < 2 ^ 256
  · -- nothing is lost: the round trip gives `nextTarget` back
    have heq : (nextTarget.shiftLeft k).shiftRight k = nextTarget := by
      rw [← BaseUint.val_inj, hback, Nat.mod_eq_of_lt hfits, Nat.mul_div_cancel _ hpow]
    rw [if_neg (not_not.mpr heq), BaseUint.val_shiftLeft, hM, Nat.mod_eq_of_lt hfits]
  · -- high bits are lost: the round trip comes back smaller
    have hne : (nextTarget.shiftLeft k).shiftRight k ≠ nextTarget := by
      intro heq
      have hv := congrArg BaseUint.val heq
      rw [hback] at hv
      have hlt : nextTarget.val * 2 ^ k.toNat % 2 ^ 256 / 2 ^ k.toNat < nextTarget.val := by
        rw [Nat.div_lt_iff_lt_mul hpow]
        exact Nat.lt_of_lt_of_le (Nat.mod_lt _ (Nat.two_pow_pos _)) (by omega)
      omega
    rw [if_pos hne, clampTarget_self hL, clampTarget_of_lt (by omega)]

/-- Under an exponent in `int64_t` whose whole part is within `2^32` of `16`,
`nextTarget` clamps to what the exact `scaledTarget` clamps to. -/
theorem shiftTarget_eq_ok {refTarget powLimit : ArithUint256} {e : Int} (he : inInt64 e = true)
    (hr : refTarget.val < 2 ^ 224) (hL : 0 < powLimit.val) (hfit : (e / 65536 - 16).natAbs < 2 ^ 32) :
    ∃ t, shiftTarget refTarget powLimit e = .ok t ∧
      clampTarget powLimit.val t.val = clampTarget powLimit.val (scaledTarget refTarget.val e) := by
  have he' := inInt64_iff.mp he
  have hshift : e >>> (16 : Nat) = e / 65536 := by
    rw [Int.shiftRight_eq_div_pow]
    rfl
  have hmod := Int.emod_nonneg e (by decide : (65536 : Int) ≠ 0)
  have hmodlt := Int.emod_lt_of_pos e (by decide : (0 : Int) < 65536)
  have hdecomp := Int.mul_ediv_add_emod e 65536
  -- the whole part and the fraction recompose the exponent inside `int64_t`
  have hfrac : ((UInt16.ofNat (e % 65536).toNat).toNat : Int) = e % 65536 := by
    rw [UInt16.toNat_ofNat', Nat.mod_eq_of_lt (by omega)]
    omega
  have hwhole : inInt64 (e / 65536 * 65536) = true := by
    rw [inInt64_iff]
    omega
  have hrec : e / 65536 * 65536 + ((UInt16.ofNat (e % 65536).toNat).toNat : Int) = e := by
    rw [hfrac]
    omega
  have hrec' : inInt64 (e / 65536 * 65536 + ((UInt16.ofNat (e % 65536).toNat).toNat : Int)) = true := by
    rw [hrec]
    exact he
  have hs : inInt64 (e / 65536 - 16) = true := by
    rw [inInt64_iff]
    omega
  have hprod := val_mulU32_factorOf hr (UInt16.ofNat (e % 65536).toNat)
  have hscaled : scaledTarget refTarget.val e =
      FixedPoint.scale (e / 65536 - 16) (refTarget.val * (factorOf (UInt16.ofNat (e % 65536).toNat)).toNat) :=
    rfl
  dsimp only [shiftTarget]
  rw [hshift, int64Op_eq_ok hwhole, Except.ok_bind, int64Op_eq_ok hrec', Except.ok_bind,
    if_pos hrec.symm, int64Op_eq_ok hs, Except.ok_bind]
  by_cases hneg : e / 65536 - 16 ≤ 0
  · -- a right shift by `16 - whole`
    have hamount : inInt64 (-(e / 65536 - 16)) = true := by
      rw [inInt64_iff]
      omega
    rw [if_pos hneg, int64Op_eq_ok hamount, Except.ok_bind]
    refine ⟨_, rfl, ?_⟩
    rw [BaseUint.val_shiftRight, toNat_toUnsigned (by omega) (by omega), hprod, hscaled,
      FixedPoint.scale_of_nonpos hneg]
  · -- a left shift by `whole - 16`, checked for lost bits
    rw [if_neg hneg]
    refine ⟨_, rfl, ?_⟩
    rw [shiftLeft_checked_clamp hL, toNat_toUnsigned (by omega) (by omega), hprod, hscaled,
      FixedPoint.scale_of_nonneg (by omega)]

/-! ## The result -/

theorem clampTarget_bounds {powLimit : Nat} (hL : 0 < powLimit) (t : Nat) :
    1 ≤ clampTarget powLimit t ∧ clampTarget powLimit t ≤ powLimit := by
  unfold clampTarget
  split <;> omega

theorem clampTarget_mono {powLimit : Nat} (hL : 0 < powLimit) {t t' : Nat} (h : t ≤ t') :
    clampTarget powLimit t ≤ clampTarget powLimit t' := by
  unfold clampTarget
  split
  · exact (clampTarget_bounds hL t').1
  · rw [if_neg (by omega)]
    omega

/-- The last step of `CalculateASERT`: `0` becomes `1`, and what exceeds
`powLimit` becomes `powLimit`. -/
theorem clamp_eq_ok (nextTarget powLimit : ArithUint256) :
    ∃ t, (if nextTarget.EqualTo 0 then (pure (BaseUint.ofUInt64 1) : Except Fault ArithUint256)
        else if nextTarget.CompareTo powLimit > 0 then pure powLimit else pure nextTarget) = .ok t ∧
      t.val = clampTarget powLimit.val nextTarget.val := by
  by_cases h0 : nextTarget.val = 0
  · have hz : nextTarget.EqualTo 0 = true := (BaseUint.EqualTo_zero_iff _ (by decide)).mpr h0
    refine ⟨_, by rw [if_pos hz]; rfl, ?_⟩
    rw [BaseUint.val_ofUInt64 _ (by decide), clampTarget, if_pos h0]
    rfl
  · have hz : ¬nextTarget.EqualTo 0 = true := fun h => h0 ((BaseUint.EqualTo_zero_iff _ (by decide)).mp h)
    rw [if_neg hz]
    by_cases hgt : powLimit.val < nextTarget.val
    · refine ⟨_, by rw [if_pos ((BaseUint.CompareTo_pos_iff _ _).mpr hgt)]; rfl, ?_⟩
      rw [clampTarget_of_lt hgt]
    · refine ⟨_, by rw [if_neg (fun h => hgt ((BaseUint.CompareTo_pos_iff _ _).mp h))]; rfl, ?_⟩
      rw [clampTarget, if_neg h0, Nat.min_eq_left (by omega)]

section Result

variable {refTarget powLimit : ArithUint256} {nPowTargetSpacing nTimeDiff nHeightDiff nHalfLife : Int}

/-- Under the preconditions, without overflow, and with the whole part of the
exponent within `2^32` of `16`, the result is the clamp of the exact scaled
target. -/
theorem CalculateASERT_eq_ok
    (hpre : Preconditions refTarget powLimit nPowTargetSpacing nTimeDiff nHeightDiff nHalfLife)
    (hov : NoOverflow nPowTargetSpacing nTimeDiff nHeightDiff)
    (hfit : (exactExponent nPowTargetSpacing nTimeDiff nHeightDiff nHalfLife / 65536 - 16).natAbs < 2 ^ 32) :
    ∃ t, CalculateASERT refTarget nPowTargetSpacing nTimeDiff nHeightDiff powLimit nHalfLife = .ok t ∧
      t.val = clampTarget powLimit.val
        (scaledTarget refTarget.val (exactExponent nPowTargetSpacing nTimeDiff nHeightDiff nHalfLife)) := by
  have hr : refTarget.val < 2 ^ 224 := Nat.lt_of_le_of_lt hpre.refTarget_le hpre.powLimit_lt
  have hL : 0 < powLimit.val := Nat.lt_of_lt_of_le hpre.refTarget_pos hpre.refTarget_le
  obtain ⟨nextTarget, hnext, hclamp⟩ := shiftTarget_eq_ok (exactExponent_inInt64 hpre hov) hr hL hfit
  obtain ⟨t, ht, hval⟩ := clamp_eq_ok nextTarget powLimit
  refine ⟨t, ?_, by rw [hval, hclamp]⟩
  rw [CalculateASERT, calcExponent_eq_ok hpre hov, Except.ok_bind, hnext, Except.ok_bind]
  exact ht

end Result

/-! ## Half-lives and monotonicity -/

theorem factorNat_zero : factorNat 0 = 2 ^ 16 := by decide

/-- The factor is monotone on the fractions and below twice its value at `0`. -/
theorem factorNat_mono {f g : Nat} (hfg : f ≤ g) (hg : g < 2 ^ 16) : factorNat f ≤ factorNat g := by
  have hf : (UInt16.ofNat f).toNat = f := by
    rw [UInt16.toNat_ofNat']
    exact Nat.mod_eq_of_lt (by omega)
  have hg' : (UInt16.ofNat g).toNat = g := by
    rw [UInt16.toNat_ofNat']
    exact Nat.mod_eq_of_lt hg
  exact factorOf_mono (by rw [hf, hg']; exact hfg)

theorem factorNat_le_double (f : Nat) : factorNat f ≤ 2 * factorNat 0 := by
  have := factorOf_lt (UInt16.ofNat f)
  rw [factorNat_zero, factorNat]
  omega

/-- At a whole number `k` of half-lives, the target is scaled by `2^k`
exactly. -/
theorem scaledTarget_whole (r : Nat) (k : Int) : scaledTarget r (k * 65536) = FixedPoint.scale k r := by
  rw [scaledTarget, show (k * 65536 : Int) = k * 2 ^ 16 from rfl, FixedPoint.pow2Approx_whole,
    factorNat_zero, FixedPoint.scale_mul_two_pow]
  congr 1
  push_cast
  omega

theorem scaledTarget_mono_exponent (r : Nat) : Monotone (scaledTarget r) :=
  FixedPoint.pow2Approx_mono (fun _ _ hfg hg => factorNat_mono hfg hg) (fun f _ => factorNat_le_double f) 16 r

theorem scaledTarget_mono_target {r r' : Nat} (h : r ≤ r') (e : Int) : scaledTarget r e ≤ scaledTarget r' e :=
  FixedPoint.pow2Approx_mono_right 16 h e

/-- An exact multiple of the half-life gives an exponent of whole units. -/
theorem exactExponent_of_eq {nPowTargetSpacing nTimeDiff nHeightDiff nHalfLife k : Int}
    (hk : nTimeDiff - nPowTargetSpacing * (nHeightDiff + 1) = k * nHalfLife) (hl : nHalfLife ≠ 0) :
    exactExponent nPowTargetSpacing nTimeDiff nHeightDiff nHalfLife = k * 65536 := by
  rw [exactExponent, hk, Int.mul_right_comm, Int.mul_tdiv_cancel _ hl]

/-- The exponent grows with the time and falls with the height. -/
theorem exactExponent_mono {nPowTargetSpacing nTimeDiff nTimeDiff' nHeightDiff nHeightDiff' nHalfLife : Int}
    (hspacing : 0 < nPowTargetSpacing) (hl : 0 < nHalfLife) (hT : nTimeDiff ≤ nTimeDiff')
    (hh : nHeightDiff' ≤ nHeightDiff) :
    exactExponent nPowTargetSpacing nTimeDiff nHeightDiff nHalfLife ≤
      exactExponent nPowTargetSpacing nTimeDiff' nHeightDiff' nHalfLife := by
  have hsched : nPowTargetSpacing * (nHeightDiff' + 1) ≤ nPowTargetSpacing * (nHeightDiff + 1) :=
    Int.mul_le_mul_of_nonneg_left (by omega) hspacing.le
  exact Int.tdiv_le_tdiv hl (by omega)

section Schedule

variable {refTarget powLimit : ArithUint256} {nPowTargetSpacing nTimeDiff nHeightDiff nHalfLife : Int}

/-- At `k` whole half-lives ahead of schedule the target is scaled by `2^k`:
`min(powLimit, refTarget * 2^k)` for `k ≥ 0`, `max(1, refTarget / 2^-k)` for
`k < 0`. -/
theorem CalculateASERT_halfLife {k : Int}
    (hpre : Preconditions refTarget powLimit nPowTargetSpacing nTimeDiff nHeightDiff nHalfLife)
    (hov : NoOverflow nPowTargetSpacing nTimeDiff nHeightDiff) (hfit : (k - 16).natAbs < 2 ^ 32)
    (hk : nTimeDiff - nPowTargetSpacing * (nHeightDiff + 1) = k * nHalfLife) :
    ∃ t, CalculateASERT refTarget nPowTargetSpacing nTimeDiff nHeightDiff powLimit nHalfLife = .ok t ∧
      t.val = if 0 ≤ k then min powLimit.val (refTarget.val * 2 ^ k.toNat)
        else max 1 (refTarget.val / 2 ^ (-k).toNat) := by
  have hexp := exactExponent_of_eq hk hpre.halfLife_pos.ne'
  have hfit' : (exactExponent nPowTargetSpacing nTimeDiff nHeightDiff nHalfLife / 65536 - 16).natAbs <
      2 ^ 32 := by
    rw [hexp, Int.mul_ediv_cancel _ (by decide)]
    exact hfit
  obtain ⟨t, ht, hval⟩ := CalculateASERT_eq_ok hpre hov hfit'
  refine ⟨t, ht, ?_⟩
  rw [hval, hexp, scaledTarget_whole]
  have hpos := hpre.refTarget_pos
  have hle := hpre.refTarget_le
  split
  · rename_i hk0
    -- a left shift of a positive target is positive
    have hmul : refTarget.val ≤ refTarget.val * 2 ^ k.toNat :=
      Nat.le_mul_of_pos_right _ (Nat.two_pow_pos _)
    rw [FixedPoint.scale_of_nonneg hk0, clampTarget, if_neg (by omega), Nat.min_comm]
  · rename_i hk0
    -- a right shift stays below the target, hence below `powLimit`
    have hdiv : refTarget.val / 2 ^ (-k).toNat ≤ powLimit.val := (Nat.div_le_self _ _).trans hle
    rw [FixedPoint.scale_of_nonpos (by omega), clampTarget, Nat.min_eq_left hdiv]
    by_cases hzero : refTarget.val / 2 ^ (-k).toNat = 0
    · rw [if_pos hzero, hzero]
      rfl
    · rw [if_neg hzero, Nat.max_eq_right (Nat.one_le_iff_ne_zero.mpr hzero)]

/-- A target of `1000000`, three half-lives of two days behind a schedule of
ten-minute blocks, is divided by `2^3`. -/
theorem CalculateASERT_halfLife_threeBehind :
    Preconditions (BaseUint.ofUInt64 1000000) (BaseUint.ofUInt64 (2 ^ 40)) 600 (6000 - 3 * 172800) 9 172800 ∧
      NoOverflow 600 (6000 - 3 * 172800) 9 ∧
      ∃ t, CalculateASERT (BaseUint.ofUInt64 1000000) 600 (6000 - 3 * 172800) 9
          (BaseUint.ofUInt64 (2 ^ 40)) 172800 = .ok t ∧
        t.val = max 1 ((BaseUint.ofUInt64 1000000 : ArithUint256).val / 2 ^ 3) := by
  have hpre : Preconditions (BaseUint.ofUInt64 1000000) (BaseUint.ofUInt64 (2 ^ 40)) 600
      (6000 - 3 * 172800) 9 172800 :=
    ⟨by decide, by decide, by decide, by decide, by decide, by decide⟩
  have hov : NoOverflow 600 (6000 - 3 * 172800) 9 := ⟨by decide, by decide, by decide, by decide⟩
  obtain ⟨t, ht, hval⟩ := CalculateASERT_halfLife (k := -3) hpre hov (by decide) (by decide)
  exact ⟨hpre, hov, t, ht, hval⟩

/-- Wherever both runs stay inside `int64_t` and the shift count fits, the
target grows with the time and the reference target and falls with the
height. -/
theorem CalculateASERT_mono {refTarget' : ArithUint256} {nTimeDiff' nHeightDiff' : Int} {t t' : ArithUint256}
    (hspacing : 0 < nPowTargetSpacing)
    (hpre : Preconditions refTarget powLimit nPowTargetSpacing nTimeDiff nHeightDiff nHalfLife)
    (hov : NoOverflow nPowTargetSpacing nTimeDiff nHeightDiff)
    (hfit : (exactExponent nPowTargetSpacing nTimeDiff nHeightDiff nHalfLife / 65536 - 16).natAbs < 2 ^ 32)
    (hpre' : Preconditions refTarget' powLimit nPowTargetSpacing nTimeDiff' nHeightDiff' nHalfLife)
    (hov' : NoOverflow nPowTargetSpacing nTimeDiff' nHeightDiff')
    (hfit' : (exactExponent nPowTargetSpacing nTimeDiff' nHeightDiff' nHalfLife / 65536 - 16).natAbs < 2 ^ 32)
    (hr : refTarget.val ≤ refTarget'.val) (hT : nTimeDiff ≤ nTimeDiff') (hh : nHeightDiff' ≤ nHeightDiff)
    (ht : CalculateASERT refTarget nPowTargetSpacing nTimeDiff nHeightDiff powLimit nHalfLife = .ok t)
    (ht' : CalculateASERT refTarget' nPowTargetSpacing nTimeDiff' nHeightDiff' powLimit nHalfLife = .ok t') :
    t.val ≤ t'.val := by
  obtain ⟨t₁, ht₁, hval⟩ := CalculateASERT_eq_ok hpre hov hfit
  obtain ⟨t₂, ht₂, hval'⟩ := CalculateASERT_eq_ok hpre' hov' hfit'
  obtain rfl : t = t₁ := Except.ok.inj (ht.symm.trans ht₁)
  obtain rfl : t' = t₂ := Except.ok.inj (ht'.symm.trans ht₂)
  have he := exactExponent_mono hspacing hpre.halfLife_pos hT hh
  rw [hval, hval']
  refine clampTarget_mono (Nat.lt_of_lt_of_le hpre.refTarget_pos hpre.refTarget_le) ?_
  calc scaledTarget refTarget.val (exactExponent nPowTargetSpacing nTimeDiff nHeightDiff nHalfLife)
      ≤ scaledTarget refTarget.val (exactExponent nPowTargetSpacing nTimeDiff' nHeightDiff' nHalfLife) :=
        scaledTarget_mono_exponent _ he
    _ ≤ scaledTarget refTarget'.val (exactExponent nPowTargetSpacing nTimeDiff' nHeightDiff' nHalfLife) :=
        scaledTarget_mono_target hr _

/-- A target of `1000000` three half-lives behind schedule comes out at
`125000`, and two days later, one half-life behind, at `500000`. -/
theorem CalculateASERT_mono_twoDaysLater :
    CalculateASERT (BaseUint.ofUInt64 1000000) 600 (6000 - 3 * 172800) 9 (BaseUint.ofUInt64 (2 ^ 40)) 172800 =
        .ok (BaseUint.ofUInt64 125000) ∧
      CalculateASERT (BaseUint.ofUInt64 1000000) 600 (6000 - 172800) 9 (BaseUint.ofUInt64 (2 ^ 40)) 172800 =
        .ok (BaseUint.ofUInt64 500000) ∧
      (BaseUint.ofUInt64 125000 : ArithUint256).val ≤ (BaseUint.ofUInt64 500000 : ArithUint256).val := by
  have ht : CalculateASERT (BaseUint.ofUInt64 1000000) 600 (6000 - 3 * 172800) 9 (BaseUint.ofUInt64 (2 ^ 40))
      172800 = .ok (BaseUint.ofUInt64 125000) := by decide
  have ht' : CalculateASERT (BaseUint.ofUInt64 1000000) 600 (6000 - 172800) 9 (BaseUint.ofUInt64 (2 ^ 40))
      172800 = .ok (BaseUint.ofUInt64 500000) := by decide
  exact ⟨ht, ht', CalculateASERT_mono (by decide)
    ⟨by decide, by decide, by decide, by decide, by decide, by decide⟩
    ⟨by decide, by decide, by decide, by decide⟩ (by decide)
    ⟨by decide, by decide, by decide, by decide, by decide, by decide⟩
    ⟨by decide, by decide, by decide, by decide⟩ (by decide) le_rfl (by decide) le_rfl ht ht'⟩

end Schedule

/-- Two runs that meet the asserts and go wrong. One spacing beyond the
asserted drift, `(nTimeDiff - nPowTargetSpacing * (nHeightDiff + 1)) * 65536`
overflows `int64_t`. With a half-life of one second, a shift count of
`2^32 + 16` wraps to `16` as an `unsigned int`: the target comes back
unchanged, where `2^31` seconds later it is `1`. -/
theorem CalculateASERT_overflow_and_wrap :
    Preconditions (BaseUint.ofUInt64 1) (BaseUint.ofUInt64 1) 600 (-(2 ^ 47 - 1)) 0 172800 ∧
      CalculateASERT (BaseUint.ofUInt64 1) 600 (-(2 ^ 47 - 1)) 0 (BaseUint.ofUInt64 1) 172800 =
        .error .signedOverflow ∧
      Preconditions (BaseUint.ofUInt64 1000) (BaseUint.ofUInt64 1000) 1 (-2 ^ 32 + 1) 0 1 ∧
      (CalculateASERT (BaseUint.ofUInt64 1000) 1 (-2 ^ 32 + 1) 0 (BaseUint.ofUInt64 1000) 1).map
        BaseUint.val = .ok 1000 ∧
      (CalculateASERT (BaseUint.ofUInt64 1000) 1 (-2 ^ 31) 0 (BaseUint.ofUInt64 1000) 1).map
        BaseUint.val = .ok 1 :=
  ⟨⟨by decide, by decide, by decide, by decide, by decide, by decide⟩, by decide,
    ⟨by decide, by decide, by decide, by decide, by decide, by decide⟩, by decide, by decide⟩

end Pow

end BitcoinAbc
