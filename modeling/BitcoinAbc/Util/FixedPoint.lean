import Mathlib
import BitcoinAbc.Util.MoneyStr

/-!
# Fixed-point decimals (util/strencodings.cpp)

`ParseFixedPoint(val, decimals, amount_out)` reads a decimal
`-?(0|[1-9][0-9]*)(\.[0-9]+)?([eE][+-]?[0-9]+)?` into the `int64_t` that is
its value times `10^decimals`. The digits of the mantissa go through
`ProcessMantissaDigit`, which keeps trailing zeros aside in
`mantissa_tzeros` and multiplies them in only when a non-zero digit follows;
the places of the fraction and the zeros kept aside end up in the exponent,
and a last loop multiplies the mantissa by ten that many times. Every
multiplication is guarded by `UPPER_BOUND = 10^18 - 1`.

The positions are `int`s: `int end = val.size()` keeps the low 32 bits of
the length, read as two's complement, and the parser reads the characters
below `end` only (`visible`).

- `Literal`: the grammar's derivations, with `Literal.value` the number one
  stands for;
- `mantissaLoop_eq`, `exponentLoop_eq`, `scaleLoop_eq`: each loop computes
  its unbounded counterpart and fails exactly where that leaves the bound;
- `parse_render`: on the text of a literal the parser never overflows, and
  returns the literal's mantissa scaled to `decimals` places exactly when it
  passes the bounds (`Literal.Fits`); `parse_cases`: any other text is
  refused;
- `Literal.scaled_eq_value`: what is stored is the exact value, and
  `Literal.fits_of_value`: without an exponent, every value that is a whole
  number within the bound is reached;
- `parseFixedPoint_long_literal`: a text of `2^32 + 1` characters is read as
  its first character.
-/

namespace BitcoinAbc

namespace FixedPoint

open Decimal

/-! ## The parser -/

/-- Upper bound for mantissa: `10^18 - 1`, the largest arbitrary decimal that
fits in a signed 64-bit integer. -/
def UPPER_BOUND : Int := 1000000000000000000 - 1

/-- An `int64_t` result, or its overflow. -/
def checkedInt64 (v : Int) : Except (CheckError Unit) Int :=
  if Script.inInt64 v then .ok v else .error .overflow

/-- The loop `for (int i = 0; i <= mantissa_tzeros; ++i)` of
`ProcessMantissaDigit`, with `n` passes left; `none` where it returns
`false`. -/
def timesTenLoop (mantissa : Int) : Nat → Except (CheckError Unit) (Option Int)
  | 0 => pure (some mantissa)
  | n + 1 =>
    -- overflow
    if mantissa > UPPER_BOUND / 10 then pure none
    else do
      let mantissa ← checkedInt64 (mantissa * 10)
      timesTenLoop mantissa n

/-- `ProcessMantissaDigit(ch, mantissa, mantissa_tzeros)`: the new
`mantissa` and `mantissa_tzeros`, or `none` for `false`. -/
def ProcessMantissaDigit (ch : Char) (mantissa : Int) (mantissa_tzeros : Nat) :
    Except (CheckError Unit) (Option (Int × Nat)) :=
  if ch = '0' then pure (some (mantissa, mantissa_tzeros + 1))
  else do
    let some mantissa ← timesTenLoop mantissa (mantissa_tzeros + 1) | return none
    let mantissa ← checkedInt64 (mantissa + (ch.toNat - '0'.toNat))
    return some (mantissa, 0)

/-- `while (ptr < end && IsDigit(val[ptr]))` over `ProcessMantissaDigit`:
the number of digits read, `mantissa`, `mantissa_tzeros` and the characters
after the digits, or `none` for `return false`. -/
def mantissaLoop : List Char → Int → Nat → Except (CheckError Unit) (Option (Nat × Int × Nat × List Char))
  | [], mantissa, tzeros => pure (some (0, mantissa, tzeros, []))
  | c :: p, mantissa, tzeros =>
    if IsDigit c then do
      let some (mantissa, tzeros) ← ProcessMantissaDigit c mantissa tzeros | return none
      let some (n, mantissa, tzeros, p) ← mantissaLoop p mantissa tzeros | return none
      return some (n + 1, mantissa, tzeros, p)
    else pure (some (0, mantissa, tzeros, c :: p))

/-- The digits of the exponent: `exponent * 10 + val[ptr] - '0'` while a
digit follows, guarded by `UPPER_BOUND / 10`. -/
def exponentLoop : List Char → Int → Except (CheckError Unit) (Option (Int × List Char))
  | [], exponent => pure (some (exponent, []))
  | c :: p, exponent =>
    if IsDigit c then
      -- overflow
      if exponent > UPPER_BOUND / 10 then pure none
      else do
        let exponent ← checkedInt64 (exponent * 10)
        let exponent ← checkedInt64 (exponent + c.toNat)
        let exponent ← checkedInt64 (exponent - '0'.toNat)
        exponentLoop p exponent
    else pure (some (exponent, c :: p))

/-- The loop `for (int i = 0; i < exponent; ++i)` that converts to one
64-bit fixed-point value, with `n` passes left. -/
def scaleLoop (mantissa : Int) : Nat → Except (CheckError Unit) (Option Int)
  | 0 => pure (some mantissa)
  | n + 1 =>
    -- overflow
    if mantissa > UPPER_BOUND / 10 ∨ mantissa < -(UPPER_BOUND / 10) then pure none
    else do
      let mantissa ← checkedInt64 (mantissa * 10)
      scaleLoop mantissa n

/-- The sign: `mantissa_sign` and the characters after it. -/
def readSign : List Char → Bool × List Char
  | '-' :: p => (true, p)
  | p => (false, p)

/-- The integer part: a single `0`, passed, or digits from `1`–`9` on;
`mantissa`, `mantissa_tzeros` and the characters after it. -/
def readIntPart : List Char → Except (CheckError Unit) (Option (Int × Nat × List Char))
  | [] => pure none
  | c :: p =>
    if c = '0' then pure (some (0, 0, p))
    else if '1' ≤ c ∧ c ≤ '9' then do
      let some (_, mantissa, tzeros, p) ← mantissaLoop (c :: p) 0 0 | return none
      return some (mantissa, tzeros, p)
    -- missing expected digit
    else pure none

/-- The fraction, after a `.`: at least one digit, each counted in
`point_ofs`; `point_ofs`, `mantissa`, `mantissa_tzeros` and the characters
after it. -/
def readFracPart (mantissa : Int) (tzeros : Nat) :
    List Char → Except (CheckError Unit) (Option (Nat × Int × Nat × List Char))
  | '.' :: p =>
    match p with
    | c :: _ => if IsDigit c then mantissaLoop p mantissa tzeros else pure none
    -- missing expected digit
    | [] => pure none
  | p => pure (some (0, mantissa, tzeros, p))

/-- The sign of the exponent after `e` or `E`: `exponent_sign` and the
characters after it. -/
def readExponentSign : List Char → Bool × List Char
  | '+' :: p => (false, p)
  | '-' :: p => (true, p)
  | p => (false, p)

/-- The exponent, after `e` or `E`: a sign and at least one digit;
`exponent_sign`, `exponent` and the characters after it. -/
def readExpPart : List Char → Except (CheckError Unit) (Option (Bool × Int × List Char))
  | c :: p =>
    if c = 'e' ∨ c = 'E' then
      let (exponent_sign, p) := readExponentSign p
      match p with
      | d :: _ =>
        if IsDigit d then do
          let some (exponent, p) ← exponentLoop p 0 | return none
          return some (exponent_sign, exponent, p)
        else pure none
      -- missing expected digit
      | [] => pure none
    else pure (some (false, 0, c :: p))
  | [] => pure (some (false, 0, []))

/-- `if (sign) { v = -v; }` on an `int64_t`. -/
def applySign (sign : Bool) (v : Int) : Except (CheckError Unit) Int :=
  if sign then checkedInt64 (-v) else pure v

/-- The end of `ParseFixedPoint`, once the text is read: the exponent and
the mantissa finalized, then converted to one 64-bit fixed-point value. -/
def finish (mantissa_sign : Bool) (mantissa : Int) (mantissa_tzeros point_ofs : Nat) (exponent_sign : Bool)
    (exponent decimals : Int) : Except (CheckError Unit) (Option Int) := do
  -- finalize exponent
  let exponent ← applySign exponent_sign exponent
  let exponent ← checkedInt64 (exponent - point_ofs)
  let exponent ← checkedInt64 (exponent + mantissa_tzeros)
  -- finalize mantissa
  let mantissa ← applySign mantissa_sign mantissa
  -- convert to one 64-bit fixed-point value
  let exponent ← checkedInt64 (exponent + decimals)
  -- cannot represent values smaller than 10^-decimals
  if exponent < 0 then return none
  -- cannot represent values larger than or equal to 10^(18-decimals)
  if exponent ≥ 18 then return none
  let some mantissa ← scaleLoop mantissa exponent.toNat | return none
  -- overflow
  if mantissa > UPPER_BOUND ∨ mantissa < -UPPER_BOUND then return none
  return some mantissa

/-- The digits of the mantissa, before and after the point: `point_ofs`,
`mantissa`, `mantissa_tzeros` and the characters after them. -/
def readMantissa (p : List Char) : Except (CheckError Unit) (Option (Nat × Int × Nat × List Char)) := do
  let some (mantissa, mantissa_tzeros, p) ← readIntPart p | return none
  readFracPart mantissa mantissa_tzeros p

/-- `ParseFixedPoint` on the characters it reads: `none` for `false`, `some`
of what it stores in `*amount_out` for `true`. -/
def parse (val : List Char) (decimals : Int) : Except (CheckError Unit) (Option Int) := do
  let (mantissa_sign, p) := readSign val
  let some (point_ofs, mantissa, mantissa_tzeros, p) ← readMantissa p | return none
  let some (exponent_sign, exponent, p) ← readExpPart p | return none
  -- trailing garbage
  if !p.isEmpty then return none
  finish mantissa_sign mantissa mantissa_tzeros point_ofs exponent_sign exponent decimals

/-- The characters `ParseFixedPoint` reads: those below `end`, the `int`
that `val.size()` converts to. Every `val[ptr]` follows a test `ptr < end`,
and a negative `end` fails the first one as the empty string does. -/
def visible (val : List Char) : List Char := val.take (BitVec.ofNat 32 val.length).toInt.toNat

/-- `ParseFixedPoint(val, decimals, amount_out)`. -/
def ParseFixedPoint (val : List Char) (decimals : Int) : Except (CheckError Unit) (Option Int) :=
  parse (visible val) decimals

/-! ## The loops -/

theorem UPPER_BOUND_div_ten : UPPER_BOUND / 10 = 10 ^ 17 - 1 := by decide

theorem checkedInt64_eq {v : Int} (h0 : -2 ^ 63 ≤ v) (h1 : v < 2 ^ 63) : checkedInt64 v = .ok v := by
  have hin : Script.inInt64 v = true := by
    unfold Script.inInt64
    exact decide_eq_true ⟨by rw [Script.INT64_MIN]; omega, by rw [Script.INT64_MAX]; omega⟩
  rw [checkedInt64, if_pos hin]

/-- Times ten while below `UPPER_BOUND / 10`: the loop multiplies by `10^(n+1)`
when the last factor before it keeps the guard, and stops otherwise. -/
theorem timesTenLoop_eq : ∀ (n : Nat) {m : Int}, 0 ≤ m → m ≤ UPPER_BOUND →
    timesTenLoop m (n + 1) = .ok (if m * 10 ^ n ≤ UPPER_BOUND / 10 then some (m * 10 ^ (n + 1)) else none)
  | n, m, hm0, hm => by
    rw [timesTenLoop, UPPER_BOUND_div_ten]
    have hub : UPPER_BOUND = 10 ^ 18 - 1 := rfl
    have hpow : m ≤ m * 10 ^ n := le_mul_of_one_le_right hm0 (one_le_pow₀ (by decide))
    by_cases hgt : m > 10 ^ 17 - 1
    · rw [if_pos hgt, if_neg (by omega)]
      rfl
    rw [if_neg hgt, checkedInt64_eq (by omega) (by omega)]
    cases n with
    | zero =>
      rw [if_pos (by omega)]
      rfl
    | succ k =>
      have h10 : m * 10 ≤ UPPER_BOUND := by rw [hub]; omega
      rw [Except.ok_bind, timesTenLoop_eq k (by omega) h10, UPPER_BOUND_div_ten]
      -- the factors of ten before and after the first pass
      have hk : m * 10 * 10 ^ k = m * 10 ^ (k + 1) := by ring
      have hk' : m * 10 * 10 ^ (k + 1) = m * 10 ^ (k + 1 + 1) := by ring
      rw [hk, hk']
theorem ProcessMantissaDigit_eq {c : Char} (hc : c.isDigit = true) {m : Nat} (hm : (m : Int) ≤ UPPER_BOUND)
    (tz : Nat) : ProcessMantissaDigit c m tz =
      .ok (if ((pushDigit (m, tz) c).1 : Int) ≤ UPPER_BOUND then
        some ((pushDigit (m, tz) c).1, (pushDigit (m, tz) c).2) else none) := by
  have hd := digit_lt hc
  have hub : UPPER_BOUND = 10 ^ 18 - 1 := rfl
  unfold ProcessMantissaDigit pushDigit
  by_cases h0 : c = '0'
  · simp only [if_pos h0, hm]
    rfl
  simp only [if_neg h0]
  rw [timesTenLoop_eq tz (Int.natCast_nonneg m) hm, UPPER_BOUND_div_ten]
  -- the guard on `m * 10^tz` is the bound on the new mantissa
  have hpow : ((m * 10 ^ (tz + 1) + (c.toNat - '0'.toNat) : Nat) : Int) =
      (m : Int) * 10 ^ tz * 10 + (c.toNat - '0'.toNat : Nat) := by
    push_cast
    ring
  by_cases hle : (m : Int) * 10 ^ tz ≤ 10 ^ 17 - 1
  · have hnew : (m : Int) * 10 ^ (tz + 1) + (c.toNat - '0'.toNat : Nat) < 2 ^ 63 := by
      rw [pow_succ, ← Int.mul_assoc]
      omega
    have hnn : 0 ≤ (m : Int) * 10 ^ (tz + 1) := Int.mul_nonneg (Int.natCast_nonneg m) (pow_nonneg (by decide) _)
    have hge : 48 ≤ c.toNat := zero_le_digit hc
    have h48 : ('0'.toNat : Int) = 48 := rfl
    rw [if_pos hle, if_pos (by rw [hpow, hub]; omega)]
    simp only [bind, Except.bind]
    rw [checkedInt64_eq (by omega) (by omega)]
    push_cast [Nat.cast_sub hge]
    rfl
  · rw [if_neg hle, if_neg (by rw [hpow, hub]; omega)]
    rfl

/-- On a run of digits followed by a non-digit, the loop computes
`digitsFold` and returns `false` exactly when its mantissa passes
`UPPER_BOUND`: the mantissa only grows, so the first pass over the bound
happens at the last digit at the latest. -/
theorem mantissaLoop_eq : ∀ {ds : List Char} (rest : List Char) {m : Nat} (tz : Nat), AllDigits ds →
    startsWithDigit rest = false → (m : Int) ≤ UPPER_BOUND →
    mantissaLoop (ds ++ rest) m tz = .ok (if ((digitsFold (m, tz) ds).1 : Int) ≤ UPPER_BOUND then
      some (ds.length, (digitsFold (m, tz) ds).1, (digitsFold (m, tz) ds).2, rest) else none)
  | [], rest, m, tz, _, hrest, hm => by
    have hfold : digitsFold (m, tz) [] = (m, tz) := rfl
    rw [hfold, if_pos hm]
    cases rest with
    | nil => rfl
    | cons c q =>
      rw [List.nil_append, mantissaLoop, if_neg (by simpa [startsWithDigit, IsDigit_eq] using hrest)]
      rfl
  | c :: ds, rest, m, tz, hds, hrest, hm => by
    have hc := hds c List.mem_cons_self
    rw [List.cons_append, mantissaLoop, if_pos (by rwa [IsDigit_eq]), ProcessMantissaDigit_eq hc hm]
    by_cases hle : ((pushDigit (m, tz) c).1 : Int) ≤ UPPER_BOUND
    · rw [if_pos hle]
      simp only [bind, Except.bind]
      rw [mantissaLoop_eq rest _ (fun d hd => hds d (List.mem_cons_of_mem c hd)) hrest hle, digitsFold_cons,
        Prod.mk.eta]
      by_cases hfold : ((digitsFold (pushDigit (m, tz) c) ds).1 : Int) ≤ UPPER_BOUND
      · rw [if_pos hfold, if_pos hfold]
        rfl
      · rw [if_neg hfold, if_neg hfold]
        rfl
    · -- the mantissa is already past the bound, and stays past it
      have hgt : ¬((digitsFold (m, tz) (c :: ds)).1 : Int) ≤ UPPER_BOUND := fun h =>
        hle (le_trans (Int.ofNat_le.mpr (le_digitsFold _ ds)) h)
      rw [if_neg hle, if_neg hgt]
      rfl

theorem le_ofDigitChars (ds : List Char) (init : Nat) : init ≤ Nat.ofDigitChars 10 ds init := by
  rw [Nat.ofDigitChars_eq_ofDigitChars_zero]
  exact Nat.le_add_right_of_le (Nat.le_mul_of_pos_left _ (Nat.pow_pos (by decide)))

/-- On a run of digits followed by a non-digit, the exponent loop reads the
numeral and returns `false` exactly when it passes `UPPER_BOUND`. -/
theorem exponentLoop_eq : ∀ {ds : List Char} (rest : List Char) {e : Nat}, AllDigits ds →
    startsWithDigit rest = false → (e : Int) ≤ UPPER_BOUND →
    exponentLoop (ds ++ rest) e = .ok (if (Nat.ofDigitChars 10 ds e : Int) ≤ UPPER_BOUND then
      some (Nat.ofDigitChars 10 ds e, rest) else none)
  | [], rest, e, _, hrest, he => by
    rw [Nat.ofDigitChars_nil, if_pos he]
    cases rest with
    | nil => rfl
    | cons c q =>
      rw [List.nil_append, exponentLoop, if_neg (by simpa [startsWithDigit, IsDigit_eq] using hrest)]
      rfl
  | d :: ds, rest, e, hds, hrest, he => by
    have hd := hds d List.mem_cons_self
    have hdlt := digit_lt hd
    have hge : 48 ≤ d.toNat := zero_le_digit hd
    have h48 : ('0'.toNat : Int) = 48 := rfl
    have hub : UPPER_BOUND = 10 ^ 18 - 1 := rfl
    rw [List.cons_append, exponentLoop, if_pos (by rwa [IsDigit_eq]), UPPER_BOUND_div_ten, Nat.ofDigitChars_cons]
    by_cases hgt : (e : Int) > 10 ^ 17 - 1
    · -- the next digit takes the exponent past the bound, and it stays past it
      have hpast : ¬(Nat.ofDigitChars 10 ds (10 * e + (d.toNat - '0'.toNat)) : Int) ≤ UPPER_BOUND := by
        have := le_ofDigitChars ds (10 * e + (d.toNat - '0'.toNat))
        rw [hub]
        omega
      rw [if_pos hgt, if_neg hpast]
      rfl
    rw [if_neg hgt, checkedInt64_eq (by omega) (by omega), Except.ok_bind, checkedInt64_eq (by omega) (by omega),
      Except.ok_bind, checkedInt64_eq (by omega) (by omega), Except.ok_bind]
    have hnext : (e : Int) * 10 + d.toNat - '0'.toNat = ((10 * e + (d.toNat - '0'.toNat) : Nat) : Int) := by
      push_cast [Nat.cast_sub hge]
      omega
    rw [hnext]
    exact exponentLoop_eq rest (fun x hx => hds x (List.mem_cons_of_mem d hx)) hrest (by push_cast; omega)

/-- While `|m| * 10^n` stays within `UPPER_BOUND`, the scaling loop
multiplies by `10^n`; otherwise it returns `false`. -/
theorem scaleLoop_eq : ∀ (n : Nat) {m : Int}, |m| ≤ UPPER_BOUND →
    scaleLoop m n = .ok (if |m| * 10 ^ n ≤ UPPER_BOUND then some (m * 10 ^ n) else none)
  | 0, m, hm => by
    rw [pow_zero, Int.mul_one, Int.mul_one, if_pos hm]
    rfl
  | n + 1, m, hm => by
    have hub : UPPER_BOUND = 10 ^ 18 - 1 := rfl
    have habs := abs_le.mp hm
    have hpow : |m| ≤ |m| * 10 ^ n := le_mul_of_one_le_right (abs_nonneg m) (one_le_pow₀ (by decide))
    rw [scaleLoop, UPPER_BOUND_div_ten]
    by_cases hgt : m > 10 ^ 17 - 1 ∨ m < -(10 ^ 17 - 1)
    · have hbig : 10 ^ 17 ≤ |m| := by
        rcases hgt with h | h
        · rw [abs_of_pos (by omega)]
          omega
        · rw [abs_of_neg (by omega)]
          omega
      rw [if_pos hgt, if_neg (by rw [pow_succ, ← Int.mul_assoc, hub]; omega)]
      rfl
    · have hsmall : |m| ≤ 10 ^ 17 - 1 := abs_le.mpr ⟨by omega, by omega⟩
      have h10 : |(10 : Int)| = 10 := abs_of_pos (by decide)
      rw [if_neg hgt, checkedInt64_eq (by omega) (by omega), Except.ok_bind,
        scaleLoop_eq n (by rw [abs_mul, hub, h10]; omega)]
      -- the first factor of ten moves into the power
      have hk : |m * 10| * 10 ^ n = |m| * 10 ^ (n + 1) := by
        rw [abs_mul, pow_succ, h10]
        ring
      have hk' : m * 10 * 10 ^ n = m * 10 ^ (n + 1) := by ring
      rw [hk, hk']

/-! ## Decimal literals -/

/-- The exponent of a literal: `e` or `E`, an optional sign and its digits. -/
structure ExpPart where
  letter : Char
  sign : Option Char
  digits : List Char
  deriving DecidableEq, Repr

namespace ExpPart

/-- The text of an exponent. -/
def text (x : ExpPart) : List Char := x.letter :: (x.sign.toList ++ x.digits)

/-- `[eE][+-]?[0-9]+`. -/
def WF (x : ExpPart) : Prop :=
  (x.letter = 'e' ∨ x.letter = 'E') ∧ (x.sign = none ∨ x.sign = some '+' ∨ x.sign = some '-') ∧
    x.digits ≠ [] ∧ AllDigits x.digits

/-- The exponent is negative. -/
def negative (x : ExpPart) : Bool := x.sign == some '-'

/-- The value of the exponent's digits. -/
def magnitude (x : ExpPart) : Nat := Nat.ofDigitChars 10 x.digits 0

/-- The exponent with its sign. -/
def value (x : ExpPart) : Int := if x.negative then -(x.magnitude : Int) else x.magnitude

end ExpPart

/-- A derivation of `-?(0|[1-9][0-9]*)(\.[0-9]+)?([eE][+-]?[0-9]+)?`: the
sign, the integer part, the digits after the point and the exponent. -/
structure Literal where
  negative : Bool
  intPart : List Char
  fracPart : Option (List Char)
  expPart : Option ExpPart
  deriving DecidableEq, Repr

/-- The text of the point and the fraction, if any. -/
def fracText : Option (List Char) → List Char
  | some f => '.' :: f
  | none => []

/-- The text of the exponent, if any. -/
def expText : Option ExpPart → List Char
  | some x => x.text
  | none => []

/-- `0|[1-9][0-9]*`. -/
def IntPartWF (ip : List Char) : Prop :=
  ip = ['0'] ∨ ∃ c cs, ip = c :: cs ∧ '1' ≤ c ∧ c ≤ '9' ∧ AllDigits cs

/-- `(\.[0-9]+)?`, without the point. -/
def FracPartWF (fp : Option (List Char)) : Prop := ∀ f ∈ fp, f ≠ [] ∧ AllDigits f

/-- The digits of an integer part that reach the mantissa: a lone `0` is
passed. -/
def intDigits (ip : List Char) : List Char := if ip = ['0'] then [] else ip

namespace Literal

/-- The text of a literal. -/
def render (L : Literal) : List Char :=
  (if L.negative then ['-'] else []) ++ (L.intPart ++ (fracText L.fracPart ++ expText L.expPart))

/-- A literal of the grammar. -/
structure WF (L : Literal) : Prop where
  intPart : IntPartWF L.intPart
  fracPart : FracPartWF L.fracPart
  expPart : ∀ x ∈ L.expPart, x.WF

/-- The digits after the point. -/
def fracDigits (L : Literal) : List Char := L.fracPart.getD []

/-- The exponent the literal writes, `0` without one. -/
def writtenExponent (L : Literal) : Int :=
  match L.expPart with
  | some x => x.value
  | none => 0

/-- The number a literal stands for: its digits, those of the fraction
included, times ten to the written exponent less the places of the fraction. -/
def value (L : Literal) : ℚ :=
  (if L.negative then -1 else 1) * (Nat.ofDigitChars 10 (L.intPart ++ L.fracDigits) 0 : ℚ) *
    (10 : ℚ) ^ (L.writtenExponent - L.fracDigits.length)

/-- The mantissa `ProcessMantissaDigit` builds from the literal's digits, and
the zeros it keeps aside after the last non-zero one. -/
def mantissa (L : Literal) : Nat × Nat := digitsFold (0, 0) (intDigits L.intPart ++ L.fracDigits)

/-- The power of ten that scales the mantissa to `decimals` places. -/
def exponent (L : Literal) (decimals : Int) : Int :=
  L.writtenExponent - L.fracDigits.length + L.mantissa.2 + decimals

/-- What `ParseFixedPoint` stores for a literal. -/
def scaled (L : Literal) (decimals : Int) : Int :=
  (if L.negative then -(L.mantissa.1 : Int) else L.mantissa.1) * 10 ^ (L.exponent decimals).toNat

/-- The literal passes every bound of `ParseFixedPoint`: the mantissa's and
the exponent's digits, the range of the final exponent, and the scaling. -/
def Fits (L : Literal) (decimals : Int) : Prop :=
  (L.mantissa.1 : Int) ≤ UPPER_BOUND ∧ (∀ x ∈ L.expPart, (x.magnitude : Int) ≤ UPPER_BOUND) ∧
    0 ≤ L.exponent decimals ∧ L.exponent decimals < 18 ∧
    (L.mantissa.1 : Int) * 10 ^ (L.exponent decimals).toNat ≤ UPPER_BOUND

instance (L : Literal) (decimals : Int) : Decidable (L.Fits decimals) :=
  inferInstanceAs (Decidable (_ ∧ _))

/-- Once the digits of the mantissa and of the exponent are within
`UPPER_BOUND`, the literal fits when its exponent and its scaled mantissa do. -/
theorem ite_fits_eq {L : Literal} {decimals : Int} (hM : (L.mantissa.1 : Int) ≤ UPPER_BOUND)
    (hE : ∀ x ∈ L.expPart, (x.magnitude : Int) ≤ UPPER_BOUND) :
    (if 0 ≤ L.exponent decimals ∧ L.exponent decimals < 18 ∧
        (L.mantissa.1 : Int) * 10 ^ (L.exponent decimals).toNat ≤ UPPER_BOUND then
      some ((if L.negative then -(L.mantissa.1 : Int) else L.mantissa.1) * 10 ^ (L.exponent decimals).toNat)
    else none) = if L.Fits decimals then some (L.scaled decimals) else none := by
  by_cases h : 0 ≤ L.exponent decimals ∧ L.exponent decimals < 18 ∧
      (L.mantissa.1 : Int) * 10 ^ (L.exponent decimals).toNat ≤ UPPER_BOUND
  · rw [if_pos h, if_pos (show L.Fits decimals from ⟨hM, hE, h⟩)]
    rfl
  · rw [if_neg h, if_neg (fun hf : L.Fits decimals => h hf.2.2)]

end Literal

example : (⟨false, ['1'], some ['5'], none⟩ : Literal).value = 3 / 2 := by
  norm_num [Literal.value, Literal.writtenExponent, Literal.fracDigits, Nat.ofDigitChars,
    show '0'.toNat = 48 from rfl, show '1'.toNat = 49 from rfl, show '5'.toNat = 53 from rfl]

/-! ## The value of a literal -/

theorem IntPartWF.allDigits {ip : List Char} (h : IntPartWF ip) : AllDigits ip := by
  rcases h with rfl | ⟨c, cs, rfl, h1, h9, hcs⟩
  · decide
  · exact List.forall_mem_cons.mpr ⟨isDigit_of_nonzero h1 h9, hcs⟩

namespace Literal

theorem allDigits_mantissa {L : Literal} (hL : L.WF) : AllDigits (intDigits L.intPart ++ L.fracDigits) := by
  have hint : AllDigits (intDigits L.intPart) := by
    unfold intDigits
    split
    · exact fun _ h => nomatch h
    · exact IntPartWF.allDigits hL.intPart
  have hfrac : AllDigits L.fracDigits := by
    unfold fracDigits
    cases h : L.fracPart with
    | none => exact fun _ h => nomatch h
    | some f => exact (hL.fracPart f h).2
  exact hint.append hfrac

/-- The digits of a literal are its mantissa followed by the zeros kept
aside; a lone `0` before the point adds nothing. -/
theorem ofDigitChars_digits {L : Literal} (hL : L.WF) :
    Nat.ofDigitChars 10 (L.intPart ++ L.fracDigits) 0 = L.mantissa.1 * 10 ^ L.mantissa.2 := by
  have hv := digitsFold_value (0, 0) (allDigits_mantissa hL)
  rw [Nat.zero_mul] at hv
  rw [mantissa, hv, intDigits]
  split
  · rename_i h
    rw [h, List.singleton_append, Nat.ofDigitChars_cons]
    rfl
  · rfl

/-- The value scaled to `decimals` places is the signed mantissa times ten
to the exponent `ParseFixedPoint` computes. -/
theorem value_mul_eq {L : Literal} (hL : L.WF) (decimals : Int) :
    L.value * 10 ^ decimals = (if L.negative then -1 else 1) * (L.mantissa.1 : ℚ) * 10 ^ L.exponent decimals := by
  have h10 : (10 : ℚ) ≠ 0 := by norm_num
  rw [value, exponent, ofDigitChars_digits hL, zpow_add₀ h10, zpow_add₀ h10, zpow_natCast]
  push_cast
  ring

/-- The magnitude of what `ParseFixedPoint` stores. -/
theorem abs_scaled (L : Literal) (decimals : Int) :
    |L.scaled decimals| = (L.mantissa.1 : Int) * 10 ^ (L.exponent decimals).toNat := by
  have hsign : |(if L.negative then -(L.mantissa.1 : Int) else L.mantissa.1)| = L.mantissa.1 := by
    split <;> simp
  rw [scaled, abs_mul, hsign, abs_of_nonneg (pow_nonneg (by decide) _)]

theorem abs_scaled_le {L : Literal} {decimals : Int} (h : L.Fits decimals) : |L.scaled decimals| ≤ UPPER_BOUND := by
  rw [abs_scaled]
  exact h.2.2.2.2

/-- With a non-negative exponent, what `ParseFixedPoint` stores is the exact
value scaled to `decimals` places. -/
theorem scaled_eq_value {L : Literal} (hL : L.WF) {decimals : Int} (hk : 0 ≤ L.exponent decimals) :
    (L.scaled decimals : ℚ) = L.value * 10 ^ decimals := by
  rw [value_mul_eq hL, scaled, ← Int.toNat_of_nonneg hk, zpow_natCast, Int.toNat_of_nonneg hk]
  push_cast
  split <;> ring

/-- A mantissa that ends in a non-zero digit is scaled by a non-negative
exponent whenever the scaled value is whole: a negative one would leave its
last digit after the point. -/
theorem exponent_nonneg {L : Literal} (hL : L.WF) (hM : L.mantissa.1 % 10 ≠ 0) {decimals : Int} {n : Int}
    (hn : L.value * 10 ^ decimals = n) : 0 ≤ L.exponent decimals := by
  by_contra hk
  obtain ⟨j, hj⟩ : ∃ j : Nat, L.exponent decimals = -((j + 1 : Nat) : Int) :=
    ⟨(-L.exponent decimals).toNat - 1, by omega⟩
  rw [value_mul_eq hL, hj, zpow_neg, zpow_natCast] at hn
  have hpow : (10 : ℚ) ^ (j + 1) ≠ 0 := pow_ne_zero _ (by norm_num)
  -- the signed mantissa is `n` times a positive power of ten
  have hq : (if L.negative then -1 else 1) * (L.mantissa.1 : ℚ) = n * 10 ^ j * 10 := by
    rw [mul_assoc, ← pow_succ, ← hn]
    field_simp
  have hz : (if L.negative then -1 else 1) * (L.mantissa.1 : Int) = n * 10 ^ j * 10 := by
    split at hq <;> split <;> first | exact_mod_cast hq | contradiction
  split at hz <;> omega

/-- A mantissa that stays zero read only zeros after a lone `0`: the
exponent is `decimals`. -/
theorem exponent_of_mantissa_eq_zero {L : Literal} (hL : L.WF) (hx : L.expPart = none) (h0 : L.mantissa.1 = 0)
    (decimals : Int) : L.exponent decimals = decimals := by
  have hT := digitsFold_eq_zero 0 (allDigits_mantissa hL) h0
  -- a non-zero first digit would leave a non-zero mantissa
  have hint : intDigits L.intPart = [] := by
    rcases hL.intPart with h | ⟨c, cs, h, h1, h9, -⟩
    · rw [h]
      rfl
    · have hc : intDigits L.intPart = c :: cs := by rw [h]; exact if_neg (by simp [ne_zero_of_one_le h1])
      have hle := le_digitsFold (pushDigit (0, 0) c) (cs ++ L.fracDigits)
      have h1' := one_le_digit (isDigit_of_nonzero h1 h9) (ne_zero_of_one_le h1)
      rw [mantissa, hc, List.cons_append, digitsFold_cons] at h0
      simp only [pushDigit, if_neg (ne_zero_of_one_le h1)] at hle h0
      omega
  rw [hint, List.nil_append] at hT
  rw [exponent, writtenExponent, hx, mantissa, hint, List.nil_append, hT]
  dsimp only
  omega

/-- Without an exponent, a literal whose value at `decimals` places is a
whole number within `UPPER_BOUND` passes every bound of `ParseFixedPoint`,
and what it stores is that number. -/
theorem fits_of_value {L : Literal} (hL : L.WF) (hx : L.expPart = none) {decimals : Int} (hd0 : 0 ≤ decimals)
    (hd17 : decimals ≤ 17) {n : Int} (hn : L.value * 10 ^ decimals = n) (hnb : |n| ≤ UPPER_BOUND) :
    L.Fits decimals ∧ L.scaled decimals = n := by
  have hE : ∀ x ∈ L.expPart, (x.magnitude : Int) ≤ UPPER_BOUND := by
    rw [hx]
    exact fun _ h => nomatch h
  rcases digitsFold_mod_ten (0, 0) (allDigits_mantissa hL) with h0 | hmod
  · -- no non-zero digit: the value is zero
    replace h0 : L.mantissa.1 = 0 := h0
    have hk := exponent_of_mantissa_eq_zero hL hx h0 decimals
    have hn0 : n = 0 := by
      rw [value_mul_eq hL, h0] at hn
      have : (n : ℚ) = 0 := by
        rw [← hn]
        ring
      exact_mod_cast this
    refine ⟨⟨by rw [h0]; decide, hE, by omega, by omega, by rw [h0]; simp; decide⟩, ?_⟩
    rw [scaled, h0, hn0]
    simp
  · replace hmod : L.mantissa.1 % 10 ≠ 0 := hmod
    have hk := exponent_nonneg hL hmod hn
    have hsc : L.scaled decimals = n := by
      have := scaled_eq_value hL hk
      rw [hn] at this
      exact_mod_cast this
    have hfit : (L.mantissa.1 : Int) * 10 ^ (L.exponent decimals).toNat ≤ UPPER_BOUND := by
      rw [← abs_scaled, hsc]
      exact hnb
    have hpow : (1 : Int) ≤ 10 ^ (L.exponent decimals).toNat := one_le_pow₀ (by decide)
    have hM1 : (1 : Int) ≤ L.mantissa.1 := by
      have : L.mantissa.1 ≠ 0 := fun h => hmod (by rw [h])
      omega
    have hM : (L.mantissa.1 : Int) ≤ UPPER_BOUND := le_trans (le_mul_of_one_le_right (by omega) hpow) hfit
    -- ten to the exponent alone stays within `UPPER_BOUND < 10^18`
    have hk18 : L.exponent decimals < 18 := by
      by_contra h18
      have hle : (10 : Int) ^ 18 ≤ 10 ^ (L.exponent decimals).toNat := pow_le_pow_right₀ (by decide) (by omega)
      have hub : UPPER_BOUND = 10 ^ 18 - 1 := rfl
      have := le_mul_of_one_le_left (le_trans (by decide) hle) hM1
      omega
    exact ⟨⟨hM, hE, hk, hk18, hfit⟩, hsc⟩

end Literal

/-! ## The phases on the text of a literal -/

theorem readSign_append (negative : Bool) {p : List Char} (hp : p.head? ≠ some '-') :
    readSign ((if negative then ['-'] else []) ++ p) = (negative, p) := by
  cases negative with
  | true => rfl
  | false =>
    rw [if_neg Bool.false_ne_true, List.nil_append, readSign.eq_def]
    split
    · exact absurd rfl hp
    · rfl

theorem readIntPart_append {ip : List Char} (hip : IntPartWF ip) {q : List Char} (hq : startsWithDigit q = false) :
    readIntPart (ip ++ q) = .ok (if ((digitsFold (0, 0) (intDigits ip)).1 : Int) ≤ UPPER_BOUND then
      some ((digitsFold (0, 0) (intDigits ip)).1, (digitsFold (0, 0) (intDigits ip)).2, q) else none) := by
  rcases hip with rfl | ⟨c, cs, rfl, h1, h9, hcs⟩
  · rfl
  · have hc0 := ne_zero_of_one_le h1
    have hint : intDigits (c :: cs) = c :: cs := if_neg (by simp [hc0])
    have hall : AllDigits (c :: cs) := by
      intro d hd
      rcases List.mem_cons.mp hd with rfl | hd
      · exact isDigit_of_nonzero h1 h9
      · exact hcs d hd
    have hloop := mantissaLoop_eq q (m := 0) 0 hall hq (by decide)
    rw [Nat.cast_zero] at hloop
    rw [hint, List.cons_append, readIntPart, if_neg hc0, if_pos ⟨h1, h9⟩, ← List.cons_append, hloop]
    split <;> rfl

theorem readFracPart_of_head (m : Int) (t : Nat) {p : List Char} (hp : p.head? ≠ some '.') :
    readFracPart m t p = .ok (some (0, m, t, p)) := by
  rw [readFracPart.eq_def]
  split
  · exact absurd rfl hp
  · rfl

theorem readFracPart_point {f : List Char} (hf : f ≠ [] ∧ AllDigits f) {rest : List Char}
    (hrest : startsWithDigit rest = false) {m : Nat} (hm : (m : Int) ≤ UPPER_BOUND) (t : Nat) :
    readFracPart m t ('.' :: (f ++ rest)) = .ok (if ((digitsFold (m, t) f).1 : Int) ≤ UPPER_BOUND then
      some (f.length, (digitsFold (m, t) f).1, (digitsFold (m, t) f).2, rest) else none) := by
  obtain ⟨c, f', rfl⟩ := List.exists_cons_of_ne_nil hf.1
  have hc : IsDigit c = true := by rw [IsDigit_eq]; exact hf.2 c List.mem_cons_self
  rw [List.cons_append, readFracPart.eq_1]
  rw [if_pos hc, ← List.cons_append, mantissaLoop_eq rest t hf.2 hrest hm]

/-- The fraction, if any, before a text that starts with neither a digit nor
a point. -/
theorem readFracPart_fracText {fp : Option (List Char)} (hfp : FracPartWF fp) {rest : List Char}
    (hrest : startsWithDigit rest = false) (hdot : rest.head? ≠ some '.') {m : Nat}
    (hm : (m : Int) ≤ UPPER_BOUND) (t : Nat) :
    readFracPart m t (fracText fp ++ rest) =
      .ok (if ((digitsFold (m, t) (fp.getD [])).1 : Int) ≤ UPPER_BOUND then
        some ((fp.getD []).length, (digitsFold (m, t) (fp.getD [])).1, (digitsFold (m, t) (fp.getD [])).2, rest)
      else none) := by
  cases fp with
  | some f => exact readFracPart_point (hfp f rfl) hrest hm t
  | none =>
    have hfold : digitsFold (m, t) [] = (m, t) := rfl
    rw [fracText, List.nil_append, readFracPart_of_head m t hdot, Option.getD_none, hfold, if_pos hm]
    rfl

theorem startsWithDigit_fracText (fp : Option (List Char)) {rest : List Char}
    (hrest : startsWithDigit rest = false) : startsWithDigit (fracText fp ++ rest) = false := by
  cases fp with
  | some f => rfl
  | none => exact hrest

/-- The integer part and the fraction together: the mantissa reads all their
digits, and fails exactly when it passes `UPPER_BOUND`. -/
theorem readMantissa_append {ip : List Char} (hip : IntPartWF ip) {fp : Option (List Char)} (hfp : FracPartWF fp)
    {rest : List Char} (hrest : startsWithDigit rest = false) (hdot : rest.head? ≠ some '.') :
    readMantissa (ip ++ (fracText fp ++ rest)) =
      .ok (if ((digitsFold (0, 0) (intDigits ip ++ fp.getD [])).1 : Int) ≤ UPPER_BOUND then
        some ((fp.getD []).length, (digitsFold (0, 0) (intDigits ip ++ fp.getD [])).1,
          (digitsFold (0, 0) (intDigits ip ++ fp.getD [])).2, rest)
      else none) := by
  rw [readMantissa, readIntPart_append hip (startsWithDigit_fracText fp hrest), digitsFold_append]
  by_cases hint : ((digitsFold (0, 0) (intDigits ip)).1 : Int) ≤ UPPER_BOUND
  · rw [if_pos hint]
    exact readFracPart_fracText hfp hrest hdot hint _
  · -- the mantissa is past the bound after the integer part, and stays past it
    have hpast : ¬((digitsFold (digitsFold (0, 0) (intDigits ip)) (fp.getD [])).1 : Int) ≤ UPPER_BOUND :=
      fun h => hint (le_trans (Int.ofNat_le.mpr (le_digitsFold _ _)) h)
    rw [if_neg hint, if_neg hpast]
    rfl

theorem readExponentSign_append {s : Option Char} (hs : s = none ∨ s = some '+' ∨ s = some '-') {ds : List Char}
    (hds : startsWithDigit ds = true) : readExponentSign (s.toList ++ ds) = (s == some '-', ds) := by
  rcases hs with rfl | rfl | rfl
  · rw [Option.toList_none, List.nil_append, readExponentSign.eq_def]
    split
    · exact absurd hds (by rw [startsWithDigit]; decide)
    · exact absurd hds (by rw [startsWithDigit]; decide)
    · rfl
  · rfl
  · rfl

/-- The exponent: its sign and the value of its digits, unless that passes
`UPPER_BOUND`. -/
theorem readExpPart_text {x : ExpPart} (hx : x.WF) {rest : List Char} (hrest : startsWithDigit rest = false) :
    readExpPart (x.text ++ rest) =
      .ok (if (x.magnitude : Int) ≤ UPPER_BOUND then some (x.negative, x.magnitude, rest) else none) := by
  obtain ⟨e, s, ds⟩ := x
  obtain ⟨he, hs, hne, hds⟩ := hx
  obtain ⟨d, ds', rfl⟩ := List.exists_cons_of_ne_nil hne
  have hd : IsDigit d = true := by rw [IsDigit_eq]; exact hds d List.mem_cons_self
  have hloop := @exponentLoop_eq (d :: ds') rest 0 hds hrest (by decide)
  rw [Nat.cast_zero] at hloop
  rw [ExpPart.text, List.cons_append, readExpPart, if_pos he, List.append_assoc, List.cons_append]
  simp only [readExponentSign_append hs (show startsWithDigit (d :: (ds' ++ rest)) = true from hd)]
  rw [if_pos hd, ← List.cons_append, hloop]
  simp only [ExpPart.magnitude, ExpPart.negative]
  by_cases hle : ((Nat.ofDigitChars 10 (d :: ds') 0 : Nat) : Int) ≤ UPPER_BOUND
  · simp only [hle, if_true]
    rfl
  · simp only [hle, if_false]
    rfl

/-- The exponent `ParseFixedPoint` scales by: the written one, less the places
of the fraction, plus the zeros kept aside and `decimals`. -/
def finalExponent (exponent_sign : Bool) (exponent : Int) (point_ofs mantissa_tzeros : Nat) (decimals : Int) : Int :=
  (if exponent_sign then -exponent else exponent) - point_ofs + mantissa_tzeros + decimals

/-- With the mantissa and the exponent within `UPPER_BOUND` and the counts
within an `int`, no step of the end overflows, and the value is returned
exactly when it scales within `UPPER_BOUND`. -/
theorem finish_eq (mantissa_sign : Bool) {m : Nat} (hm : (m : Int) ≤ UPPER_BOUND) {tz po : Nat}
    (htz : tz < 2 ^ 31) (hpo : po < 2 ^ 31) (exponent_sign : Bool) {e : Nat} (he : (e : Int) ≤ UPPER_BOUND)
    {decimals : Int} (hdec : |decimals| < 2 ^ 31) :
    finish mantissa_sign m tz po exponent_sign e decimals =
      .ok (if 0 ≤ finalExponent exponent_sign e po tz decimals ∧ finalExponent exponent_sign e po tz decimals < 18 ∧
          (m : Int) * 10 ^ (finalExponent exponent_sign e po tz decimals).toNat ≤ UPPER_BOUND then
        some ((if mantissa_sign then -(m : Int) else m) * 10 ^ (finalExponent exponent_sign e po tz decimals).toNat)
      else none) := by
  have hub : UPPER_BOUND = 10 ^ 18 - 1 := rfl
  have hd := abs_lt.mp hdec
  have hexp : applySign exponent_sign e = .ok (if exponent_sign then -(e : Int) else e) := by
    cases exponent_sign with
    | true => exact checkedInt64_eq (by omega) (by omega)
    | false => rfl
  have hman : applySign mantissa_sign m = .ok (if mantissa_sign then -(m : Int) else m) := by
    cases mantissa_sign with
    | true => exact checkedInt64_eq (by omega) (by omega)
    | false => rfl
  -- the finalized exponent stays within `UPPER_BOUND + 2^32`, far from overflow
  have hsigned : |(if exponent_sign then -(e : Int) else e)| ≤ UPPER_BOUND := by
    cases exponent_sign <;> simp <;> omega
  have hs := abs_le.mp hsigned
  rw [finish, hexp, Except.ok_bind, checkedInt64_eq (by omega) (by omega), Except.ok_bind,
    checkedInt64_eq (by omega) (by omega), Except.ok_bind, hman, Except.ok_bind,
    checkedInt64_eq (by omega) (by omega), Except.ok_bind]
  rw [show (if exponent_sign then -(e : Int) else e) - po + tz + decimals =
    finalExponent exponent_sign e po tz decimals from rfl]
  generalize finalExponent exponent_sign e po tz decimals = k
  have hsm : |(if mantissa_sign then -(m : Int) else m)| = m := by
    cases mantissa_sign <;> simp
  by_cases hk0 : k < 0
  · rw [if_pos hk0, if_neg (by omega)]
    rfl
  by_cases hk18 : k ≥ 18
  · rw [if_neg hk0, if_pos hk18, if_neg (by omega)]
    rfl
  rw [if_neg hk0, if_neg hk18, scaleLoop_eq _ (by rw [hsm]; exact hm), hsm]
  by_cases hfit : (m : Int) * 10 ^ k.toNat ≤ UPPER_BOUND
  · -- within the bound, the last check passes
    have habs : |(if mantissa_sign then -(m : Int) else m) * 10 ^ k.toNat| = m * 10 ^ k.toNat := by
      rw [abs_mul, hsm, abs_of_nonneg (pow_nonneg (by decide) _)]
    have hv := abs_le.mp (habs ▸ hfit)
    have hin : ¬((if mantissa_sign then -(m : Int) else m) * 10 ^ k.toNat > UPPER_BOUND ∨
        (if mantissa_sign then -(m : Int) else m) * 10 ^ k.toNat < -UPPER_BOUND) := by
      omega
    rw [if_pos hfit, if_pos (show 0 ≤ k ∧ k < 18 ∧ _ from ⟨by omega, by omega, hfit⟩), Except.ok_bind]
    dsimp only
    rw [if_neg hin]
    rfl
  · rw [if_neg hfit, if_neg (fun h => hfit h.2.2)]
    rfl

/-! ## `ParseFixedPoint` on the text of a literal -/

theorem startsWithDigit_expText {xp : Option ExpPart} (hxp : ∀ x ∈ xp, x.WF) : startsWithDigit (expText xp) = false := by
  cases xp with
  | none => rfl
  | some x =>
    rcases (hxp x rfl).1 with h | h <;> simp [expText, ExpPart.text, startsWithDigit, h]

theorem head_expText {xp : Option ExpPart} (hxp : ∀ x ∈ xp, x.WF) : (expText xp).head? ≠ some '.' := by
  cases xp with
  | none => simp [expText]
  | some x =>
    rcases (hxp x rfl).1 with h | h <;> simp [expText, ExpPart.text, h]

theorem head_append_of_IntPartWF {ip : List Char} (hip : IntPartWF ip) (q : List Char) : (ip ++ q).head? ≠ some '-' := by
  rcases hip with rfl | ⟨c, cs, rfl, h1, -, -⟩
  · simp
  · simp only [List.cons_append, List.head?_cons, ne_eq, Option.some.injEq]
    rintro rfl
    exact absurd h1 (by decide)

/-- The counts `ParseFixedPoint` keeps in an `int` stay below the length of
the text. -/
theorem length_render_le (L : Literal) :
    L.fracDigits.length ≤ L.render.length ∧ L.mantissa.2 ≤ L.render.length := by
  have hint : (intDigits L.intPart).length ≤ L.intPart.length := by
    unfold intDigits
    split <;> simp
  have hfrac : L.fracDigits.length ≤ (fracText L.fracPart).length := by
    cases h : L.fracPart <;> simp [Literal.fracDigits, fracText, h]
  have htz := digitsFold_snd_le (0, 0) (intDigits L.intPart ++ L.fracDigits)
  simp only [Literal.render, List.length_append, Literal.mantissa] at htz ⊢
  omega

/-- On the text of a literal, `ParseFixedPoint` never overflows, and it
returns the literal's mantissa scaled to `decimals` places exactly when the
literal passes its bounds. -/
theorem parse_render {L : Literal} (hL : L.WF) (hlen : L.render.length < 2 ^ 31) {decimals : Int}
    (hdec : |decimals| < 2 ^ 31) :
    parse L.render decimals = .ok (if L.Fits decimals then some (L.scaled decimals) else none) := by
  have hpo := lt_of_le_of_lt (length_render_le L).1 hlen
  have htz := lt_of_le_of_lt (length_render_le L).2 hlen
  obtain ⟨neg, ip, fp, xp⟩ := L
  obtain ⟨hip, hfp, hxp⟩ := hL
  rw [Literal.render] at hlen ⊢
  rw [parse, readSign_append neg (head_append_of_IntPartWF hip _)]
  dsimp only
  rw [readMantissa_append hip hfp (startsWithDigit_expText hxp) (head_expText hxp)]
  by_cases hM : ((digitsFold (0, 0) (intDigits ip ++ fp.getD [])).1 : Int) ≤ UPPER_BOUND
  · rw [if_pos hM, Except.ok_bind]
    dsimp only
    replace htz : (digitsFold (0, 0) (intDigits ip ++ fp.getD [])).2 < 2 ^ 31 := htz
    replace hpo : (fp.getD []).length < 2 ^ 31 := hpo
    cases xp with
    | none =>
      have hfin := finish_eq neg hM htz hpo false (e := 0) (by decide) hdec
      rw [Nat.cast_zero] at hfin
      rw [show readExpPart (expText none) = .ok (some (false, 0, [])) from rfl, Except.ok_bind]
      dsimp only
      rw [hfin, List.isEmpty_nil, if_neg (by decide)]
      exact congrArg Except.ok (Literal.ite_fits_eq (L := ⟨neg, ip, fp, none⟩) hM (fun _ h => nomatch h))
    | some x =>
      rw [show expText (some x) = x.text ++ [] from (List.append_nil _).symm, readExpPart_text (hxp x rfl) rfl]
      by_cases hE : (x.magnitude : Int) ≤ UPPER_BOUND
      · have hfin := finish_eq neg hM htz hpo x.negative hE hdec
        rw [if_pos hE, Except.ok_bind]
        dsimp only
        rw [hfin, List.isEmpty_nil, if_neg (by decide)]
        exact congrArg Except.ok (Literal.ite_fits_eq (L := ⟨neg, ip, fp, some x⟩) hM (fun _ h => by cases h; exact hE))
      · rw [if_neg hE, if_neg (fun h : Literal.Fits ⟨neg, ip, fp, some x⟩ decimals => hE (h.2.1 x rfl))]
        rfl
  · rw [if_neg hM, if_neg (fun h : Literal.Fits ⟨neg, ip, fp, xp⟩ decimals => hM h.1)]
    rfl

/-! ## `ParseFixedPoint` on any text -/

theorem readSign_spec (p : List Char) : p = (if (readSign p).1 then ['-'] else []) ++ (readSign p).2 := by
  rw [readSign.eq_def]
  split <;> rfl

/-- The integer part returns `false`, or it has read one of the grammar. -/
theorem readIntPart_cases (p : List Char) : readIntPart p = .ok none ∨
    ∃ (ip q : List Char) (m t : Nat), IntPartWF ip ∧ p = ip ++ q ∧ (m : Int) ≤ UPPER_BOUND ∧
      readIntPart p = .ok (some (m, t, q)) := by
  match p with
  | [] => exact .inl rfl
  | c :: q =>
    by_cases h0 : c = '0'
    · subst h0
      exact .inr ⟨['0'], q, 0, 0, .inl rfl, rfl, by decide, rfl⟩
    by_cases h19 : '1' ≤ c ∧ c ≤ '9'
    · obtain ⟨ds, rest, rfl, hds, hrest⟩ := exists_digits_append q
      have hip : IntPartWF (c :: ds) := .inr ⟨c, ds, rfl, h19.1, h19.2, hds⟩
      rw [← List.cons_append, readIntPart_append hip hrest]
      by_cases hM : ((digitsFold (0, 0) (intDigits (c :: ds))).1 : Int) ≤ UPPER_BOUND
      · rw [if_pos hM]
        exact .inr ⟨c :: ds, rest, _, _, hip, rfl, hM, rfl⟩
      · rw [if_neg hM]
        exact .inl rfl
    · left
      rw [readIntPart, if_neg h0, if_neg h19]
      rfl

/-- The fraction returns `false`, or it has read one of the grammar, or none. -/
theorem readFracPart_cases {m : Nat} (hm : (m : Int) ≤ UPPER_BOUND) (t : Nat) (p : List Char) :
    readFracPart m t p = .ok none ∨ ∃ fp rest x, FracPartWF fp ∧ p = fracText fp ++ rest ∧
      readFracPart m t p = .ok (some x) ∧ x.2.2.2 = rest := by
  by_cases hdot : p.head? = some '.'
  · obtain ⟨q, rfl⟩ : ∃ q, p = '.' :: q := List.head?_eq_some_iff.mp hdot
    match q with
    | [] => exact .inl rfl
    | c :: q =>
      by_cases hc : c.isDigit = true
      · obtain ⟨ds, rest, rfl, hds, hrest⟩ := exists_digits_append q
        have hf : c :: ds ≠ [] ∧ AllDigits (c :: ds) := ⟨List.cons_ne_nil _ _, List.forall_mem_cons.mpr ⟨hc, hds⟩⟩
        rw [← List.cons_append, readFracPart_point hf hrest hm t]
        by_cases hM : ((digitsFold (m, t) (c :: ds)).1 : Int) ≤ UPPER_BOUND
        · rw [if_pos hM]
          exact .inr ⟨some (c :: ds), rest, _, fun f hf' => by cases hf'; exact hf, rfl, rfl, rfl⟩
        · rw [if_neg hM]
          exact .inl rfl
      · left
        rw [readFracPart.eq_1, if_neg (by rwa [IsDigit_eq])]
        rfl
  · exact .inr ⟨none, p, _, (fun _ h => nomatch h), rfl, readFracPart_of_head m t hdot, rfl⟩

/-- The digits of the mantissa return `false`, or they have read an integer
part and a fraction of the grammar. -/
theorem readMantissa_cases (p : List Char) : readMantissa p = .ok none ∨
    ∃ ip fp rest x, IntPartWF ip ∧ FracPartWF fp ∧ p = ip ++ (fracText fp ++ rest) ∧
      readMantissa p = .ok (some x) ∧ x.2.2.2 = rest := by
  rw [readMantissa]
  rcases readIntPart_cases p with h | ⟨ip, q, m, t, hip, rfl, hm, h⟩
  · rw [h]
    exact .inl rfl
  · rw [h, Except.ok_bind]
    rcases readFracPart_cases hm t q with h' | ⟨fp, rest, x, hfp, rfl, h', hx⟩
    · exact .inl h'
    · exact .inr ⟨ip, fp, rest, x, hip, hfp, rfl, h', hx⟩

theorem readExponentSign_spec (q : List Char) : ∃ s q', (s = none ∨ s = some '+' ∨ s = some '-') ∧
    q = s.toList ++ q' ∧ readExponentSign q = (s == some '-', q') := by
  rw [readExponentSign.eq_def]
  split
  · exact ⟨some '+', _, .inr (.inl rfl), rfl, rfl⟩
  · exact ⟨some '-', _, .inr (.inr rfl), rfl, rfl⟩
  · exact ⟨none, _, .inl rfl, rfl, rfl⟩

/-- The exponent returns `false`, or it has read one of the grammar, or none. -/
theorem readExpPart_cases (p : List Char) : readExpPart p = .ok none ∨
    ∃ xp rest x, (∀ e ∈ xp, ExpPart.WF e) ∧ p = expText xp ++ rest ∧ readExpPart p = .ok (some x) ∧ x.2.2 = rest := by
  match p with
  | [] => exact .inr ⟨none, [], _, (fun _ h => nomatch h), rfl, rfl, rfl⟩
  | c :: q =>
    by_cases he : c = 'e' ∨ c = 'E'
    · obtain ⟨s, q', hs, rfl, hsign⟩ := readExponentSign_spec q
      match q' with
      | d :: q'' =>
        by_cases hd : d.isDigit = true
        · obtain ⟨ds, rest, rfl, hds, hrest⟩ := exists_digits_append q''
          have hx : ExpPart.WF ⟨c, s, d :: ds⟩ := ⟨he, hs, List.cons_ne_nil _ _, List.forall_mem_cons.mpr ⟨hd, hds⟩⟩
          have htext : c :: (s.toList ++ d :: (ds ++ rest)) = ExpPart.text ⟨c, s, d :: ds⟩ ++ rest := by
            simp [ExpPart.text]
          rw [htext, readExpPart_text hx hrest]
          by_cases hE : ((ExpPart.magnitude ⟨c, s, d :: ds⟩ : Nat) : Int) ≤ UPPER_BOUND
          · rw [if_pos hE]
            exact .inr ⟨some ⟨c, s, d :: ds⟩, rest, _, fun e he' => by cases he'; exact hx, rfl, rfl, rfl⟩
          · rw [if_neg hE]
            exact .inl rfl
        · left
          rw [readExpPart, if_pos he]
          simp only [hsign]
          rw [if_neg (by rwa [IsDigit_eq])]
          rfl
      | [] =>
        left
        rw [readExpPart, if_pos he]
        simp only [hsign]
        rfl
    · exact .inr ⟨none, c :: q, (false, 0, c :: q), (fun _ h => nomatch h), rfl, by rw [readExpPart, if_neg he]; rfl,
        rfl⟩

/-- `ParseFixedPoint` returns `false`, or it has read a literal of the
grammar. -/
theorem parse_cases (p : List Char) (decimals : Int) :
    parse p decimals = .ok none ∨ ∃ L : Literal, L.WF ∧ L.render = p := by
  have hsign := readSign_spec p
  rw [parse]
  generalize readSign p = sq at hsign ⊢
  obtain ⟨s, q⟩ := sq
  dsimp only at hsign ⊢
  rcases readMantissa_cases q with h | ⟨ip, fp, rest, ⟨po, m, t, r⟩, hip, hfp, rfl, h, rfl⟩
  · rw [h]
    exact .inl rfl
  rw [h, Except.ok_bind]
  dsimp only
  rcases readExpPart_cases r with h' | ⟨xp, rest, ⟨es, e, r'⟩, hxp, hrest, h', rfl⟩
  · rw [h']
    exact .inl rfl
  rw [h', Except.ok_bind]
  dsimp only
  cases r' with
  | nil =>
    rw [List.append_nil] at hrest
    exact .inr ⟨⟨s, ip, fp, xp⟩, ⟨hip, hfp, hxp⟩, by rw [hsign, Literal.render, hrest]⟩
  | cons c r' =>
    left
    rfl

/-- `ParseFixedPoint` never overflows on a text of fewer than `2^31`
characters: it returns `false`, or it has read a literal and returns what
`parse_render` says. -/
theorem parse_ok {p : List Char} (hlen : p.length < 2 ^ 31) {decimals : Int} (hdec : |decimals| < 2 ^ 31) :
    parse p decimals = .ok none ∨ ∃ L : Literal, L.WF ∧ L.render = p ∧
      parse p decimals = .ok (if L.Fits decimals then some (L.scaled decimals) else none) := by
  rcases parse_cases p decimals with h | ⟨L, hL, rfl⟩
  · exact .inl h
  · exact .inr ⟨L, hL, rfl, parse_render hL hlen hdec⟩

/-! ## `ParseFixedPoint` -/

/-- `ParseFixedPoint` reads fewer than `2^31` characters. -/
theorem length_visible_lt (val : List Char) : (visible val).length < 2 ^ 31 := by
  have hlt := Int.bmod_lt (x := (val.length : Int)) (m := 2 ^ 32) (by decide)
  rw [visible, List.length_take, BitVec.toInt_ofNat']
  omega

/-- A text of fewer than `2^31` characters is read whole. -/
theorem visible_of_lt {val : List Char} (h : val.length < 2 ^ 31) : visible val = val := by
  rw [visible, BitVec.toInt_ofNat', Int.bmod_eq_of_le (by omega) (by omega)]
  exact List.take_of_length_le (by omega)

theorem parseFixedPoint_exact (val : List Char) {decimals : Int} (hdec : 0 ≤ decimals ∧ decimals ≤ 17) :
    (∃ r, ParseFixedPoint val decimals = .ok r) ∧
    (val.length < 2 ^ 31 → ∀ m, ParseFixedPoint val decimals = .ok (some m) →
      ∃ L : Literal, L.WF ∧ L.render = val ∧ (m : ℚ) = L.value * 10 ^ decimals ∧ |m| ≤ UPPER_BOUND) ∧
    (∀ L : Literal, L.WF → L.expPart = none → L.render.length < 2 ^ 31 → ∀ n : Int,
      L.value * 10 ^ decimals = n → |n| ≤ UPPER_BOUND → ParseFixedPoint L.render decimals = .ok (some n)) := by
  have hd : |decimals| < 2 ^ 31 := abs_lt.mpr ⟨by omega, by omega⟩
  refine ⟨?_, fun hlen m hm => ?_, fun L hL hx hlen n hn hnb => ?_⟩
  · -- no overflow, on any text
    rcases parse_ok (length_visible_lt val) hd with h | ⟨L, -, -, h⟩
    · exact ⟨_, h⟩
    · exact ⟨_, h⟩
  · -- what is accepted is a literal, and the value stored is its exact value
    rw [ParseFixedPoint, visible_of_lt hlen] at hm
    rcases parse_ok hlen hd with h | ⟨L, hL, hr, h⟩
    · rw [h] at hm
      cases hm
    · rw [h] at hm
      by_cases hfit : L.Fits decimals
      · rw [if_pos hfit] at hm
        cases hm
        exact ⟨L, hL, hr, Literal.scaled_eq_value hL hfit.2.2.1, Literal.abs_scaled_le hfit⟩
      · rw [if_neg hfit] at hm
        cases hm
  · -- every representable literal without an exponent is accepted
    obtain ⟨hfit, hsc⟩ := Literal.fits_of_value hL hx hdec.1 hdec.2 hn hnb
    rw [ParseFixedPoint, visible_of_lt hlen, parse_render hL hlen hd, if_pos hfit, hsc]

/-- `1.5` at eight places. -/
theorem parseFixedPoint_exact_one_and_a_half :
    ParseFixedPoint (⟨false, ['1'], some ['5'], none⟩ : Literal).render 8 = .ok (some 150000000) :=
  (parseFixedPoint_exact ['1', '.', '5'] (by decide)).2.2 ⟨false, ['1'], some ['5'], none⟩
    ⟨.inr ⟨'1', [], rfl, by decide, by decide, (fun _ h => nomatch h)⟩, (fun _ h => by cases h; decide),
      (fun _ h => nomatch h)⟩
    rfl (by decide) 150000000
    (by norm_num [Literal.value, Literal.writtenExponent, Literal.fracDigits, Nat.ofDigitChars,
      show '0'.toNat = 48 from rfl, show '1'.toNat = 49 from rfl, show '5'.toNat = 53 from rfl])
    (by decide)

/-- A literal of `2^32 + 1` characters: `int end = val.size()` keeps its
length modulo `2^32`, so `ParseFixedPoint` reads the `1` alone, while the
literal stands for `10^(2^32)`. -/
theorem parseFixedPoint_long_literal :
    ParseFixedPoint ('1' :: List.replicate (2 ^ 32) '0') 0 = .ok (some 1) ∧
      (⟨false, '1' :: List.replicate (2 ^ 32) '0', none, none⟩ : Literal).WF ∧
      (⟨false, '1' :: List.replicate (2 ^ 32) '0', none, none⟩ : Literal).render =
        '1' :: List.replicate (2 ^ 32) '0' ∧
      (⟨false, '1' :: List.replicate (2 ^ 32) '0', none, none⟩ : Literal).value = 10 ^ 2 ^ 32 := by
  -- the list is never unfolded: each step rewrites it as a whole
  have hvis : visible ('1' :: List.replicate (2 ^ 32) '0') = ['1'] := by
    rw [visible, List.length_cons, List.length_replicate,
      show (BitVec.ofNat 32 (2 ^ 32 + 1)).toInt.toNat = 1 by decide, List.take_succ_cons, List.take_zero]
  have hdigits : Nat.ofDigitChars 10 ('1' :: List.replicate (2 ^ 32) '0' ++ []) 0 = 10 ^ 2 ^ 32 := by
    rw [List.append_nil, ← List.singleton_append, ofDigitChars_append_zeros,
      show Nat.ofDigitChars 10 ['1'] 0 = 1 by decide, Nat.one_mul]
  refine ⟨?_, ⟨.inr ⟨'1', _, rfl, by decide, by decide, allDigits_replicate_zero _⟩, (fun _ h => nomatch h),
    (fun _ h => nomatch h)⟩, ?_, ?_⟩
  · rw [ParseFixedPoint, hvis]
    rfl
  · rw [Literal.render, if_neg Bool.false_ne_true, List.nil_append]
    show _ ++ ([] ++ []) = _
    rw [List.append_nil, List.append_nil]
  · rw [Literal.value, Literal.fracDigits, Literal.writtenExponent]
    dsimp only
    rw [Option.getD_none, hdigits, if_neg Bool.false_ne_true, List.length_nil, Nat.cast_zero, sub_zero, zpow_zero,
      one_mul, mul_one, Nat.cast_pow, Nat.cast_ofNat]

end FixedPoint

end BitcoinAbc
