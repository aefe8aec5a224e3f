import Mathlib
import BitcoinAbc.Script.Types

/-!
# `CScriptNum`: script numbers (script/script.h, script.cpp)

Numeric opcodes read their operands as little-endian sign-magnitude byte
strings and compute on an `int64_t`. The class enforces two different kinds of
limits, and the model keeps them apart:

- the byte-vector constructor *throws* `scriptnum_error` on an operand longer
  than `nMaxNumSize` bytes (4 by default, 5 for the lock-time opcodes) or, when
  minimal encoding is required, on a non-minimal one: an `Exception` the
  interpreter catches;
- `+=`, `-=` and unary `-` *assert* that the result fits in `int64_t`, and
  `+`, `-`, `/`, `%` are plain `int64_t` operations whose overflow is
  undefined: both are `Thrown.abort`.

`m_value` is an `Int`; every operation that could leave the `int64_t` range
checks it, so a value built by the model is an `int64_t` value whenever the
program did not abort.
-/

namespace BitcoinAbc

namespace Script

/-- `std::numeric_limits<int64_t>::min()` and `max()`. -/
def INT64_MIN : Int := -2 ^ 63
def INT64_MAX : Int := 2 ^ 63 - 1

/-- `std::numeric_limits<int>::min()` and `max()`. -/
def INT_MIN : Int := -2 ^ 31
def INT_MAX : Int := 2 ^ 31 - 1

/-- `v` is an `int64_t` value. -/
def inInt64 (v : Int) : Bool := decide (INT64_MIN ≤ v ∧ v ≤ INT64_MAX)

/-- The little-endian value of a byte string. -/
def leValue : List UInt8 → Nat
  | [] => 0
  | b :: bs => b.toNat + 256 * leValue bs

/-- The little-endian bytes of a magnitude: the loop of `serialize` that
pushes `absvalue & 0xff` while `absvalue` is non-zero. -/
def leBytes (n : Nat) : List UInt8 :=
  if h : n = 0 then [] else (n % 256).toUInt8 :: leBytes (n / 256)
termination_by n
decreasing_by omega

/-- A script number (`CScriptNum`); `m_value` is its `int64_t`. -/
structure CScriptNum where
  m_value : Int
  deriving DecidableEq, Repr

namespace CScriptNum

/-- `MAXIMUM_ELEMENT_SIZE`: the default operand size limit. -/
def MAXIMUM_ELEMENT_SIZE : Nat := 4

/-- `set_vch`: the value of a sign-magnitude byte string; the top bit of the
last byte is the sign. -/
def set_vch (vch : valtype) : Int :=
  match vch.getLast? with
  | none => 0
  | some last =>
    let result := leValue vch
    if last &&& 0x80 != 0 then
      -- `result & ~(0x80ULL << (8 * (vch.size() - 1)))`, negated
      -((result - 0x80 * 256 ^ (vch.length - 1) : Nat) : Int)
    else result

/-- `serialize`: the minimal sign-magnitude encoding of an `int64_t`. -/
def serialize (value : Int) : valtype :=
  if value = 0 then []
  else
    let neg := decide (value < 0)
    let result := leBytes value.natAbs
    match result.getLast? with
    | none => result
    | some back =>
      if back &&& 0x80 != 0 then result ++ [if neg then 0x80 else 0]
      else if neg then result.dropLast ++ [back ||| 0x80]
      else result

/-- `getvch`. -/
def getvch (n : CScriptNum) : valtype := serialize n.m_value

/-- `IsMinimallyEncoded(vch, nMaxNumSize)`. -/
def IsMinimallyEncoded (vch : valtype) (nMaxNumSize : Nat := MAXIMUM_ELEMENT_SIZE) :
    Bool :=
  if vch.length > nMaxNumSize then false
  else
    match vch.getLast? with
    | none => true
    | some back =>
      -- the most significant byte, sign bit excluded, may only be zero when
      -- the byte below it has its top bit set
      if back &&& 0x7f = 0 then
        !(vch.length ≤ 1 || (vch.getD (vch.length - 2) 0) &&& 0x80 = 0)
      else true

/-- The byte-vector constructor `CScriptNum(vch, fRequireMinimal,
nMaxNumSize)`. -/
def ofVch (vch : valtype) (fRequireMinimal : Bool)
    (nMaxNumSize : Nat := MAXIMUM_ELEMENT_SIZE) : Except Thrown CScriptNum :=
  if vch.length > nMaxNumSize then .error (.exn .scriptnum_error)
  else if fRequireMinimal && !IsMinimallyEncoded vch nMaxNumSize then
    .error (.exn .scriptnum_error)
  else .ok ⟨set_vch vch⟩

/-- Requiring minimal encoding only rejects more operands; an accepted operand
has the same value either way. -/
@[gcongr] theorem ofVch_succLe {a b : Bool} (h : a ≤ b) (vch : valtype) (nMaxNumSize : Nat) :
    Except.SuccLe (ofVch vch a nMaxNumSize) (ofVch vch b nMaxNumSize) := by
  unfold ofVch
  refine Except.SuccLe.ite (fun _ => Except.SuccLe.refl _) fun _ => ?_
  exact Except.SuccLe.guard (by simpa using fun ha hmin => ⟨h ha, hmin⟩) (Except.SuccLe.refl _)

/-! ### Operand bounds

An operand the constructor accepts has at most `nMaxNumSize` bytes, so its
magnitude is below `256 ^ nMaxNumSize`: below `2^32` for the default of 4
bytes. This is the bound that keeps the arithmetic below far from the ends of
`int64_t`. -/

theorem leValue_lt (l : List UInt8) : leValue l < 256 ^ l.length := by
  induction l with
  | nil => simp [leValue]
  | cons b bs ih =>
    have hb : b.toNat < 256 := b.toNat_lt
    simp only [leValue, List.length_cons, Nat.pow_succ]
    omega

theorem natAbs_set_vch_lt (vch : valtype) : (set_vch vch).natAbs < 256 ^ vch.length := by
  have hval := leValue_lt vch
  unfold set_vch
  split
  · exact Nat.pow_pos (by decide)
  · -- with the sign bit cleared the magnitude only gets smaller
    split
    · rw [Int.natAbs_neg, Int.natAbs_natCast]
      omega
    · rw [Int.natAbs_natCast]
      exact hval

theorem ofVch_natAbs_lt {vch : valtype} {fRequireMinimal : Bool} {nMaxNumSize : Nat}
    {bn : CScriptNum} (h : ofVch vch fRequireMinimal nMaxNumSize = .ok bn) :
    bn.m_value.natAbs < 256 ^ nMaxNumSize := by
  unfold ofVch at h
  split at h
  · cases h
  · rename_i hlen
    split at h
    · cases h
    · cases h
      calc (set_vch vch).natAbs < 256 ^ vch.length := natAbs_set_vch_lt vch
        _ ≤ 256 ^ nMaxNumSize := Nat.pow_le_pow_right (by decide) (by omega)

/-- The constructor fails only by throwing `scriptnum_error`. -/
theorem ofVch_eq_error {vch : valtype} {fRequireMinimal : Bool} {nMaxNumSize : Nat}
    {t : Thrown} (h : ofVch vch fRequireMinimal nMaxNumSize = .error t) :
    t = .exn .scriptnum_error := by
  unfold ofVch at h
  split at h
  · cases h
    rfl
  · split at h
    · cases h
      rfl
    · cases h

/-- The trimming loop of `MinimallyEncode`: `i` counts down from
`data.size() - 1` to `1`, looking for the last non-zero byte `data[i - 1]`. -/
def minimallyEncodeTrim (data : valtype) (last : UInt8) : Nat → valtype
  | 0 => []
  | i + 1 =>
    let b := data.getD i 0
    if b != 0 then
      if b &&& 0x80 != 0 then data.take (i + 1) ++ [last]
      else data.take i ++ [b ||| last]
    else minimallyEncodeTrim data last i

/-- `MinimallyEncode(data)`: returns whether it changed `data`, and the new
`data`. -/
def MinimallyEncode (data : valtype) : Bool × valtype :=
  match data.getLast? with
  | none => (false, data)
  | some last =>
    if last &&& 0x7f != 0 then (false, data)
    else if data.length = 1 then (true, [])
    else if (data.getD (data.length - 2) 0) &&& 0x80 != 0 then (false, data)
    else (true, minimallyEncodeTrim data last (data.length - 1))

/-- `getint()`: `m_value` clamped to the range of `int`. -/
def getint (n : CScriptNum) : Int :=
  if n.m_value > INT_MAX then INT_MAX
  else if n.m_value < INT_MIN then INT_MIN
  else n.m_value

/-! ## Arithmetic -/

/-- `operator+=(int64_t)`, with its assert. -/
def addAssign (n : CScriptNum) (rhs : Int) : Except Thrown CScriptNum := do
  assert (rhs == 0 || (rhs > 0 && n.m_value ≤ INT64_MAX - rhs) ||
    (rhs < 0 && n.m_value ≥ INT64_MIN - rhs))
  return ⟨n.m_value + rhs⟩

/-- `operator-=(int64_t)`, with its assert. -/
def subAssign (n : CScriptNum) (rhs : Int) : Except Thrown CScriptNum := do
  assert (rhs == 0 || (rhs > 0 && n.m_value ≥ INT64_MIN + rhs) ||
    (rhs < 0 && n.m_value ≤ INT64_MAX + rhs))
  return ⟨n.m_value - rhs⟩

/-- Unary `operator-`, with its assert. -/
def neg (n : CScriptNum) : Except Thrown CScriptNum := do
  assert (n.m_value != INT64_MIN)
  return ⟨-n.m_value⟩

/-- An `int64_t` result: signed overflow is undefined behaviour. -/
def ofInt64 (v : Int) : Except Thrown CScriptNum :=
  if inInt64 v then .ok ⟨v⟩ else .error .abort

/-- `operator+(const CScriptNum &)`. -/
def add (a b : CScriptNum) : Except Thrown CScriptNum := ofInt64 (a.m_value + b.m_value)

/-- `operator-(const CScriptNum &)`. -/
def sub (a b : CScriptNum) : Except Thrown CScriptNum := ofInt64 (a.m_value - b.m_value)

/-- `operator/(const CScriptNum &)`: `int64_t` division truncates; a zero
divisor is undefined behaviour. -/
def div (a b : CScriptNum) : Except Thrown CScriptNum :=
  if b.m_value = 0 then .error .abort else ofInt64 (a.m_value.tdiv b.m_value)

/-- `operator%(const CScriptNum &)`: the remainder of truncated division. -/
def mod (a b : CScriptNum) : Except Thrown CScriptNum :=
  if b.m_value = 0 then .error .abort
  else if a.m_value.tdiv b.m_value = 2 ^ 63 then .error .abort
  else ofInt64 (a.m_value.tmod b.m_value)

/-! ### Arithmetic within `int64_t`

Each operation returns its exact result when that result is an `int64_t`
(and, for `/` and `%`, the divisor is not zero): then no assert fires and no
overflow happens. -/

theorem inInt64_iff {v : Int} : inInt64 v = true ↔ -2 ^ 63 ≤ v ∧ v ≤ 2 ^ 63 - 1 := by
  unfold inInt64
  rw [decide_eq_true_iff]
  rfl

/-- `v` is an `int64_t` whenever its magnitude is below `2^63`. -/
theorem inInt64_of_natAbs_lt {v : Int} (h : v.natAbs < 2 ^ 63) : inInt64 v = true := by
  rw [inInt64_iff]
  omega

theorem addAssign_eq_ok {n : CScriptNum} {rhs : Int} (h : inInt64 (n.m_value + rhs) = true) :
    n.addAssign rhs = .ok ⟨n.m_value + rhs⟩ := by
  rw [inInt64_iff] at h
  have ha : assert (rhs == 0 || (decide (rhs > 0) && decide (n.m_value ≤ INT64_MAX - rhs)) ||
      (decide (rhs < 0) && decide (n.m_value ≥ INT64_MIN - rhs))) = .ok () := by
    simp only [assert_eq_ok, Bool.or_eq_true, Bool.and_eq_true, beq_iff_eq, decide_eq_true_eq]
    unfold INT64_MIN INT64_MAX
    omega
  unfold addAssign
  rw [ha]
  rfl

theorem subAssign_eq_ok {n : CScriptNum} {rhs : Int} (h : inInt64 (n.m_value - rhs) = true) :
    n.subAssign rhs = .ok ⟨n.m_value - rhs⟩ := by
  rw [inInt64_iff] at h
  have ha : assert (rhs == 0 || (decide (rhs > 0) && decide (n.m_value ≥ INT64_MIN + rhs)) ||
      (decide (rhs < 0) && decide (n.m_value ≤ INT64_MAX + rhs))) = .ok () := by
    simp only [assert_eq_ok, Bool.or_eq_true, Bool.and_eq_true, beq_iff_eq, decide_eq_true_eq]
    unfold INT64_MIN INT64_MAX
    omega
  unfold subAssign
  rw [ha]
  rfl

theorem neg_eq_ok {n : CScriptNum} (h : n.m_value ≠ INT64_MIN) : n.neg = .ok ⟨-n.m_value⟩ := by
  have ha : assert (n.m_value != INT64_MIN) = .ok () := by
    simpa using h
  unfold neg
  rw [ha]
  rfl

theorem ofInt64_eq_ok {v : Int} (h : inInt64 v = true) : ofInt64 v = .ok ⟨v⟩ := by
  simp [ofInt64, h]

theorem div_eq_ok {a b : CScriptNum} (hb : b.m_value ≠ 0)
    (h : inInt64 (a.m_value.tdiv b.m_value) = true) :
    div a b = .ok ⟨a.m_value.tdiv b.m_value⟩ := by
  unfold div
  rw [if_neg hb, ofInt64_eq_ok h]

theorem mod_eq_ok {a b : CScriptNum} (hb : b.m_value ≠ 0)
    (hq : a.m_value.tdiv b.m_value ≠ 2 ^ 63) (h : inInt64 (a.m_value.tmod b.m_value) = true) :
    mod a b = .ok ⟨a.m_value.tmod b.m_value⟩ := by
  unfold mod
  rw [if_neg hb, if_neg hq, ofInt64_eq_ok h]

end CScriptNum

end Script

end BitcoinAbc
