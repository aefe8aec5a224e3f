import Mathlib
import BitcoinAbc.Pow.Asert

/-!
# 63-bit overflow-checked arithmetic (script/intmath.h)

Script numbers are 63 bits and a sign: `INT64_MIN` is not one.
`AddInt63Overflow` and `SubInt63Overflow` compute a sum or a difference and
say whether it is such a number, through the compiler's overflow builtins
where it has them and through comparisons that cannot overflow where it does
not. Every `int64_t` operation of the emulated versions is an `int64Op`, so
that a signed overflow would show as an error.

- `Int63Result v out`: the flag of `out` is set exactly when `v` is not a
  63-bit number, and `out` holds `v` when it is clear;
- `AddInt63OverflowEmulated_spec`, `SubInt63OverflowEmulated_spec`: on 63-bit
  arguments the emulated versions meet it with no overflow, one case for each
  branch of the source; `int63OfBuiltin_spec`: so do the builtins;
- `Int63Overflow_exact`: hence both builds return the same flag and, when it
  is clear, the same result (`Int63Result.agree`).
-/

namespace BitcoinAbc

namespace Script

open BitcoinAbc.Pow (int64Op int64Op_eq_ok Fault)
open CScriptNum (inInt64_iff inInt64_of_natAbs_lt)

/-- `AddInt63OverflowEmulated(a, b, result)`: the flag it returns and
`result` after the call. -/
def AddInt63OverflowEmulated (a b result : Int) : Except Fault (Bool × Int) := do
  if a > 0 then
    if b > (← int64Op (INT64_MAX - a)) then
      -- integer overflow
      return (true, result)
  if a < 0 then
    if b ≤ (← int64Op (INT64_MIN - a)) then
      -- integer underflow
      return (true, result)
  let result ← int64Op (a + b)
  return (result == INT64_MIN, result)

/-- `SubInt63OverflowEmulated(a, b, result)`. -/
def SubInt63OverflowEmulated (a b result : Int) : Except Fault (Bool × Int) := do
  if a < 0 then
    if b > (← int64Op (INT64_MAX + a)) then
      -- integer overflow
      return (true, result)
  if a > 0 then
    if b ≤ (← int64Op (INT64_MIN + a)) then
      -- integer underflow
      return (true, result)
  let result ← int64Op (a - b)
  return (result == INT64_MIN, result)

/-- What `AddInt63Overflow` and `SubInt63Overflow` return from the builtins
`__builtin_saddll_overflow` and `__builtin_ssubll_overflow`, for the exact
value `v`: these store `v` wrapped to 64 bits and say whether it overflowed. -/
def int63OfBuiltin (v : Int) : Bool × Int :=
  let result := (v + 2 ^ 63) % 2 ^ 64 - 2 ^ 63
  if !inInt64 v then (true, result) else (result == INT64_MIN, result)

/-- `AddInt63Overflow(a, b, result)`; `builtin` tells whether
`HAVE_DECL___BUILTIN_SADDLL_OVERFLOW` holds. -/
def AddInt63Overflow (builtin : Bool) (a b result : Int) : Except Fault (Bool × Int) :=
  if builtin then pure (int63OfBuiltin (a + b)) else AddInt63OverflowEmulated a b result

/-- `SubInt63Overflow(a, b, result)`; `builtin` tells whether
`HAVE_DECL___BUILTIN_SSUBLL_OVERFLOW` holds. -/
def SubInt63Overflow (builtin : Bool) (a b result : Int) : Except Fault (Bool × Int) :=
  if builtin then pure (int63OfBuiltin (a - b)) else SubInt63OverflowEmulated a b result

/-- `out` is what a checked operation with exact value `v` is to return: a
flag set exactly when `v` is not a 63-bit number with a sign, and `v` itself
when the flag is clear. -/
def Int63Result (v : Int) (out : Bool × Int) : Prop :=
  (out.1 = true ↔ ¬v.natAbs < 2 ^ 63) ∧ (out.1 = false → out.2 = v)

theorem int63Result_flag {v r : Int} (hv : ¬v.natAbs < 2 ^ 63) : Int63Result v (true, r) :=
  ⟨iff_of_true rfl hv, fun h => Bool.noConfusion h⟩

/-- A 63-bit `result` is returned with the flag clear. -/
theorem int63Result_exact {v : Int} (hv : v.natAbs < 2 ^ 63) : Int63Result v (v == INT64_MIN, v) := by
  have hmin : (v == INT64_MIN) = false := by
    rw [beq_eq_false_iff_ne]
    unfold INT64_MIN
    omega
  rw [hmin]
  exact ⟨iff_of_false Bool.false_ne_true (not_not.mpr hv), fun _ => rfl⟩

theorem int63OfBuiltin_spec (v : Int) : Int63Result v (int63OfBuiltin v) := by
  unfold int63OfBuiltin
  by_cases hv : inInt64 v = true
  · -- the builtin did not overflow, and stored `v` itself
    have hwrap : (v + 2 ^ 63) % 2 ^ 64 - 2 ^ 63 = v := by
      rw [inInt64_iff] at hv
      omega
    rw [hv, Bool.not_true, if_neg Bool.false_ne_true, hwrap]
    rw [inInt64_iff] at hv
    by_cases hmin : v = INT64_MIN
    · rw [hmin, beq_self_eq_true]
      exact int63Result_flag (by unfold INT64_MIN; omega)
    · exact int63Result_exact (by unfold INT64_MIN at hmin; omega)
  · rw [Bool.not_eq_true] at hv
    rw [hv, Bool.not_false, if_pos rfl]
    exact int63Result_flag (fun h => Bool.false_ne_true (hv ▸ inInt64_of_natAbs_lt h))

/-- The last two lines of both emulated functions, on an exact value that is
63 bits. -/
theorem int64Op_finish {v : Int} (hv : v.natAbs < 2 ^ 63) :
    ∃ out, (int64Op v >>= fun result => pure (result == INT64_MIN, result) : Except Fault (Bool × Int)) =
      .ok out ∧ Int63Result v out :=
  ⟨_, by rw [int64Op_eq_ok (inInt64_of_natAbs_lt hv)]; rfl, int63Result_exact hv⟩

theorem AddInt63OverflowEmulated_spec {a b : Int} (ha : a.natAbs < 2 ^ 63) (hb : b.natAbs < 2 ^ 63)
    (result : Int) : ∃ out, AddInt63OverflowEmulated a b result = .ok out ∧ Int63Result (a + b) out := by
  unfold AddInt63OverflowEmulated
  by_cases hpos : a > 0
  · rw [if_pos hpos, int64Op_eq_ok (inInt64_of_natAbs_lt (by unfold INT64_MAX; omega)), Except.ok_bind]
    by_cases hover : b > INT64_MAX - a
    · -- integer overflow
      rw [if_pos hover]
      exact ⟨_, rfl, int63Result_flag (by unfold INT64_MAX at hover; omega)⟩
    · rw [if_neg hover]
      dsimp only
      rw [if_neg (by omega)]
      exact int64Op_finish (by unfold INT64_MAX at hover; omega)
  · rw [if_neg hpos]
    dsimp only
    by_cases hneg : a < 0
    · rw [if_pos hneg, int64Op_eq_ok (inInt64_of_natAbs_lt (by unfold INT64_MIN; omega)), Except.ok_bind]
      by_cases hunder : b ≤ INT64_MIN - a
      · -- integer underflow
        rw [if_pos hunder]
        exact ⟨_, rfl, int63Result_flag (by unfold INT64_MIN at hunder; omega)⟩
      · rw [if_neg hunder]
        exact int64Op_finish (by unfold INT64_MIN at hunder; omega)
    · rw [if_neg hneg]
      exact int64Op_finish (by omega)

theorem SubInt63OverflowEmulated_spec {a b : Int} (ha : a.natAbs < 2 ^ 63) (hb : b.natAbs < 2 ^ 63)
    (result : Int) : ∃ out, SubInt63OverflowEmulated a b result = .ok out ∧ Int63Result (a - b) out := by
  unfold SubInt63OverflowEmulated
  by_cases hneg : a < 0
  · rw [if_pos hneg, int64Op_eq_ok (inInt64_of_natAbs_lt (by unfold INT64_MAX; omega)), Except.ok_bind]
    by_cases hover : b > INT64_MAX + a
    · -- integer overflow
      rw [if_pos hover]
      exact ⟨_, rfl, int63Result_flag (by unfold INT64_MAX at hover; omega)⟩
    · rw [if_neg hover]
      dsimp only
      rw [if_neg (by omega)]
      exact int64Op_finish (by unfold INT64_MAX at hover; omega)
  · rw [if_neg hneg]
    dsimp only
    by_cases hpos : a > 0
    · rw [if_pos hpos, int64Op_eq_ok (inInt64_of_natAbs_lt (by unfold INT64_MIN; omega)), Except.ok_bind]
      by_cases hunder : b ≤ INT64_MIN + a
      · -- integer underflow
        rw [if_pos hunder]
        exact ⟨_, rfl, int63Result_flag (by unfold INT64_MIN at hunder; omega)⟩
      · rw [if_neg hunder]
        exact int64Op_finish (by unfold INT64_MIN at hunder; omega)
    · rw [if_neg hpos]
      exact int64Op_finish (by omega)

/-- Two results that meet the specification of one exact value have the same
flag, and the same value when the flag is clear. -/
theorem Int63Result.agree {v : Int} {out out' : Bool × Int} (h : Int63Result v out) (h' : Int63Result v out') :
    out.1 = out'.1 ∧ (out.1 = false → out.2 = out'.2) := by
  have hflag : out.1 = out'.1 := by
    cases hb : out.1 <;> cases hb' : out'.1
    · rfl
    · exact absurd (h.1.mpr (h'.1.mp hb')) (by rw [hb]; exact Bool.false_ne_true)
    · exact absurd (h'.1.mpr (h.1.mp hb)) (by rw [hb']; exact Bool.false_ne_true)
    · rfl
  exact ⟨hflag, fun hf => (h.2 hf).trans (h'.2 (hflag ▸ hf)).symm⟩

theorem AddInt63Overflow_spec (builtin : Bool) {a b : Int} (ha : a.natAbs < 2 ^ 63) (hb : b.natAbs < 2 ^ 63)
    (result : Int) : ∃ out, AddInt63Overflow builtin a b result = .ok out ∧ Int63Result (a + b) out := by
  cases builtin with
  | true => exact ⟨_, rfl, int63OfBuiltin_spec _⟩
  | false => exact AddInt63OverflowEmulated_spec ha hb result

theorem SubInt63Overflow_spec (builtin : Bool) {a b : Int} (ha : a.natAbs < 2 ^ 63) (hb : b.natAbs < 2 ^ 63)
    (result : Int) : ∃ out, SubInt63Overflow builtin a b result = .ok out ∧ Int63Result (a - b) out := by
  cases builtin with
  | true => exact ⟨_, rfl, int63OfBuiltin_spec _⟩
  | false => exact SubInt63OverflowEmulated_spec ha hb result

/-- On arguments of 63 bits and a sign, the emulated functions flag exactly
the results that are not such numbers and return the exact result otherwise,
with no `int64_t` operation that overflows; and the builtin versions return
the same flag and, when it is clear, the same result. -/
theorem Int63Overflow_exact (builtin : Bool) {a b : Int} (ha : a.natAbs < 2 ^ 63) (hb : b.natAbs < 2 ^ 63)
    (result : Int) :
    (∃ out, AddInt63OverflowEmulated a b result = .ok out ∧ Int63Result (a + b) out) ∧
    (∃ out, SubInt63OverflowEmulated a b result = .ok out ∧ Int63Result (a - b) out) ∧
    (∃ out out', AddInt63Overflow builtin a b result = .ok out ∧ AddInt63OverflowEmulated a b result = .ok out' ∧
      out.1 = out'.1 ∧ (out.1 = false → out.2 = out'.2)) ∧
    (∃ out out', SubInt63Overflow builtin a b result = .ok out ∧ SubInt63OverflowEmulated a b result = .ok out' ∧
      out.1 = out'.1 ∧ (out.1 = false → out.2 = out'.2)) := by
  obtain ⟨add, hadd, hadd_spec⟩ := AddInt63OverflowEmulated_spec ha hb result
  obtain ⟨sub, hsub, hsub_spec⟩ := SubInt63OverflowEmulated_spec ha hb result
  obtain ⟨add', hadd', hadd'_spec⟩ := AddInt63Overflow_spec builtin ha hb result
  obtain ⟨sub', hsub', hsub'_spec⟩ := SubInt63Overflow_spec builtin ha hb result
  exact ⟨⟨add, hadd, hadd_spec⟩, ⟨sub, hsub, hsub_spec⟩, ⟨add', add, hadd', hadd, hadd'_spec.agree hadd_spec⟩,
    ⟨sub', sub, hsub', hsub, hsub'_spec.agree hsub_spec⟩⟩

theorem Int63Overflow_exact_halves :
    ((2 ^ 62 : Int).natAbs < 2 ^ 63 ∧ (2 ^ 62 : Int).natAbs < 2 ^ 63) ∧
      ∃ out, AddInt63OverflowEmulated (2 ^ 62) (2 ^ 62) 0 = .ok out ∧ Int63Result (2 ^ 62 + 2 ^ 62) out :=
  ⟨⟨by decide, by decide⟩, (Int63Overflow_exact true (a := 2 ^ 62) (b := 2 ^ 62) (by decide) (by decide) 0).1⟩

end Script

end BitcoinAbc
