import Mathlib
import BitcoinAbc.Script.Interpreter
import BitcoinAbc.Script.NumEncoding

/-!
# `OP_NUM2BIN` and `OP_BIN2NUM` (script/interpreter.cpp)

`OP_NUM2BIN` writes the number below the top of the stack into exactly as many
bytes as the top says: it re-encodes the number minimally, then moves the sign
bit to a new last byte and fills the bytes between with zeros. `OP_BIN2NUM`
re-encodes minimally and requires the result to be a 4-byte number.

Both rest on `MinimallyEncode`, which gives the serialization of the value of
its input (`MinimallyEncode_eq_serialize`); so `OP_BIN2NUM` depends only on
the value of its operand (`opBin2Num_concat`), and the padded result of
`OP_NUM2BIN` has the value of its operand (`set_vch_num2bin_pad`). The round
trip is `opNum2Bin_opBin2Num`.
-/

namespace BitcoinAbc

namespace Script

open CScriptNum

/-- `MinimallyEncode` writes the serialization of its input's value. -/
theorem MinimallyEncode_eq_serialize (x : valtype) :
    (MinimallyEncode x).2 = serialize (set_vch x) := by
  obtain ⟨hmin, hval, -, -⟩ := MinimallyEncode_spec x
  rw [← hval, serialize_set_vch hmin]

/-! ## The size operand -/

section Size

variable {n : Nat}

/-- A size up to `MAX_SCRIPT_ELEMENT_SIZE`, pushed as a number, reads back as
itself, minimally encoded or not. -/
theorem ofVch_serialize (fRequireMinimal : Bool) (hn : n ≤ MAX_SCRIPT_ELEMENT_SIZE) :
    ofVch (serialize n) fRequireMinimal = .ok ⟨n⟩ := by
  have hlen : (serialize n).length ≤ 2 :=
    length_serialize_le (k := 1) (by unfold MAX_SCRIPT_ELEMENT_SIZE at hn; omega)
  have hmin : IsMinimallyEncoded (serialize n) MAXIMUM_ELEMENT_SIZE = true :=
    IsMinimallyEncoded_of_le (IsMinimallyEncoded_serialize _) (by unfold MAXIMUM_ELEMENT_SIZE; omega)
  have hnot : ¬(serialize n).length > MAXIMUM_ELEMENT_SIZE := by
    unfold MAXIMUM_ELEMENT_SIZE
    omega
  simp only [ofVch, hnot, hmin, if_false, Bool.not_true, Bool.and_false, Bool.false_eq_true,
    set_vch_serialize]

theorem toUInt64_getint (hn : n ≤ MAX_SCRIPT_ELEMENT_SIZE) :
    toUInt64 (getint ⟨n⟩) = n := by
  unfold MAX_SCRIPT_ELEMENT_SIZE at hn
  have hmax : ¬(n : Int) > INT_MAX := by unfold INT_MAX; omega
  have hmin : ¬(n : Int) < INT_MIN := by unfold INT_MIN; omega
  simp only [getint, hmax, hmin, if_false, toUInt64]
  rw [if_neg (by omega), Int.toNat_natCast]

end Size

/-! ## The padding -/

/-- Zero bytes on top add nothing to a magnitude. -/
theorem leValue_append_zeros (l : List UInt8) (k : Nat) :
    leValue (l ++ List.replicate k 0) = leValue l := by
  induction k with
  | zero => rw [List.replicate_zero, List.append_nil]
  | succ k ih =>
    rw [List.replicate_succ', ← List.append_assoc, leValue_concat, ih]
    simp

set_option maxRecDepth 4000 in
theorem and_0x80_and_0x80 (b : UInt8) : (b &&& 0x80) &&& 0x80 = b &&& 0x80 :=
  forall_byte (P := fun b => (b &&& 0x80) &&& 0x80 = b &&& 0x80) (by decide) b

set_option maxRecDepth 4000 in
theorem and_0x80_and_0x7f (b : UInt8) : (b &&& 0x80) &&& 0x7f = 0 :=
  forall_byte (P := fun b => (b &&& 0x80) &&& 0x7f = 0) (by decide) b

/-- The bytes `OP_NUM2BIN` writes for `rawnum` into `size` bytes: the
magnitude, zeros, and the sign in a last byte of its own. -/
def num2binPad (rawnum : valtype) (size : Nat) : valtype :=
  let signbit : UInt8 := match rawnum.getLast? with
    | some back => back &&& 0x80
    | none => 0x00
  let body := match rawnum.getLast? with
    | some back => rawnum.dropLast ++ [back &&& 0x7f]
    | none => rawnum
  body ++ List.replicate (size - 1 - body.length) 0x00 ++ [signbit]

theorem length_num2binPad {rawnum : valtype} {size : Nat} (h : rawnum.length < size) :
    (num2binPad rawnum size).length = size := by
  rcases List.eq_nil_or_concat rawnum with rfl | ⟨r, back, rfl⟩
  · simp only [num2binPad, List.getLast?_nil, List.length_append, List.length_replicate,
      List.length_nil, List.length_singleton] at h ⊢
    omega
  · simp only [num2binPad, List.concat_eq_append, List.getLast?_concat, List.dropLast_concat,
      List.length_append, List.length_replicate, List.length_singleton] at h ⊢
    omega

/-- The padded bytes read as the number they pad. -/
theorem set_vch_num2bin_pad (rawnum : valtype) (size : Nat) :
    set_vch (num2binPad rawnum size) = set_vch rawnum := by
  rcases List.eq_nil_or_concat rawnum with rfl | ⟨r, back, rfl⟩
  · -- zero: the zeros and a clear sign byte read as zero
    have hz : ∀ k, leValue (List.replicate k (0 : UInt8)) = 0 := fun k => by
      rw [← List.nil_append (List.replicate k 0), leValue_append_zeros]
      rfl
    simp only [num2binPad, List.getLast?_nil, List.nil_append, set_vch_concat, hz]
    rfl
  · simp only [num2binPad, List.concat_eq_append, List.getLast?_concat, List.dropLast_concat,
      set_vch_concat, and_0x80_and_0x80, and_0x80_and_0x7f, UInt8.toNat_zero, Nat.mul_zero,
      Nat.add_zero, leValue_append_zeros, leValue_concat]

/-- `OP_NUM2BIN` computes its padded result with `num2binPad`. -/
theorem opNum2Bin_eq (fRequireMinimal : Bool) (rest : List valtype) (x : valtype) {n : Nat}
    (hn : n ≤ MAX_SCRIPT_ELEMENT_SIZE) :
    opNum2Bin fRequireMinimal (rest ++ [x, serialize n]) =
      if n < (MinimallyEncode x).2.length then .error (.fail .IMPOSSIBLE_ENCODING)
      else if (MinimallyEncode x).2.length = n then .ok (rest ++ [(MinimallyEncode x).2])
      else .ok (rest ++ [num2binPad (MinimallyEncode x).2 n]) := by
  have hstack : rest ++ [x, serialize n] = rest ++ [x] ++ [serialize n] := by simp
  have hlen : failIf (decide ((rest ++ [x] ++ [serialize n]).length < 2))
      .INVALID_STACK_OPERATION = .ok () := failIf_eq_ok.mpr (by simp)
  have hsize : failIf (decide (n > MAX_SCRIPT_ELEMENT_SIZE)) .PUSH_SIZE = .ok () :=
    failIf_eq_ok.mpr (by simpa using hn)
  rw [hstack, opNum2Bin, hlen, Except.ok_bind, stacktop_concat, Except.ok_bind,
    ofVch_serialize fRequireMinimal hn, Except.ok_bind]
  simp only [toUInt64_getint hn, hsize, Except.ok_bind, popstack_concat, stacktop_concat,
    setStacktop_concat]
  by_cases himp : n < (MinimallyEncode x).2.length
  · rw [if_pos himp]
    simp [failIf, himp, setError]
  · have hok : failIf (decide ((MinimallyEncode x).2.length > n)) .IMPOSSIBLE_ENCODING = .ok () :=
      failIf_eq_ok.mpr (by simpa using himp)
    rw [if_neg himp, hok, Except.ok_bind]
    split
    · rfl
    · rfl

/-- `OP_BIN2NUM` on `y` leaves the minimal encoding of `y`'s value, which must
be a 4-byte number. -/
theorem opBin2Num_concat (rest : List valtype) (y : valtype) :
    opBin2Num (rest ++ [y]) =
      if (MinimallyEncode y).2.length ≤ MAXIMUM_ELEMENT_SIZE then
        .ok (rest ++ [(MinimallyEncode y).2])
      else .error (.fail .INVALID_NUMBER_RANGE) := by
  have hlen : failIf (decide ((rest ++ [y]).length < 1)) .INVALID_STACK_OPERATION = .ok () :=
    failIf_eq_ok.mpr (by simp)
  obtain ⟨hmin, -, -, -⟩ := MinimallyEncode_spec y
  rw [opBin2Num, hlen, Except.ok_bind, stacktop_concat, Except.ok_bind]
  simp only [setStacktop_concat, Except.ok_bind]
  by_cases h4 : (MinimallyEncode y).2.length ≤ MAXIMUM_ELEMENT_SIZE
  · -- a minimal encoding within the limit is a number
    have h : IsMinimallyEncoded (MinimallyEncode y).2 = true := IsMinimallyEncoded_of_le hmin h4
    simp [h, h4, failIf]
  · have h : IsMinimallyEncoded (MinimallyEncode y).2 = false := by
      cases hm : IsMinimallyEncoded (MinimallyEncode y).2
      · rfl
      · exact absurd (length_le_of_IsMinimallyEncoded hm) h4
    simp [h, h4, failIf, setError]

/-- `OP_NUM2BIN` and `OP_BIN2NUM` are inverse conversions: with the number `x`
and a size `n` up to `MAX_SCRIPT_ELEMENT_SIZE` on top of the stack,
`OP_NUM2BIN` succeeds when the minimal encoding of `x` fits in `n` bytes,
leaving `n` bytes that read as `x` (negative zero as zero); `OP_BIN2NUM` on
them gives back the minimal encoding of `x` when that is a 4-byte number, and
fails with `INVALID_NUMBER_RANGE` otherwise. `OP_NUM2BIN` fails with
`IMPOSSIBLE_ENCODING` exactly when the minimal encoding does not fit. -/
theorem opNum2Bin_opBin2Num (fRequireMinimal : Bool) (rest : List valtype) (x : valtype)
    {n : Nat} (hn : n ≤ MAX_SCRIPT_ELEMENT_SIZE) :
    ((MinimallyEncode x).2.length ≤ n →
      ∃ y, opNum2Bin fRequireMinimal (rest ++ [x, serialize n]) = .ok (rest ++ [y]) ∧
        y.length = n ∧ set_vch y = set_vch x ∧
        opBin2Num (rest ++ [y]) =
          if (MinimallyEncode x).2.length ≤ MAXIMUM_ELEMENT_SIZE then
            .ok (rest ++ [(MinimallyEncode x).2])
          else .error (.fail .INVALID_NUMBER_RANGE)) ∧
    (opNum2Bin fRequireMinimal (rest ++ [x, serialize n]) = .error (.fail .IMPOSSIBLE_ENCODING) ↔
      n < (MinimallyEncode x).2.length) := by
  have hval : set_vch (MinimallyEncode x).2 = set_vch x := (MinimallyEncode_spec x).2.1
  rw [opNum2Bin_eq fRequireMinimal rest x hn]
  constructor
  · intro hle
    -- the bytes left by `OP_NUM2BIN`, as `opNum2Bin_eq` computes them
    obtain ⟨y, hrun, hlen, hy⟩ : ∃ y,
        (if (MinimallyEncode x).2.length = n then
            (.ok (rest ++ [(MinimallyEncode x).2]) : Except Thrown (List valtype))
          else .ok (rest ++ [num2binPad (MinimallyEncode x).2 n])) = .ok (rest ++ [y]) ∧
        y.length = n ∧ set_vch y = set_vch x := by
      split
      · exact ⟨_, rfl, by assumption, hval⟩
      · exact ⟨_, rfl, length_num2binPad (by omega), (set_vch_num2bin_pad _ _).trans hval⟩
    refine ⟨y, by rw [if_neg (by omega), hrun], hlen, hy, ?_⟩
    rw [opBin2Num_concat, MinimallyEncode_eq_serialize y, hy, ← MinimallyEncode_eq_serialize x]
  · constructor
    · intro h
      by_contra hlt
      rw [if_neg hlt] at h
      split at h <;> cases h
    · intro h
      rw [if_pos h]

/-- `-1` into four bytes and back, under `MINIMALDATA`. -/
theorem opNum2Bin_opBin2Num_minusOne :
    (4 : Nat) ≤ MAX_SCRIPT_ELEMENT_SIZE ∧
      (((MinimallyEncode [0x81]).2.length ≤ 4 →
        ∃ y, opNum2Bin true ([] ++ [[0x81], serialize (4 : Nat)]) = .ok ([] ++ [y]) ∧
          y.length = 4 ∧ set_vch y = set_vch [0x81] ∧
          opBin2Num ([] ++ [y]) =
            if (MinimallyEncode [0x81]).2.length ≤ MAXIMUM_ELEMENT_SIZE then
              .ok ([] ++ [(MinimallyEncode [0x81]).2])
            else .error (.fail .INVALID_NUMBER_RANGE)) ∧
      (opNum2Bin true ([] ++ [[0x81], serialize (4 : Nat)]) =
          .error (.fail .IMPOSSIBLE_ENCODING) ↔
        4 < (MinimallyEncode [0x81]).2.length)) :=
  ⟨by decide, opNum2Bin_opBin2Num true [] [0x81] (by decide)⟩

end Script

end BitcoinAbc
