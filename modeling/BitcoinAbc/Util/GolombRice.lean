import Mathlib
import BitcoinAbc.Serialize.BitStream

/-!
# Golomb-Rice coding (util/golombrice.h)

`GolombRiceEncode(bitwriter, P, x)` writes the quotient `x >> P` in unary,
that many ones and a zero, then the `P` low bits of `x`;
`GolombRiceDecode(bitreader, P)` counts the ones up to the zero and reads the
`P` bits after it. On the bits of the streams (`BitStreamWriter.bits`,
`BitStreamReader.bits`) the encoder appends `riceCode P x`, and the decoder
reads back any number from its code:

- `GolombRiceEncode_bits` and `GolombRiceDecode_bits`, for `P < 64`.

Above 63, `x >> P` shifts a `uint64_t` by its width or more, which C++
leaves undefined; the model shifts by `P % 64` as Lean does, and no result
here speaks of such `P`.
-/

namespace BitcoinAbc

open Serialize BitString

/-- The Golomb-Rice code of `x` with parameter `P`: the quotient `x / 2^P` in
unary, then the `P` low bits of `x`. -/
def riceCode (P x : Nat) : List Bool := List.replicate (x / 2 ^ P) true ++ false :: ofNat P x

/-- The number of ones a turn of the unary loop of `GolombRiceEncode` writes:
`q <= 64 ? q : 64`. -/
def unaryChunk (q : UInt64) : Nat := if q ≤ 64 then q.toNat else 64

theorem unaryChunk_spec {q : UInt64} (hq : 0 < q) :
    0 < unaryChunk q ∧ unaryChunk q ≤ 64 ∧ unaryChunk q ≤ q.toNat ∧
      (q - (unaryChunk q).toUInt64).toNat = q.toNat - unaryChunk q := by
  have hq' : 0 < q.toNat := UInt64.lt_iff_toNat_lt.mp hq
  have h64 : (64 : UInt64).toNat = 64 := rfl
  unfold unaryChunk
  split
  · rename_i hle
    have : q.toNat ≤ 64 := h64 ▸ UInt64.le_iff_toNat_le.mp hle
    refine ⟨hq', this, le_refl _, ?_⟩
    rw [Nat.toUInt64, UInt64.ofNat_toNat, UInt64.sub_self, UInt64.toNat_zero, Nat.sub_self]
  · rename_i hle
    have : 64 < q.toNat := by
      have := mt UInt64.le_iff_toNat_le.mpr hle
      omega
    refine ⟨by norm_num, le_refl _, by omega, ?_⟩
    rw [UInt64.toNat_sub_of_le _ _ (UInt64.le_iff_toNat_le.mpr (by simp; omega))]
    simp

/-- The `while (q > 0)` loop of `GolombRiceEncode`: `q` ones, at most 64 at
a time. -/
def writeUnary (q : UInt64) (bitwriter : BitStreamWriter) : Except String BitStreamWriter :=
  if _ : 0 < q then
    match bitwriter.Write (~~~0) (unaryChunk q) with
    | .error e => .error e
    | .ok bitwriter => writeUnary (q - (unaryChunk q).toUInt64) bitwriter
  else pure bitwriter
termination_by q.toNat
decreasing_by
  obtain ⟨h0, -, -, hsub⟩ := unaryChunk_spec ‹0 < q›
  have := UInt64.lt_iff_toNat_lt.mp ‹0 < q›
  rw [hsub]
  simp only [UInt64.toNat_zero] at this
  omega

/-- `GolombRiceEncode(bitwriter, P, x)`. -/
def GolombRiceEncode (bitwriter : BitStreamWriter) (P : UInt8) (x : UInt64) : Except String BitStreamWriter := do
  let bitwriter ← writeUnary (x >>> P.toUInt64) bitwriter
  let bitwriter ← bitwriter.Write 0 1
  -- the remainder is the bottom `P` bits of `x`, which `Write` masks itself
  bitwriter.Write x P.toNat

/-- The `while (bitreader.Read(1) == 1) ++q;` loop of `GolombRiceDecode`. It
stops at the first zero, or when the stream runs out; each turn takes a bit. -/
def readUnary (q : UInt64) (bitreader : BitStreamReader) : Except String (UInt64 × BitStreamReader) :=
  match h : bitreader.Read 1 with
  | .error e => .error e
  | .ok (b, bitreader') => if b = 1 then readUnary (q + 1) bitreader' else pure (q, bitreader')
termination_by bitreader.bits.length
decreasing_by have := Read_length h; omega

/-- `GolombRiceDecode(bitreader, P)`. -/
def GolombRiceDecode (bitreader : BitStreamReader) (P : UInt8) : Except String (UInt64 × BitStreamReader) := do
  let (q, bitreader) ← readUnary 0 bitreader
  let (r, bitreader) ← bitreader.Read P.toNat
  pure ((q <<< P.toUInt64) + r, bitreader)

/-! ## Encoding -/

section Encode

variable {w : BitStreamWriter}

theorem Write_bits (hw : w.WF) (data : UInt64) {nbits : Nat} (hn : nbits ≤ 64) :
    ∃ w', w.Write data nbits = .ok w' ∧ w'.bits = w.bits ++ ofNat nbits data.toNat ∧ w'.WF ∧
      w.m_ostream <+: w'.m_ostream := by
  refine ⟨_, ?_, writeLoop_bits data nbits hn w hw⟩
  rw [BitStreamWriter.Write, if_neg (by omega)]
  rfl

/-- The unary loop writes `q` ones. -/
theorem writeUnary_bits :
    ∀ (q : UInt64) (w : BitStreamWriter), w.WF →
      ∃ w', writeUnary q w = .ok w' ∧ w'.bits = w.bits ++ List.replicate q.toNat true ∧ w'.WF ∧
        w.m_ostream <+: w'.m_ostream := by
  intro q
  induction hn : q.toNat using Nat.strong_induction_on generalizing q with
  | _ n ih =>
    intro w hw
    unfold writeUnary
    split
    · rename_i hq
      obtain ⟨h0, h64, hle, hsub⟩ := unaryChunk_spec hq
      obtain ⟨w1, hw1, hbits1, hwf1, hpre1⟩ := Write_bits hw (~~~0) h64
      rw [hw1]
      dsimp only
      obtain ⟨w2, hw2, hbits2, hwf2, hpre2⟩ :=
        ih (n - unaryChunk q) (by omega) (q - (unaryChunk q).toUInt64) (by rw [hsub, hn]) w1 hwf1
      refine ⟨w2, hw2, ?_, hwf2, hpre1.trans hpre2⟩
      -- the chunk is all ones: the low bits of `~0`
      have hones : ofNat (unaryChunk q) (~~~(0 : UInt64)).toNat = List.replicate (unaryChunk q) true := by
        rw [UInt64.toNat_not, UInt64.toNat_zero, Nat.sub_zero, show UInt64.size - 1 = 2 ^ 64 - 1 from rfl]
        exact ofNat_two_pow_sub_one h64
      rw [hbits2, hbits1, hones, List.append_assoc, ← List.replicate_add, Nat.add_sub_cancel' (by omega)]
    · rename_i hq
      have hq0 : q.toNat = 0 := by
        have := mt UInt64.lt_iff_toNat_lt.mpr hq
        simp at this
        omega
      exact ⟨w, rfl, by rw [← hn, hq0]; simp, hw, List.prefix_refl _⟩

/-- `x >> P` is the quotient of `x` by `2^P`, for `P < 64`. -/
theorem toNat_shiftRight_P (x : UInt64) {P : UInt8} (hP : P.toNat < 64) :
    (x >>> P.toUInt64).toNat = x.toNat / 2 ^ P.toNat := by
  rw [UInt64.toNat_shiftRight, UInt8.toNat_toUInt64, Nat.mod_eq_of_lt hP, Nat.shiftRight_eq_div_pow]

/-- `GolombRiceEncode` appends the Golomb-Rice code of `x`. -/
theorem GolombRiceEncode_bits (hw : w.WF) {P : UInt8} (hP : P.toNat < 64) (x : UInt64) :
    ∃ w', GolombRiceEncode w P x = .ok w' ∧ w'.bits = w.bits ++ riceCode P.toNat x.toNat ∧ w'.WF ∧
      w.m_ostream <+: w'.m_ostream := by
  obtain ⟨w1, hw1, hbits1, hwf1, hpre1⟩ := writeUnary_bits (x >>> P.toUInt64) w hw
  obtain ⟨w2, hw2, hbits2, hwf2, hpre2⟩ := Write_bits hwf1 0 (show 1 ≤ 64 by norm_num)
  obtain ⟨w3, hw3, hbits3, hwf3, hpre3⟩ := Write_bits hwf2 x (show P.toNat ≤ 64 by omega)
  refine ⟨w3, ?_, ?_, hwf3, hpre1.trans (hpre2.trans hpre3)⟩
  · simp only [GolombRiceEncode, hw1, hw2, hw3, Except.bind, bind]
  · have hzero : ofNat 1 (0 : UInt64).toNat = [false] := rfl
    rw [hbits3, hbits2, hbits1, hzero, toNat_shiftRight_P x hP, riceCode]
    simp

end Encode

/-! ## Decoding -/

section Decode

variable {r : BitStreamReader}

/-- `Read(1)` returns the next bit. -/
theorem Read_one {b : Bool} {rest : List Bool} (h : r.bits = b :: rest) :
    ∃ r', r.Read 1 = .ok (if b then 1 else 0, r') ∧ r'.bits = rest := by
  obtain ⟨r', hr', hbits⟩ := Read_bits (r := r) (show 1 ≤ 64 by norm_num) (by rw [h]; simp)
  refine ⟨r', ?_, by rw [hbits, h]; rfl⟩
  rw [hr', h]
  cases b <;> rfl

/-- The unary loop counts the ones up to the first zero, and drops the zero. -/
theorem readUnary_bits :
    ∀ (k : Nat) (q : UInt64) (r : BitStreamReader) (rest : List Bool),
      r.bits = List.replicate k true ++ false :: rest →
      ∃ r', readUnary q r = .ok (q + UInt64.ofNat k, r') ∧ r'.bits = rest := by
  intro k
  induction k with
  | zero =>
    intro q r rest h
    obtain ⟨r', hr', hbits⟩ := Read_one (r := r) (by rw [h]; rfl)
    refine ⟨r', ?_, hbits⟩
    rw [readUnary]
    split
    · rename_i e he
      rw [hr'] at he
      cases he
    · rename_i b r'' he
      rw [hr'] at he
      cases he
      rw [if_neg (by decide)]
      show Except.ok (q, r') = Except.ok (q + 0, r')
      rw [UInt64.add_zero]
  | succ k ih =>
    intro q r rest h
    obtain ⟨r1, hr1, hbits1⟩ := Read_one (r := r) (by rw [h, List.replicate_succ, List.cons_append])
    obtain ⟨r', hr', hbits⟩ := ih (q + 1) r1 rest hbits1
    refine ⟨r', ?_, hbits⟩
    rw [readUnary]
    split
    · rename_i e he
      rw [hr1] at he
      cases he
    · rename_i b r'' he
      rw [hr1] at he
      cases he
      simp only [if_true, hr', UInt64.ofNat_add, UInt64.ofNat_one, UInt64.add_assoc, UInt64.add_comm 1]

/-- `GolombRiceDecode` reads back any number of up to 64 bits from its
Golomb-Rice code, and stops right after it. -/
theorem GolombRiceDecode_bits {P : UInt8} (hP : P.toNat < 64) (x : UInt64) {rest : List Bool}
    (h : r.bits = riceCode P.toNat x.toNat ++ rest) :
    ∃ r', GolombRiceDecode r P = .ok (x, r') ∧ r'.bits = rest := by
  rw [riceCode, List.append_assoc, List.cons_append] at h
  obtain ⟨r1, hr1, hbits1⟩ := readUnary_bits _ 0 r _ h
  obtain ⟨r2, hr2, hbits2⟩ := Read_bits (r := r1) (show P.toNat ≤ 64 by omega) (by rw [hbits1]; simp)
  refine ⟨r2, ?_, by rw [hbits2, hbits1, List.drop_append_of_le_length (by simp), List.drop_of_length_le (by simp),
    List.nil_append]⟩
  simp only [GolombRiceDecode, hr1, hr2, Except.bind, bind, Except.pure, pure]
  congr 2
  -- the quotient shifted back and the remainder give `x` again
  rw [hbits1, List.take_append_of_le_length (by simp), List.take_of_length_le (by simp), val_ofNat]
  apply UInt64.toNat_inj.mp
  have hlt := x.toNat_lt
  have hquot : x.toNat / 2 ^ P.toNat % 2 ^ 64 = x.toNat / 2 ^ P.toNat :=
    Nat.mod_eq_of_lt (lt_of_le_of_lt (Nat.div_le_self _ _) hlt)
  have hrem : x.toNat % 2 ^ P.toNat % 2 ^ 64 = x.toNat % 2 ^ P.toNat :=
    Nat.mod_eq_of_lt (lt_of_le_of_lt (Nat.mod_le _ _) hlt)
  have hmul : x.toNat / 2 ^ P.toNat * 2 ^ P.toNat % 2 ^ 64 = x.toNat / 2 ^ P.toNat * 2 ^ P.toNat :=
    Nat.mod_eq_of_lt (lt_of_le_of_lt (Nat.div_mul_le_self _ _) hlt)
  rw [UInt64.toNat_add, UInt64.toNat_shiftLeft, UInt8.toNat_toUInt64, Nat.mod_eq_of_lt hP, UInt64.zero_add,
    UInt64.toNat_ofNat', UInt64.toNat_ofNat', hquot, hrem, Nat.shiftLeft_eq, hmul, Nat.div_add_mod',
    Nat.mod_eq_of_lt hlt]

end Decode

end BitcoinAbc
