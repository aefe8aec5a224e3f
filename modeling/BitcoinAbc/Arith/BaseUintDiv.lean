import Mathlib
import BitcoinAbc.Arith.BaseUintVal

/-!
# `operator/=` of `base_uint`

The division of `base_uint` is long division in base 2: it shifts the divisor
up until its highest bit meets the dividend's, and then, for each bit from
there down to bit 0, subtracts the shifted divisor where it fits, sets that bit
of the quotient and shifts the divisor back by one (`arith_uint256.cpp`).

- `val_setBit`: setting a quotient bit ors `2^shift` into the number;
- `divPass_rem_lt`, `divPass_equation`: one pass keeps `val a = q * vb + num`
  and halves the bound on the remainder;
- `val_divLoop`: the passes from bit `shift` down compute `val a / vb`;
- `div_ok`, `div_error_iff`: the quotient is the floor of the quotient of the
  numbers, and the division fails, with `"Division by zero"`, exactly on a
  zero divisor;
- `neg_div_self`: `(-w) / w`, with which the difficulty adjustment turns work
  into a target, is `2^(32 WIDTH) / w - 1`.

The shift is an `int` of the source and the model's `Nat.toUInt32` of it; the
bounds on `WIDTH` keep the number of bits below `2^32`.
-/

namespace BitcoinAbc

namespace BaseUint

variable {WIDTH : Nat}

/-- Setting bit `shift` of the quotient ors `2^shift` into its number. -/
theorem val_setBit (q : BaseUint WIDTH) {shift : Nat} (hs : shift < 32 * WIDTH) :
    (q.setBit shift).val = q.val ||| 2 ^ shift := by
  apply Nat.eq_of_testBit_eq
  intro n
  show (Limbs.val (q.pn.modify (shift / 32) (· ||| 1 <<< (shift % 32).toUInt32))).testBit n =
    (Limbs.val q.pn ||| 2 ^ shift).testBit n
  rw [Limbs.testBit_val, getD_modify_or, UInt32.toNat_or, Nat.testBit_or, ← Limbs.testBit_val,
    Nat.testBit_or, Nat.testBit_two_pow]
  congr 1
  -- the bit or-ed in is bit `shift % 32` of limb `shift / 32`, that is bit `shift`
  by_cases hn : shift / 32 = n / 32 ∧ shift / 32 < q.pn.length
  · rw [if_pos hn, toNat_one_shiftLeft (Nat.mod_lt _ (by decide)), Nat.testBit_two_pow,
      decide_eq_decide]
    omega
  · rw [if_neg hn, UInt32.toNat_zero, Nat.zero_testBit]
    have hne : shift ≠ n := by
      rintro rfl
      rw [q.length_pn] at hn
      omega
    simp [hne]

/-- Or-ing bit `s` into a number with no bit at `s` or below adds `2^s`. -/
theorem or_two_pow_eq_add {x s : Nat} (h : x % 2 ^ (s + 1) = 0) : x ||| 2 ^ s = x + 2 ^ s := by
  obtain ⟨m, rfl⟩ := Nat.dvd_of_mod_eq_zero h
  exact (Nat.two_pow_add_eq_or_of_lt (Nat.pow_lt_pow_right (by decide) (Nat.lt_succ_self s)) m).symm

section Passes

variable {vb : Nat} {num div q : BaseUint WIDTH} {shift : Nat}

/-- After the pass at bit `shift`, with `div` the divisor shifted by `shift`
and the remainder below twice that, the remainder is below `div`. -/
theorem divPass_rem_lt (hdiv : div.val = vb * 2 ^ shift) (hnum : num.val < vb * 2 ^ (shift + 1)) :
    (divPass num div q shift).1.val < vb * 2 ^ shift := by
  rw [Nat.pow_succ, ← Nat.mul_assoc] at hnum
  unfold divPass
  split
  · rename_i hge
    rw [val_sub_of_le ((CompareTo_nonneg_iff num div).mp hge), hdiv]
    omega
  · rename_i hlt
    have hlt' : num.val < div.val := Nat.lt_of_not_le fun h => hlt ((CompareTo_nonneg_iff num div).mpr h)
    show num.val < vb * 2 ^ shift
    omega

/-- The pass at bit `shift` keeps `va = q * vb + num`, and leaves the quotient
with no bit below `shift`. -/
theorem divPass_equation {va : Nat} (hs : shift < 32 * WIDTH) (hdiv : div.val = vb * 2 ^ shift)
    (hq : q.val % 2 ^ (shift + 1) = 0) (heq : va = q.val * vb + num.val) :
    va = (divPass num div q shift).2.val * vb + (divPass num div q shift).1.val ∧
      (divPass num div q shift).2.val % 2 ^ shift = 0 := by
  have hq' : q.val % 2 ^ shift = 0 :=
    Nat.mod_eq_zero_of_dvd (Nat.dvd_trans (Nat.pow_dvd_pow 2 (Nat.le_succ shift))
      (Nat.dvd_of_mod_eq_zero hq))
  unfold divPass
  split
  · -- the divisor fits: subtract it and set bit `shift` of the quotient
    rename_i hge
    have hle := (CompareTo_nonneg_iff num div).mp hge
    rw [val_sub_of_le hle, val_setBit q hs, or_two_pow_eq_add hq]
    constructor
    · rw [heq, Nat.add_mul, Nat.mul_comm (2 ^ shift) vb, ← hdiv]
      omega
    · rw [Nat.add_mod_right, hq']
  · exact ⟨heq, hq'⟩

end Passes

/-- The passes from bit `shift` down to bit 0 compute the quotient. The
induction is on `shift`, with the invariant of the long division: `div` is the
divisor `vb` shifted by `shift`, the remainder is below twice that,
`va = q * vb + num`, and the quotient has no bit at `shift` or below yet. -/
theorem val_divLoop {vb : Nat} (hvb : 0 < vb) :
    ∀ (shift : Nat) (num div q : BaseUint WIDTH) (va : Nat), shift < 32 * WIDTH →
      div.val = vb * 2 ^ shift → num.val < vb * 2 ^ (shift + 1) →
      q.val % 2 ^ (shift + 1) = 0 → va = q.val * vb + num.val →
      (divLoop num div q shift).val = va / vb
  | 0, num, div, q, va, hs, hdiv, hnum, hq, heq => by
    -- the last pass leaves a remainder below the divisor itself
    have hlt := divPass_rem_lt (q := q) hdiv hnum
    obtain ⟨heq', -⟩ := divPass_equation hs hdiv hq heq
    rw [Nat.pow_zero, Nat.mul_one] at hlt
    rw [divLoop, heq', Nat.add_comm, Nat.add_mul_div_right _ _ hvb, Nat.div_eq_of_lt hlt,
      Nat.zero_add]
  | shift + 1, num, div, q, va, hs, hdiv, hnum, hq, heq => by
    obtain ⟨heq', hq'⟩ := divPass_equation hs hdiv hq heq
    -- `div >>= 1` moves the divisor down to the next bit
    have hdiv' : (div.shiftRight 1).val = vb * 2 ^ shift := by
      rw [val_shiftRight, hdiv, UInt32.toNat_one, Nat.pow_succ, ← Nat.mul_assoc, Nat.pow_one,
        Nat.mul_div_cancel _ (by decide)]
    exact val_divLoop hvb shift _ _ _ va (by omega) hdiv' (divPass_rem_lt hdiv hnum) hq' heq'

/-- `(2^N - w) / w = 2^N / w - 1` for `0 < w ≤ 2^N`: `2^N` stands for `w / w`
plus the complement. -/
theorem sub_div_self {N w : Nat} (hw : 0 < w) (hle : w ≤ N) : (N - w) / w = N / w - 1 := by
  have h := Nat.add_div_right (N - w) hw
  rw [Nat.sub_add_cancel hle] at h
  rw [h, Nat.add_sub_cancel]

section Quotient

variable (hW : WIDTH < 2 ^ 27)
include hW

/-- The quotient of `operator/=` by a nonzero divisor is the floor of the
quotient of the numbers. -/
theorem div_ok (a b : BaseUint WIDTH) (hb : b.val ≠ 0) :
    ∃ q, a.div b = .ok q ∧ q.val = a.val / b.val := by
  have hvb : 0 < b.val := Nat.pos_of_ne_zero hb
  have hdb : b.bits ≠ 0 := by
    rw [bits_eq_size]
    exact Nat.pos_iff_ne_zero.mp (Nat.size_pos.mpr hvb)
  unfold div
  rw [if_neg hdb]
  by_cases hgt : b.bits > a.bits
  · -- fewer bits than the divisor: the quotient is zero
    rw [if_pos hgt]
    refine ⟨zero, rfl, ?_⟩
    rw [bits_eq_size, bits_eq_size] at hgt
    have hlt : a.val < b.val := Nat.lt_of_not_le fun h => Nat.not_le_of_gt hgt (Nat.size_le_size h)
    rw [val_zero, Nat.div_eq_of_lt hlt]
  · rw [if_neg hgt]
    refine ⟨_, rfl, ?_⟩
    simp only [bits_eq_size] at hgt hdb ⊢
    -- the divisor shifted up to the dividend's highest bit, as the loop's invariant needs
    have hna : Nat.size a.val ≤ 32 * WIDTH := Nat.size_le.mpr a.val_lt
    have hshift : (Nat.size a.val - Nat.size b.val).toUInt32.toNat = Nat.size a.val - Nat.size b.val := by
      simp only [Nat.toUInt32, UInt32.toNat_ofNat']
      omega
    have hbpow : b.val * 2 ^ (Nat.size a.val - Nat.size b.val) < 2 ^ Nat.size a.val :=
      calc b.val * 2 ^ (Nat.size a.val - Nat.size b.val)
          < 2 ^ Nat.size b.val * 2 ^ (Nat.size a.val - Nat.size b.val) :=
            Nat.mul_lt_mul_of_pos_right (Nat.lt_size_self _) (Nat.two_pow_pos _)
        _ = 2 ^ Nat.size a.val := by rw [← Nat.pow_add]; congr 1; omega
    have hdiv : (b.shiftLeft (Nat.size a.val - Nat.size b.val).toUInt32).val =
        b.val * 2 ^ (Nat.size a.val - Nat.size b.val) := by
      rw [val_shiftLeft, hshift, Nat.mod_eq_of_lt
        (Nat.lt_of_lt_of_le hbpow (Nat.pow_le_pow_right (by decide) hna))]
    have hnum : a.val < b.val * 2 ^ (Nat.size a.val - Nat.size b.val + 1) :=
      calc a.val < 2 ^ Nat.size a.val := Nat.lt_size_self _
        _ = 2 ^ (Nat.size b.val - 1) * 2 ^ (Nat.size a.val - Nat.size b.val + 1) := by
          rw [← Nat.pow_add]; congr 1; omega
        _ ≤ b.val * 2 ^ (Nat.size a.val - Nat.size b.val + 1) :=
          Nat.mul_le_mul_right _ (Nat.lt_size.mp (by omega))
    exact val_divLoop hvb _ a _ zero a.val (by omega) hdiv hnum (by rw [val_zero, Nat.zero_mod]) (by simp)

/-- `operator/=` throws exactly on a zero divisor. -/
theorem div_error_iff (a b : BaseUint WIDTH) : a.div b = .error "Division by zero" ↔ b.val = 0 := by
  constructor
  · intro herr
    by_contra hb
    obtain ⟨q, hq, -⟩ := div_ok hW a b hb
    rw [hq] at herr
    cases herr
  · intro hb
    have hdb : b.bits = 0 := by rw [bits_eq_size, hb, Nat.size_zero]
    unfold div
    rw [if_pos hdb]

/-- The target of a nonzero work `w`, `(-w) / w`, is `2^(32 WIDTH) / w - 1`. -/
theorem neg_div_self (w : BaseUint WIDTH) (hw : w.val ≠ 0) :
    ∃ q, w.neg.div w = .ok q ∧ q.val = 2 ^ (32 * WIDTH) / w.val - 1 := by
  obtain ⟨q, hq, hval⟩ := div_ok hW w.neg w hw
  refine ⟨q, hq, ?_⟩
  have hpos : 0 < w.val := Nat.pos_of_ne_zero hw
  have hlt : 2 ^ (32 * WIDTH) - w.val < 2 ^ (32 * WIDTH) := Nat.sub_lt (Nat.two_pow_pos _) hpos
  rw [hval, val_neg, Nat.mod_eq_of_lt hlt, sub_div_self hpos (Nat.le_of_lt (val_lt w))]

end Quotient

/-- `arith_uint256` is exact arithmetic modulo `2^256` on the number its eight
limbs stand for: the shifts, both products, the comparison, the bit length and
the division, and with it the target `(-w) / w` of a nonzero work. -/
theorem arith_uint256_exact (a b : ArithUint256) (s m : UInt32) :
    a.val = ∑ i ∈ Finset.range 8, (a.pn.getD i 0).toNat * 2 ^ (32 * i) ∧
    (a.shiftLeft s).val = a.val * 2 ^ s.toNat % 2 ^ 256 ∧
    (a.shiftRight s).val = a.val / 2 ^ s.toNat ∧
    (a.mulU32 m).val = a.val * m.toNat % 2 ^ 256 ∧
    (a.mul b).val = a.val * b.val % 2 ^ 256 ∧
    a.CompareTo b = (if a.val < b.val then -1 else if a.val > b.val then 1 else 0) ∧
    a.bits = Nat.size a.val ∧
    (b.val ≠ 0 → ∃ q, a.div b = .ok q ∧ q.val = a.val / b.val) ∧
    (a.div b = .error "Division by zero" ↔ b.val = 0) ∧
    (a.val ≠ 0 → ∃ q, a.neg.div a = .ok q ∧ q.val = 2 ^ 256 / a.val - 1) := by
  have hW : (8 : Nat) < 2 ^ 27 := by decide
  refine ⟨?_, val_shiftLeft a s, val_shiftRight a s, val_mulU32 a m, val_mul a b,
    CompareTo_eq a b, bits_eq_size a, div_ok hW a b, div_error_iff hW a b, neg_div_self hW a⟩
  rw [val, Limbs.val_eq_sum, a.length_pn]

end BaseUint

end BitcoinAbc
