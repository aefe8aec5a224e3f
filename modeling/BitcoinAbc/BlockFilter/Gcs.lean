import Mathlib
import BitcoinAbc.Lib.Limbs

/-!
# Compact block filters (blockfilter.cpp)

A BIP158 filter hashes each element to a 64-bit value and maps it into
`[0, N * M)` with `MapIntoRange`, the high word of a 64-by-64-bit product.
Where the compiler has `unsigned __int128` the product is computed in 128
bits; elsewhere it is put together from the four products of the 32-bit
halves.

- `mapIntoRangeInt128_toNat`, `mapIntoRangePortable_toNat`: both paths
  compute `x * n / 2^64`, the portable one through `Limbs.mul_div_limbs`
  and with no sum that wraps;
- `MapIntoRange_eq_mulHi`: so the two builds agree, and the result is below
  `n`.
-/

namespace BitcoinAbc

namespace BlockFilter


/-- `MapIntoRange(x, n)` where `unsigned __int128` is available: the product
of the two widened values, shifted right by 64 and narrowed back. -/
def mapIntoRangeInt128 (x n : UInt64) : UInt64 :=
  ⟨((x.toBitVec.setWidth 128 * n.toBitVec.setWidth 128) >>> 64).setWidth 64⟩

/-- `MapIntoRange(x, n)` where it is not: the product computed piece-wise on
the 32-bit halves. -/
def mapIntoRangePortable (x n : UInt64) : UInt64 :=
  let x_hi := x >>> 32
  let x_lo := x &&& 0xFFFFFFFF
  let n_hi := n >>> 32
  let n_lo := n &&& 0xFFFFFFFF
  let ac := x_hi * n_hi
  let ad := x_hi * n_lo
  let bc := x_lo * n_hi
  let bd := x_lo * n_lo
  let mid34 := (bd >>> 32) + (bc &&& 0xFFFFFFFF) + (ad &&& 0xFFFFFFFF)
  let upper64 := ac + (bc >>> 32) + (ad >>> 32) + (mid34 >>> 32)
  upper64

/-- `MapIntoRange(x, n)`; `int128` tells whether `__SIZEOF_INT128__` is
defined. -/
def MapIntoRange (int128 : Bool) (x n : UInt64) : UInt64 :=
  if int128 then mapIntoRangeInt128 x n else mapIntoRangePortable x n

theorem toNat_hi (x : UInt64) : (x >>> 32).toNat = x.toNat / 2 ^ 32 := by
  rw [UInt64.toNat_shiftRight, Nat.shiftRight_eq_div_pow]
  rfl

theorem toNat_lo (x : UInt64) : (x &&& 0xFFFFFFFF).toNat = x.toNat % 2 ^ 32 := by
  rw [UInt64.toNat_and]
  exact Nat.and_two_pow_sub_one_eq_mod _ 32

theorem toNat_mul_of_lt {a b : UInt64} (ha : a.toNat < 2 ^ 32) (hb : b.toNat < 2 ^ 32) :
    (a * b).toNat = a.toNat * b.toNat := by
  rw [UInt64.toNat_mul, Nat.mod_eq_of_lt]
  calc a.toNat * b.toNat < 2 ^ 32 * 2 ^ 32 := Nat.mul_lt_mul'' ha hb
    _ = 2 ^ 64 := by norm_num

/-- A sum of words whose values do not reach `2^64` does not wrap. -/
theorem toNat_add_eq {a b : UInt64} {p q : Nat} (ha : a.toNat = p) (hb : b.toNat = q) (h : p + q < 2 ^ 64) :
    (a + b).toNat = p + q := by
  rw [UInt64.toNat_add, ha, hb, Nat.mod_eq_of_lt h]

/-- The high word of the product is below `2^64`. -/
theorem mul_div_lt (x n : UInt64) : x.toNat * n.toNat / 2 ^ 64 < 2 ^ 64 :=
  Nat.div_lt_of_lt_mul (Nat.mul_lt_mul'' x.toNat_lt n.toNat_lt)

theorem mapIntoRangeInt128_toNat (x n : UInt64) :
    (mapIntoRangeInt128 x n).toNat = x.toNat * n.toNat / 2 ^ 64 := by
  have hprod : x.toNat * n.toNat < 2 ^ 128 := by
    calc x.toNat * n.toNat < 2 ^ 64 * 2 ^ 64 := Nat.mul_lt_mul'' x.toNat_lt n.toNat_lt
      _ = 2 ^ 128 := by norm_num
  show (((x.toBitVec.setWidth 128 * n.toBitVec.setWidth 128) >>> 64).setWidth 64).toNat = _
  rw [BitVec.toNat_setWidth, BitVec.toNat_ushiftRight, BitVec.toNat_mul, BitVec.toNat_setWidth,
    BitVec.toNat_setWidth, UInt64.toNat_toBitVec, UInt64.toNat_toBitVec, Nat.mod_eq_of_lt (x.toNat_lt.trans (by decide)),
    Nat.mod_eq_of_lt (n.toNat_lt.trans (by decide))]
  rw [Nat.mod_eq_of_lt hprod, Nat.shiftRight_eq_div_pow, Nat.mod_eq_of_lt (mul_div_lt x n)]

theorem mapIntoRangePortable_toNat (x n : UInt64) :
    (mapIntoRangePortable x n).toNat = x.toNat * n.toNat / 2 ^ 64 := by
  -- the four halves, each below `2^32`
  have hxh : (x >>> 32).toNat < 2 ^ 32 := by rw [toNat_hi]; exact Nat.div_lt_of_lt_mul x.toNat_lt
  have hnh : (n >>> 32).toNat < 2 ^ 32 := by rw [toNat_hi]; exact Nat.div_lt_of_lt_mul n.toNat_lt
  have hxl : (x &&& 0xFFFFFFFF).toNat < 2 ^ 32 := by rw [toNat_lo]; exact Nat.mod_lt _ (by norm_num)
  have hnl : (n &&& 0xFFFFFFFF).toNat < 2 ^ 32 := by rw [toNat_lo]; exact Nat.mod_lt _ (by norm_num)
  -- the four products are exact
  have hac := toNat_mul_of_lt hxh hnh
  have had := toNat_mul_of_lt hxh hnl
  have hbc := toNat_mul_of_lt hxl hnh
  have hbd := toNat_mul_of_lt hxl hnl
  rw [toNat_hi, toNat_hi] at hac
  rw [toNat_hi, toNat_lo] at had
  rw [toNat_lo, toNat_hi] at hbc
  rw [toNat_lo, toNat_lo] at hbd
  set a := x.toNat / 2 ^ 32
  set b := x.toNat % 2 ^ 32
  set c := n.toNat / 2 ^ 32
  set d := n.toNat % 2 ^ 32
  have hbd_lt : b * d / 2 ^ 32 < 2 ^ 32 := Nat.div_lt_of_lt_mul (Nat.mul_lt_mul'' (Nat.mod_lt _ (by norm_num))
    (Nat.mod_lt _ (by norm_num)))
  have hval := Limbs.mul_div_limbs (B := 2 ^ 32) (by norm_num) a b c d
  rw [show 2 ^ 32 * 2 ^ 32 = 2 ^ 64 by norm_num, Nat.div_add_mod', Nat.div_add_mod'] at hval
  have hbound := mul_div_lt x n
  have hbc_lt := Nat.mod_lt (b * c) (show 0 < 2 ^ 32 by norm_num)
  have had_lt := Nat.mod_lt (a * d) (show 0 < 2 ^ 32 by norm_num)
  -- the sum of the middle terms stays below `2^34`
  have hmid := toNat_add_eq (toNat_add_eq (by rw [toNat_hi, hbd]) (by rw [toNat_lo, hbc]) (by omega))
    (by rw [toNat_lo, had]) (show b * d / 2 ^ 32 + b * c % 2 ^ 32 + a * d % 2 ^ 32 < 2 ^ 64 by omega)
  -- and each partial sum of the result is at most the result
  have hs1 := toNat_add_eq hac (by rw [toNat_hi, hbc]) (show a * c + b * c / 2 ^ 32 < 2 ^ 64 by omega)
  have hs2 := toNat_add_eq hs1 (by rw [toNat_hi, had]) (show a * c + b * c / 2 ^ 32 + a * d / 2 ^ 32 < 2 ^ 64 by omega)
  have hs3 := toNat_add_eq hs2 (by rw [toNat_hi, hmid]) (by omega)
  rw [hval]
  exact hs3

/-- Both build paths of `MapIntoRange` compute the high word of the product
`x * n`, which is below `n` when `n` is not zero. -/
theorem MapIntoRange_eq_mulHi (int128 : Bool) (x n : UInt64) :
    (MapIntoRange int128 x n).toNat = x.toNat * n.toNat / 2 ^ 64 ∧
      MapIntoRange true x n = MapIntoRange false x n ∧
      (0 < n.toNat → (MapIntoRange int128 x n).toNat < n.toNat) := by
  have hval : ∀ b, (MapIntoRange b x n).toNat = x.toNat * n.toNat / 2 ^ 64 := by
    intro b
    cases b with
    | true => exact mapIntoRangeInt128_toNat x n
    | false => exact mapIntoRangePortable_toNat x n
  refine ⟨hval int128, UInt64.toNat_inj.mp ((hval true).trans (hval false).symm), fun hn => ?_⟩
  rw [hval, Nat.div_lt_iff_lt_mul (by norm_num), Nat.mul_comm]
  exact Nat.mul_lt_mul_of_pos_left x.toNat_lt hn

theorem MapIntoRange_eq_mulHi_max :
    0 < (5 : UInt64).toNat ∧ (MapIntoRange false 0xFFFFFFFFFFFFFFFF 5).toNat < (5 : UInt64).toNat :=
  ⟨by decide, (MapIntoRange_eq_mulHi false 0xFFFFFFFFFFFFFFFF 5).2.2 (by decide)⟩

end BlockFilter

end BitcoinAbc
