import Mathlib

/-!
# Sums of a halving schedule

A schedule that pays `f j` at every step of its `j`-th block of `I` steps pays
`f (h / I)` at step `h`. When `f` halves an amount `a` at each block, rounding
down, and stops after `k` blocks, every prefix of the schedule pays less than
`2 * a * I`:

- `sum_range_shiftRight_lt`: the halvings `a >>> j` of `a ≥ 1` sum to less than
  `2 * a`, however many are taken;
- `sum_range_mul_div`: the first `k` blocks of the schedule pay `I` times the
  sum of `f` over `k` blocks;
- `sum_range_div_le`: when `f` is zero from block `k` on, any prefix pays at
  most that much.
-/

namespace Nat

open Finset

/-- The halvings of `a ≥ 1` sum to less than `2 * a`. The induction peels off
the first term: what remains are the halvings of `a / 2`. -/
theorem sum_range_shiftRight_lt : ∀ (n : ℕ) {a : ℕ}, 0 < a → ∑ j ∈ range n, a >>> j < 2 * a
  | 0, a, ha => by
    rw [sum_range_zero]
    omega
  | n + 1, a, ha => by
    have hshift : ∀ j, a >>> (j + 1) = (a >>> 1) >>> j := fun j => by
      rw [Nat.add_comm, Nat.shiftRight_add]
    have hhalf : a >>> 1 = a / 2 := by
      rw [Nat.shiftRight_eq_div_pow, Nat.pow_one]
    rw [sum_range_succ', Nat.shiftRight_zero, sum_congr rfl fun j _ => hshift j]
    rcases Nat.eq_zero_or_pos (a >>> 1) with h0 | hpos
    · -- nothing is left after the first term
      simp only [h0, Nat.zero_shiftRight, sum_const_zero, Nat.zero_add]
      omega
    · calc ∑ j ∈ range n, (a >>> 1) >>> j + a
          < 2 * (a >>> 1) + a := Nat.add_lt_add_right (sum_range_shiftRight_lt n hpos) a
        _ ≤ 2 * a := by omega

/-- The first `k` blocks of `I` steps pay `I` times the sum of `f` over them. -/
theorem sum_range_mul_div (f : ℕ → ℕ) (I : ℕ) :
    ∀ k, ∑ h ∈ range (k * I), f (h / I) = I * ∑ j ∈ range k, f j
  | 0 => by rw [Nat.zero_mul, sum_range_zero, sum_range_zero, Nat.mul_zero]
  | k + 1 => by
    rw [Nat.succ_mul, sum_range_add, sum_range_mul_div f I k, sum_range_succ, Nat.mul_add]
    congr 1
    rcases Nat.eq_zero_or_pos I with rfl | hI
    · rw [sum_range_zero, Nat.zero_mul]
    · -- every step of block `k` pays `f k`
      have hblock : ∀ i ∈ range I, f ((k * I + i) / I) = f k := by
        intro i hi
        rw [mem_range] at hi
        rw [Nat.add_comm, Nat.add_mul_div_right _ _ hI, Nat.div_eq_of_lt hi, Nat.zero_add]
      rw [sum_const_nat hblock, card_range]

/-- A schedule that pays nothing from block `k` on pays, over any prefix, at
most `I` times the sum of `f` over its first `k` blocks. -/
theorem sum_range_div_le {f : ℕ → ℕ} {I k : ℕ} (hI : 0 < I) (hzero : ∀ j, k ≤ j → f j = 0)
    (N : ℕ) : ∑ h ∈ range N, f (h / I) ≤ I * ∑ j ∈ range k, f j := by
  rw [← sum_range_mul_div f I k]
  calc ∑ h ∈ range N, f (h / I)
      ≤ ∑ h ∈ range (max N (k * I)), f (h / I) :=
        sum_le_sum_of_subset (range_subset_range.mpr (Nat.le_max_left _ _))
    _ = ∑ h ∈ range (k * I), f (h / I) := by
        rw [← sum_range_add_sum_Ico _ (Nat.le_max_right N (k * I))]
        -- the steps from block `k` on pay nothing
        have hrest : ∀ h ∈ Ico (k * I) (max N (k * I)), f (h / I) = 0 := by
          intro h hh
          rw [mem_Ico] at hh
          exact hzero _ ((Nat.le_div_iff_mul_le hI).mpr hh.1)
        rw [sum_eq_zero hrest, Nat.add_zero]

end Nat
