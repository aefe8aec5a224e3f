import Mathlib
import BitcoinAbc.Consensus.Amount
import BitcoinAbc.Lib.Halving

/-!
# The block subsidy (validation.cpp)

`GetBlockSubsidy` pays `50 * COIN` for the first `nSubsidyHalvingInterval`
blocks and halves, rounding down to a satoshi, at every interval, until the
shift would reach 64 bits. Its amount at a height is `halvingSubsidy` of the
number of halvings (`GetBlockSubsidy_amount`), and `Nat.sum_range_div_le`
turns that into the bound on all the subsidies up to any height
(`sum_GetBlockSubsidy_lt`).
-/

namespace BitcoinAbc

open Finset

/-- `GetBlockSubsidy(nHeight, consensusParams)`, for the halving interval
`nSubsidyHalvingInterval` of the parameters. -/
def GetBlockSubsidy (nHeight nSubsidyHalvingInterval : Nat) : Amount :=
  let halvings := nHeight / nSubsidyHalvingInterval
  -- Force block reward to zero when right shift is undefined.
  if halvings ≥ 64 then ⟨0⟩
  else
    let nSubsidy : Amount := ⟨50 * COIN.amount⟩
    -- Subsidy is cut in half every 210,000 blocks which will occur
    -- approximately every 4 years.
    ⟨((nSubsidy.amount / Amount.SATOSHI.amount) >>> halvings) * Amount.SATOSHI.amount⟩

/-- The subsidy, in satoshis, after `halvings` halvings. -/
def halvingSubsidy (halvings : Nat) : Nat :=
  if halvings ≥ 64 then 0 else 5000000000 >>> halvings

theorem GetBlockSubsidy_amount (nHeight nSubsidyHalvingInterval : Nat) :
    (GetBlockSubsidy nHeight nSubsidyHalvingInterval).amount =
      halvingSubsidy (nHeight / nSubsidyHalvingInterval) := by
  rw [GetBlockSubsidy, halvingSubsidy]
  split
  · rfl
  · show (((5000000000 : Int) / 1) >>> (_ : Nat)) * 1 = _
    rw [Int.ediv_one, Int.mul_one, Int.natCast_shiftRight]
    rfl

theorem halvingSubsidy_le (halvings : Nat) : halvingSubsidy halvings ≤ 5000000000 := by
  rw [halvingSubsidy]
  split
  · exact Nat.zero_le _
  · rw [Nat.shiftRight_eq_div_pow]
    exact Nat.div_le_self _ _

/-- The subsidy is in `MoneyRange`, at most `50 * COIN`. -/
theorem GetBlockSubsidy_moneyRange (nHeight nSubsidyHalvingInterval : Nat) :
    MoneyRange (GetBlockSubsidy nHeight nSubsidyHalvingInterval) = true := by
  have hle := halvingSubsidy_le (nHeight / nSubsidyHalvingInterval)
  rw [MoneyRange_iff, GetBlockSubsidy_amount]
  omega

/-- More halvings pay less. -/
theorem halvingSubsidy_antitone {j₁ j₂ : Nat} (h : j₁ ≤ j₂) :
    halvingSubsidy j₂ ≤ halvingSubsidy j₁ := by
  unfold halvingSubsidy
  split_ifs with h₂ h₁
  · exact Nat.le_refl 0
  · exact Nat.zero_le _
  · omega
  · rw [Nat.shiftRight_eq_div_pow, Nat.shiftRight_eq_div_pow]
    exact Nat.div_le_div_left (Nat.pow_le_pow_right (by decide) h) (Nat.two_pow_pos _)

/-- The subsidy never grows with the height. -/
theorem GetBlockSubsidy_antitone (nSubsidyHalvingInterval : Nat) {h₁ h₂ : Nat} (h : h₁ ≤ h₂) :
    (GetBlockSubsidy h₂ nSubsidyHalvingInterval).amount ≤
      (GetBlockSubsidy h₁ nSubsidyHalvingInterval).amount := by
  rw [GetBlockSubsidy_amount, GetBlockSubsidy_amount]
  exact Int.ofNat_le.mpr (halvingSubsidy_antitone (Nat.div_le_div_right h))

theorem GetBlockSubsidy_le (nHeight nSubsidyHalvingInterval : Nat) :
    (GetBlockSubsidy nHeight nSubsidyHalvingInterval).amount ≤ 50 * COIN.amount := by
  rw [GetBlockSubsidy_amount]
  exact Int.ofNat_le.mpr (halvingSubsidy_le _)

/-- From 64 halvings on the subsidy is zero. -/
theorem GetBlockSubsidy_eq_zero {nHeight nSubsidyHalvingInterval : Nat}
    (h : 64 ≤ nHeight / nSubsidyHalvingInterval) :
    (GetBlockSubsidy nHeight nSubsidyHalvingInterval).amount = 0 := by
  rw [GetBlockSubsidy_amount, halvingSubsidy, if_pos h]
  rfl

/-- Every prefix of the subsidies, over any interval, is less than twice the
first one times the interval: the subsidy is zero from 64 halvings on, and the
halvings of `50 * COIN` sum to less than `2 * 50 * COIN`. -/
theorem sum_GetBlockSubsidy_lt {nSubsidyHalvingInterval : Nat} (hI : 0 < nSubsidyHalvingInterval)
    (H : Nat) :
    ∑ h ∈ range (H + 1), (GetBlockSubsidy h nSubsidyHalvingInterval).amount <
      2 * 50 * COIN.amount * nSubsidyHalvingInterval := by
  have hzero : ∀ j, 64 ≤ j → halvingSubsidy j = 0 := fun j hj => by
    rw [halvingSubsidy, if_pos hj]
  have hhalvings : ∑ j ∈ range 64, halvingSubsidy j = ∑ j ∈ range 64, 5000000000 >>> j :=
    sum_congr rfl fun j hj => by
      rw [halvingSubsidy, if_neg (Nat.not_le.mpr (mem_range.mp hj))]
  have hsum : ∑ h ∈ range (H + 1), halvingSubsidy (h / nSubsidyHalvingInterval) <
      2 * 5000000000 * nSubsidyHalvingInterval :=
    calc ∑ h ∈ range (H + 1), halvingSubsidy (h / nSubsidyHalvingInterval)
        ≤ nSubsidyHalvingInterval * ∑ j ∈ range 64, halvingSubsidy j :=
          Nat.sum_range_div_le hI hzero (H + 1)
      _ < nSubsidyHalvingInterval * (2 * 5000000000) := by
          rw [hhalvings]
          exact Nat.mul_lt_mul_of_pos_left (Nat.sum_range_shiftRight_lt 64 (by decide)) hI
      _ = 2 * 5000000000 * nSubsidyHalvingInterval := Nat.mul_comm _ _
  simp only [GetBlockSubsidy_amount]
  rw [← Nat.cast_sum]
  show _ < ((2 * 5000000000 * nSubsidyHalvingInterval : Nat) : Int)
  exact Int.ofNat_lt.mpr hsum

end BitcoinAbc
