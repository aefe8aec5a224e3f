import Mathlib
import BitcoinAbc.Consensus.Amount

/-!
# Amount compression (compressor.cpp)

The coins database stores an output's amount as the `uint64_t` that
`CompressAmount` makes of it: `0` for zero; otherwise, with `e` trailing
decimal zeros taken off (at most nine) and, below nine, the last digit `d`
then taken off too, leaving `n`, the number `1 + 10 * (9 * n + d - 1) + e`,
or `1 + 10 * (n - 1) + 9` when nine zeros went. `DecompressAmount` undoes
it, with `decompressValue` the amount it denotes in unbounded arithmetic.

- `compressAmountLoop_spec`: what the loop that takes off zeros leaves;
- `compressAmountLoop_mul`: on a number with `k` zeros appended it takes off
  exactly those, when no more are there or nine are reached;
- `DecompressAmount_eq`: when the denoted amount is at most `MAX_MONEY`,
  `DecompressAmount` computes it, with no overflow in its loop;
- `amountCompression_bijective`: the two directions are inverse on the
  amounts in `MoneyRange` and on the numbers that denote one.
-/

namespace BitcoinAbc

namespace Compressor

/-- The loop of `CompressAmount`: take off trailing decimal zeros while there
are some and fewer than nine went. -/
def compressAmountLoop (n : UInt64) (e : Nat) : UInt64 × Nat :=
  if n % 10 = 0 ∧ e < 9 then compressAmountLoop (n / 10) (e + 1) else (n, e)
termination_by 9 - e

/-- `CompressAmount(amt)`; `none` is the failure of its `assert`. -/
def CompressAmount (amt : Amount) : Option UInt64 :=
  let n : UInt64 := UInt64.ofInt (amt.amount.tdiv Amount.SATOSHI.amount)
  if n = 0 then some 0
  else
    let (n, e) := compressAmountLoop n 0
    if e < 9 then
      let d := n % 10
      if ¬ (1 ≤ d ∧ d ≤ 9) then none
      else
        let n := n / 10
        some (1 + (n * 9 + d - 1) * 10 + UInt64.ofNat e)
    else some (1 + (n - 1) * 10 + 9)

/-- The loop of `DecompressAmount`: append `e` decimal zeros. -/
def decompressAmountLoop (n : UInt64) : Nat → UInt64
  | 0 => n
  | e + 1 => decompressAmountLoop (n * 10) e

/-- `DecompressAmount(x)`. -/
def DecompressAmount (x : UInt64) : Amount :=
  if x = 0 then ⟨0⟩
  else
    let x := x - 1
    let e := (x % 10).toNat
    let x := x / 10
    let n :=
      if e < 9 then
        let d := x % 9 + 1
        let x := x / 9
        x * 10 + d
      else x + 1
    ⟨(decompressAmountLoop n e).toInt64.toInt * Amount.SATOSHI.amount⟩

/-- The amount `x` denotes, in unbounded arithmetic. -/
def decompressValue (x : Nat) : Nat :=
  if x = 0 then 0
  else
    let e := (x - 1) % 10
    let y := (x - 1) / 10
    (if e < 9 then y / 9 * 10 + (y % 9 + 1) else y + 1) * 10 ^ e

section Loops

/-- What the loop of `CompressAmount` leaves of a non-zero number: at most
nine zeros taken off, and no more there unless nine went. -/
theorem compressAmountLoop_spec (n : UInt64) (e : Nat) (hn : n ≠ 0) (he : e ≤ 9) :
    ∃ m e', compressAmountLoop n e = (m, e') ∧ e ≤ e' ∧ e' ≤ 9 ∧
      n.toNat = m.toNat * 10 ^ (e' - e) ∧ m ≠ 0 ∧ (e' < 9 → m.toNat % 10 ≠ 0) := by
  induction n, e using compressAmountLoop.induct with
  | case1 n e hcond ih =>
    obtain ⟨hz, hlt⟩ := hcond
    have hz' : n.toNat % 10 = 0 := by
      have := congrArg UInt64.toNat hz
      rwa [UInt64.toNat_mod] at this
    have hn' : n.toNat ≠ 0 := fun h => hn (UInt64.toNat_inj.mp h)
    have hdiv : (n / 10).toNat = n.toNat / 10 := UInt64.toNat_div n 10
    obtain ⟨m, e', hloop, he1, he2, hval, hm, hstop⟩ :=
      ih (fun h => by
        have := congrArg UInt64.toNat h
        rw [hdiv] at this
        exact hn' (by simp at this; omega)) (by omega)
    refine ⟨m, e', ?_, by omega, he2, ?_, hm, hstop⟩
    · rw [compressAmountLoop, if_pos ⟨hz, hlt⟩, hloop]
    · rw [hdiv] at hval
      have hsplit : e' - e = (e' - (e + 1)) + 1 := by omega
      rw [hsplit, Nat.pow_succ, ← Nat.mul_assoc, ← hval]
      omega
  | case2 n e hcond =>
    refine ⟨n, e, by rw [compressAmountLoop, if_neg hcond], le_refl e, he, by simp, hn, ?_⟩
    intro hlt hz
    exact hcond ⟨UInt64.toNat_inj.mp (by rw [UInt64.toNat_mod]; exact hz), hlt⟩

/-- On a number with `k` zeros appended the loop takes off exactly those, when
the number had none left or nine are reached. -/
theorem compressAmountLoop_mul (m : UInt64) (hm : m ≠ 0) :
    ∀ (k e : Nat), e + k ≤ 9 → (e + k < 9 → m.toNat % 10 ≠ 0) → m.toNat * 10 ^ k < 2 ^ 64 →
      compressAmountLoop (UInt64.ofNat (m.toNat * 10 ^ k)) e = (m, e + k)
  | 0, e, _, hstop, _ => by
    have hcond : ¬ (m % 10 = 0 ∧ e < 9) := by
      rintro ⟨hz, hlt⟩
      have := congrArg UInt64.toNat hz
      rw [UInt64.toNat_mod] at this
      exact hstop hlt this
    rw [Nat.pow_zero, Nat.mul_one, UInt64.ofNat_toNat, compressAmountLoop, if_neg hcond]
    rfl
  | k + 1, e, hk, hstop, hlt => by
    have hv : (UInt64.ofNat (m.toNat * 10 ^ (k + 1))).toNat = m.toNat * 10 ^ (k + 1) := by
      rw [UInt64.toNat_ofNat', Nat.mod_eq_of_lt hlt]
    have hz : UInt64.ofNat (m.toNat * 10 ^ (k + 1)) % 10 = 0 := by
      apply UInt64.toNat_inj.mp
      rw [UInt64.toNat_mod, hv, Nat.pow_succ, ← Nat.mul_assoc]
      simp
    have hdiv : UInt64.ofNat (m.toNat * 10 ^ (k + 1)) / 10 = UInt64.ofNat (m.toNat * 10 ^ k) := by
      apply UInt64.toNat_inj.mp
      rw [UInt64.toNat_div, hv, UInt64.toNat_ofNat', Nat.pow_succ, ← Nat.mul_assoc,
        Nat.mod_eq_of_lt (by rw [Nat.pow_succ, ← Nat.mul_assoc] at hlt; omega)]
      simp
    rw [compressAmountLoop, if_pos ⟨hz, by omega⟩, hdiv,
      compressAmountLoop_mul m hm k (e + 1) (by omega) (fun h => hstop (by omega))
        (lt_of_le_of_lt (Nat.mul_le_mul_left _ (Nat.pow_le_pow_right (by decide) (Nat.le_succ k))) hlt)]
    rw [Nat.add_assoc, Nat.add_comm 1 k]

/-- Without overflow, the loop of `DecompressAmount` appends the zeros. -/
theorem toNat_decompressAmountLoop : ∀ (n : UInt64) (e : Nat), n.toNat * 10 ^ e < 2 ^ 64 →
    (decompressAmountLoop n e).toNat = n.toNat * 10 ^ e
  | n, 0, _ => by rw [decompressAmountLoop, Nat.pow_zero, Nat.mul_one]
  | n, e + 1, h => by
    have h10 : (n * 10).toNat = n.toNat * 10 := by
      rw [UInt64.toNat_mul, show (10 : UInt64).toNat = 10 from rfl]
      exact Nat.mod_eq_of_lt (lt_of_le_of_lt
        (Nat.mul_le_mul_left _ (Nat.le_self_pow (Nat.succ_ne_zero e) 10)) h)
    rw [decompressAmountLoop, toNat_decompressAmountLoop (n * 10) e (by
      rw [h10, Nat.mul_assoc, ← Nat.pow_succ']; exact h), h10, Nat.mul_assoc, ← Nat.pow_succ']

end Loops

section Values

/-- The two shapes of a compressed amount, for `m` left by the loop with `e`
zeros taken off, read back by `decompressValue`. -/
theorem decompressValue_encode {m e : Nat} (hm : m ≠ 0) (he : e ≤ 9) (hstop : e < 9 → m % 10 ≠ 0) :
    decompressValue (if e < 9 then 1 + (m / 10 * 9 + m % 10 - 1) * 10 + e else 1 + (m - 1) * 10 + 9) =
      m * 10 ^ e := by
  unfold decompressValue
  split
  · rename_i he9
    have hd := hstop he9
    have hx1 : 1 + (m / 10 * 9 + m % 10 - 1) * 10 + e - 1 = (m / 10 * 9 + m % 10 - 1) * 10 + e := by
      omega
    rw [if_neg (by omega), hx1]
    dsimp only
    have hE : ((m / 10 * 9 + m % 10 - 1) * 10 + e) % 10 = e := by omega
    have hY : ((m / 10 * 9 + m % 10 - 1) * 10 + e) / 10 = m / 10 * 9 + m % 10 - 1 := by omega
    rw [hE, hY, if_pos he9]
    congr 1
    omega
  · rename_i he9
    have he9' : e = 9 := by omega
    subst he9'
    rw [if_neg (by omega)]
    dsimp only
    have hE : (1 + (m - 1) * 10 + 9 - 1) % 10 = 9 := by omega
    have hY : (1 + (m - 1) * 10 + 9 - 1) / 10 = m - 1 := by omega
    rw [hE, hY, if_neg (by decide)]
    congr 1
    omega

/-- Every non-zero number is the compressed shape of what it denotes: the
digits `decompressValue` builds, compressed again, give the number back. -/
theorem encode_decompressValue {x : Nat} (hx : x ≠ 0) :
    let e := (x - 1) % 10
    let y := (x - 1) / 10
    let n := if e < 9 then y / 9 * 10 + (y % 9 + 1) else y + 1
    n ≠ 0 ∧ (e < 9 → n % 10 ≠ 0) ∧
      (if e < 9 then 1 + (n / 10 * 9 + n % 10 - 1) * 10 + e else 1 + (n - 1) * 10 + 9) = x := by
  intro e y n
  by_cases he : e < 9
  · have hn : n = y / 9 * 10 + (y % 9 + 1) := if_pos he
    rw [hn, if_pos he]
    refine ⟨by omega, fun _ => by omega, by omega⟩
  · have hn : n = y + 1 := if_neg he
    rw [hn, if_neg he]
    refine ⟨by omega, fun h => absurd h he, by omega⟩

/-- `uint64_t` to `int64_t` keeps a number below `2 ^ 63`. -/
theorem toInt_toInt64 {n : UInt64} (h : n.toNat < 2 ^ 63) : n.toInt64.toInt = n.toNat := by
  show (if 2 * n.toNat < 2 ^ 64 then (n.toNat : Int) else n.toNat - 2 ^ 64) = n.toNat
  rw [if_pos (by omega)]

/-- The `uint64_t` `CompressAmount` starts from, for an amount in range. -/
theorem ofInt_amount {amt : Amount} (h0 : 0 ≤ amt.amount) (h1 : amt.amount < 2 ^ 63) :
    UInt64.ofInt (amt.amount.tdiv Amount.SATOSHI.amount) = UInt64.ofNat amt.amount.toNat := by
  apply UInt64.toNat_inj.mp
  rw [show Amount.SATOSHI.amount = 1 from rfl, Int.tdiv_one, UInt64.toNat_ofNat']
  show (amt.amount % 2 ^ 64).toNat % 2 ^ 64 = amt.amount.toNat % 2 ^ 64
  rw [Int.emod_eq_of_lt h0 (by omega)]

/-- What `CompressAmount` returns once its loop left `m`, with `e` zeros
taken off: the `assert` holds, and nothing overflows. -/
theorem CompressAmount_eq {amt : Amount} (h0 : 0 < amt.amount) (h1 : amt.amount < 2 ^ 63)
    {m : UInt64} {e : Nat} (hloop : compressAmountLoop (UInt64.ofNat amt.amount.toNat) 0 = (m, e))
    (hm : m ≠ 0) (hstop : e < 9 → m.toNat % 10 ≠ 0) (hsmall : m.toNat < 2 ^ 63) :
    CompressAmount amt = some (UInt64.ofNat
      (if e < 9 then 1 + (m.toNat / 10 * 9 + m.toNat % 10 - 1) * 10 + e else 1 + (m.toNat - 1) * 10 + 9)) := by
  have hn0 : UInt64.ofNat amt.amount.toNat ≠ 0 := by
    intro h
    have := congrArg UInt64.toNat h
    rw [UInt64.toNat_ofNat', Nat.mod_eq_of_lt (by omega)] at this
    simp at this
    omega
  have hm' : m.toNat ≠ 0 := fun h => hm (UInt64.toNat_inj.mp h)
  rw [CompressAmount, ofInt_amount h0.le h1]
  dsimp only
  rw [if_neg hn0, hloop]
  dsimp only
  split
  · rename_i he9
    have hd := hstop he9
    have hdlo : 1 ≤ m % 10 := by
      rw [UInt64.le_iff_toNat_le, UInt64.toNat_mod]
      simp only [UInt64.reduceToNat]
      omega
    have hdhi : m % 10 ≤ 9 := by
      rw [UInt64.le_iff_toNat_le, UInt64.toNat_mod]
      simp only [UInt64.reduceToNat]
      omega
    rw [if_neg (not_not.mpr ⟨hdlo, hdhi⟩)]
    congr 1
    apply UInt64.toNat_inj.mp
    have hq : (m / 10 * 9 + m % 10).toNat = m.toNat / 10 * 9 + m.toNat % 10 := by
      simp only [UInt64.toNat_add, UInt64.toNat_mul, UInt64.toNat_div, UInt64.toNat_mod,
        UInt64.reduceToNat]
      omega
    have hq1 : (m / 10 * 9 + m % 10 - 1).toNat = m.toNat / 10 * 9 + m.toNat % 10 - 1 := by
      rw [UInt64.toNat_sub_of_le _ _ (by rw [UInt64.le_iff_toNat_le, hq]; simp only [UInt64.reduceToNat]; omega), hq]
      rfl
    simp only [UInt64.toNat_add, UInt64.toNat_mul, hq1, UInt64.toNat_ofNat', UInt64.reduceToNat]
    omega
  · congr 1
    apply UInt64.toNat_inj.mp
    have hm1 : (m - 1).toNat = m.toNat - 1 :=
      UInt64.toNat_sub_of_le _ _ (by rw [UInt64.le_iff_toNat_le]; simp only [UInt64.reduceToNat]; omega)
    simp only [UInt64.toNat_add, UInt64.toNat_mul, hm1, UInt64.toNat_ofNat', UInt64.reduceToNat]
    omega

/-- When the amount it denotes is at most `MAX_MONEY`, `DecompressAmount`
computes it: no step overflows, its loop included. -/
theorem DecompressAmount_eq {x : UInt64} (hx : (decompressValue x.toNat : Int) ≤ MAX_MONEY.amount) :
    DecompressAmount x = ⟨decompressValue x.toNat⟩ := by
  rw [MAX_MONEY_amount] at hx
  have hv : decompressValue x.toNat ≤ 2100000000000000 := by omega
  by_cases hx0 : x = 0
  · subst hx0
    rw [DecompressAmount, if_pos rfl]
    rfl
  have hx1 : 1 ≤ x.toNat := by
    have : x.toNat ≠ 0 := fun h => hx0 (UInt64.toNat_inj.mp h)
    omega
  have hsub : (x - 1).toNat = x.toNat - 1 :=
    UInt64.toNat_sub_of_le _ _ (by rw [UInt64.le_iff_toNat_le]; exact hx1)
  have hE : ((x - 1) % 10).toNat = (x.toNat - 1) % 10 := by rw [UInt64.toNat_mod, hsub]; rfl
  have hY : ((x - 1) / 10).toNat = (x.toNat - 1) / 10 := by rw [UInt64.toNat_div, hsub]; rfl
  have hpow : 1 ≤ 10 ^ ((x.toNat - 1) % 10) := Nat.one_le_pow _ _ (by decide)
  rw [DecompressAmount, if_neg hx0]
  dsimp only
  rw [hE]
  congr 1
  -- the digits `n` the loop starts from, as a `uint64_t` that does not overflow
  obtain ⟨N, Nn, hN, hvalue, hNdef⟩ : ∃ (N : UInt64) (Nn : Nat), N.toNat = Nn ∧
      decompressValue x.toNat = Nn * 10 ^ ((x.toNat - 1) % 10) ∧
      N = if (x.toNat - 1) % 10 < 9 then (x - 1) / 10 / 9 * 10 + ((x - 1) / 10 % 9 + 1)
        else (x - 1) / 10 + 1 := by
    by_cases he : (x.toNat - 1) % 10 < 9
    · have hval : decompressValue x.toNat =
          ((x.toNat - 1) / 10 / 9 * 10 + ((x.toNat - 1) / 10 % 9 + 1)) * 10 ^ ((x.toNat - 1) % 10) := by
        rw [decompressValue, if_neg (by omega)]
        dsimp only
        rw [if_pos he]
      have hle := Nat.le_mul_of_pos_right
        ((x.toNat - 1) / 10 / 9 * 10 + ((x.toNat - 1) / 10 % 9 + 1)) hpow
      refine ⟨(x - 1) / 10 / 9 * 10 + ((x - 1) / 10 % 9 + 1), _, ?_, hval, (if_pos he).symm⟩
      simp only [UInt64.toNat_add, UInt64.toNat_mul, UInt64.toNat_div, UInt64.toNat_mod, hY,
        UInt64.reduceToNat]
      omega
    · have hval : decompressValue x.toNat = ((x.toNat - 1) / 10 + 1) * 10 ^ ((x.toNat - 1) % 10) := by
        rw [decompressValue, if_neg (by omega)]
        dsimp only
        rw [if_neg he]
      have hle := Nat.le_mul_of_pos_right ((x.toNat - 1) / 10 + 1) hpow
      refine ⟨(x - 1) / 10 + 1, _, ?_, hval, (if_neg he).symm⟩
      simp only [UInt64.toNat_add, hY, UInt64.reduceToNat]
      omega
  rw [← hNdef]
  have hloop := toNat_decompressAmountLoop N ((x.toNat - 1) % 10) (by rw [hN, ← hvalue]; omega)
  rw [hN, ← hvalue] at hloop
  rw [toInt_toInt64 (by rw [hloop]; omega), hloop, show Amount.SATOSHI.amount = 1 from rfl, Int.mul_one]

end Values

/-- A compressed amount of `MoneyRange` decompresses back to it. -/
theorem DecompressAmount_CompressAmount {a : Amount} (h0 : 0 ≤ a.amount) (hmax : a.amount ≤ MAX_MONEY.amount) :
    ∃ x, CompressAmount a = some x ∧ DecompressAmount x = a := by
  rw [MAX_MONEY_amount] at hmax
  by_cases ha : a.amount = 0
  · -- zero compresses to zero
    refine ⟨0, ?_, ?_⟩
    · rw [CompressAmount, ofInt_amount h0 (by omega), ha]
      rfl
    · rw [DecompressAmount, if_pos rfl]
      cases a
      simp_all
  · have hpos : 0 < a.amount := lt_of_le_of_ne h0 (Ne.symm ha)
    have hn : (UInt64.ofNat a.amount.toNat).toNat = a.amount.toNat := by
      rw [UInt64.toNat_ofNat', Nat.mod_eq_of_lt (by omega)]
    have hn0 : UInt64.ofNat a.amount.toNat ≠ 0 := by
      intro h
      have := congrArg UInt64.toNat h
      rw [hn] at this
      simp at this
      omega
    obtain ⟨m, e, hloop, -, he, hval, hm, hstop⟩ :=
      compressAmountLoop_spec (UInt64.ofNat a.amount.toNat) 0 hn0 (by decide)
    rw [hn, Nat.sub_zero] at hval
    have hm' : m.toNat ≠ 0 := fun h => hm (UInt64.toNat_inj.mp h)
    have hmle : m.toNat ≤ a.amount.toNat := by
      rw [hval]
      exact Nat.le_mul_of_pos_right _ (Nat.one_le_pow _ _ (by decide))
    refine ⟨_, CompressAmount_eq hpos (by omega) hloop hm hstop (by omega), ?_⟩
    -- the compressed number is small, and denotes the amount
    have henc := decompressValue_encode hm' he hstop
    have hsmall : (if e < 9 then 1 + (m.toNat / 10 * 9 + m.toNat % 10 - 1) * 10 + e
        else 1 + (m.toNat - 1) * 10 + 9) < 2 ^ 64 := by
      split <;> omega
    have hback : decompressValue (UInt64.ofNat (if e < 9 then 1 + (m.toNat / 10 * 9 + m.toNat % 10 - 1) * 10 + e
        else 1 + (m.toNat - 1) * 10 + 9)).toNat = a.amount.toNat := by
      rw [UInt64.toNat_ofNat', Nat.mod_eq_of_lt hsmall, henc, ← hval]
    rw [DecompressAmount_eq (by rw [hback, MAX_MONEY_amount]; omega), hback, Int.toNat_of_nonneg h0]

/-- A number that denotes an amount of at most `MAX_MONEY` compresses back
from what it decompresses to. -/
theorem CompressAmount_DecompressAmount {x : UInt64} (hx : (decompressValue x.toNat : Int) ≤ MAX_MONEY.amount) :
    CompressAmount (DecompressAmount x) = some x := by
  rw [DecompressAmount_eq hx]
  rw [MAX_MONEY_amount] at hx
  by_cases hx0 : x.toNat = 0
  · have hx0' : x = 0 := UInt64.toNat_inj.mp hx0
    rw [hx0, decompressValue, if_pos rfl, hx0']
    rfl
  obtain ⟨hn, hstop, henc⟩ := encode_decompressValue hx0
  -- the digits `DecompressAmount` builds, and the amount they denote
  generalize hE : (x.toNat - 1) % 10 = e at hn hstop henc
  generalize hN : (if e < 9 then (x.toNat - 1) / 10 / 9 * 10 + ((x.toNat - 1) / 10 % 9 + 1)
    else (x.toNat - 1) / 10 + 1) = n at hn hstop henc
  have hvalue : decompressValue x.toNat = n * 10 ^ e := by
    rw [decompressValue, if_neg hx0, ← hN, ← hE]
  have he : e ≤ 9 := by omega
  have hpos : 0 < n * 10 ^ e := Nat.mul_pos (by omega) (Nat.one_le_pow _ _ (by decide))
  have hnle : n ≤ n * 10 ^ e := Nat.le_mul_of_pos_right _ (Nat.one_le_pow _ _ (by decide))
  have hnv : (UInt64.ofNat n).toNat = n := by
    rw [UInt64.toNat_ofNat', Nat.mod_eq_of_lt (by omega)]
  have hloop := compressAmountLoop_mul (UInt64.ofNat n)
    (fun h => hn (by rw [← hnv, h]; rfl)) e 0 (by omega) (by rw [hnv]; intro h; exact hstop (by omega))
    (by rw [hnv]; omega)
  rw [hnv, Nat.zero_add] at hloop
  have hpos' : (0 : Int) < (decompressValue x.toNat : Int) := by
    rw [hvalue]
    omega
  have hlt' : (decompressValue x.toNat : Int) < 2 ^ 63 := by
    rw [hvalue]
    omega
  have hC := @CompressAmount_eq ⟨(decompressValue x.toNat : Int)⟩ hpos' hlt' (UInt64.ofNat n) e
    (by rw [Int.toNat_natCast, hvalue]; exact hloop) (fun h => hn (by rw [← hnv, h]; rfl))
    (by rw [hnv]; exact hstop) (by rw [hnv]; omega)
  rw [hC, hnv, henc, UInt64.ofNat_toNat]

/-- Amount compression is a bijection between the amounts in `MoneyRange` and
the numbers that denote one: decompressing a compressed amount gives it back,
and a number whose denoted amount is at most `MAX_MONEY` decompresses without
overflow to that amount, which compresses back to the number. -/
theorem amountCompression_bijective :
    (∀ a : Amount, 0 ≤ a.amount → a.amount ≤ MAX_MONEY.amount →
      ∃ x, CompressAmount a = some x ∧ DecompressAmount x = a) ∧
    ∀ x : UInt64, (decompressValue x.toNat : Int) ≤ MAX_MONEY.amount →
      DecompressAmount x = ⟨decompressValue x.toNat⟩ ∧ CompressAmount (DecompressAmount x) = some x :=
  ⟨fun _ h0 hmax => DecompressAmount_CompressAmount h0 hmax,
    fun _ hx => ⟨DecompressAmount_eq hx, CompressAmount_DecompressAmount hx⟩⟩

/-- `123456789` satoshis compress to `1111111101` and back; and `9` denotes
one coin, which compresses back to `9`. -/
theorem amountCompression_bijective_oneCoin :
    CompressAmount ⟨123456789⟩ = some 1111111101 ∧ decompressValue 9 = 100000000 ∧
      (∃ x, CompressAmount ⟨123456789⟩ = some x ∧ DecompressAmount x = ⟨123456789⟩) ∧
      DecompressAmount 9 = ⟨decompressValue (9 : UInt64).toNat⟩ ∧
      CompressAmount (DecompressAmount 9) = some 9 :=
  ⟨by rw [CompressAmount, compressAmountLoop]; decide, by decide,
    amountCompression_bijective.1 ⟨123456789⟩ (by decide) (by decide),
    amountCompression_bijective.2 9 (by decide)⟩

end Compressor

end BitcoinAbc
