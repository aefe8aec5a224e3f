import Mathlib

/-!
# Powers of two with a fixed-point exponent

A fixed-point exponent `e` with `b` fractional bits stands for `e / 2^b`. Its
power of two `2^(e / 2^b)` is computed as `2^n * F(f)`, where `n = ⌊e / 2^b⌋`
is the whole part, `f = e mod 2^b` the fraction and `F` a table (or a
polynomial) approximating `2^(f / 2^b)` scaled by some `2^c`; the product is
shifted left or right by `n - c`, rounding down.

- `scale s x`: `x * 2^s` for an integer `s`, rounded down;
- `scale_mul_two_pow`: a factor `2^m` moves into the exponent;
- `scale_mono_left`, `scale_mono_right`: `scale` grows with both arguments;
- `pow2Approx_mono`: the approximation is monotone in the exponent as soon as
  `F` is monotone on the fractions and stays below `2 F(0)`, the value the
  next whole part starts from;
- `pow2Approx_whole`: at a whole exponent `k * 2^b`, only `F(0)` is used.
-/

namespace FixedPoint

/-- `x * 2^s` for an integer `s`: a left shift, or a right shift rounding down. -/
def scale : Int → Nat → Nat
  | .ofNat n, x => x * 2 ^ n
  | .negSucc n, x => x / 2 ^ (n + 1)

theorem scale_of_nonneg {s : Int} (hs : 0 ≤ s) (x : Nat) : scale s x = x * 2 ^ s.toNat := by
  obtain ⟨n, rfl⟩ := Int.eq_ofNat_of_zero_le hs
  rfl

theorem scale_of_nonpos {s : Int} (hs : s ≤ 0) (x : Nat) : scale s x = x / 2 ^ (-s).toNat := by
  cases s with
  | ofNat n =>
    -- only `s = 0` is both
    obtain rfl : n = 0 := by
      have : (n : Int) ≤ 0 := hs
      omega
    simp [scale]
  | negSucc n => rfl

@[simp] theorem scale_zero (x : Nat) : scale 0 x = x := by
  simp [scale]

theorem scale_mono_right (s : Int) {x y : Nat} (h : x ≤ y) : scale s x ≤ scale s y := by
  cases s with
  | ofNat n => exact Nat.mul_le_mul_right _ h
  | negSucc n => exact Nat.div_le_div_right h

/-- Doubling the argument is one more step of the exponent. -/
theorem scale_two_mul (s : Int) (x : Nat) : scale s (2 * x) = scale (s + 1) x := by
  cases s with
  | ofNat n =>
    show 2 * x * 2 ^ n = x * 2 ^ (n + 1)
    rw [Nat.pow_succ]
    ac_rfl
  | negSucc n =>
    cases n with
    | zero =>
      show 2 * x / 2 ^ 1 = x * 2 ^ 0
      simp
    | succ n =>
      show 2 * x / 2 ^ (n + 2) = x / 2 ^ (n + 1)
      rw [Nat.pow_succ, Nat.mul_comm (2 ^ (n + 1)), Nat.mul_div_mul_left _ _ (by decide)]

/-- A factor `2^m` of the argument moves into the exponent. -/
theorem scale_mul_two_pow (s : Int) (x m : Nat) : scale s (x * 2 ^ m) = scale (s + m) x := by
  induction m generalizing s with
  | zero => simp
  | succ m ih =>
    rw [Nat.pow_succ, Nat.mul_comm (2 ^ m), ← Nat.mul_assoc, Nat.mul_comm x 2, Nat.mul_assoc,
      scale_two_mul, ih]
    congr 1
    push_cast
    ac_rfl

theorem scale_le_succ (s : Int) (x : Nat) : scale s x ≤ scale (s + 1) x := by
  rw [← scale_two_mul]
  exact scale_mono_right s (by omega)

theorem scale_mono_left {s t : Int} (h : s ≤ t) (x : Nat) : scale s x ≤ scale t x := by
  -- climb from `s` to `t = s + d` one step at a time
  obtain ⟨d, rfl⟩ := Int.le.dest h
  induction d with
  | zero => simp
  | succ d ih =>
    calc scale s x ≤ scale (s + d) x := ih (by omega)
      _ ≤ scale (s + d + 1) x := scale_le_succ _ x
      _ = scale (s + (d + 1 : Nat)) x := by
          congr 1
          push_cast
          ac_rfl

/-- `x * F(f) * 2^(n - c)`, where `n` and `f` are the whole part and the
fraction of the exponent `e` with `b` fractional bits. -/
def pow2Approx (b : Nat) (F : Nat → Nat) (c : Int) (x : Nat) (e : Int) : Nat :=
  scale (e / 2 ^ b - c) (x * F (e % 2 ^ b).toNat)

section Approx

variable {b : Nat} {F : Nat → Nat}

/-- The fraction of an exponent is below `2^b`. -/
theorem toNat_emod_lt (e : Int) : (e % 2 ^ b).toNat < 2 ^ b := by
  have hpos : (0 : Int) < 2 ^ b := pow_pos (by decide) b
  have := Int.emod_lt_of_pos e hpos
  have := Int.emod_nonneg e hpos.ne'
  have hcast : ((2 ^ b : Nat) : Int) = 2 ^ b := Int.natCast_pow 2 b
  omega

/-- At a whole exponent the fraction is `0`: the power is `x * F(0)`
shifted by `k - c`. -/
theorem pow2Approx_whole (c : Int) (x : Nat) (k : Int) :
    pow2Approx b F c x (k * 2 ^ b) = scale (k - c) (x * F 0) := by
  have hpos : (2 : Int) ^ b ≠ 0 := (pow_pos (by decide) b).ne'
  rw [pow2Approx, Int.mul_ediv_cancel _ hpos, Int.mul_emod_left]
  rfl

variable (hF : ∀ f g, f ≤ g → g < 2 ^ b → F f ≤ F g) (hF2 : ∀ f, f < 2 ^ b → F f ≤ 2 * F 0)
include hF hF2

/-- The approximation grows with the exponent. Within one whole part it is
`F` that grows; across whole parts, the largest value before a boundary,
`x * F(f) ≤ x * 2 F(0)`, is where the next whole part starts. -/
theorem pow2Approx_mono (c : Int) (x : Nat) : Monotone (pow2Approx b F c x) := by
  intro e e' he
  have hpos : (0 : Int) < 2 ^ b := pow_pos (by decide) b
  have hf : (e % 2 ^ b).toNat < 2 ^ b := toNat_emod_lt e
  have hf' : (e' % 2 ^ b).toNat < 2 ^ b := toNat_emod_lt e'
  have hn : e / 2 ^ b ≤ e' / 2 ^ b := Int.ediv_le_ediv hpos he
  rcases lt_or_eq_of_le hn with hlt | heq
  · -- a whole part further: go through `x * F(0)` at the next one
    calc pow2Approx b F c x e
        ≤ scale (e / 2 ^ b - c) (2 * (x * F 0)) := by
          refine scale_mono_right _ ?_
          rw [Nat.mul_left_comm]
          exact Nat.mul_le_mul_left _ (hF2 _ hf)
      _ = scale (e / 2 ^ b + 1 - c) (x * F 0) := by
          rw [scale_two_mul]
          congr 1
          omega
      _ ≤ scale (e' / 2 ^ b - c) (x * F 0) := scale_mono_left (by omega) _
      _ ≤ pow2Approx b F c x e' :=
          scale_mono_right _ (Nat.mul_le_mul_left _ (hF 0 _ (Nat.zero_le _) hf'))
  · -- the same whole part: the fractions are ordered as the exponents are
    have hfrac : e % 2 ^ b ≤ e' % 2 ^ b := by
      have := Int.emod_add_mul_ediv e (2 ^ b)
      have := Int.emod_add_mul_ediv e' (2 ^ b)
      rw [heq] at *
      omega
    unfold pow2Approx
    rw [heq]
    exact scale_mono_right _ (Nat.mul_le_mul_left _ (hF _ _ (by omega) hf'))

end Approx

/-- The approximation grows with the number it scales. -/
theorem pow2Approx_mono_right {b : Nat} {F : Nat → Nat} (c : Int) {x y : Nat} (h : x ≤ y) (e : Int) :
    pow2Approx b F c x e ≤ pow2Approx b F c y e :=
  scale_mono_right _ (Nat.mul_le_mul_right _ h)

end FixedPoint
