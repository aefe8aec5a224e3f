import Mathlib

/-!
# Little-endian limbs

A list of 32-bit limbs, the least significant first, stands for the natural
number `Limbs.val`. Multi-word integers are kept this way and their operations
are loops over the limbs; these are the facts about the number a list of limbs
stands for that the proofs about such loops use:

- `Limbs.val_lt`: `n` limbs stand for a number below `2^(32 n)`;
- `Limbs.val_append`, `Limbs.val_take`, `Limbs.val_drop`: cutting the limbs
  cuts the number at a multiple of 32 bits, and `Limbs.val_take_succ` adds the
  limbs one at a time from the least significant;
- `Limbs.val_eq_sum`: the number is the sum of the limbs at their weights;
- `Limbs.testBit_val`: bit `n` of the number is bit `n % 32` of limb `n / 32`,
  so that a loop that moves bits between limbs is read bit by bit;
- `Limbs.val_map_not`: complementing the limbs complements the number;
- `Limbs.val_inj`: limbs of one length are equal when their numbers are;
- `Limbs.mul_div_limbs`: the high word of a product of two-limb numbers from
  the four products of their limbs.
-/

namespace Limbs

/-- The number the limbs stand for, the first limb the least significant. -/
def val : List UInt32 → Nat
  | [] => 0
  | x :: xs => x.toNat + 2 ^ 32 * val xs

@[simp] theorem val_nil : val [] = 0 := rfl

@[simp] theorem val_cons (x : UInt32) (xs : List UInt32) :
    val (x :: xs) = x.toNat + 2 ^ 32 * val xs := rfl

theorem val_lt : ∀ l : List UInt32, val l < 2 ^ (32 * l.length)
  | [] => by simp
  | x :: xs => by
    have hx := x.toNat_lt
    have ih := val_lt xs
    rw [val_cons, List.length_cons, Nat.mul_succ, Nat.pow_add]
    calc x.toNat + 2 ^ 32 * val xs < 2 ^ 32 * (val xs + 1) := by omega
      _ ≤ 2 ^ 32 * 2 ^ (32 * xs.length) := Nat.mul_le_mul_left _ ih
      _ = 2 ^ (32 * xs.length) * 2 ^ 32 := Nat.mul_comm _ _

theorem val_append : ∀ l₁ l₂ : List UInt32,
    val (l₁ ++ l₂) = val l₁ + 2 ^ (32 * l₁.length) * val l₂
  | [], l₂ => by simp
  | x :: xs, l₂ => by
    rw [List.cons_append, val_cons, val_append xs l₂, val_cons, List.length_cons, Nat.mul_succ,
      Nat.pow_add]
    ring

@[simp] theorem val_replicate_zero : ∀ n : Nat, val (List.replicate n 0) = 0
  | 0 => rfl
  | n + 1 => by
    rw [List.replicate_succ, val_cons, val_replicate_zero n]
    rfl

/-- The first `n` limbs and the rest split the number at bit `32 n`. -/
theorem val_eq_take_add_drop (l : List UInt32) {n : Nat} (hn : n ≤ l.length) :
    val l = val (l.take n) + 2 ^ (32 * n) * val (l.drop n) ∧ val (l.take n) < 2 ^ (32 * n) := by
  have hsplit := val_append (l.take n) (l.drop n)
  have hlt := val_lt (l.take n)
  rw [List.take_append_drop, List.length_take_of_le hn] at hsplit
  rw [List.length_take_of_le hn] at hlt
  exact ⟨hsplit, hlt⟩

/-- Past the last limb the number is below `2^(32 n)`. -/
theorem val_lt_of_length_le (l : List UInt32) {n : Nat} (hn : l.length ≤ n) :
    val l < 2 ^ (32 * n) :=
  Nat.lt_of_lt_of_le (val_lt l) (Nat.pow_le_pow_right (by decide) (by omega))

theorem val_take (l : List UInt32) (n : Nat) : val (l.take n) = val l % 2 ^ (32 * n) := by
  by_cases hn : n ≤ l.length
  · obtain ⟨hsplit, hlt⟩ := val_eq_take_add_drop l hn
    rw [hsplit, Nat.add_mul_mod_self_left, Nat.mod_eq_of_lt hlt]
  · rw [List.take_of_length_le (by omega), Nat.mod_eq_of_lt (val_lt_of_length_le l (by omega))]

theorem val_drop (l : List UInt32) (n : Nat) : val (l.drop n) = val l / 2 ^ (32 * n) := by
  by_cases hn : n ≤ l.length
  · obtain ⟨hsplit, hlt⟩ := val_eq_take_add_drop l hn
    rw [hsplit, Nat.add_mul_div_left _ _ (Nat.two_pow_pos _), Nat.div_eq_of_lt hlt, Nat.zero_add]
  · rw [List.drop_of_length_le (by omega), val_nil,
      Nat.div_eq_of_lt (val_lt_of_length_le l (by omega))]

/-- Adding the limbs one at a time, from the least significant. -/
theorem val_take_succ (l : List UInt32) (i : Nat) :
    val (l.take (i + 1)) = val (l.take i) + 2 ^ (32 * i) * (l.getD i 0).toNat := by
  by_cases hi : i < l.length
  · rw [List.take_add_one, List.getElem?_eq_getElem hi, Option.toList_some, val_append,
      List.length_take_of_le (Nat.le_of_lt hi), List.getD_eq_getElem _ _ hi, val_cons, val_nil]
    ring
  · rw [List.take_of_length_le (by omega), List.take_of_length_le (by omega),
      List.getD_eq_default _ _ (by omega)]
    rfl

/-- The number is the sum of the limbs, limb `i` at weight `2^(32 i)`. The
induction is on the number of limbs taken, from the least significant. -/
theorem val_eq_sum (l : List UInt32) :
    val l = ∑ i ∈ Finset.range l.length, (l.getD i 0).toNat * 2 ^ (32 * i) := by
  have htake : ∀ n, val (l.take n) = ∑ i ∈ Finset.range n, (l.getD i 0).toNat * 2 ^ (32 * i) := by
    intro n
    induction n with
    | zero => simp
    | succ n ih => rw [val_take_succ, ih, Finset.sum_range_succ, Nat.mul_comm (2 ^ _)]
  rw [← htake, List.take_length]

/-- Bit `n` of the number is bit `n % 32` of limb `n / 32`, zero past the
last limb. -/
theorem testBit_val : ∀ (l : List UInt32) (n : Nat),
    (val l).testBit n = (l.getD (n / 32) 0).toNat.testBit (n % 32)
  | [], n => by simp
  | x :: xs, n => by
    rw [val_cons, Nat.add_comm, Nat.testBit_two_pow_mul_add _ x.toNat_lt]
    by_cases hn : n < 32
    · rw [if_pos hn, Nat.div_eq_of_lt hn, Nat.mod_eq_of_lt hn, List.getD_cons_zero]
    · rw [if_neg hn, testBit_val xs (n - 32)]
      have h1 : n / 32 = (n - 32) / 32 + 1 := by omega
      have h2 : n % 32 = (n - 32) % 32 := by omega
      rw [h1, h2, List.getD_cons_succ]

/-- Complementing every limb complements the number below `2^(32 n)`. -/
theorem val_map_not : ∀ l : List UInt32,
    val (l.map (~~~·)) = 2 ^ (32 * l.length) - 1 - val l
  | [] => rfl
  | x :: xs => by
    have hx := x.toNat_lt
    have hxs := val_lt xs
    rw [List.map_cons, val_cons, val_map_not xs, UInt32.toNat_not, val_cons, List.length_cons,
      Nat.mul_succ, Nat.pow_add, Nat.mul_comm (2 ^ (32 * xs.length))]
    generalize 2 ^ (32 * xs.length) = P at hxs ⊢
    rw [show UInt32.size = 2 ^ 32 from rfl, Nat.mul_sub, Nat.mul_sub_one]
    have : 2 ^ 32 * val xs < 2 ^ 32 * P := Nat.mul_lt_mul_of_pos_left hxs (by decide)
    omega

theorem val_inj : ∀ {l₁ l₂ : List UInt32}, l₁.length = l₂.length → (val l₁ = val l₂ ↔ l₁ = l₂)
  | [], [], _ => by simp
  | x :: xs, y :: ys, hlen => by
    refine ⟨fun h => ?_, fun h => h ▸ rfl⟩
    rw [val_cons, val_cons] at h
    have hx := x.toNat_lt
    have hy := y.toNat_lt
    -- the low limbs are the numbers modulo `2^32`, the rest their quotients
    have hlow : x.toNat = y.toNat := by omega
    have hhigh : val xs = val ys := by omega
    rw [(val_inj (by simpa using hlen)).mp hhigh, UInt32.toNat_inj.mp hlow]

/-- The limbs stand for zero exactly when each of them reads as zero. -/
theorem val_eq_zero_iff : ∀ {l : List UInt32}, val l = 0 ↔ ∀ i, l.getD i 0 = 0
  | [] => by simp
  | x :: xs => by
    have ih := @val_eq_zero_iff xs
    rw [val_cons]
    constructor
    · intro h i
      cases i with
      | zero => exact UInt32.toNat_inj.mp (by simp only [List.getD_cons_zero]; simp; omega)
      | succ i => exact ih.mp (by omega) i
    · intro h
      have hx : x.toNat = 0 := congrArg UInt32.toNat (h 0)
      have hxs : val xs = 0 := ih.mpr fun i => h (i + 1)
      omega

/-- The high word of a product of two-limb numbers, from the products of the
limbs: the low halves of the middle products are added to the high half of
the low product before their carry is taken. -/
theorem mul_div_limbs {B : Nat} (hB : 0 < B) (xh xl nh nl : Nat) :
    (xh * B + xl) * (nh * B + nl) / (B * B) =
      xh * nh + xl * nh / B + xh * nl / B + (xl * nl / B + xl * nh % B + xh * nl % B) / B := by
  have hprod : (xh * B + xl) * (nh * B + nl) =
      (B * B) * (xh * nh + xl * nh / B + xh * nl / B) +
        ((xl * nl / B + xl * nh % B + xh * nl % B) * B + xl * nl % B) := by
    calc (xh * B + xl) * (nh * B + nl) = xh * nh * (B * B) + xh * nl * B + xl * nh * B + xl * nl := by ring
      _ = xh * nh * (B * B) + (B * (xh * nl / B) + xh * nl % B) * B + (B * (xl * nh / B) + xl * nh % B) * B +
            (B * (xl * nl / B) + xl * nl % B) := by
          rw [Nat.div_add_mod, Nat.div_add_mod, Nat.div_add_mod]
      _ = _ := by ring
  -- the low product's low half is below `B` and falls out of the division
  have hlow : ((xl * nl / B + xl * nh % B + xh * nl % B) * B + xl * nl % B) / (B * B) =
      (xl * nl / B + xl * nh % B + xh * nl % B) / B := by
    rw [← Nat.div_div_eq_div_mul, Nat.mul_comm _ B, Nat.mul_add_div hB, Nat.div_eq_of_lt (Nat.mod_lt _ hB),
      Nat.add_zero]
  rw [hprod, Nat.mul_add_div (Nat.mul_pos hB hB), hlow]

end Limbs
