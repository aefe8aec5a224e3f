import Mathlib
import BitcoinAbc.Arith.BaseUint

/-!
# What the `base_uint` loops compute

Every operation of `base_uint<BITS>` is exact arithmetic modulo
`2^(32 WIDTH)` on the number its limbs stand for (`BaseUint.val`):

- `val_add`, `val_neg`, `val_sub`: addition, negation and subtraction modulo
  `2^(32 WIDTH)`, the carries of `addLoop` never leaving the `uint64_t`;
- `val_mulU32`, `val_mul`: the products, truncated at `WIDTH` limbs;
- `val_shiftLeft`, `val_shiftRight`: `val a * 2^s mod 2^(32 WIDTH)` and
  `val a / 2^s`, for every shift, read bit by bit off the limbs the loops write;
- `CompareTo_eq`: `CompareTo` orders by the numbers;
- `bits_eq_size`: `bits()` is the bit length of the number;
- `val_GetLow64`: the low 64 bits.

Each carry loop is proved by induction on the limbs, with the carry below
`2^32` as the invariant that keeps every `uint64_t` sum exact.
-/

namespace BitcoinAbc

namespace BaseUint

/-! ## Halves of a `uint64_t` -/

section Words

theorem toNat_low (n : UInt64) : (n &&& 0xffffffff).toUInt32.toNat = n.toNat % 2 ^ 32 := by
  rw [UInt64.toNat_toUInt32, UInt64.toNat_and, show UInt64.toNat 0xffffffff = 2 ^ 32 - 1 from rfl,
    Nat.and_two_pow_sub_one_eq_mod, Nat.mod_mod]

theorem toNat_high (n : UInt64) : (n >>> 32).toNat = n.toNat / 2 ^ 32 := by
  rw [UInt64.toNat_shiftRight, show UInt64.toNat 32 % 64 = 32 from rfl, Nat.shiftRight_eq_div_pow]

/-- A low part below `c` and a high part: the remainder modulo `c * M` keeps the
low part and the high part modulo `M`. -/
theorem add_mul_mod_mul {low c S M : Nat} (h : low < c) :
    (low + c * S) % (c * M) = low + c * (S % M) := by
  rw [Nat.mod_mul, Nat.add_mul_mod_self_left, Nat.mod_eq_of_lt h,
    Nat.add_mul_div_left _ _ (by omega), Nat.div_eq_of_lt h, Nat.zero_add]

/-- One step of a carry loop: the sum `n` is written as its low limb and a carry,
and the rest of the loop continues from the carry. -/
theorem carry_step {n : UInt64} {S rest M : Nat}
    (hrest : rest = (S + (n >>> 32).toNat) % M) :
    (n &&& 0xffffffff).toUInt32.toNat + 2 ^ 32 * rest = (n.toNat + 2 ^ 32 * S) % (2 ^ 32 * M) := by
  have hsplit : n.toNat + 2 ^ 32 * S = n.toNat % 2 ^ 32 + 2 ^ 32 * (S + n.toNat / 2 ^ 32) := by
    have := Nat.mod_add_div n.toNat (2 ^ 32)
    rw [Nat.mul_add]
    omega
  rw [hsplit, add_mul_mod_mul (Nat.mod_lt _ (by decide)), toNat_low, hrest, toNat_high]

end Words

variable {WIDTH : Nat}

theorem val_lt (a : BaseUint WIDTH) : a.val < 2 ^ (32 * WIDTH) := by
  have h := Limbs.val_lt a.pn
  rwa [a.length_pn] at h

@[simp] theorem val_zero : (zero : BaseUint WIDTH).val = 0 := Limbs.val_replicate_zero WIDTH

/-- With two limbs or more, `base_uint(uint64_t b)` stands for `b`. -/
theorem val_ofUInt64 (b : UInt64) (hw : 2 ≤ WIDTH) : (ofUInt64 b : BaseUint WIDTH).val = b.toNat := by
  obtain ⟨w, rfl⟩ : ∃ w, WIDTH = w + 2 := ⟨WIDTH - 2, by omega⟩
  have hlo := UInt64.toNat_toUInt32 b
  have hhi := UInt64.toNat_toUInt32 (b >>> 32)
  rw [toNat_high] at hhi
  have hb := b.toNat_lt
  simp only [val, ofUInt64, List.replicate_succ, List.set_cons_zero, List.set_cons_succ,
    Limbs.val_cons, Limbs.val_replicate_zero, hlo, hhi]
  rw [Nat.mod_eq_of_lt (Nat.div_lt_of_lt_mul (by simpa using hb))]
  omega

/-! ## Complement, increment and negation -/

theorem val_not (a : BaseUint WIDTH) : a.not.val = 2 ^ (32 * WIDTH) - 1 - a.val := by
  rw [val, not, Limbs.val_map_not, a.length_pn]
  rfl

theorem val_incLoop : ∀ l : List UInt32,
    Limbs.val (incLoop l) = (Limbs.val l + 1) % 2 ^ (32 * l.length)
  | [] => rfl
  | x :: xs => by
    have hx := x.toNat_lt
    have hxs := Limbs.val_lt xs
    rw [List.length_cons, Nat.mul_succ, Nat.pow_add, Nat.mul_comm (2 ^ (32 * xs.length))]
    unfold incLoop
    split
    · -- the limb wraps to zero and the carry goes on
      rename_i hwrap
      have hx1 : x.toNat = 2 ^ 32 - 1 := by
        have h := congrArg UInt32.toNat hwrap
        rw [UInt32.toNat_add, UInt32.toNat_zero, UInt32.toNat_one] at h
        omega
      rw [Limbs.val_cons, val_incLoop xs, hwrap, UInt32.toNat_zero, Limbs.val_cons,
        show x.toNat + 2 ^ 32 * Limbs.val xs + 1 = 0 + 2 ^ 32 * (Limbs.val xs + 1) by omega,
        add_mul_mod_mul (by decide)]
    · -- the limb takes the one and the loop stops
      rename_i hstop
      have hx1 : (x + 1).toNat = x.toNat + 1 := by
        rw [UInt32.toNat_add, UInt32.toNat_one]
        refine Nat.mod_eq_of_lt (Nat.lt_of_le_of_ne (by omega) fun h => hstop ?_)
        exact UInt32.toNat_inj.mp (by rw [UInt32.toNat_add, UInt32.toNat_one, h]; rfl)
      have hlt : x.toNat + 2 ^ 32 * Limbs.val xs + 1 < 2 ^ 32 * 2 ^ (32 * xs.length) := by
        have h := Limbs.val_lt ((x + 1) :: xs)
        rw [Limbs.val_cons, hx1, List.length_cons, Nat.mul_succ, Nat.pow_add] at h
        omega
      rw [Limbs.val_cons, hx1, Limbs.val_cons, Nat.add_right_comm, Nat.mod_eq_of_lt hlt]

theorem val_inc (a : BaseUint WIDTH) : a.inc.val = (a.val + 1) % 2 ^ (32 * WIDTH) := by
  rw [val, inc, val_incLoop, a.length_pn]
  rfl

theorem val_neg (a : BaseUint WIDTH) : a.neg.val = (2 ^ (32 * WIDTH) - a.val) % 2 ^ (32 * WIDTH) := by
  have ha := a.val_lt
  rw [neg, val_inc, val_not]
  congr 1
  omega

/-! ## Addition and subtraction -/

/-- The carry loop of `operator+=` adds modulo `2^(32 n)`; the carry, below
`2^32`, keeps every `uint64_t` sum exact. -/
theorem val_addLoop : ∀ (xs ys : List UInt32) (carry : UInt64), xs.length = ys.length →
    carry.toNat < 2 ^ 32 →
    Limbs.val (addLoop xs ys carry) =
      (Limbs.val xs + Limbs.val ys + carry.toNat) % 2 ^ (32 * xs.length)
  | [], [], carry, _, hc => by simp [addLoop, Nat.mod_one]
  | x :: xs, y :: ys, carry, hlen, hc => by
    have hx := x.toNat_lt
    have hy := y.toNat_lt
    have hn : (carry + x.toUInt64 + y.toUInt64).toNat = carry.toNat + x.toNat + y.toNat := by
      rw [UInt64.toNat_add, UInt64.toNat_add, UInt32.toNat_toUInt64, UInt32.toNat_toUInt64,
        Nat.mod_eq_of_lt (by omega), Nat.mod_eq_of_lt (by omega)]
    have hcarry : ((carry + x.toUInt64 + y.toUInt64) >>> 32).toNat < 2 ^ 32 := by
      rw [toNat_high, hn]
      omega
    rw [addLoop, Limbs.val_cons, val_addLoop xs ys _ (by simpa using hlen) hcarry, List.length_cons,
      Nat.mul_succ, Nat.pow_add, Nat.mul_comm (2 ^ (32 * xs.length)),
      carry_step (S := Limbs.val xs + Limbs.val ys) rfl, hn, Limbs.val_cons, Limbs.val_cons]
    congr 1
    ring

theorem val_add (a b : BaseUint WIDTH) : (a.add b).val = (a.val + b.val) % 2 ^ (32 * WIDTH) := by
  rw [val, add, val_addLoop a.pn b.pn 0 (by rw [a.length_pn, b.length_pn]) (by decide), a.length_pn]
  rfl

theorem val_sub (a b : BaseUint WIDTH) :
    (a.sub b).val = (a.val + (2 ^ (32 * WIDTH) - b.val)) % 2 ^ (32 * WIDTH) := by
  rw [sub, val_add, val_neg, Nat.add_mod_mod]

/-- Without borrow, `-=` subtracts. -/
theorem val_sub_of_le {a b : BaseUint WIDTH} (h : b.val ≤ a.val) : (a.sub b).val = a.val - b.val := by
  have ha := a.val_lt
  rw [val_sub, show a.val + (2 ^ (32 * WIDTH) - b.val) = a.val - b.val + 2 ^ (32 * WIDTH) by omega,
    Nat.add_mod_right, Nat.mod_eq_of_lt (by omega)]

/-! ## Multiplication -/

/-- A product of two limbs and two limbs more fits in a `uint64_t`. -/
theorem mul_add_add_lt {x y c d : Nat} (hx : x < 2 ^ 32) (hy : y < 2 ^ 32) (hc : c < 2 ^ 32)
    (hd : d < 2 ^ 32) : c + d + x * y < 2 ^ 64 := by
  have hxy : x * y ≤ (2 ^ 32 - 1) * (2 ^ 32 - 1) := Nat.mul_le_mul (by omega) (by omega)
  omega

/-- The loop of `operator*=(uint32_t)` multiplies modulo `2^(32 n)`. -/
theorem val_mulU32Loop (b32 : UInt32) : ∀ (xs : List UInt32) (carry : UInt64),
    carry.toNat < 2 ^ 32 →
    Limbs.val (mulU32Loop b32 xs carry) =
      (Limbs.val xs * b32.toNat + carry.toNat) % 2 ^ (32 * xs.length)
  | [], carry, hc => by simp [mulU32Loop, Nat.mod_one]
  | x :: xs, carry, hc => by
    have hlt := mul_add_add_lt b32.toNat_lt x.toNat_lt hc (Nat.zero_lt_succ _)
    have hn : (carry + b32.toUInt64 * x.toUInt64).toNat = carry.toNat + b32.toNat * x.toNat := by
      rw [UInt64.toNat_add, UInt64.toNat_mul, UInt32.toNat_toUInt64, UInt32.toNat_toUInt64,
        Nat.mod_eq_of_lt (by omega), Nat.mod_eq_of_lt (by omega)]
    have hcarry : ((carry + b32.toUInt64 * x.toUInt64) >>> 32).toNat < 2 ^ 32 := by
      rw [toNat_high, hn]
      omega
    rw [mulU32Loop, Limbs.val_cons, val_mulU32Loop b32 xs _ hcarry, List.length_cons,
      Nat.mul_succ, Nat.pow_add, Nat.mul_comm (2 ^ (32 * xs.length)),
      carry_step (S := Limbs.val xs * b32.toNat) rfl, hn, Limbs.val_cons]
    congr 1
    ring

theorem val_mulU32 (a : BaseUint WIDTH) (b32 : UInt32) :
    (a.mulU32 b32).val = a.val * b32.toNat % 2 ^ (32 * WIDTH) := by
  rw [val, mulU32, val_mulU32Loop b32 a.pn 0 (by decide), a.length_pn]
  rfl

/-- A pass of the product adds `x` times the low limbs of `b` into the limbs it
runs over, modulo `2^(32 n)`. -/
theorem val_mulRow (x : UInt32) : ∀ (accs ys : List UInt32) (carry : UInt64),
    accs.length ≤ ys.length → carry.toNat < 2 ^ 32 →
    Limbs.val (mulRow x accs ys carry) =
      (Limbs.val accs + x.toNat * Limbs.val (ys.take accs.length) + carry.toNat) %
        2 ^ (32 * accs.length)
  | [], ys, carry, _, hc => by simp [mulRow, Nat.mod_one]
  | _ :: _, [], _, hlen, _ => absurd hlen (by simp)
  | acc :: accs, y :: ys, carry, hlen, hc => by
    have hlt := mul_add_add_lt x.toNat_lt y.toNat_lt hc acc.toNat_lt
    have hn : (carry + acc.toUInt64 + x.toUInt64 * y.toUInt64).toNat =
        carry.toNat + acc.toNat + x.toNat * y.toNat := by
      rw [UInt64.toNat_add, UInt64.toNat_add, UInt64.toNat_mul, UInt32.toNat_toUInt64,
        UInt32.toNat_toUInt64, UInt32.toNat_toUInt64, Nat.mod_eq_of_lt (by omega),
        Nat.mod_eq_of_lt (by omega), Nat.mod_eq_of_lt (by omega)]
    have hcarry : ((carry + acc.toUInt64 + x.toUInt64 * y.toUInt64) >>> 32).toNat < 2 ^ 32 := by
      rw [toNat_high, hn]
      omega
    rw [mulRow, Limbs.val_cons, val_mulRow x accs ys _ (by simpa using hlen) hcarry,
      List.length_cons, Nat.mul_succ, Nat.pow_add, Nat.mul_comm (2 ^ (32 * accs.length)),
      carry_step (S := Limbs.val accs + x.toNat * Limbs.val (ys.take accs.length)) rfl, hn,
      List.take_succ_cons, Limbs.val_cons, Limbs.val_cons]
    congr 1
    ring

/-- The arithmetic of one pass of the product: the limbs below `j` kept, the
pass adding `x` times `b` (read modulo `M`, the limbs it reaches) to the rest. -/
theorem mulPass_arith {A P c M x vb : Nat} (hc : 0 < c) (hA : A = P % (c * M)) :
    A % c + c * ((A / c + x * (vb % M)) % M) = (P + c * (x * vb)) % (c * M) := by
  have h1 : (A / c + x * (vb % M)) % M = (A / c + x * vb) % M := by
    simp [Nat.add_mod, Nat.mul_mod]
  rw [h1, ← add_mul_mod_mul (Nat.mod_lt _ hc), Nat.mul_add, ← Nat.add_assoc, Nat.mod_add_div, hA,
    Nat.mod_add_mod]

/-- After the passes for the limbs below `j`, the product holds those limbs of
`pn` times `b`, modulo `2^(32 n)`. The induction is on the passes. -/
theorem val_mulLoop_passes (pn b : List UInt32) (hb : pn.length ≤ b.length) : ∀ j ≤ pn.length,
    Limbs.val ((List.range j).foldl (mulPass pn b) (List.replicate pn.length 0)) =
      Limbs.val (pn.take j) * Limbs.val b % 2 ^ (32 * pn.length)
  | 0, _ => by simp
  | j + 1, hj => by
    have ih := val_mulLoop_passes pn b hb j (by omega)
    rw [List.range_succ, List.foldl_append, List.foldl_cons, List.foldl_nil]
    generalize hA : (List.range j).foldl (mulPass pn b) (List.replicate pn.length 0) = A at ih
    have hlenA : A.length = pn.length := by
      rw [← hA, length_foldl _ (length_mulPass pn b), List.length_replicate]
    -- the pass runs over the limbs from `j` on, and reads as many limbs of `b`
    have hsplit : 2 ^ (32 * pn.length) = 2 ^ (32 * j) * 2 ^ (32 * (pn.length - j)) := by
      rw [← Nat.pow_add]
      congr 1
      omega
    rw [mulPass, Limbs.val_append, List.length_take_of_le (by omega),
      val_mulRow _ _ _ _ (by simp; omega) (by decide), List.length_drop, hlenA, Limbs.val_take,
      Limbs.val_drop, Limbs.val_take, UInt64.toNat_zero, Nat.add_zero, Limbs.val_take_succ,
      Nat.add_mul, hsplit, Nat.mul_assoc (2 ^ (32 * j))]
    rw [hsplit] at ih
    exact mulPass_arith (Nat.two_pow_pos _) ih

theorem val_mul (a b : BaseUint WIDTH) : (a.mul b).val = a.val * b.val % 2 ^ (32 * WIDTH) := by
  have h := val_mulLoop_passes a.pn b.pn (by rw [a.length_pn, b.length_pn]) a.pn.length le_rfl
  rw [List.take_of_length_le le_rfl] at h
  show Limbs.val (mulLoop a.pn b.pn) = Limbs.val a.pn * Limbs.val b.pn % 2 ^ (32 * WIDTH)
  rw [mulLoop, h, a.length_pn]

/-! ## Shifts

A pass of a shift loop ors one limb of `a` into two limbs of the result. The
invariant of the loop is the limb each index holds once the passes below `n`
have run (`shlLimb`, `shrLimb`); the number is then read bit by bit. -/

section Shifts

/-- A limb or-ed into a list, read back at any index. -/
theorem getD_modify_or (l : List UInt32) (i j : Nat) (x : UInt32) :
    (l.modify i (· ||| x)).getD j 0 = l.getD j 0 ||| (if i = j ∧ i < l.length then x else 0) := by
  by_cases hj : j < l.length
  · rw [List.getD_eq_getElem _ _ (by simpa using hj), List.getElem_modify,
      List.getD_eq_getElem _ _ hj]
    by_cases hij : i = j
    · simp [hij, hj]
    · simp [hij, UInt32.or_zero]
  · have hne : ¬ (i = j ∧ i < l.length) := fun h => hj (h.1 ▸ h.2)
    rw [if_neg hne, UInt32.or_zero, List.getD_eq_default _ _ (by simpa using hj),
      List.getD_eq_default _ _ (by omega)]

/-- The same, for a write made under a condition. -/
theorem getD_ite_modify_or (c : Prop) [Decidable c] (l : List UInt32) (i j : Nat) (x : UInt32) :
    (if c then l.modify i (· ||| x) else l).getD j 0 =
      l.getD j 0 ||| (if c ∧ i = j ∧ i < l.length then x else 0) := by
  by_cases hc : c
  · simp only [hc, ↓reduceIte, true_and, getD_modify_or]
  · simp only [hc, ↓reduceIte, false_and, UInt32.or_zero]

/-- A term of a limb that the pass for the source limb `q` completes. -/
theorem ite_eq_ite_or_ite {p q r : Prop} [Decidable p] [Decidable q] [Decidable r] {x y : UInt32}
    (hr : r ↔ p ∨ q) (hpq : ¬ (p ∧ q)) (hy : q → y = x) :
    (if r then x else 0) = (if p then x else 0) ||| (if q then y else 0) := by
  by_cases hp : p
  · have hq : ¬ q := fun hq => hpq ⟨hp, hq⟩
    simp [hp, hq, hr]
  · by_cases hq : q
    · simp [hp, hq, hr, hy hq, UInt32.zero_or]
    · simp [hp, hq, hr]

theorem or_or_or_or (a b c d : UInt32) : a ||| b ||| c ||| d = (a ||| d) ||| (b ||| c) := by
  rw [UInt32.or_assoc a, UInt32.or_assoc a, UInt32.or_assoc a, UInt32.or_comm (b ||| c)]

/-- Limb `j` of `<<=` once the passes for the limbs below `n` have run. -/
def shlLimb (a : List UInt32) (k : Nat) (s : UInt32) (n j : Nat) : UInt32 :=
  (if k ≤ j ∧ j - k < n then a.getD (j - k) 0 <<< s else 0) |||
    (if s ≠ 0 ∧ k + 1 ≤ j ∧ j - k - 1 < n then a.getD (j - k - 1) 0 >>> (32 - s) else 0)

theorem shiftLeftPass_getD {a pn : List UInt32} {k : Nat} {s : UInt32} {n j : Nat}
    (hj : j < a.length) (hlen : pn.length = a.length) (hpn : pn.getD j 0 = shlLimb a k s n j) :
    (shiftLeftPass a k s pn n).getD j 0 = shlLimb a k s (n + 1) j := by
  unfold shiftLeftPass
  rw [getD_ite_modify_or, getD_ite_modify_or, hpn, shlLimb, shlLimb]
  have hlen' : (if n + k + 1 < a.length ∧ s ≠ 0 then
      pn.modify (n + k + 1) (· ||| (a.getD n 0 >>> (32 - s))) else pn).length = a.length := by
    split <;> simp [hlen]
  rw [hlen', hlen]
  -- the pass completes the low bits of limb `n + k` and the high bits of limb `n + k + 1`
  have hT1 : (if k ≤ j ∧ j - k < n + 1 then a.getD (j - k) 0 <<< s else 0) =
      (if k ≤ j ∧ j - k < n then a.getD (j - k) 0 <<< s else 0) |||
        (if n + k < a.length ∧ n + k = j ∧ n + k < a.length then a.getD n 0 <<< s else 0) :=
    ite_eq_ite_or_ite (by omega) (by omega) (fun h => by rw [show j - k = n by omega])
  have hT2 : (if s ≠ 0 ∧ k + 1 ≤ j ∧ j - k - 1 < n + 1 then a.getD (j - k - 1) 0 >>> (32 - s)
      else 0) =
      (if s ≠ 0 ∧ k + 1 ≤ j ∧ j - k - 1 < n then a.getD (j - k - 1) 0 >>> (32 - s) else 0) |||
        (if (n + k + 1 < a.length ∧ s ≠ 0) ∧ n + k + 1 = j ∧ n + k + 1 < a.length then
          a.getD n 0 >>> (32 - s) else 0) :=
    ite_eq_ite_or_ite (by simp only [ne_eq, ← UInt32.toNat_inj, UInt32.toNat_zero]; omega)
      (by simp only [ne_eq, ← UInt32.toNat_inj, UInt32.toNat_zero]; omega)
      (fun h => by rw [show j - k - 1 = n by omega])
  rw [hT1, hT2, or_or_or_or]

/-- After the passes for the limbs below `n`, every limb is `shlLimb`. The
induction is on the passes. -/
theorem shiftLeftLoop_passes (a : List UInt32) (k : Nat) (s : UInt32) :
    ∀ n j, ((List.range n).foldl (shiftLeftPass a k s) (List.replicate a.length 0)).getD j 0 =
      if j < a.length then shlLimb a k s n j else 0
  | 0, j => by
    split
    · simp [shlLimb]
    · rename_i hj
      simp [hj]
  | n + 1, j => by
    rw [List.range_succ, List.foldl_append, List.foldl_cons, List.foldl_nil]
    generalize hpn : (List.range n).foldl (shiftLeftPass a k s) (List.replicate a.length 0) = pn
    have hlen : pn.length = a.length := by
      rw [← hpn, length_foldl _ (length_shiftLeftPass a k s), List.length_replicate]
    have ih := shiftLeftLoop_passes a k s n j
    rw [hpn] at ih
    split
    · rename_i hj
      rw [if_pos hj] at ih
      exact shiftLeftPass_getD hj hlen ih
    · rename_i hj
      rw [List.getD_eq_default _ _ (by simp [hlen]; omega)]

theorem testBit_shiftLeft_limb (x s : UInt32) (hs : s.toNat < 32) {b : Nat} (hb : b < 32) :
    (x <<< s).toNat.testBit b = (decide (s.toNat ≤ b) && x.toNat.testBit (b - s.toNat)) := by
  rw [UInt32.toNat_shiftLeft, Nat.mod_eq_of_lt hs, Nat.testBit_mod_two_pow, Nat.testBit_shiftLeft]
  simp [hb]

theorem testBit_shiftRight_limb (x s : UInt32) (hs : s.toNat < 32) (b : Nat) :
    (x >>> s).toNat.testBit b = x.toNat.testBit (s.toNat + b) := by
  rw [UInt32.toNat_shiftRight, Nat.mod_eq_of_lt hs, Nat.testBit_shiftRight]

/-- A limb has no bit at `32` or above. -/
theorem testBit_limb_of_le (x : UInt32) {b : Nat} (hb : 32 ≤ b) : x.toNat.testBit b = false :=
  Nat.testBit_lt_two_pow (Nat.lt_of_lt_of_le x.toNat_lt (Nat.pow_le_pow_right (by decide) hb))

/-- `32 - shift`, for a shift of `1` to `31` bits. -/
theorem toNat_thirtyTwo_sub {s : UInt32} (hs : s.toNat < 32) (h0 : s ≠ 0) :
    (32 - s).toNat = 32 - s.toNat := by
  have h0' : s.toNat ≠ 0 := fun h => h0 (UInt32.toNat_inj.mp h)
  rw [UInt32.toNat_sub, show UInt32.toNat 32 = 32 from rfl]
  omega

theorem val_shiftLeft (a : BaseUint WIDTH) (shift : UInt32) :
    (a.shiftLeft shift).val = a.val * 2 ^ shift.toNat % 2 ^ (32 * WIDTH) := by
  have hK : (shift / 32).toNat = shift.toNat / 32 := UInt32.toNat_div _ _
  have hS : (shift % 32).toNat = shift.toNat % 32 := UInt32.toNat_mod _ _
  have hS32 : (shift % 32).toNat < 32 := by omega
  refine Nat.eq_of_testBit_eq fun n => ?_
  rw [Nat.testBit_mod_two_pow, Nat.testBit_mul_two_pow, val, val, Limbs.testBit_val,
    Limbs.testBit_val]
  show ((shiftLeftLoop a.pn _ _).getD (n / 32) 0).toNat.testBit (n % 32) = _
  rw [shiftLeftLoop, shiftLeftLoop_passes, a.length_pn]
  by_cases hn : n / 32 < WIDTH
  · rw [if_pos hn, shlLimb, UInt32.toNat_or, Nat.testBit_or, hK]
    by_cases hb : (shift % 32).toNat ≤ n % 32
    · -- the bit comes from limb `n / 32 - k`, moved up by the shift
      have hhigh : (if shift % 32 ≠ 0 ∧ shift.toNat / 32 + 1 ≤ n / 32 ∧
            n / 32 - shift.toNat / 32 - 1 < WIDTH then
          a.pn.getD (n / 32 - shift.toNat / 32 - 1) 0 >>> (32 - shift % 32) else 0).toNat.testBit
            (n % 32) = false := by
        split
        · rename_i h
          have h0 : (shift % 32).toNat ≠ 0 := fun h0 => h.1 (UInt32.toNat_inj.mp h0)
          rw [testBit_shiftRight_limb _ _ (by rw [toNat_thirtyTwo_sub hS32 h.1]; omega),
            toNat_thirtyTwo_sub hS32 h.1]
          exact testBit_limb_of_le _ (by omega)
        · simp
      rw [hhigh, Bool.or_false]
      by_cases hj : shift.toNat / 32 ≤ n / 32
      · rw [if_pos ⟨hj, by omega⟩, testBit_shiftLeft_limb _ _ hS32 (Nat.mod_lt _ (by decide)),
          show (n - shift.toNat) / 32 = n / 32 - shift.toNat / 32 by omega,
          show (n - shift.toNat) % 32 = n % 32 - (shift % 32).toNat by omega]
        simp [hS ▸ hb, show n < 32 * WIDTH by omega, show shift.toNat ≤ n by omega]
      · rw [if_neg (by omega)]
        simp [show ¬ shift.toNat ≤ n by omega]
    · -- the bit comes from limb `n / 32 - k - 1`, the bits shifted out of it
      have hs0 : shift % 32 ≠ 0 := fun h => hb (by rw [h]; exact Nat.zero_le _)
      have hlow : (if shift.toNat / 32 ≤ n / 32 ∧ n / 32 - shift.toNat / 32 < WIDTH then
          a.pn.getD (n / 32 - shift.toNat / 32) 0 <<< (shift % 32) else 0).toNat.testBit
            (n % 32) = false := by
        split
        · rw [testBit_shiftLeft_limb _ _ hS32 (Nat.mod_lt _ (by decide))]
          simp [hS ▸ hb]
        · simp
      rw [hlow, Bool.false_or]
      by_cases hj : shift.toNat / 32 + 1 ≤ n / 32
      · rw [if_pos ⟨hs0, hj, by omega⟩, testBit_shiftRight_limb _ _
            (by rw [toNat_thirtyTwo_sub hS32 hs0]; omega), toNat_thirtyTwo_sub hS32 hs0,
          show (n - shift.toNat) / 32 = n / 32 - shift.toNat / 32 - 1 by omega,
          show (n - shift.toNat) % 32 = 32 - (shift % 32).toNat + n % 32 by omega]
        simp [show n < 32 * WIDTH by omega, show shift.toNat ≤ n by omega]
      · rw [if_neg (by omega)]
        simp [show ¬ shift.toNat ≤ n by omega]
  · rw [if_neg hn]
    simp [show ¬ n < 32 * WIDTH by omega]

/-- Limb `j` of `>>=` once the passes for the limbs below `n` have run. -/
def shrLimb (a : List UInt32) (k : Nat) (s : UInt32) (n j : Nat) : UInt32 :=
  (if j + k < n then a.getD (j + k) 0 >>> s else 0) |||
    (if s ≠ 0 ∧ j + k + 1 < n then a.getD (j + k + 1) 0 <<< (32 - s) else 0)

theorem shiftRightPass_getD {a pn : List UInt32} {k : Nat} {s : UInt32} {n j : Nat}
    (hn : n < a.length) (hj : j < a.length) (hlen : pn.length = a.length)
    (hpn : pn.getD j 0 = shrLimb a k s n j) :
    (shiftRightPass a k s pn n).getD j 0 = shrLimb a k s (n + 1) j := by
  unfold shiftRightPass
  rw [getD_ite_modify_or, getD_ite_modify_or, hpn, shrLimb, shrLimb]
  have hlen' : (if k + 1 ≤ n ∧ s ≠ 0 then
      pn.modify (n - k - 1) (· ||| (a.getD n 0 <<< (32 - s))) else pn).length = a.length := by
    split <;> simp [hlen]
  rw [hlen', hlen]
  -- the pass completes the high bits of limb `n - k` and the low bits of limb `n - k - 1`
  have hT1 : (if j + k < n + 1 then a.getD (j + k) 0 >>> s else 0) =
      (if j + k < n then a.getD (j + k) 0 >>> s else 0) |||
        (if k ≤ n ∧ n - k = j ∧ n - k < a.length then a.getD n 0 >>> s else 0) :=
    ite_eq_ite_or_ite (by omega) (by omega) (fun h => by rw [show j + k = n by omega])
  have hT2 : (if s ≠ 0 ∧ j + k + 1 < n + 1 then a.getD (j + k + 1) 0 <<< (32 - s) else 0) =
      (if s ≠ 0 ∧ j + k + 1 < n then a.getD (j + k + 1) 0 <<< (32 - s) else 0) |||
        (if (k + 1 ≤ n ∧ s ≠ 0) ∧ n - k - 1 = j ∧ n - k - 1 < a.length then
          a.getD n 0 <<< (32 - s) else 0) :=
    ite_eq_ite_or_ite (by simp only [ne_eq, ← UInt32.toNat_inj, UInt32.toNat_zero]; omega)
      (by simp only [ne_eq, ← UInt32.toNat_inj, UInt32.toNat_zero]; omega)
      (fun h => by rw [show j + k + 1 = n by omega])
  rw [hT1, hT2, or_or_or_or]

/-- After the passes for the limbs below `n`, every limb is `shrLimb`. The
induction is on the passes. -/
theorem shiftRightLoop_passes (a : List UInt32) (k : Nat) (s : UInt32) :
    ∀ n ≤ a.length, ∀ j,
      ((List.range n).foldl (shiftRightPass a k s) (List.replicate a.length 0)).getD j 0 =
        if j < a.length then shrLimb a k s n j else 0
  | 0, _, j => by
    split
    · simp [shrLimb]
    · rename_i hj
      simp [hj]
  | n + 1, hn, j => by
    rw [List.range_succ, List.foldl_append, List.foldl_cons, List.foldl_nil]
    generalize hpn : (List.range n).foldl (shiftRightPass a k s) (List.replicate a.length 0) = pn
    have hlen : pn.length = a.length := by
      rw [← hpn, length_foldl _ (length_shiftRightPass a k s), List.length_replicate]
    have ih := shiftRightLoop_passes a k s n (by omega) j
    rw [hpn] at ih
    split
    · rename_i hj
      rw [if_pos hj] at ih
      exact shiftRightPass_getD (by omega) hj hlen ih
    · rename_i hj
      rw [List.getD_eq_default _ _ (by simp [hlen]; omega)]

/-- Past the last limb, `pn[i]` reads as zero. -/
theorem getD_pn_of_le {WIDTH : Nat} (a : BaseUint WIDTH) {m : Nat} (hm : WIDTH ≤ m) :
    a.pn.getD m 0 = 0 :=
  List.getD_eq_default _ _ (by rw [a.length_pn]; exact hm)

theorem val_shiftRight (a : BaseUint WIDTH) (shift : UInt32) :
    (a.shiftRight shift).val = a.val / 2 ^ shift.toNat := by
  have hK : (shift / 32).toNat = shift.toNat / 32 := UInt32.toNat_div _ _
  have hS : (shift % 32).toNat = shift.toNat % 32 := UInt32.toNat_mod _ _
  have hS32 : (shift % 32).toNat < 32 := by omega
  refine Nat.eq_of_testBit_eq fun n => ?_
  rw [Nat.testBit_div_two_pow, val, val, Limbs.testBit_val, Limbs.testBit_val]
  show ((shiftRightLoop a.pn _ _).getD (n / 32) 0).toNat.testBit (n % 32) = _
  rw [shiftRightLoop, shiftRightLoop_passes _ _ _ _ le_rfl, a.length_pn]
  by_cases hn : n / 32 < WIDTH
  · rw [if_pos hn, shrLimb, UInt32.toNat_or, Nat.testBit_or, hK]
    by_cases hb : (shift % 32).toNat + n % 32 < 32
    · -- the bit comes from limb `n / 32 + k`, moved down by the shift
      have hhigh : (if shift % 32 ≠ 0 ∧ n / 32 + shift.toNat / 32 + 1 < WIDTH then
          a.pn.getD (n / 32 + shift.toNat / 32 + 1) 0 <<< (32 - shift % 32) else 0).toNat.testBit
            (n % 32) = false := by
        split
        · rename_i h
          have h0 : (shift % 32).toNat ≠ 0 := fun h0 => h.1 (UInt32.toNat_inj.mp h0)
          rw [testBit_shiftLeft_limb _ _ (by rw [toNat_thirtyTwo_sub hS32 h.1]; omega)
            (Nat.mod_lt _ (by decide)), toNat_thirtyTwo_sub hS32 h.1]
          simp only [Bool.and_eq_false_iff, decide_eq_false_iff_not]
          exact Or.inl (by omega)
        · simp
      rw [hhigh, Bool.or_false, show (n + shift.toNat) / 32 = n / 32 + shift.toNat / 32 by omega,
        show (n + shift.toNat) % 32 = (shift % 32).toNat + n % 32 by omega]
      split
      · rw [testBit_shiftRight_limb _ _ hS32]
      · rename_i hj
        rw [getD_pn_of_le a (by omega)]
        simp
    · -- the bit comes from limb `n / 32 + k + 1`, the bits shifted into it
      have hs0 : shift % 32 ≠ 0 := fun h => hb (by rw [h, UInt32.toNat_zero]; omega)
      have hlow : (if n / 32 + shift.toNat / 32 < WIDTH then
          a.pn.getD (n / 32 + shift.toNat / 32) 0 >>> (shift % 32) else 0).toNat.testBit
            (n % 32) = false := by
        split
        · rw [testBit_shiftRight_limb _ _ hS32]
          exact testBit_limb_of_le _ (by omega)
        · simp
      rw [hlow, Bool.false_or,
        show (n + shift.toNat) / 32 = n / 32 + shift.toNat / 32 + 1 by omega,
        show (n + shift.toNat) % 32 = n % 32 - (32 - (shift % 32).toNat) by omega]
      split
      · rw [testBit_shiftLeft_limb _ _ (by rw [toNat_thirtyTwo_sub hS32 hs0]; omega)
          (Nat.mod_lt _ (by decide)), toNat_thirtyTwo_sub hS32 hs0]
        simp [show 32 ≤ n % 32 + shift.toNat % 32 by omega]
      · rename_i hj
        have hj' : ¬ n / 32 + shift.toNat / 32 + 1 < WIDTH := fun h => hj ⟨hs0, h⟩
        rw [getD_pn_of_le a (by omega)]
        simp
  · rw [if_neg hn, getD_pn_of_le a (by omega)]
    simp

end Shifts

/-! ## Comparison and bit length -/

/-- A higher limb outweighs everything below it. -/
theorem add_mul_lt_add_mul {A B c x y : Nat} (hA : A < c) (hxy : x < y) :
    A + c * x < B + c * y := by
  have h : c * x + c ≤ c * y := by
    rw [← Nat.mul_succ]
    exact Nat.mul_le_mul_left _ hxy
  omega

/-- The loop of `CompareTo` compares the limbs below `i` as numbers. The
induction is on `i`, the loop's index from the top. -/
theorem compareLoop_eq (a b : List UInt32) : ∀ i,
    compareLoop a b i = if Limbs.val (a.take i) < Limbs.val (b.take i) then -1
      else if Limbs.val (a.take i) > Limbs.val (b.take i) then 1 else 0
  | 0 => by simp [compareLoop]
  | i + 1 => by
    have hA : Limbs.val (a.take i) < 2 ^ (32 * i) := by
      rw [Limbs.val_take]
      exact Nat.mod_lt _ (Nat.two_pow_pos _)
    have hB : Limbs.val (b.take i) < 2 ^ (32 * i) := by
      rw [Limbs.val_take]
      exact Nat.mod_lt _ (Nat.two_pow_pos _)
    rw [compareLoop, compareLoop_eq a b i, Limbs.val_take_succ, Limbs.val_take_succ]
    by_cases hlt : a.getD i 0 < b.getD i 0
    · -- the limbs at `i` decide: below
      have h := add_mul_lt_add_mul (B := Limbs.val (b.take i)) hA (UInt32.lt_iff_toNat_lt.mp hlt)
      rw [if_pos hlt, if_pos h]
    · by_cases hgt : a.getD i 0 > b.getD i 0
      · -- the limbs at `i` decide: above
        have h := add_mul_lt_add_mul (B := Limbs.val (a.take i)) hB (UInt32.lt_iff_toNat_lt.mp hgt)
        rw [if_neg hlt, if_pos hgt, if_neg (Nat.not_lt_of_gt h), if_pos h]
      · -- equal limbs at `i`: the limbs below decide
        have heq : a.getD i 0 = b.getD i 0 := by
          rw [UInt32.lt_iff_toNat_lt] at hlt
          rw [gt_iff_lt, UInt32.lt_iff_toNat_lt] at hgt
          exact UInt32.toNat_inj.mp (by omega)
        rw [if_neg hlt, if_neg hgt, heq]
        simp only [gt_iff_lt, Nat.add_lt_add_iff_right]

/-- Two numbers of one width are equal exactly when their values are. -/
theorem val_inj {a b : BaseUint WIDTH} : a.val = b.val ↔ a = b := by
  rw [val, val, Limbs.val_inj (by rw [a.length_pn, b.length_pn]), BaseUint.ext_iff]

/-- `CompareTo` orders by the numbers. -/
theorem CompareTo_eq (a b : BaseUint WIDTH) :
    a.CompareTo b = if a.val < b.val then -1 else if a.val > b.val then 1 else 0 := by
  rw [CompareTo, compareLoop_eq, List.take_of_length_le (by rw [a.length_pn]),
    List.take_of_length_le (by rw [b.length_pn])]
  rfl

theorem CompareTo_nonneg_iff (a b : BaseUint WIDTH) : 0 ≤ a.CompareTo b ↔ b.val ≤ a.val := by
  rw [CompareTo_eq]
  split
  · rename_i h
    simp only [Int.reduceNeg, Left.nonneg_neg_iff]
    omega
  · split <;> omega

theorem CompareTo_pos_iff (a b : BaseUint WIDTH) : a.CompareTo b > 0 ↔ b.val < a.val := by
  rw [CompareTo_eq]
  split
  · rename_i h
    constructor
    · intro hneg
      omega
    · intro hgt
      omega
  · split <;> omega

theorem CompareTo_nonpos_iff (a b : BaseUint WIDTH) : a.CompareTo b ≤ 0 ↔ a.val ≤ b.val := by
  rw [← Int.not_lt, ← gt_iff_lt, CompareTo_pos_iff, Nat.not_lt]

/-- A number whose bits stop at `r + 1`, with bit `r` set, has `r + 1` bits. -/
theorem size_eq_of_bounds {m r : Nat} (h₁ : 2 ^ r ≤ m) (h₂ : m < 2 ^ (r + 1)) :
    Nat.size m = r + 1 :=
  Nat.le_antisymm (Nat.size_le.mpr h₂) (Nat.lt_size.mpr h₁)

/-- The one-bit mask `1U << k` of a bit `k < 32`. -/
theorem toNat_one_shiftLeft {k : Nat} (hk : k < 32) : (1 <<< k.toUInt32 : UInt32).toNat = 2 ^ k := by
  have hsh : k.toUInt32.toNat = k := by
    simp only [Nat.toUInt32, UInt32.toNat_ofNat']
    omega
  rw [UInt32.toNat_shiftLeft, hsh, UInt32.toNat_one, Nat.mod_eq_of_lt hk, Nat.one_shiftLeft,
    Nat.mod_eq_of_lt (Nat.pow_lt_pow_right (by decide) hk)]

/-- The inner loop of `bits()` finds the highest set bit of a nonzero limb. The
induction is on `nbits`, the loop's bit from the top. -/
theorem highBit_bounds (x : UInt32) (hx : x ≠ 0) : ∀ nbits, nbits ≤ 31 →
    x.toNat < 2 ^ (nbits + 1) → 2 ^ highBit x nbits ≤ x.toNat ∧ x.toNat < 2 ^ (highBit x nbits + 1)
  | 0, _, hlt => by
    have hx' : x.toNat ≠ 0 := fun h => hx (UInt32.toNat_inj.mp h)
    simp only [highBit, Nat.pow_zero, zero_add, Nat.pow_one]
    omega
  | nbits + 1, hn, hlt => by
    -- the test `x & 1U << nbits` reads bit `nbits` of the limb
    have hpow := toNat_one_shiftLeft (show nbits + 1 < 32 by omega)
    have hbit : x &&& (1 <<< (nbits + 1).toUInt32) ≠ 0 ↔ x.toNat.testBit (nbits + 1) = true := by
      rw [ne_eq, ← UInt32.toNat_inj, UInt32.toNat_and, hpow, UInt32.toNat_zero, Nat.and_two_pow]
      cases x.toNat.testBit (nbits + 1) <;> simp
    by_cases hset : x.toNat.testBit (nbits + 1) = true
    · rw [highBit, if_pos (hbit.mpr hset)]
      exact ⟨Nat.ge_two_pow_of_testBit hset, hlt⟩
    · rw [highBit, if_neg (mt hbit.mp hset)]
      refine highBit_bounds x hx nbits (by omega) (Nat.lt_pow_two_of_testBit _ fun i hi => ?_)
      rcases Nat.eq_or_lt_of_le hi with rfl | hi
      · simpa using hset
      · exact Nat.testBit_lt_two_pow (Nat.lt_of_lt_of_le hlt (Nat.pow_le_pow_right (by decide) hi))

/-- The loop of `bits()` over the limbs below `pos` finds the bit length of the
number they stand for. The induction is on `pos`, from the top. -/
theorem bitsLoop_eq (pn : List UInt32) : ∀ pos, bitsLoop pn pos = Nat.size (Limbs.val (pn.take pos))
  | 0 => by simp [bitsLoop]
  | pos + 1 => by
    have hA : Limbs.val (pn.take pos) < 2 ^ (32 * pos) := by
      rw [Limbs.val_take]
      exact Nat.mod_lt _ (Nat.two_pow_pos _)
    rw [bitsLoop, Limbs.val_take_succ]
    split
    · -- the highest nonzero limb: its highest bit, above the limbs below it
      rename_i hx
      obtain ⟨hlo, hhi⟩ := highBit_bounds _ hx 31 le_rfl (UInt32.toNat_lt _)
      generalize highBit (pn.getD pos 0) 31 = h at hlo hhi
      generalize (pn.getD pos 0).toNat = x at hlo hhi
      symm
      apply size_eq_of_bounds
      · calc 2 ^ (32 * pos + h) = 2 ^ (32 * pos) * 2 ^ h := Nat.pow_add _ _ _
          _ ≤ 2 ^ (32 * pos) * x := Nat.mul_le_mul_left _ hlo
          _ ≤ _ := Nat.le_add_left _ _
      · calc Limbs.val (pn.take pos) + 2 ^ (32 * pos) * x < 2 ^ (32 * pos) * (x + 1) := by
              rw [Nat.mul_succ]
              omega
          _ ≤ 2 ^ (32 * pos) * 2 ^ (h + 1) := Nat.mul_le_mul_left _ hhi
          _ = 2 ^ (32 * pos + h + 1) := by rw [← Nat.pow_add, Nat.add_assoc]
    · rename_i hx
      rw [not_not.mp hx, UInt32.toNat_zero, Nat.mul_zero, Nat.add_zero, bitsLoop_eq pn pos]

/-- `bits()` is the bit length of the number. -/
theorem bits_eq_size (a : BaseUint WIDTH) : a.bits = Nat.size a.val := by
  rw [bits, bitsLoop_eq, List.take_of_length_le (by rw [a.length_pn])]
  rfl

/-- `GetLow64()` is the number modulo `2^64`: the two low limbs, the second
shifted up by 32. -/
theorem val_GetLow64 (a : BaseUint WIDTH) : a.GetLow64.toNat = a.val % 2 ^ 64 := by
  have h2 : Limbs.val (a.pn.take 2) = a.val % 2 ^ (32 * 2) := Limbs.val_take _ _
  rw [Limbs.val_take_succ, Limbs.val_take_succ, List.take_zero, Limbs.val_nil] at h2
  have hhi := (a.pn.getD 1 0).toNat_lt
  rw [GetLow64, UInt64.toNat_or, UInt64.toNat_shiftLeft, UInt32.toNat_toUInt64,
    UInt32.toNat_toUInt64, show (32 : UInt64).toNat % 64 = 32 from rfl, Nat.shiftLeft_eq,
    Nat.mod_eq_of_lt (by omega), Nat.or_comm, Nat.mul_comm,
    ← Nat.two_pow_add_eq_or_of_lt (UInt32.toNat_lt _), ← h2]
  omega

/-- `EqualTo(0)` tests the number for zero: the middle limbs, and the two low
ones against the halves of `0`. -/
theorem EqualTo_zero_iff (a : BaseUint WIDTH) (hw : 2 ≤ WIDTH) : a.EqualTo 0 = true ↔ a.val = 0 := by
  have hlimb : ∀ x : UInt32, x.toUInt64 = 0 ↔ x = 0 := fun x => by
    rw [← UInt64.toNat_inj, ← UInt32.toNat_inj, UInt32.toNat_toUInt64]
    rfl
  rw [val, Limbs.val_eq_zero_iff]
  simp only [EqualTo, Bool.and_eq_true, List.all_eq_true, List.mem_range'_1, beq_iff_eq,
    show (0 : UInt64) >>> 32 = 0 from rfl, show (0 : UInt64) &&& 0xffffffff = 0 from rfl, hlimb]
  constructor
  · rintro ⟨⟨hmid, h1⟩, h0⟩ i
    match i with
    | 0 => exact h0
    | 1 => exact h1
    | i + 2 =>
      by_cases hi : i + 2 < WIDTH
      · exact hmid (i + 2) ⟨by omega, by omega⟩
      · exact getD_pn_of_le a (by omega)
  · intro h
    exact ⟨⟨fun i _ => h i, h 1⟩, h 0⟩

end BaseUint

end BitcoinAbc
