import Mathlib

/-!
# Multiply-and-add on a buffer of digits

A big number kept as a fixed-size buffer of base-`b` digits is multiplied by
`m` and added a small `carry` in place, from the least significant digit up:

    for (it = buf.rbegin(); (carry != 0 || i < length) && it != buf.rend(); ++it, ++i) {
        carry += m * (*it);
        *it = carry % b;
        carry /= b;
    }

The loop touches the `length` digits in use and goes on while a carry is
left; `i` ends as the number of digits in use after it. Here the buffer is
the list of its digits, the least significant first, and the number it holds
is `Nat.ofDigits b`.

- `mulAddLoop_digits`: on a buffer `holding` `Nat.digits b N` followed by zeros,
  the loop leaves `Nat.digits b (m * N + carry)` followed by zeros, with `i`
  its length and no carry, whenever that number fits the buffer;
- `pow_le_pow_div_add_one`: how many base-`b` digits hold `n` base-`a` ones,
  from a rational bound `p / q` on `log a / log b`;
- `horner`: the number digits stand for, the most significant first, as a
  loop reads them one at a time.
-/

namespace CarryBuffer

variable (m b : Nat)

/-- The loop, on the digits from the least significant: the digits, the
final `i` and the carry left. -/
def mulAddLoop : List Nat → Nat → Nat → Nat → List Nat × Nat × Nat
  | [], carry, i, _ => ([], i, carry)
  | x :: xs, carry, i, length =>
    if carry ≠ 0 ∨ i < length then
      let carry := carry + m * x
      let r := mulAddLoop xs (carry / b) (i + 1) length
      (carry % b :: r.1, r.2.1, r.2.2)
    else (x :: xs, i, carry)

/-- Multiply-and-add over every digit: the digits and the carry out. -/
def mulAdd : List Nat → Nat → List Nat × Nat
  | [], carry => ([], carry)
  | x :: xs, carry =>
    let r := mulAdd xs ((carry + m * x) / b)
    ((carry + m * x) % b :: r.1, r.2)

variable {m b}

theorem length_mulAdd : ∀ (lo : List Nat) (carry : Nat), (mulAdd m b lo carry).1.length = lo.length
  | [], _ => rfl
  | x :: xs, carry => by
    simp only [mulAdd, List.length_cons, length_mulAdd xs]

theorem mulAdd_lt (hb : 0 < b) : ∀ (lo : List Nat) (carry : Nat), ∀ x ∈ (mulAdd m b lo carry).1, x < b
  | [], _ => fun _ h => nomatch h
  | x :: xs, carry => by
    intro y hy
    rcases List.mem_cons.mp hy with rfl | hy
    · exact Nat.mod_lt _ hb
    · exact mulAdd_lt hb xs _ y hy

/-- The digits and the carry out stand for `m` times the number plus the
carry in. -/
theorem ofDigits_mulAdd : ∀ (lo : List Nat) (carry : Nat),
    Nat.ofDigits b (mulAdd m b lo carry).1 + b ^ lo.length * (mulAdd m b lo carry).2 =
      m * Nat.ofDigits b lo + carry
  | [], carry => by simp [mulAdd]
  | x :: xs, carry => by
    have ih := ofDigits_mulAdd xs ((carry + m * x) / b)
    have hdiv := Nat.mod_add_div (carry + m * x) b
    simp only [mulAdd, Nat.ofDigits_cons, List.length_cons, pow_succ] at ih ⊢
    calc (carry + m * x) % b + b * Nat.ofDigits b (mulAdd m b xs ((carry + m * x) / b)).1 +
          b ^ xs.length * b * (mulAdd m b xs ((carry + m * x) / b)).2
        = (carry + m * x) % b + b * (Nat.ofDigits b (mulAdd m b xs ((carry + m * x) / b)).1 +
          b ^ xs.length * (mulAdd m b xs ((carry + m * x) / b)).2) := by ring
      _ = (carry + m * x) % b + b * (m * Nat.ofDigits b xs + (carry + m * x) / b) := by rw [ih]
      _ = m * (x + b * Nat.ofDigits b xs) + carry := by linarith

/-- Over the digits in use, the loop multiplies and adds on every one of
them. -/
theorem mulAddLoop_append : ∀ (lo rest : List Nat) (carry i length : Nat), length = i + lo.length →
    mulAddLoop m b (lo ++ rest) carry i length =
      ((mulAdd m b lo carry).1 ++ (mulAddLoop m b rest (mulAdd m b lo carry).2 length length).1,
        (mulAddLoop m b rest (mulAdd m b lo carry).2 length length).2.1,
        (mulAddLoop m b rest (mulAdd m b lo carry).2 length length).2.2)
  | [], rest, carry, i, length, h => by
    rw [List.length_nil, Nat.add_zero] at h
    subst h
    rfl
  | x :: xs, rest, carry, i, length, h => by
    have hi : i < length := by rw [h, List.length_cons]; omega
    rw [List.cons_append, mulAddLoop, if_pos (.inr hi)]
    dsimp only
    rw [mulAddLoop_append xs rest _ (i + 1) length (by rw [h, List.length_cons]; omega)]
    rfl

/-- Past the digits in use, the loop writes out the carry, one digit at a
time, while it is not zero. -/
theorem mulAddLoop_replicate_zero (hb : 1 < b) : ∀ (k carry i length : Nat), length ≤ i → carry < b ^ k →
    mulAddLoop m b (List.replicate k 0) carry i length =
      (Nat.digits b carry ++ List.replicate (k - (Nat.digits b carry).length) 0,
        i + (Nat.digits b carry).length, 0)
  | k, 0, i, length, hi, _ => by
    rw [Nat.digits_zero, List.length_nil, Nat.add_zero, Nat.sub_zero, List.nil_append]
    cases k with
    | zero => rfl
    | succ k => rw [List.replicate_succ, mulAddLoop, if_neg (by omega)]
  | 0, carry + 1, _, _, _, hc => absurd hc (by simp)
  | k + 1, carry + 1, i, length, hi, hc => by
    have hdiv : (carry + 1) / b < b ^ k := by
      rw [Nat.div_lt_iff_lt_mul (by omega)]
      rwa [← pow_succ]
    rw [List.replicate_succ, mulAddLoop, if_pos (.inl (by omega)), Nat.mul_zero, Nat.add_zero]
    dsimp only
    rw [mulAddLoop_replicate_zero hb k _ (i + 1) length (by omega) hdiv, Nat.digits_def' hb (show 0 < carry + 1 by omega)]
    simp only [List.cons_append, List.length_cons, Nat.add_sub_add_right]
    rw [Nat.add_assoc, Nat.add_comm 1]

/-- A buffer of `size` base-`b` digits holding `N`, the least significant
first. -/
def holding (b size N : Nat) : List Nat := Nat.digits b N ++ List.replicate (size - (Nat.digits b N).length) 0

theorem holding_zero (b size : Nat) : holding b size 0 = List.replicate size 0 := by
  simp [holding]

/-- The digits in use. -/
theorem take_holding (b size N : Nat) : (holding b size N).take (Nat.digits b N).length = Nat.digits b N :=
  List.take_left' rfl

/-- Digits that stand for at least `b ^ (k - 1)`, `k` their number, end in a
non-zero one. -/
theorem getLast_ne_zero_of_le (hb : 1 < b) {l : List Nat} (hl : ∀ x ∈ l, x < b) (hne : l ≠ [])
    (hle : b ^ (l.length - 1) ≤ Nat.ofDigits b l) : l.getLast hne ≠ 0 := by
  intro h0
  have hsplit := List.dropLast_append_getLast hne
  rw [h0] at hsplit
  have hlt := Nat.ofDigits_lt_base_pow_length hb (fun x hx => hl x (List.mem_of_mem_dropLast hx))
  rw [← hsplit, Nat.ofDigits_append_zero, List.length_append, List.length_singleton, Nat.add_sub_cancel] at hle
  omega

/-- On a buffer of `size` digits holding `N`, the loop leaves `m * N + carry`
and no carry, the digits in use counted in `i`, whenever that number fits. -/
theorem mulAddLoop_digits (hb : 1 < b) (hm : 1 ≤ m) {N carry size : Nat} (h : m * N + carry < b ^ size) :
    mulAddLoop m b (holding b size N) carry 0 (Nat.digits b N).length =
      (holding b size (m * N + carry), (Nat.digits b (m * N + carry)).length, 0) := by
  unfold holding
  have hNle : N ≤ m * N + carry := le_trans (Nat.le_mul_of_pos_left N hm) (Nat.le_add_right _ _)
  have hsize : (Nat.digits b N).length ≤ size := (Nat.digits_length_le_iff hb N).mpr (lt_of_le_of_lt hNle h)
  have hval := ofDigits_mulAdd (m := m) (b := b) (Nat.digits b N) carry
  have hlen := length_mulAdd (m := m) (b := b) (Nat.digits b N) carry
  have hlt := mulAdd_lt (m := m) (b := b) (by omega) (Nat.digits b N) carry
  rw [mulAddLoop_append _ _ carry 0 _ (Nat.zero_add _).symm]
  rw [Nat.ofDigits_digits] at hval
  generalize mulAdd m b (Nat.digits b N) carry = r at hval hlen hlt ⊢
  obtain ⟨w, c1⟩ := r
  dsimp only at hval hlen hlt ⊢
  -- the carry out of the digits in use fits the zeros above them
  have hc1 : c1 < b ^ (size - (Nat.digits b N).length) := by
    have hpow : b ^ (Nat.digits b N).length * b ^ (size - (Nat.digits b N).length) = b ^ size := by
      rw [← pow_add, Nat.add_sub_cancel' hsize]
    apply Nat.lt_of_mul_lt_mul_left (a := b ^ (Nat.digits b N).length)
    rw [hpow]
    exact lt_of_le_of_lt (Nat.le_add_left _ _) (hval ▸ h)
  rw [mulAddLoop_replicate_zero hb _ c1 _ _ le_rfl hc1]
  -- the digits written are those of `m * N + carry`
  have hsum : Nat.ofDigits b (w ++ Nat.digits b c1) = m * N + carry := by
    rw [Nat.ofDigits_append, Nat.ofDigits_digits, hlen, hval]
  have hall : ∀ x ∈ w ++ Nat.digits b c1, x < b := by
    intro x hx
    rcases List.mem_append.mp hx with hx | hx
    · exact hlt x hx
    · exact Nat.digits_lt_base hb hx
  have hlast : ∀ hne : w ++ Nat.digits b c1 ≠ [], (w ++ Nat.digits b c1).getLast hne ≠ 0 := by
    intro hne
    by_cases hc0 : c1 = 0
    · -- no carry out: `w` itself is at least `N`, which has as many digits
      subst hc0
      have hN : N ≠ 0 := by
        intro hN0
        rw [hN0, Nat.digits_zero, List.length_nil, List.length_eq_zero_iff] at hlen
        exact hne (by rw [hlen, Nat.digits_zero]; rfl)
      have hpowN := Nat.base_pow_length_digits_le b N hb hN
      apply getLast_ne_zero_of_le hb hall hne
      rw [hsum, List.length_append, Nat.digits_zero, List.length_nil, Nat.add_zero, hlen]
      have : b ^ ((Nat.digits b N).length - 1) * b ≤ N * b := by
        rw [← pow_succ, Nat.sub_add_cancel (List.length_pos_iff.mpr (Nat.digits_ne_nil_iff_ne_zero.mpr hN))]
        rw [Nat.mul_comm N]
        exact hpowN
      exact le_trans (Nat.le_of_mul_le_mul_right this (by omega)) hNle
    · rw [List.getLast_append_of_ne_nil hne (Nat.digits_ne_nil_iff_ne_zero.mpr hc0)]
      exact Nat.getLast_digit_ne_zero b hc0
  have hdigits : Nat.digits b (m * N + carry) = w ++ Nat.digits b c1 := by
    rw [← hsum, Nat.digits_ofDigits b hb _ hall hlast]
  rw [hdigits, List.append_assoc, List.length_append, hlen, Nat.sub_sub]

/-- `n` base-`a` digits fit in `n * p / q + 1` base-`b` ones when
`a ^ q ≤ b ^ p`, that is when `p / q` bounds `log a / log b` from above. -/
theorem pow_le_pow_div_add_one {a b p q : Nat} (hb : 0 < b) (hq : 0 < q) (h : a ^ q ≤ b ^ p) (n : Nat) :
    a ^ n ≤ b ^ (n * p / q + 1) := by
  have hround : n * p ≤ (n * p / q + 1) * q := by
    rw [Nat.succ_mul]
    exact le_of_lt (Nat.lt_div_mul_add hq)
  -- compare the `q`-th powers
  have key : (a ^ n) ^ q ≤ (b ^ (n * p / q + 1)) ^ q := by
    calc (a ^ n) ^ q = (a ^ q) ^ n := by rw [← pow_mul, ← pow_mul, Nat.mul_comm]
      _ ≤ (b ^ p) ^ n := Nat.pow_le_pow_left h n
      _ = b ^ (n * p) := by rw [← pow_mul, Nat.mul_comm]
      _ ≤ b ^ ((n * p / q + 1) * q) := Nat.pow_le_pow_right hb hround
      _ = (b ^ (n * p / q + 1)) ^ q := by rw [← pow_mul]
  exact (Nat.pow_le_pow_iff_left (by omega)).mp key

/-! ## Numbers read the most significant digit first -/

/-- The number digits stand for, the most significant first, read on from
`acc`. -/
def horner (b acc : Nat) (ds : List Nat) : Nat := ds.foldl (fun a d => b * a + d) acc

theorem horner_cons (b acc d : Nat) (ds : List Nat) : horner b acc (d :: ds) = horner b (b * acc + d) ds := rfl

theorem horner_append (b acc : Nat) (ds es : List Nat) : horner b acc (ds ++ es) = horner b (horner b acc ds) es :=
  List.foldl_append

theorem horner_eq : ∀ (b acc : Nat) (ds : List Nat), horner b acc ds = acc * b ^ ds.length + Nat.ofDigits b ds.reverse
  | _, acc, [] => by simp [horner]
  | b, acc, d :: ds => by
    rw [horner_cons, horner_eq b _ ds, List.length_cons, Nat.ofDigits_reverse_cons]
    ring

theorem le_horner {b : Nat} (hb : 0 < b) (acc : Nat) (ds : List Nat) : acc ≤ horner b acc ds := by
  rw [horner_eq]
  exact Nat.le_add_right_of_le (Nat.le_mul_of_pos_right _ (Nat.pow_pos hb))

/-- Digits below `b` read on from `acc` stand for less than `(acc + 1) * b ^ k`. -/
theorem horner_lt {b : Nat} (hb : 1 < b) (acc : Nat) {ds : List Nat} (hds : ∀ d ∈ ds, d < b) :
    horner b acc ds < (acc + 1) * b ^ ds.length := by
  have hlt := Nat.ofDigits_lt_base_pow_length hb (l := ds.reverse) (fun d hd => hds d (List.mem_reverse.mp hd))
  rw [horner_eq, List.length_reverse] at *
  rw [Nat.succ_mul]
  omega

end CarryBuffer
