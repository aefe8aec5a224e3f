import Mathlib

/-!
# Bit strings, the most significant bit first

A bit stream that packs numbers into bytes from the high bit down is, to the
reader of its bytes, one list of bits: `ofNat n v` is the `n` low bits of `v`
as it lays them down, `val` the number a list of bits spells, and `ofBytes`
the bits of a byte string.

- `ofNat_add`: the bits of a number cut into a high and a low part;
  `take_ofNat` and `drop_ofNat` take them apart again;
- `ofNat_congr`: `ofNat n v` reads the bits of `v` below `n` only;
- `val_ofNat` and `ofNat_val`: a bit string and its value determine each
  other at a given length.
-/

namespace BitString

/-- The `n` low bits of `v`, the most significant first. -/
def ofNat : Nat → Nat → List Bool
  | 0, _ => []
  | n + 1, v => v.testBit n :: ofNat n v

/-- The number a bit string spells, the most significant bit first. -/
def val (bs : List Bool) : Nat := bs.foldl (fun acc b => 2 * acc + b.toNat) 0

/-- The eight bits of a byte, the most significant first. -/
def ofByte (b : UInt8) : List Bool := ofNat 8 b.toNat

/-- The bits of a byte string, byte after byte. -/
def ofBytes (bs : List UInt8) : List Bool := bs.flatMap ofByte

/-! ## The bits of a number -/

section OfNat

variable {n m v w : Nat}

@[simp] theorem ofNat_zero (v : Nat) : ofNat 0 v = [] := rfl

theorem ofNat_succ (n v : Nat) : ofNat (n + 1) v = v.testBit n :: ofNat n v := rfl

@[simp] theorem length_ofNat (n v : Nat) : (ofNat n v).length = n := by
  induction n with
  | zero => rfl
  | succ n ih => rw [ofNat_succ, List.length_cons, ih]

/-- `ofNat n v` reads the bits of `v` below `n` only. -/
theorem ofNat_congr (h : ∀ i < n, v.testBit i = w.testBit i) : ofNat n v = ofNat n w := by
  induction n with
  | zero => rfl
  | succ n ih =>
    rw [ofNat_succ, ofNat_succ, h n (Nat.lt_succ_self n), ih fun i hi => h i (by omega)]

theorem ofNat_add (a b v : Nat) : ofNat (a + b) v = ofNat a (v >>> b) ++ ofNat b v := by
  induction a with
  | zero => simp
  | succ a ih =>
    rw [show a + 1 + b = a + b + 1 by omega, ofNat_succ, ofNat_succ, ih, Nat.testBit_shiftRight,
      Nat.add_comm b a, List.cons_append]

theorem ofNat_mod (h : n ≤ m) : ofNat n (v % 2 ^ m) = ofNat n v := by
  apply ofNat_congr
  intro i hi
  rw [Nat.testBit_mod_two_pow, decide_eq_true (by omega : i < m), Bool.true_and]

theorem ofNat_eq_replicate_false (h : ∀ i < n, v.testBit i = false) :
    ofNat n v = List.replicate n false := by
  induction n with
  | zero => rfl
  | succ n ih =>
    rw [ofNat_succ, h n (Nat.lt_succ_self n), ih fun i hi => h i (by omega), List.replicate_succ]

theorem ofNat_two_pow_sub_one (h : n ≤ m) : ofNat n (2 ^ m - 1) = List.replicate n true := by
  induction n with
  | zero => rfl
  | succ n ih =>
    rw [ofNat_succ, Nat.testBit_two_pow_sub_one, decide_eq_true (by omega : n < m), ih (by omega),
      List.replicate_succ]

theorem take_ofNat {k : Nat} (h : k ≤ n) : (ofNat n v).take k = ofNat k (v >>> (n - k)) := by
  obtain ⟨j, rfl⟩ : ∃ j, n = k + j := ⟨n - k, by omega⟩
  rw [ofNat_add, List.take_left' (length_ofNat k _), Nat.add_sub_cancel_left]

theorem drop_ofNat (k : Nat) : (ofNat n v).drop k = ofNat (n - k) v := by
  by_cases h : k ≤ n
  · obtain ⟨j, rfl⟩ : ∃ j, n = k + j := ⟨n - k, by omega⟩
    rw [ofNat_add, List.drop_left' (length_ofNat k _), Nat.add_sub_cancel_left]
  · rw [List.drop_eq_nil_of_le (by simp; omega), Nat.sub_eq_zero_of_le (by omega), ofNat_zero]

end OfNat

/-! ## The value of a bit string -/

section Val

theorem foldl_val : ∀ (bs : List Bool) (a : Nat),
    bs.foldl (fun acc b => 2 * acc + b.toNat) a = a * 2 ^ bs.length + val bs
  | [], a => by simp [val]
  | b :: bs, a => by
    have hb : val (b :: bs) = b.toNat * 2 ^ bs.length + val bs := by
      rw [val, List.foldl_cons, foldl_val bs]
      simp
    rw [List.foldl_cons, foldl_val bs, hb, List.length_cons, Nat.pow_succ]
    ring

@[simp] theorem val_nil : val [] = 0 := rfl

theorem val_cons (b : Bool) (bs : List Bool) : val (b :: bs) = b.toNat * 2 ^ bs.length + val bs := by
  rw [val, List.foldl_cons, foldl_val]
  simp

theorem val_append (xs ys : List Bool) : val (xs ++ ys) = val xs * 2 ^ ys.length + val ys := by
  rw [val, List.foldl_append, foldl_val, ← val]

theorem val_lt : ∀ bs : List Bool, val bs < 2 ^ bs.length
  | [] => by simp
  | b :: bs => by
    have := val_lt bs
    have : b.toNat ≤ 1 := Bool.toNat_le b
    rw [val_cons, List.length_cons, Nat.pow_succ]
    nlinarith

theorem val_ofNat (n v : Nat) : val (ofNat n v) = v % 2 ^ n := by
  induction n with
  | zero => simp [Nat.mod_one]
  | succ n ih =>
    rw [ofNat_succ, val_cons, ih, length_ofNat, Nat.mod_pow_succ, Nat.testBit_eq_decide_div_mod_eq]
    rcases Nat.mod_two_eq_zero_or_one (v / 2 ^ n) with h | h
    · rw [h]
      simp
    · rw [h]
      simp
      ring

theorem ofNat_val : ∀ bs : List Bool, ofNat bs.length (val bs) = bs
  | [] => rfl
  | b :: bs => by
    have hlt := val_lt bs
    -- the high bit is `b`, and below it the bits of `val bs`
    have htop : (val (b :: bs)).testBit bs.length = b := by
      rw [val_cons, Nat.testBit_eq_decide_div_mod_eq, Nat.add_comm, Nat.add_mul_div_right _ _ (by positivity),
        Nat.div_eq_of_lt hlt, Nat.zero_add]
      cases b <;> rfl
    have hlow : ofNat bs.length (val (b :: bs)) = ofNat bs.length (val bs) := by
      rw [← ofNat_mod (le_refl _), val_cons, Nat.add_comm, Nat.add_mul_mod_self_right,
        Nat.mod_eq_of_lt hlt]
    rw [List.length_cons, ofNat_succ, htop, hlow, ofNat_val bs]

end Val

/-! ## Bytes -/

@[simp] theorem length_ofByte (b : UInt8) : (ofByte b).length = 8 := length_ofNat 8 _

@[simp] theorem ofBytes_nil : ofBytes [] = [] := rfl

@[simp] theorem ofBytes_cons (b : UInt8) (bs : List UInt8) : ofBytes (b :: bs) = ofByte b ++ ofBytes bs :=
  List.flatMap_cons

@[simp] theorem ofBytes_append (xs ys : List UInt8) : ofBytes (xs ++ ys) = ofBytes xs ++ ofBytes ys :=
  List.flatMap_append

theorem ofBytes_head_tail {bs : List UInt8} (hs : bs ≠ []) : ofBytes bs = ofByte (bs.head hs) ++ ofBytes bs.tail := by
  conv_lhs => rw [← List.cons_head_tail hs]
  rfl

@[simp] theorem length_ofBytes (bs : List UInt8) : (ofBytes bs).length = 8 * bs.length := by
  induction bs with
  | nil => rfl
  | cons b bs ih => rw [ofBytes_cons, List.length_append, ih, length_ofByte, List.length_cons]; ring

end BitString
