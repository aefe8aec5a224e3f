import Mathlib
import BitcoinAbc.Lib.Regroup

/-!
# Checksum loops linear over XOR

A checksum loop `for (d : ds) c = L(c) ^ d` whose feedback `L` distributes
over `^` is linear in its start and its input (`run_eq_xor`): the loop from
`c` is the loop from `0` with `c` carried through `L` once per value. When
`L` only shifts small states by `w` bits, the loop from `0` over a short
block of `w`-bit values packs them into one number (`run_zero_eq_valBE`).

So the checksum of a message followed by a block of values is the
checksum of the message followed by zeros, with the packed block added by
`^`: a block equal to the latter checksum cancels it (`run_append_pack`).
-/

namespace Lfsr

open Regroup

/-- `(a << w) ^ d` is `a * 2^w + d` while `d` fits in `w` bits. -/
theorem shiftLeft_xor_eq_add (a : Nat) {w d : Nat} (hd : d < 2 ^ w) : (a <<< w) ^^^ d = a * 2 ^ w + d := by
  rw [← Nat.shiftLeft_eq, Nat.shiftLeft_add_eq_or_of_lt hd]
  apply Nat.eq_of_testBit_eq
  intro i
  rw [Nat.testBit_xor, Nat.testBit_or]
  by_cases hi : i < w
  · have hwi : decide (w ≤ i) = false := decide_eq_false (by omega)
    simp [Nat.testBit_shiftLeft, hwi]
  · have hdi : d.testBit i = false :=
      Nat.testBit_lt_two_pow (lt_of_lt_of_le hd (Nat.pow_le_pow_right (by decide) (by omega)))
    simp [hdi]

/-- A term added when one bit `m = 2 ^ i` is set is linear in exclusive or. -/
theorem ite_xor_bit {m : Nat} (i : Nat) (hm : m = 2 ^ i) (g x y : Nat) : (if (x ^^^ y) &&& m ≠ 0 then g else 0) =
    (if x &&& m ≠ 0 then g else 0) ^^^ (if y &&& m ≠ 0 then g else 0) := by
  rw [hm, Nat.and_two_pow, Nat.and_two_pow, Nat.and_two_pow, Nat.testBit_xor]
  cases x.testBit i <;> cases y.testBit i <;> simp

/-- `if (p) c ^= g;` adds `g` or nothing. -/
theorem ite_xor (p : Prop) [Decidable p] (c g : Nat) : (if p then c ^^^ g else c) = c ^^^ if p then g else 0 := by
  split_ifs <;> simp

variable (L : Nat → Nat)

/-- The loop `for (d : ds) c = L(c) ^ d`. -/
def run (c : Nat) (ds : List Nat) : Nat := ds.foldl (fun c d => L c ^^^ d) c

/-- `L` distributes over `^`. -/
def XorLinear : Prop := ∀ a b, L (a ^^^ b) = L a ^^^ L b

variable {L}

@[simp] theorem run_nil (c : Nat) : run L c [] = c := rfl

@[simp] theorem run_cons (c d : Nat) (ds : List Nat) : run L c (d :: ds) = run L (L c ^^^ d) ds := rfl

theorem run_append (c : Nat) (ds es : List Nat) : run L c (ds ++ es) = run L (run L c ds) es := by
  rw [run, List.foldl_append]
  rfl

theorem XorLinear.map_zero (hL : XorLinear L) : L 0 = 0 := by
  have h := hL 0 0
  rw [Nat.xor_self] at h
  rw [h, Nat.xor_self]

theorem XorLinear.iterate (hL : XorLinear L) : ∀ n, XorLinear (L^[n])
  | 0 => fun _ _ => rfl
  | n + 1 => fun a b => by
    rw [Function.iterate_succ_apply, Function.iterate_succ_apply, Function.iterate_succ_apply, hL,
      hL.iterate n]

/-- Superposition: the loop from `c` is the loop from `0`, with `c` carried
through `L` once per value. -/
theorem run_eq_xor (hL : XorLinear L) : ∀ (c : Nat) (ds : List Nat), run L c ds = L^[ds.length] c ^^^ run L 0 ds
  | c, [] => by simp
  | c, d :: ds => by
    rw [run_cons, run_eq_xor hL _ ds, run_cons, run_eq_xor hL (L 0 ^^^ d) ds, hL.map_zero, Nat.zero_xor,
      hL.iterate _ (L c) d, List.length_cons, Function.iterate_succ_apply, Nat.xor_assoc]

/-- While the state is below `2 ^ (w * m)`, `L` shifts it by `w` bits; the
loop from `0` over at most `m + 1` values of `w` bits then packs them. -/
theorem run_zero_eq_valBE {w m : Nat} (hw : 0 < w) (hshift : ∀ x < 2 ^ (w * m), L x = x <<< w) :
    ∀ ds : List Nat, (∀ d ∈ ds, d < 2 ^ w) → ds.length ≤ m + 1 → run L 0 ds = valBE (2 ^ w) ds := by
  intro ds
  induction ds using List.reverseRecOn with
  | nil => intros; rfl
  | append_singleton ds d ih =>
    intro hds hlen
    have hds' : ∀ e ∈ ds, e < 2 ^ w := fun e he => hds e (by simp [he])
    rw [List.length_append, List.length_singleton] at hlen
    have hval := ih hds' (by omega)
    -- the state before the last value is the packed block, small enough to be shifted
    have hsmall : valBE (2 ^ w) ds < 2 ^ (w * m) := by
      calc valBE (2 ^ w) ds < (2 ^ w) ^ ds.length := valBE_lt (Nat.one_lt_two_pow hw.ne') hds'
        _ = 2 ^ (w * ds.length) := (Nat.pow_mul 2 w ds.length).symm
        _ ≤ 2 ^ (w * m) := Nat.pow_le_pow_right (by decide) (Nat.mul_le_mul_left w (by omega))
    rw [run_append, hval, run_cons, run_nil, hshift _ hsmall, valBE_append_singleton,
      shiftLeft_xor_eq_add _ (hds d (by simp))]

/-- A block equal to the checksum of the zero block cancels it: the loop over
`ds ++ es` equals the loop over `ds ++ zeros` with the packed `es` added. -/
theorem run_append_pack (hL : XorLinear L) {w m : Nat} (hw : 0 < w) (hshift : ∀ x < 2 ^ (w * m), L x = x <<< w)
    (c : Nat) (ds es : List Nat) (hes : ∀ e ∈ es, e < 2 ^ w) (hlen : es.length ≤ m + 1) :
    run L c (ds ++ es) = run L c (ds ++ List.replicate es.length 0) ^^^ valBE (2 ^ w) es := by
  have hzeros : run L 0 (List.replicate es.length 0) = 0 := by
    rw [run_zero_eq_valBE hw hshift _ (by simp) (by simpa using hlen), valBE_eq_ofDigits, List.reverse_replicate,
      Nat.ofDigits_replicate_zero]
  rw [run_append, run_append, run_eq_xor hL _ es, run_eq_xor hL _ (List.replicate es.length 0), hzeros,
    List.length_replicate, Nat.xor_zero, run_zero_eq_valBE hw hshift es hes hlen]

end Lfsr
