import Mathlib
import BitcoinAbc.Lib.Limbs

/-!
# Multi-word unsigned integers (arith_uint256.h, arith_uint256.cpp)

`base_uint<BITS>` keeps a number in `WIDTH = BITS / 32` limbs of 32 bits, the
least significant first, and computes with loops over the limbs: additions and
multiplications carry in a `uint64_t`, shifts move whole limbs and the bits
between neighbours, `CompareTo` and `bits()` scan from the top, and `/=` is a
long division, one quotient bit per pass. `arith_uint256` is `base_uint<256>`.

The model keeps each loop as a recursion over the limbs (or, for the loops that
write limbs out of order, a fold over the indices, as the source runs them) and
the value a `BaseUint` stands for is `Limbs.val` of its limbs. The theorems in
`BitcoinAbc.Arith.BaseUintVal` say what number each operation computes.
-/

namespace BitcoinAbc

/-- `base_uint<BITS>`: its `WIDTH = BITS / 32` limbs `pn`, the least
significant first. -/
@[ext]
structure BaseUint (WIDTH : Nat) where
  pn : List UInt32
  length_pn : pn.length = WIDTH
  deriving DecidableEq

/-- `arith_uint256`. -/
abbrev ArithUint256 := BaseUint 8

namespace BaseUint

/-- A loop over the indices whose pass keeps the number of limbs keeps it. -/
theorem length_foldl {β : Type} (f : List UInt32 → β → List UInt32)
    (hf : ∀ pn b, (f pn b).length = pn.length) :
    ∀ (bs : List β) (pn : List UInt32), (bs.foldl f pn).length = pn.length
  | [], _ => rfl
  | b :: bs, pn => by rw [List.foldl_cons, length_foldl f hf bs, hf]

/-! ## The loops over the limbs -/

/-- The loop of `operator++`: add one to each limb while it wraps to zero. -/
def incLoop : List UInt32 → List UInt32
  | [] => []
  | x :: xs => if x + 1 = 0 then (x + 1) :: incLoop xs else (x + 1) :: xs

@[simp] theorem length_incLoop : ∀ l : List UInt32, (incLoop l).length = l.length
  | [] => rfl
  | x :: xs => by
    unfold incLoop
    split
    · rw [List.length_cons, length_incLoop xs, List.length_cons]
    · rfl

/-- The loop of `operator+=`: `n = carry + pn[i] + b.pn[i]`, its low half
written, its high half carried. -/
def addLoop : List UInt32 → List UInt32 → UInt64 → List UInt32
  | x :: xs, y :: ys, carry =>
    let n := carry + x.toUInt64 + y.toUInt64
    (n &&& 0xffffffff).toUInt32 :: addLoop xs ys (n >>> 32)
  | _, _, _ => []

@[simp] theorem length_addLoop :
    ∀ (xs ys : List UInt32) (carry : UInt64), (addLoop xs ys carry).length = min xs.length ys.length
  | x :: xs, y :: ys, carry => by
    simp only [addLoop, List.length_cons, length_addLoop xs ys, Nat.add_min_add_right]
  | [], _, _ => by simp [addLoop]
  | _ :: _, [], _ => by simp [addLoop]

/-- The loop of `operator*=(uint32_t b32)`: `n = carry + b32 * pn[i]`. -/
def mulU32Loop (b32 : UInt32) : List UInt32 → UInt64 → List UInt32
  | [], _ => []
  | x :: xs, carry =>
    let n := carry + b32.toUInt64 * x.toUInt64
    (n &&& 0xffffffff).toUInt32 :: mulU32Loop b32 xs (n >>> 32)

@[simp] theorem length_mulU32Loop (b32 : UInt32) :
    ∀ (xs : List UInt32) (carry : UInt64), (mulU32Loop b32 xs carry).length = xs.length
  | [], _ => rfl
  | x :: xs, carry => by simp only [mulU32Loop, List.length_cons, length_mulU32Loop b32 xs]

/-- Pass `j` of `operator*=(const base_uint &b)`, on the limbs `a.pn[j..]` of
the product: `n = carry + a.pn[i + j] + pn[j] * b.pn[i]`, while `i + j < WIDTH`. -/
def mulRow (x : UInt32) : List UInt32 → List UInt32 → UInt64 → List UInt32
  | acc :: accs, y :: ys, carry =>
    let n := carry + acc.toUInt64 + x.toUInt64 * y.toUInt64
    (n &&& 0xffffffff).toUInt32 :: mulRow x accs ys (n >>> 32)
  | accs, _, _ => accs

@[simp] theorem length_mulRow (x : UInt32) :
    ∀ (accs ys : List UInt32) (carry : UInt64), (mulRow x accs ys carry).length = accs.length
  | acc :: accs, y :: ys, carry => by
    simp only [mulRow, List.length_cons, length_mulRow x accs ys]
  | [], _, _ => by simp [mulRow]
  | _ :: _, [], _ => by simp [mulRow]

/-- Pass `j` of `operator*=(const base_uint &b)`: the limbs of the product
below `j` stay, `pn[j] * b` is added into the others. -/
def mulPass (pn b : List UInt32) (a : List UInt32) (j : Nat) : List UInt32 :=
  a.take j ++ mulRow (pn.getD j 0) (a.drop j) b 0

@[simp] theorem length_mulPass (pn b a : List UInt32) (j : Nat) :
    (mulPass pn b a j).length = a.length := by
  simp only [mulPass, List.length_append, List.length_take, length_mulRow, List.length_drop]
  omega

/-- The passes of `operator*=(const base_uint &b)`, one for each limb `pn[j]`,
into a product that starts at zero. -/
def mulLoop (pn b : List UInt32) : List UInt32 :=
  (List.range pn.length).foldl (mulPass pn b) (List.replicate pn.length 0)

@[simp] theorem length_mulLoop (pn b : List UInt32) : (mulLoop pn b).length = pn.length := by
  rw [mulLoop, length_foldl _ (length_mulPass pn b), List.length_replicate]

/-- Pass `i` of `operator<<=`, the shift split into `k` whole limbs and
`shift < 32` bits: limb `i` is or-ed into limb `i + k + 1`, the bits shifted
out of it, and into limb `i + k`. -/
def shiftLeftPass (a : List UInt32) (k : Nat) (shift : UInt32) (pn : List UInt32) (i : Nat) :
    List UInt32 :=
  let pn := if i + k + 1 < a.length ∧ shift ≠ 0 then
    pn.modify (i + k + 1) (· ||| (a.getD i 0 >>> (32 - shift))) else pn
  if i + k < a.length then pn.modify (i + k) (· ||| (a.getD i 0 <<< shift)) else pn

/-- The loop of `operator<<=`, into limbs that start at zero. -/
def shiftLeftLoop (a : List UInt32) (k : Nat) (shift : UInt32) : List UInt32 :=
  (List.range a.length).foldl (shiftLeftPass a k shift) (List.replicate a.length 0)

@[simp] theorem length_shiftLeftPass (a : List UInt32) (k : Nat) (shift : UInt32)
    (pn : List UInt32) (i : Nat) : (shiftLeftPass a k shift pn i).length = pn.length := by
  unfold shiftLeftPass
  split <;> split <;> simp

@[simp] theorem length_shiftLeftLoop (a : List UInt32) (k : Nat) (shift : UInt32) :
    (shiftLeftLoop a k shift).length = a.length := by
  rw [shiftLeftLoop, length_foldl _ (length_shiftLeftPass a k shift), List.length_replicate]

/-- Pass `i` of `operator>>=`: limb `i` is or-ed into limb `i - k - 1`, the bits
shifted out of it, and into limb `i - k`. -/
def shiftRightPass (a : List UInt32) (k : Nat) (shift : UInt32) (pn : List UInt32) (i : Nat) :
    List UInt32 :=
  let pn := if k + 1 ≤ i ∧ shift ≠ 0 then
    pn.modify (i - k - 1) (· ||| (a.getD i 0 <<< (32 - shift))) else pn
  if k ≤ i then pn.modify (i - k) (· ||| (a.getD i 0 >>> shift)) else pn

/-- The loop of `operator>>=`, into limbs that start at zero. -/
def shiftRightLoop (a : List UInt32) (k : Nat) (shift : UInt32) : List UInt32 :=
  (List.range a.length).foldl (shiftRightPass a k shift) (List.replicate a.length 0)

@[simp] theorem length_shiftRightPass (a : List UInt32) (k : Nat) (shift : UInt32)
    (pn : List UInt32) (i : Nat) : (shiftRightPass a k shift pn i).length = pn.length := by
  unfold shiftRightPass
  split <;> split <;> simp

@[simp] theorem length_shiftRightLoop (a : List UInt32) (k : Nat) (shift : UInt32) :
    (shiftRightLoop a k shift).length = a.length := by
  rw [shiftRightLoop, length_foldl _ (length_shiftRightPass a k shift), List.length_replicate]

/-- The loop of `CompareTo`, over the limbs below `i`, from the top. -/
def compareLoop (a b : List UInt32) : Nat → Int
  | 0 => 0
  | i + 1 =>
    if a.getD i 0 < b.getD i 0 then -1
    else if a.getD i 0 > b.getD i 0 then 1
    else compareLoop a b i

/-- The inner loop of `bits()`: the highest of the bits `nbits, ..., 1` set in
`x`, or `0` when none is. -/
def highBit (x : UInt32) : Nat → Nat
  | 0 => 0
  | nbits + 1 => if x &&& (1 <<< (nbits + 1).toUInt32) ≠ 0 then nbits + 1 else highBit x nbits

/-- The outer loop of `bits()`, over the limbs below `pos`, from the top. -/
def bitsLoop (pn : List UInt32) : Nat → Nat
  | 0 => 0
  | pos + 1 =>
    if pn.getD pos 0 ≠ 0 then 32 * pos + highBit (pn.getD pos 0) 31 + 1 else bitsLoop pn pos

/-! ## The operations -/

variable {WIDTH : Nat}

/-- The number the limbs stand for. -/
def val (a : BaseUint WIDTH) : Nat := Limbs.val a.pn

/-- `base_uint()`: every limb zero. -/
def zero : BaseUint WIDTH := ⟨List.replicate WIDTH 0, List.length_replicate⟩

/-- `base_uint(uint64_t b)`, and `operator=(uint64_t b)`: the low two limbs
from `b`, the others zero. -/
def ofUInt64 (b : UInt64) : BaseUint WIDTH :=
  ⟨((List.replicate WIDTH 0).set 0 b.toUInt32).set 1 (b >>> 32).toUInt32, by simp⟩

/-- `operator~`. -/
def not (a : BaseUint WIDTH) : BaseUint WIDTH := ⟨a.pn.map (~~~·), by simp [a.length_pn]⟩

/-- `operator++`. -/
def inc (a : BaseUint WIDTH) : BaseUint WIDTH := ⟨incLoop a.pn, by simp [a.length_pn]⟩

/-- Unary `operator-`: the complement, plus one. -/
def neg (a : BaseUint WIDTH) : BaseUint WIDTH := a.not.inc

/-- `operator+=`. -/
def add (a b : BaseUint WIDTH) : BaseUint WIDTH :=
  ⟨addLoop a.pn b.pn 0, by simp [a.length_pn, b.length_pn]⟩

/-- `operator-=`: `*this += -b`. -/
def sub (a b : BaseUint WIDTH) : BaseUint WIDTH := a.add b.neg

/-- `operator*=(uint32_t b32)`. -/
def mulU32 (a : BaseUint WIDTH) (b32 : UInt32) : BaseUint WIDTH :=
  ⟨mulU32Loop b32 a.pn 0, by simp [a.length_pn]⟩

/-- `operator*=(const base_uint &b)`. -/
def mul (a b : BaseUint WIDTH) : BaseUint WIDTH := ⟨mulLoop a.pn b.pn, by simp [a.length_pn]⟩

/-- `operator<<=(unsigned int shift)`. -/
def shiftLeft (a : BaseUint WIDTH) (shift : UInt32) : BaseUint WIDTH :=
  ⟨shiftLeftLoop a.pn (shift / 32).toNat (shift % 32), by simp [a.length_pn]⟩

/-- `operator>>=(unsigned int shift)`. -/
def shiftRight (a : BaseUint WIDTH) (shift : UInt32) : BaseUint WIDTH :=
  ⟨shiftRightLoop a.pn (shift / 32).toNat (shift % 32), by simp [a.length_pn]⟩

/-- `CompareTo`: `-1`, `0` or `1` as `a` is below, equal to or above `b`. -/
def CompareTo (a b : BaseUint WIDTH) : Int := compareLoop a.pn b.pn WIDTH

/-- `EqualTo(uint64_t b)`, the comparison with a 64-bit number. -/
def EqualTo (a : BaseUint WIDTH) (b : UInt64) : Bool :=
  (List.range' 2 (WIDTH - 2)).all (fun i => a.pn.getD i 0 == 0) &&
    (a.pn.getD 1 0).toUInt64 == b >>> 32 && (a.pn.getD 0 0).toUInt64 == (b &&& 0xffffffff)

/-- `bits()`: the position of the highest set bit plus one, zero for zero. -/
def bits (a : BaseUint WIDTH) : Nat := bitsLoop a.pn WIDTH

/-- `GetLow64()`. -/
def GetLow64 (a : BaseUint WIDTH) : UInt64 :=
  (a.pn.getD 0 0).toUInt64 ||| ((a.pn.getD 1 0).toUInt64 <<< 32)

/-- `pn[shift / 32] |= (1U << (shift & 31))`: the quotient bit of a pass of
`operator/=`. -/
def setBit (q : BaseUint WIDTH) (shift : Nat) : BaseUint WIDTH :=
  ⟨q.pn.modify (shift / 32) (· ||| (1 <<< (shift % 32).toUInt32)), by simp [q.length_pn]⟩

/-- One pass of `operator/=`: where `num >= div`, subtract and set the
quotient bit `shift`. -/
def divPass (num div q : BaseUint WIDTH) (shift : Nat) : BaseUint WIDTH × BaseUint WIDTH :=
  if num.CompareTo div ≥ 0 then (num.sub div, q.setBit shift) else (num, q)

/-- The loop of `operator/=`, from the pass for bit `shift` down to the pass for
bit 0, with `div >>= 1` between passes. -/
def divLoop : BaseUint WIDTH → BaseUint WIDTH → BaseUint WIDTH → Nat → BaseUint WIDTH
  | num, div, q, 0 => (divPass num div q 0).2
  | num, div, q, shift + 1 =>
    let p := divPass num div q (shift + 1)
    divLoop p.1 (div.shiftRight 1) p.2 shift

/-- `operator/=`, which throws `uint_error` on a zero divisor. -/
def div (a b : BaseUint WIDTH) : Except String (BaseUint WIDTH) :=
  let num_bits := a.bits
  let div_bits := b.bits
  if div_bits = 0 then .error "Division by zero"
  else if div_bits > num_bits then .ok zero
  else
    let shift := num_bits - div_bits
    .ok (divLoop a (b.shiftLeft shift.toUInt32) zero shift)

end BaseUint

end BitcoinAbc
