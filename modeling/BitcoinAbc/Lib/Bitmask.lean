import Mathlib

/-!
# Bit masks as sets of flags

A `uint32_t` used as a set of flags is read only through tests `(flags & f) != 0`.
Two facts about such tests carry every argument that compares runs under two
flag sets:

- a test can only turn on when the set grows (`and_ne_zero_mono`);
- two sets that agree outside a mask `m` answer every test of a flag outside
  `m` the same way (`and_eq_of_agree`).

Both are stated with the algebra of `&&&` only, so they hold for any flags and
any masks, constants or not.

A condition that combines such tests with `&&`, `||` and `!` moves with them:
the `gcongr` lemmas of `Bool` at the end carry an order between two tests to
an order between the conditions built from them.
-/

namespace UInt32

/-- `a` is contained in `b` when `a &&& b = a`: a test that sees a flag in `a`
also sees it in `b`. -/
theorem and_ne_zero_mono {a b f : UInt32} (hsub : a &&& b = a)
    (ha : a &&& f ≠ 0) : b &&& f ≠ 0 := by
  intro hb
  apply ha
  calc a &&& f = (a &&& b) &&& f := by rw [hsub]
    _ = a &&& (b &&& f) := UInt32.and_assoc a b f
    _ = 0 := by rw [hb, UInt32.and_zero]

/-- Two masks that agree outside `m` agree on every flag `f` outside `m`. -/
theorem and_eq_of_agree {a b m f : UInt32} (hagree : a &&& ~~~m = b &&& ~~~m)
    (hf : f &&& ~~~m = f) : a &&& f = b &&& f := by
  calc a &&& f = a &&& (f &&& ~~~m) := by rw [hf]
    _ = (a &&& ~~~m) &&& f := by
      rw [UInt32.and_comm f, ← UInt32.and_assoc]
    _ = (b &&& ~~~m) &&& f := by rw [hagree]
    _ = b &&& (f &&& ~~~m) := by
      rw [UInt32.and_assoc, UInt32.and_comm (~~~m)]
    _ = b &&& f := by rw [hf]

/-- Setting the same flags `f` in two masks keeps `a` contained in `b`. -/
theorem or_subMask {a b f : UInt32} (hsub : a &&& b = a) :
    (a ||| f) &&& (b ||| f) = a ||| f := by
  have h := congrArg UInt32.toBitVec hsub
  apply UInt32.toBitVec_inj.1
  simp only [UInt32.toBitVec_and, UInt32.toBitVec_or] at h ⊢
  ext i hi
  -- compare the two masks one bit at a time
  have hbit := congrArg (fun x => x[i]) h
  simp only [BitVec.getElem_and] at hbit
  simp only [BitVec.getElem_and, BitVec.getElem_or]
  revert hbit
  cases a.toBitVec[i] <;> cases b.toBitVec[i] <;> cases f.toBitVec[i] <;> simp

/-- Setting the same flags `f` in two masks keeps them agreeing outside `m`. -/
theorem or_agree {a b m f : UInt32} (hagree : a &&& ~~~m = b &&& ~~~m) :
    (a ||| f) &&& ~~~m = (b ||| f) &&& ~~~m := by
  have h := congrArg UInt32.toBitVec hagree
  apply UInt32.toBitVec_inj.1
  simp only [UInt32.toBitVec_and, UInt32.toBitVec_or, UInt32.toBitVec_not] at h ⊢
  ext i hi
  have hbit := congrArg (fun x => x[i]) h
  simp only [BitVec.getElem_and, BitVec.getElem_not] at hbit
  simp only [BitVec.getElem_and, BitVec.getElem_or, BitVec.getElem_not]
  revert hbit
  cases a.toBitVec[i] <;> cases b.toBitVec[i] <;> cases f.toBitVec[i] <;>
    cases m.toBitVec[i] <;> simp

/-- Setting flags `f` disjoint from `m` does not change the flags of `m`. -/
theorem or_and_of_and_eq_zero {a f m : UInt32} (hfm : f &&& m = 0) :
    (a ||| f) &&& m = a &&& m := by
  have h := congrArg UInt32.toBitVec hfm
  apply UInt32.toBitVec_inj.1
  simp only [UInt32.toBitVec_and, UInt32.toBitVec_or, UInt32.toBitVec_zero] at h ⊢
  ext i hi
  have hbit := congrArg (fun x => x[i]) h
  simp only [BitVec.getElem_and, BitVec.getElem_zero] at hbit
  simp only [BitVec.getElem_and, BitVec.getElem_or]
  revert hbit
  cases a.toBitVec[i] <;> cases f.toBitVec[i] <;> cases m.toBitVec[i] <;> simp

end UInt32

namespace Bool

attribute [refl] Bool.le_refl

@[gcongr] theorem and_le_and {a b c d : Bool} (hab : a ≤ b) (hcd : c ≤ d) :
    (a && c) ≤ (b && d) := by
  cases a <;> cases b <;> cases c <;> cases d <;> simp_all

@[gcongr] theorem or_le_or {a b c d : Bool} (hab : a ≤ b) (hcd : c ≤ d) :
    (a || c) ≤ (b || d) := by
  cases a <;> cases b <;> cases c <;> cases d <;> simp_all

@[gcongr] theorem not_le_not {a b : Bool} (hab : b ≤ a) : (!a) ≤ (!b) := by
  cases a <;> cases b <;> simp_all

end Bool
