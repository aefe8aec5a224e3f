import Mathlib
import BitcoinAbc.Script.ScriptNum

/-!
# Script numbers as sign-magnitude byte strings (script/script.h, script.cpp)

A script number is written little-endian, magnitude first, with the sign in the
top bit of the last byte: `l ++ [b]` reads as the magnitude
`leValue l + 256 ^ l.length * (b & 0x7f)`, negated when `b & 0x80` is set
(`CScriptNum.set_vch_concat`). The encoding is minimal
(`IsMinimallyEncoded`) when the last byte carries magnitude bits, or when the
byte below it needs its own top bit.

The magnitudes are Mathlib's base-256 digits: `leValue` is `Nat.ofDigits 256`
and `leBytes` is `Nat.digits 256`, so the round trips of the magnitude come
from `Nat.ofDigits_digits` and `Nat.digits_ofDigits`. On top of them:

- `serialize` writes a minimal encoding that reads back as its value
  (`set_vch_serialize`, `IsMinimallyEncoded_serialize`), and a minimal
  encoding is the one `serialize` writes for its value (`serialize_set_vch`);
- `MinimallyEncode` trims an encoding to the minimal one of the same value
  (`MinimallyEncode_cases`, `minimallyEncodeTrim_spec`).
-/

namespace BitcoinAbc

namespace Script

/-! ## Bytes

Facts about single bytes, each checked on all 256 of them. -/

section Bytes

-- `decide` runs through all 256 bytes
set_option maxRecDepth 4000

/-- A statement about every byte, from one about every number below 256. -/
theorem forall_byte {P : UInt8 → Prop} (h : ∀ n < 256, P n.toUInt8) (b : UInt8) : P b := by
  have hb := h b.toNat b.toNat_lt
  simpa using hb

theorem toNat_of_and_0x80_ne_zero {b : UInt8} (h : b &&& 0x80 ≠ 0) :
    b.toNat = 128 + (b &&& 0x7f).toNat :=
  forall_byte (P := fun b => b &&& 0x80 ≠ 0 → b.toNat = 128 + (b &&& 0x7f).toNat)
    (by decide) b h

theorem and_0x7f_of_and_0x80_eq_zero {b : UInt8} (h : b &&& 0x80 = 0) : b &&& 0x7f = b :=
  forall_byte (P := fun b => b &&& 0x80 = 0 → b &&& 0x7f = b) (by decide) b h

theorem or_0x80_and_0x7f (b : UInt8) : (b ||| 0x80) &&& 0x7f = b &&& 0x7f :=
  forall_byte (P := fun b => (b ||| 0x80) &&& 0x7f = b &&& 0x7f) (by decide) b

theorem or_0x80_and_0x80 (b : UInt8) : (b ||| 0x80) &&& 0x80 = 0x80 :=
  forall_byte (P := fun b => (b ||| 0x80) &&& 0x80 = 0x80) (by decide) b

/-- A byte whose low seven bits are clear is `0x00` or `0x80`. -/
theorem eq_zero_or_eq_0x80 {b : UInt8} (h : b &&& 0x7f = 0) : b = 0 ∨ b = 0x80 :=
  forall_byte (P := fun b => b &&& 0x7f = 0 → b = 0 ∨ b = 0x80) (by decide) b h

/-- The low seven bits and the sign bit make up the byte. -/
theorem and_0x7f_or_0x80 {b : UInt8} (h : b &&& 0x80 ≠ 0) : (b &&& 0x7f) ||| 0x80 = b :=
  forall_byte (P := fun b => b &&& 0x80 ≠ 0 → (b &&& 0x7f) ||| 0x80 = b) (by decide) b h

theorem and_0x7f_and_0x80 (b : UInt8) : (b &&& 0x7f) &&& 0x80 = 0 :=
  forall_byte (P := fun b => (b &&& 0x7f) &&& 0x80 = 0) (by decide) b

/-- Setting the bits of a sign byte `last` (`0x00` or `0x80`) in a byte `b`
whose top bit is clear: the low bits are `b`'s, the sign is `last`'s. -/
theorem or_sign_byte {b last : UInt8} (hb : b &&& 0x80 = 0) (hlast : last &&& 0x7f = 0) :
    (b ||| last) &&& 0x7f = b ∧ (b ||| last) &&& 0x80 = last &&& 0x80 := by
  rcases eq_zero_or_eq_0x80 hlast with rfl | rfl
  · rw [UInt8.or_zero, and_0x7f_of_and_0x80_eq_zero hb, hb]
    exact ⟨rfl, rfl⟩
  · rw [or_0x80_and_0x7f, and_0x7f_of_and_0x80_eq_zero hb, or_0x80_and_0x80]
    exact ⟨rfl, rfl⟩

end Bytes

/-! ## Little-endian magnitudes -/

section Magnitudes

theorem leValue_eq_ofDigits (l : List UInt8) :
    leValue l = Nat.ofDigits 256 (l.map UInt8.toNat) := by
  induction l with
  | nil => rfl
  | cons b bs ih => rw [leValue, List.map_cons, Nat.ofDigits_cons, ih]

theorem leBytes_map_toNat (n : Nat) : (leBytes n).map UInt8.toNat = Nat.digits 256 n := by
  induction n using Nat.strong_induction_on with
  | _ n ih =>
    rw [leBytes]
    split
    · rename_i hn
      rw [hn, Nat.digits_zero]
      rfl
    · rename_i hn
      have hlt : n / 256 < n := Nat.div_lt_self (Nat.pos_of_ne_zero hn) (by decide)
      rw [Nat.digits_def' (by decide) (Nat.pos_of_ne_zero hn), List.map_cons, ih (n / 256) hlt]
      congr 1
      simp

theorem leValue_leBytes (n : Nat) : leValue (leBytes n) = n := by
  rw [leValue_eq_ofDigits, leBytes_map_toNat, Nat.ofDigits_digits]

theorem length_leBytes (n : Nat) : (leBytes n).length = (Nat.digits 256 n).length := by
  rw [← leBytes_map_toNat, List.length_map]

theorem length_leBytes_le_iff {n k : Nat} : (leBytes n).length ≤ k ↔ n < 256 ^ k := by
  rw [length_leBytes]
  exact Nat.digits_length_le_iff (by decide) n

/-- The last byte of a non-zero magnitude is not zero. -/
theorem leBytes_getLast_ne_zero {n : Nat} (hn : n ≠ 0) (h : leBytes n ≠ []) :
    (leBytes n).getLast h ≠ 0 := by
  intro hz
  have hd : (Nat.digits 256 n).getLast (Nat.digits_ne_nil_iff_ne_zero.mpr hn) ≠ 0 :=
    Nat.getLast_digit_ne_zero 256 hn
  apply hd
  simp only [← leBytes_map_toNat, List.getLast_map, hz]
  rfl

theorem leBytes_ne_nil {n : Nat} (hn : n ≠ 0) : leBytes n ≠ [] := by
  intro h
  have hl := length_leBytes n
  rw [h, List.length_nil, Nat.length_digits 256 n (by decide) hn] at hl
  omega

/-- Bytes whose last one is not zero are the bytes of their value. -/
theorem leBytes_leValue {l : List UInt8} (h : ∀ hne : l ≠ [], l.getLast hne ≠ 0) :
    leBytes (leValue l) = l := by
  have hdigits : (leBytes (leValue l)).map UInt8.toNat = l.map UInt8.toNat := by
    rw [leBytes_map_toNat, leValue_eq_ofDigits]
    refine Nat.digits_ofDigits 256 (by decide) _ ?_ ?_
    · intro d hd
      obtain ⟨b, -, rfl⟩ := List.mem_map.mp hd
      exact b.toNat_lt
    · intro hne
      rw [List.getLast_map]
      intro hz
      exact h (fun he => hne (by rw [he, List.map_nil])) (UInt8.toNat_inj.mp hz)
  exact List.map_injective_iff.mpr (fun _ _ hab => UInt8.toNat_inj.mp hab) hdigits

theorem leValue_concat (l : List UInt8) (b : UInt8) :
    leValue (l ++ [b]) = leValue l + 256 ^ l.length * b.toNat := by
  induction l with
  | nil => simp [leValue]
  | cons a l ih =>
    rw [List.cons_append, leValue, ih, leValue, List.length_cons, Nat.pow_succ]
    generalize 256 ^ l.length = P
    rw [Nat.mul_add, Nat.mul_comm P 256, Nat.mul_assoc]
    omega

/-- A non-zero magnitude ends in a non-zero byte. -/
theorem leBytes_eq_concat {n : Nat} (hn : n ≠ 0) :
    ∃ init back, leBytes n = init ++ [back] ∧ back ≠ 0 :=
  ⟨(leBytes n).dropLast, (leBytes n).getLast (leBytes_ne_nil hn),
    (List.dropLast_append_getLast (leBytes_ne_nil hn)).symm,
    leBytes_getLast_ne_zero hn (leBytes_ne_nil hn)⟩

end Magnitudes

namespace CScriptNum

/-! ## Reading: `set_vch` -/

/-- The integer of a sign and a magnitude. -/
def signed (neg : Bool) (m : Nat) : Int := if neg then -(m : Int) else m

@[simp] theorem signed_false (m : Nat) : signed false m = m := rfl

@[simp] theorem signed_true (m : Nat) : signed true m = -(m : Int) := rfl

/-- `set_vch` of `l ++ [b]`: the magnitude is `l` with the low seven bits of
`b` on top, the sign is `b`'s top bit. -/
theorem set_vch_concat (l : List UInt8) (b : UInt8) :
    set_vch (l ++ [b]) =
      signed (b &&& 0x80 != 0) (leValue l + 256 ^ l.length * (b &&& 0x7f).toNat) := by
  simp only [set_vch, List.getLast?_concat, leValue_concat, List.length_append,
    List.length_singleton, Nat.add_sub_cancel]
  by_cases hb : b &&& 0x80 = 0
  · rw [and_0x7f_of_and_0x80_eq_zero hb, hb]
    rfl
  · -- the sign bit is removed from the magnitude
    have hsign : (b &&& 0x80 != 0) = true := bne_iff_ne.mpr hb
    rw [if_pos hsign, hsign, signed_true, toNat_of_and_0x80_ne_zero hb]
    congr 2
    generalize 256 ^ l.length = P
    rw [Nat.mul_add]
    omega

/-! ## Minimality -/

theorem IsMinimallyEncoded_nil (n : Nat) : IsMinimallyEncoded [] n = true := rfl

theorem length_le_of_IsMinimallyEncoded {x : valtype} {n : Nat}
    (h : IsMinimallyEncoded x n = true) : x.length ≤ n := by
  unfold IsMinimallyEncoded at h
  split at h
  · cases h
  · omega

/-- Within the size limit, `l ++ [b]` is minimal exactly when its last byte
carries magnitude bits or the byte below it has its top bit set. -/
theorem IsMinimallyEncoded_concat {l : List UInt8} {b : UInt8} {n : Nat}
    (hn : l.length + 1 ≤ n) :
    IsMinimallyEncoded (l ++ [b]) n = true ↔
      b &&& 0x7f ≠ 0 ∨ ∃ l' c, l = l' ++ [c] ∧ c &&& 0x80 ≠ 0 := by
  have hlen : ¬(l ++ [b]).length > n := by simp; omega
  simp only [IsMinimallyEncoded, if_neg hlen, List.getLast?_concat]
  by_cases hb : b &&& 0x7f = 0
  · rw [if_pos hb]
    simp only [hb, ne_eq, not_true_eq_false, false_or]
    rcases List.eq_nil_or_concat l with rfl | ⟨l', c, rfl⟩
    · simp
    · -- the byte below the last one is `c`
      have hc : (l' ++ [c] ++ [b]).getD ((l' ++ [c] ++ [b]).length - 2) 0 = c := by
        simp
      rw [List.concat_eq_append, hc]
      simp
  · rw [if_neg hb]
    simp [hb]

/-- Minimality does not depend on the size limit, once the limit admits the
bytes. -/
theorem IsMinimallyEncoded_of_le {x : valtype} {m n : Nat} (h : IsMinimallyEncoded x m = true)
    (hn : x.length ≤ n) : IsMinimallyEncoded x n = true := by
  rcases List.eq_nil_or_concat x with rfl | ⟨l, b, rfl⟩
  · rfl
  · have hm := length_le_of_IsMinimallyEncoded h
    rw [List.concat_eq_append, List.length_append, List.length_singleton] at hm hn
    rw [List.concat_eq_append] at h ⊢
    rw [IsMinimallyEncoded_concat hm] at h
    rw [IsMinimallyEncoded_concat hn]
    exact h

/-! ## Writing: `serialize` -/

/-- `serialize` of a non-zero value, by the top bit of the last magnitude
byte: a sign byte is appended, or the sign is set in the last byte. -/
theorem serialize_of_ne_zero {v : Int} (hv : v ≠ 0) {init : List UInt8} {back : UInt8}
    (hbytes : leBytes v.natAbs = init ++ [back]) :
    serialize v =
      if back &&& 0x80 = 0 then
        (if v < 0 then init ++ [back ||| 0x80] else init ++ [back])
      else init ++ [back] ++ [if v < 0 then 0x80 else 0] := by
  rw [serialize, if_neg hv]
  simp only [hbytes, List.getLast?_concat, List.dropLast_concat]
  by_cases hb : back &&& 0x80 = 0
  · simp [hb]
  · simp [hb]

theorem set_vch_serialize (v : Int) : set_vch (serialize v) = v := by
  by_cases hv : v = 0
  · rw [hv]
    rfl
  obtain ⟨init, back, hbytes, -⟩ := leBytes_eq_concat (Int.natAbs_ne_zero.mpr hv)
  have hmag : leValue init + 256 ^ init.length * back.toNat = v.natAbs := by
    rw [← leValue_concat, ← hbytes, leValue_leBytes]
  rw [serialize_of_ne_zero hv hbytes]
  by_cases hb : back &&& 0x80 = 0
  · rw [if_pos hb]
    by_cases hneg : v < 0
    · -- the sign set in the last byte
      rw [if_pos hneg, set_vch_concat, or_0x80_and_0x7f, and_0x7f_of_and_0x80_eq_zero hb,
        or_0x80_and_0x80, hmag]
      simp only [show ((0x80 : UInt8) != 0) = true from rfl, signed_true]
      omega
    · rw [if_neg hneg, set_vch_concat, and_0x7f_of_and_0x80_eq_zero hb, hb, hmag]
      simp only [show ((0 : UInt8) != 0) = false from rfl, signed_false]
      omega
  · -- a sign byte above the magnitude
    rw [if_neg hb, set_vch_concat, leValue_concat, hmag]
    by_cases hneg : v < 0
    · rw [if_pos hneg]
      simp only [show ((0x80 : UInt8) &&& 0x80 != 0) = true from rfl,
        show ((0x80 : UInt8) &&& 0x7f) = 0 from rfl, signed_true]
      simp only [UInt8.toNat_zero, Nat.mul_zero, Nat.add_zero]
      omega
    · rw [if_neg hneg]
      simp only [show ((0 : UInt8) &&& 0x80 != 0) = false from rfl,
        show ((0 : UInt8) &&& 0x7f) = 0 from rfl, signed_false]
      simp only [UInt8.toNat_zero, Nat.mul_zero, Nat.add_zero]
      omega

theorem IsMinimallyEncoded_serialize (v : Int) :
    IsMinimallyEncoded (serialize v) (serialize v).length = true := by
  by_cases hv : v = 0
  · rw [hv]
    rfl
  obtain ⟨init, back, hbytes, hback⟩ := leBytes_eq_concat (Int.natAbs_ne_zero.mpr hv)
  rw [serialize_of_ne_zero hv hbytes]
  split
  · -- the last byte carries the top magnitude byte
    rename_i hb
    have hlow : back &&& 0x7f ≠ 0 := by rwa [and_0x7f_of_and_0x80_eq_zero hb]
    split
    · exact (IsMinimallyEncoded_concat (by simp)).mpr (.inl (by rwa [or_0x80_and_0x7f]))
    · exact (IsMinimallyEncoded_concat (by simp)).mpr (.inl hlow)
  · -- the sign byte stands on a byte whose top bit is set
    rename_i hb
    exact (IsMinimallyEncoded_concat (by simp)).mpr (.inr ⟨init, back, rfl, hb⟩)

/-- A value below `128 * 256 ^ k` in magnitude takes at most `k + 1` bytes. -/
theorem length_serialize_le {v : Int} {k : Nat} (h : v.natAbs < 128 * 256 ^ k) :
    (serialize v).length ≤ k + 1 := by
  by_cases hv : v = 0
  · rw [hv]
    exact Nat.zero_le _
  obtain ⟨init, back, hbytes, -⟩ := leBytes_eq_concat (Int.natAbs_ne_zero.mpr hv)
  have hmag : leValue init + 256 ^ init.length * back.toNat = v.natAbs := by
    rw [← leValue_concat, ← hbytes, leValue_leBytes]
  -- the magnitude bytes fit in `k + 1`
  have hfit : init.length + 1 ≤ k + 1 := by
    have hlt : v.natAbs < 256 ^ (k + 1) := by rw [Nat.pow_succ]; omega
    have hle := length_leBytes_le_iff.mpr hlt
    rwa [hbytes, List.length_append, List.length_singleton] at hle
  rw [serialize_of_ne_zero hv hbytes]
  split
  · split <;> simpa using hfit
  · -- a top byte of at least `0x80` leaves room for the sign byte
    rename_i hb
    have hback : 128 ≤ back.toNat := by rw [toNat_of_and_0x80_ne_zero hb]; omega
    have hpow : 128 * 256 ^ init.length < 128 * 256 ^ k := by
      calc 128 * 256 ^ init.length ≤ 256 ^ init.length * back.toNat := by
            rw [Nat.mul_comm]
            exact Nat.mul_le_mul_left _ hback
        _ ≤ v.natAbs := by omega
        _ < 128 * 256 ^ k := h
    have hk : init.length < k :=
      (Nat.pow_lt_pow_iff_right (by decide)).mp (Nat.lt_of_mul_lt_mul_left hpow)
    simp only [List.length_append, List.length_singleton]
    omega

/-- A minimal encoding is the one `serialize` writes for its value. -/
theorem serialize_set_vch {x : valtype} (h : IsMinimallyEncoded x x.length = true) :
    serialize (set_vch x) = x := by
  rcases List.eq_nil_or_concat x with rfl | ⟨l, b, rfl⟩
  · rfl
  rw [List.concat_eq_append] at h ⊢
  rw [IsMinimallyEncoded_concat (by simp)] at h
  rw [set_vch_concat]
  by_cases hlow : b &&& 0x7f = 0
  · -- a sign byte: the byte below it is the top magnitude byte
    obtain ⟨l', c, rfl, hc⟩ := h.resolve_left (not_not.mpr hlow)
    have hc0 : c ≠ 0 := by
      rintro rfl
      exact hc rfl
    have hbytes : leBytes (leValue (l' ++ [c])) = l' ++ [c] :=
      leBytes_leValue fun _ => by rwa [List.getLast_concat]
    have hpos : leValue (l' ++ [c]) ≠ 0 := by
      intro h0
      rw [h0] at hbytes
      simp [leBytes] at hbytes
    rw [hlow, UInt8.toNat_zero, Nat.mul_zero, Nat.add_zero]
    rcases eq_zero_or_eq_0x80 hlow with rfl | rfl
    · have hv : signed ((0 : UInt8) &&& 0x80 != 0) (leValue (l' ++ [c])) ≠ 0 := by
        simpa using hpos
      rw [serialize_of_ne_zero hv (by simpa using hbytes), if_neg hc]
      simp
    · have hv : signed ((0x80 : UInt8) &&& 0x80 != 0) (leValue (l' ++ [c])) ≠ 0 := by
        simpa using hpos
      rw [serialize_of_ne_zero hv (by simpa using hbytes), if_neg hc]
      simp only [show ((0x80 : UInt8) &&& 0x80 != 0) = true from rfl, signed_true]
      have hneg : -((leValue (l' ++ [c]) : Nat) : Int) < 0 := by omega
      rw [if_pos hneg]
  · -- the last byte carries magnitude bits
    have hbytes : leBytes (leValue (l ++ [b &&& 0x7f])) = l ++ [b &&& 0x7f] :=
      leBytes_leValue fun _ => by rwa [List.getLast_concat]
    rw [leValue_concat] at hbytes
    have hpos : 0 < leValue l + 256 ^ l.length * (b &&& 0x7f).toNat := by
      have hc : 0 < (b &&& 0x7f).toNat :=
        Nat.pos_of_ne_zero fun h0 => hlow (UInt8.toNat_inj.mp h0)
      have hp : 0 < 256 ^ l.length := Nat.pow_pos (by decide)
      have := Nat.mul_pos hp hc
      omega
    generalize leValue l + 256 ^ l.length * (b &&& 0x7f).toNat = m at hbytes hpos ⊢
    by_cases hsign : b &&& 0x80 = 0
    · have hv : (b &&& 0x80 != 0) = false := by simp [hsign]
      have habs : leBytes (m : Int).natAbs = l ++ [b &&& 0x7f] := by
        rw [Int.natAbs_natCast]
        exact hbytes
      rw [hv, signed_false, serialize_of_ne_zero (by omega) habs,
        if_pos (and_0x7f_and_0x80 b), if_neg (by omega), and_0x7f_of_and_0x80_eq_zero hsign]
    · have hv : (b &&& 0x80 != 0) = true := bne_iff_ne.mpr hsign
      have habs : leBytes (-(m : Int)).natAbs = l ++ [b &&& 0x7f] := by
        rw [Int.natAbs_neg, Int.natAbs_natCast]
        exact hbytes
      rw [hv, signed_true, serialize_of_ne_zero (by omega) habs,
        if_pos (and_0x7f_and_0x80 b), if_pos (by omega), and_0x7f_or_0x80 hsign]

/-- Every `int64_t` other than `INT64_MIN` has a magnitude below `2^63`. -/
theorem natAbs_lt_of_inInt64 {v : Int} (h : inInt64 v = true) (hmin : v ≠ INT64_MIN) :
    v.natAbs < 128 * 256 ^ 7 := by
  rw [inInt64_iff] at h
  unfold INT64_MIN at hmin
  omega

/-- The round trip of `CScriptNum` on 8-byte numbers: every `int64_t` but
`INT64_MIN` serializes to at most 8 bytes, minimally, that read back as it; and
a minimal encoding of at most 8 bytes is the serialization of what it reads
as. -/
theorem serialize_set_vch_roundTrip :
    (∀ v : Int, inInt64 v = true → v ≠ INT64_MIN →
      (serialize v).length ≤ 8 ∧ IsMinimallyEncoded (serialize v) 8 = true ∧
        set_vch (serialize v) = v) ∧
    (∀ x : valtype, x.length ≤ 8 → IsMinimallyEncoded x 8 = true →
      serialize (set_vch x) = x) := by
  constructor
  · intro v hv hmin
    have hlen : (serialize v).length ≤ 8 := length_serialize_le (natAbs_lt_of_inInt64 hv hmin)
    exact ⟨hlen, IsMinimallyEncoded_of_le (IsMinimallyEncoded_serialize v) hlen,
      set_vch_serialize v⟩
  · intro x _ hmin
    exact serialize_set_vch (IsMinimallyEncoded_of_le hmin (Nat.le_refl _))

/-- `-255` serializes to `ff 80`, at most 8 bytes, minimally, that read back
as it; and `ff 80`, minimal, is the serialization of what it reads as. -/
theorem serialize_set_vch_roundTrip_minus255 :
    serialize (-255) = [0xff, 0x80] ∧
      ((serialize (-255)).length ≤ 8 ∧ IsMinimallyEncoded (serialize (-255)) 8 = true ∧
        set_vch (serialize (-255)) = -255) ∧
      set_vch [0xff, 0x80] = -255 ∧ serialize (set_vch [0xff, 0x80]) = [0xff, 0x80] :=
  ⟨by simp +decide [serialize, leBytes], serialize_set_vch_roundTrip.1 (-255) (by decide) (by decide),
    by decide, serialize_set_vch_roundTrip.2 [0xff, 0x80] (by decide) (by decide)⟩

/-! ## `MinimallyEncode`

The trimming loop reads only the bytes below the sign byte, from the top down.
Run on `d` with the sign byte `last` (`0x00` or `0x80`), it drops the zero bytes
at the top of `d` and puts the sign on what is left: into the top byte where
that byte's top bit is free, or as a byte of its own above it
(`minimallyEncodeTrim_spec`). -/

/-- The loop at `i` reads only the first `i` bytes. -/
theorem minimallyEncodeTrim_append (d e : valtype) (last : UInt8) :
    ∀ k, k ≤ d.length → minimallyEncodeTrim (d ++ e) last k = minimallyEncodeTrim d last k
  | 0, _ => rfl
  | k + 1, hk => by
    have hget : (d ++ e).getD k 0 = d.getD k 0 := List.getD_append _ _ _ _ (by omega)
    simp only [minimallyEncodeTrim, hget, List.take_append_of_le_length hk,
      List.take_append_of_le_length (Nat.le_of_succ_le hk),
      minimallyEncodeTrim_append d e last k (Nat.le_of_succ_le hk)]

/-- One turn of the loop, at the top byte `b` of `d ++ [b]`. -/
theorem minimallyEncodeTrim_concat (d : valtype) (b last : UInt8) :
    minimallyEncodeTrim (d ++ [b]) last (d.length + 1) =
      if b = 0 then minimallyEncodeTrim d last d.length
      else if b &&& 0x80 = 0 then d ++ [b ||| last]
      else d ++ [b] ++ [last] := by
  have hget : (d ++ [b]).getD d.length 0 = b := by simp
  have htake : (d ++ [b]).take (d.length + 1) = d ++ [b] := by simp
  have htake' : (d ++ [b]).take d.length = d := by simp
  rw [minimallyEncodeTrim, hget, htake, htake',
    minimallyEncodeTrim_append d [b] last d.length (Nat.le_refl _)]
  by_cases hb : b = 0
  · simp [hb]
  · by_cases hsign : b &&& 0x80 = 0 <;> simp [hb, hsign]

/-- What the trimming loop makes of `d` and the sign byte `last`: an encoding
of the same value that is minimal, at most one byte longer than `d`, and no
longer than `d` when `d`'s top byte has its top bit clear. -/
theorem minimallyEncodeTrim_spec {last : UInt8} (hlast : last &&& 0x7f = 0) (d : valtype) :
    set_vch (minimallyEncodeTrim d last d.length) = signed (last &&& 0x80 != 0) (leValue d) ∧
      IsMinimallyEncoded (minimallyEncodeTrim d last d.length)
        (minimallyEncodeTrim d last d.length).length = true ∧
      (minimallyEncodeTrim d last d.length).length ≤ d.length + 1 ∧
      ((∀ c ∈ d.getLast?, c &&& 0x80 = 0) →
        (minimallyEncodeTrim d last d.length).length ≤ d.length) := by
  induction d using List.reverseRecOn with
  | nil =>
    refine ⟨?_, rfl, Nat.zero_le _, fun _ => Nat.le_refl _⟩
    cases (last &&& 0x80 != 0) <;> rfl
  | append_singleton d b ih =>
    obtain ⟨hval, hmin, hlen, hlen'⟩ := ih
    rw [List.length_append, List.length_singleton, minimallyEncodeTrim_concat]
    by_cases hb : b = 0
    · -- a zero top byte is dropped
      rw [if_pos hb, hval, leValue_concat, hb]
      refine ⟨by simp, hmin, by omega, fun _ => hlen⟩
    rw [if_neg hb]
    by_cases hsign : b &&& 0x80 = 0
    · -- the sign goes into the top byte
      obtain ⟨hlow, hsign'⟩ := or_sign_byte hsign hlast
      rw [if_pos hsign]
      refine ⟨?_, ?_, by simp, fun _ => by simp⟩
      · rw [set_vch_concat, hlow, hsign', leValue_concat]
      · exact (IsMinimallyEncoded_concat (by simp)).mpr (.inl (by rwa [hlow]))
    · -- the sign needs a byte of its own
      rw [if_neg hsign]
      refine ⟨?_, ?_, by simp, fun h => absurd (h b (by simp)) hsign⟩
      · rw [set_vch_concat, hlast, UInt8.toNat_zero, Nat.mul_zero, Nat.add_zero]
      · exact (IsMinimallyEncoded_concat (by simp)).mpr (.inr ⟨d, b, rfl, hsign⟩)

/-- `MinimallyEncode` either leaves a minimal encoding alone, or trims an
encoding whose sign byte `last` carries no magnitude bits and stands on a byte
whose top bit is clear. -/
theorem MinimallyEncode_cases (data : valtype) :
    (IsMinimallyEncoded data data.length = true ∧ MinimallyEncode data = (false, data)) ∨
      ∃ d last, data = d ++ [last] ∧ last &&& 0x7f = 0 ∧ (∀ c ∈ d.getLast?, c &&& 0x80 = 0) ∧
        MinimallyEncode data = (true, minimallyEncodeTrim d last d.length) := by
  rcases List.eq_nil_or_concat data with rfl | ⟨d, last, rfl⟩
  · exact .inl ⟨rfl, rfl⟩
  rw [List.concat_eq_append]
  by_cases hlow : last &&& 0x7f = 0
  · rcases List.eq_nil_or_concat d with rfl | ⟨d', c, rfl⟩
    · -- a lone sign byte reads as zero
      refine .inr ⟨[], last, rfl, hlow, by simp, ?_⟩
      simp [MinimallyEncode, hlow, minimallyEncodeTrim]
    rw [List.concat_eq_append]
    have hc : (d' ++ [c] ++ [last]).getD ((d' ++ [c] ++ [last]).length - 2) 0 = c := by simp
    by_cases hsign : c &&& 0x80 = 0
    · refine .inr ⟨d' ++ [c], last, rfl, hlow, by simp [hsign], ?_⟩
      have hlen : (d' ++ [c] ++ [last]).length - 1 = (d' ++ [c]).length := by simp
      simp only [MinimallyEncode, List.getLast?_concat, hlow, hc, hsign, hlen,
        minimallyEncodeTrim_append (d' ++ [c]) [last] last _ (Nat.le_refl _)]
      simp
    · refine .inl ⟨(IsMinimallyEncoded_concat (by simp)).mpr (.inr ⟨d', c, rfl, hsign⟩), ?_⟩
      simp [MinimallyEncode, hlow, hsign]
  · refine .inl ⟨(IsMinimallyEncoded_concat (by simp)).mpr (.inl hlow), ?_⟩
    simp [MinimallyEncode, hlow]

/-- A minimal encoding is left alone. -/
theorem MinimallyEncode_of_minimal {x : valtype} (h : IsMinimallyEncoded x x.length = true) :
    MinimallyEncode x = (false, x) := by
  rcases MinimallyEncode_cases x with ⟨-, hx⟩ | ⟨d, last, rfl, hlow, htop, -⟩
  · exact hx
  · -- a minimal encoding whose sign byte carries no magnitude has a top bit below it
    rw [IsMinimallyEncoded_concat (by simp)] at h
    obtain ⟨d', c, rfl, hc⟩ := h.resolve_left (not_not.mpr hlow)
    exact absurd (htop c (by simp)) hc

/-- The result of `MinimallyEncode` is minimal, reads as the input, is no
longer than it, and differs from it exactly when the returned flag is set. -/
theorem MinimallyEncode_spec (data : valtype) :
    IsMinimallyEncoded (MinimallyEncode data).2 (MinimallyEncode data).2.length = true ∧
      set_vch (MinimallyEncode data).2 = set_vch data ∧
      (MinimallyEncode data).2.length ≤ data.length ∧
      ((MinimallyEncode data).1 = true ↔ (MinimallyEncode data).2 ≠ data) := by
  rcases MinimallyEncode_cases data with ⟨hmin, hx⟩ | ⟨d, last, rfl, hlow, htop, hx⟩
  · rw [hx]
    exact ⟨hmin, rfl, Nat.le_refl _, by simp⟩
  · obtain ⟨hval, hmin, -, hlen⟩ := minimallyEncodeTrim_spec hlow d
    -- the trimmed encoding is shorter, so it is a change
    have hshort : (minimallyEncodeTrim d last d.length).length < (d ++ [last]).length := by
      rw [List.length_append, List.length_singleton]
      exact Nat.lt_succ_of_le (hlen htop)
    rw [hx]
    refine ⟨hmin, ?_, Nat.le_of_lt hshort, ?_⟩
    · rw [hval, set_vch_concat, hlow, UInt8.toNat_zero, Nat.mul_zero, Nat.add_zero]
    · simp only [true_iff]
      intro he
      rw [he] at hshort
      exact Nat.lt_irrefl _ hshort

/-- `MinimallyEncode` normalises without changing the value: its result is
minimal under every size limit that admits it, reads as the input (negative
zero as zero), is no longer than the input, differs from it exactly when the
returned flag is set, is the serialization of the input's value, and is left
alone by a second call. -/
theorem MinimallyEncode_normalizes (data : valtype) :
    (∀ n, (MinimallyEncode data).2.length ≤ n →
        IsMinimallyEncoded (MinimallyEncode data).2 n = true) ∧
      set_vch (MinimallyEncode data).2 = set_vch data ∧
      (MinimallyEncode data).2.length ≤ data.length ∧
      ((MinimallyEncode data).1 = true ↔ (MinimallyEncode data).2 ≠ data) ∧
      (data.length ≤ 8 → (MinimallyEncode data).2 = serialize (set_vch data)) ∧
      MinimallyEncode (MinimallyEncode data).2 = (false, (MinimallyEncode data).2) := by
  obtain ⟨hmin, hval, hlen, hflag⟩ := MinimallyEncode_spec data
  refine ⟨fun n hn => IsMinimallyEncoded_of_le hmin hn, hval, hlen, hflag, fun _ => ?_,
    MinimallyEncode_of_minimal hmin⟩
  rw [← hval, serialize_set_vch hmin]

end CScriptNum

end Script

end BitcoinAbc
