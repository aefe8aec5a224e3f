import Mathlib
import BitcoinAbc.Lib.Regroup
import BitcoinAbc.Util.MoneyStr

/-!
# Base64 and base32 (util/strencodings.h, util/strencodings.cpp)

`ConvertBits<frombits, tobits, pad>` reads values of `frombits` bits and
writes values of `tobits` bits, the same bits cut differently; the encoders
turn bytes into 6- or 5-bit values and look them up in an alphabet, the
decoders read the alphabet back through a table and turn the values into
bytes.

- `ConvertState.Holds`: after some input values, the output and the pending
  low bits of `acc` hold exactly their bits; `Holds.push` is one pass of the
  outer loop, `holds_foldl` the whole loop;
- `ConvertBits_pad_iff`: with padding, the output is the regrouping of the
  input with fewer than `tobits` zero bits added (`Regroup.Regrouped`);
- `ConvertBits_nopad_iff`: without, `ConvertBits` succeeds exactly on the
  regroupings of what it outputs with fewer than `frombits` zero bits, so a
  padded conversion is undone by the unpadded one the other way
  (`ConvertBits_nopad_pad`);
- `ConvertBits_nopad_pad_zeros`: to more bits, the padding may hold whole
  values of `frombits` bits, which the conversion back reads as zeros;
  `ConvertBits_nopad_ok_iff`: an unpadded conversion succeeds exactly on the
  outputs of padded ones the other way;
- `CodeTable`: an alphabet and a table that reads it back; the base64 and
  base32 tables of the source are ones (`base64Table`, `base32Table`);
- `decodeBaseN_encodeBaseN`, `encodeBaseN_decodeBaseN`: over any such table,
  decoding inverts encoding, and a text the decoder accepts is the encoding
  of what it reads, once the table's identifications (capitals, for base32)
  are undone.
-/

namespace BitcoinAbc

open Regroup

/-! ## `ConvertBits` -/

/-- What `ConvertBits` keeps between two input values: `acc`, `bits`, and the
values passed to `outfn` so far. -/
structure ConvertState where
  acc : Nat
  bits : Nat
  out : List Nat

namespace ConvertState

/-- The inner loop, `while (bits >= tobits) { bits -= tobits;
outfn((acc >> bits) & maxv); }`. `tobits` is `5`, `6` or `8` in every
instance; with `0` the loop of the source would not end. -/
def drain (tobits : Nat) (s : ConvertState) : ConvertState :=
  if _h : 0 < tobits ∧ tobits ≤ s.bits then
    drain tobits ⟨s.acc, s.bits - tobits, s.out ++ [(s.acc >>> (s.bits - tobits)) &&& ((1 <<< tobits) - 1)]⟩
  else s
termination_by s.bits
decreasing_by omega

/-- One pass of the outer loop: `acc = ((acc << frombits) | *it) & max_acc;
bits += frombits;` and the inner loop. `acc` stays below
`2 ^ (frombits + tobits - 1)`, so no shift of a `size_t` overflows for the
widths the source uses. -/
def push (frombits tobits : Nat) (s : ConvertState) (v : Nat) : ConvertState :=
  drain tobits ⟨((s.acc <<< frombits) ||| v) &&& ((1 <<< (frombits + tobits - 1)) - 1),
    s.bits + frombits, s.out⟩

end ConvertState

/-- `ConvertBits<frombits, tobits, pad>(outfn, it, end)`: the values passed to
`outfn`, and the result. With `pad`, the last bits are flushed filled up with
zeros; without, the conversion fails when a whole input value or a non-zero
bit is left over. -/
def ConvertBits (frombits tobits : Nat) (pad : Bool) (input : List Nat) : List Nat × Bool :=
  let maxv := (1 <<< tobits) - 1
  let s := input.foldl (ConvertState.push frombits tobits) ⟨0, 0, []⟩
  if pad then
    (if s.bits ≠ 0 then s.out ++ [(s.acc <<< (tobits - s.bits)) &&& maxv] else s.out, true)
  else if s.bits ≥ frombits ∨ (s.acc <<< (tobits - s.bits)) &&& maxv ≠ 0 then (s.out, false)
  else (s.out, true)

/-! ## The bits `ConvertBits` holds -/

namespace ConvertState

variable {f t : Nat}

/-- After the input values `xs`, the values passed to `outfn` followed by the
low `bits` bits of `acc` are the bits of `xs`, and fewer than `tobits` bits
are pending. -/
structure Holds (f t : Nat) (xs : List Nat) (s : ConvertState) : Prop where
  bits_lt : s.bits < t
  digits : ∀ y ∈ s.out, y < 2 ^ t
  length : t * s.out.length + s.bits = f * xs.length
  value : valBE (2 ^ t) s.out * 2 ^ s.bits + s.acc % 2 ^ s.bits = valBE (2 ^ f) xs

/-- The inner loop writes the top `tobits` of the pending bits while there
are that many, and keeps the rest pending. -/
theorem drain_spec (ht : 0 < t) (acc : Nat) : ∀ (bits : Nat) (out : List Nat), ∃ ds,
    drain t ⟨acc, bits, out⟩ = ⟨acc, bits % t, out ++ ds⟩ ∧ (∀ d ∈ ds, d < 2 ^ t) ∧
      t * ds.length + bits % t = bits ∧
      valBE (2 ^ t) ds * 2 ^ (bits % t) + acc % 2 ^ (bits % t) = acc % 2 ^ bits := by
  intro bits
  induction bits using Nat.strong_induction_on with
  | _ bits ih =>
    intro out
    rw [drain]
    by_cases hb : t ≤ bits
    · rw [dif_pos ⟨ht, hb⟩]
      -- the digit written is the top `t` of the `bits` pending bits
      have hd : (acc >>> (bits - t)) &&& ((1 <<< t) - 1) = acc / 2 ^ (bits - t) % 2 ^ t := by
        rw [Nat.one_shiftLeft, Nat.and_two_pow_sub_one_eq_mod, Nat.shiftRight_eq_div_pow]
      obtain ⟨ds, hdrain, hds, hlen, hval⟩ := ih (bits - t) (by omega) (out ++ [acc / 2 ^ (bits - t) % 2 ^ t])
      have hmod : (bits - t) % t = bits % t := (Nat.mod_eq_sub_mod hb).symm
      rw [hmod] at hdrain hlen hval
      refine ⟨acc / 2 ^ (bits - t) % 2 ^ t :: ds, by rw [hd, hdrain, List.append_assoc]; rfl, ?_, ?_, ?_⟩
      · intro d hd'
        rcases List.mem_cons.mp hd' with rfl | hd'
        · exact Nat.mod_lt _ (Nat.two_pow_pos t)
        · exact hds d hd'
      · rw [List.length_cons, Nat.mul_succ]
        omega
      · have hsplit : 2 ^ bits = 2 ^ (bits - t) * 2 ^ t := by
          rw [← Nat.pow_add, Nat.sub_add_cancel hb]
        have hpow : (2 ^ t) ^ ds.length * 2 ^ (bits % t) = 2 ^ (bits - t) := by
          rw [← Nat.pow_mul, ← Nat.pow_add, hlen]
        calc valBE (2 ^ t) (acc / 2 ^ (bits - t) % 2 ^ t :: ds) * 2 ^ (bits % t) + acc % 2 ^ (bits % t)
            = acc / 2 ^ (bits - t) % 2 ^ t * ((2 ^ t) ^ ds.length * 2 ^ (bits % t)) +
                (valBE (2 ^ t) ds * 2 ^ (bits % t) + acc % 2 ^ (bits % t)) := by
              rw [valBE_cons]
              ring
          _ = acc % 2 ^ (bits - t) + 2 ^ (bits - t) * (acc / 2 ^ (bits - t) % 2 ^ t) := by
              rw [hpow, hval]
              ring
          _ = acc % 2 ^ bits := by rw [hsplit, Nat.mod_mul]
    · have hlt : bits < t := by omega
      rw [dif_neg fun h => hb h.2, Nat.mod_eq_of_lt hlt]
      exact ⟨[], by simp, by simp, by simp, by simp⟩

/-- One pass of the outer loop keeps `Holds`. -/
theorem Holds.push (ht : 0 < t) {xs : List Nat} {s : ConvertState} (hs : Holds f t xs s) {v : Nat}
    (hv : v < 2 ^ f) : Holds f t (xs ++ [v]) (s.push f t v) := by
  -- the new `acc` keeps the low `f + t - 1` bits of the shifted value, enough
  -- for the `bits + f` pending ones
  have hacc : ((s.acc <<< f) ||| v) &&& ((1 <<< (f + t - 1)) - 1) = (s.acc * 2 ^ f + v) % 2 ^ (f + t - 1) := by
    rw [← Nat.shiftLeft_add_eq_or_of_lt hv, Nat.one_shiftLeft, Nat.and_two_pow_sub_one_eq_mod, Nat.shiftLeft_eq]
  have hlow : (s.acc * 2 ^ f + v) % 2 ^ (f + t - 1) % 2 ^ (s.bits + f) = s.acc % 2 ^ s.bits * 2 ^ f + v := by
    rw [Nat.mod_mod_of_dvd _ (Nat.pow_dvd_pow 2 (by have := hs.bits_lt; omega)), mul_two_pow_add_mod hv]
  obtain ⟨ds, hdrain, hds, hlen, hval⟩ := drain_spec ht ((s.acc * 2 ^ f + v) % 2 ^ (f + t - 1)) (s.bits + f) s.out
  unfold ConvertState.push
  rw [hacc, hdrain]
  refine ⟨Nat.mod_lt _ ht, fun y hy => ?_, ?_, ?_⟩
  · rcases List.mem_append.mp hy with hy | hy
    · exact hs.digits y hy
    · exact hds y hy
  · have := hs.length
    simp only [List.length_append, List.length_singleton, Nat.mul_add, Nat.mul_one]
    omega
  · have hpow : (2 ^ t) ^ ds.length * 2 ^ ((s.bits + f) % t) = 2 ^ s.bits * 2 ^ f := by
      rw [← Nat.pow_mul, ← Nat.pow_add, hlen, Nat.pow_add]
    calc valBE (2 ^ t) (s.out ++ ds) * 2 ^ ((s.bits + f) % t) + (s.acc * 2 ^ f + v) % 2 ^ (f + t - 1) % 2 ^ ((s.bits + f) % t)
        = valBE (2 ^ t) s.out * ((2 ^ t) ^ ds.length * 2 ^ ((s.bits + f) % t)) +
            (valBE (2 ^ t) ds * 2 ^ ((s.bits + f) % t) +
              (s.acc * 2 ^ f + v) % 2 ^ (f + t - 1) % 2 ^ ((s.bits + f) % t)) := by
          rw [valBE_append]
          ring
      _ = (valBE (2 ^ t) s.out * 2 ^ s.bits + s.acc % 2 ^ s.bits) * 2 ^ f + v := by
          rw [hpow, hval, hlow]
          ring
      _ = valBE (2 ^ f) (xs ++ [v]) := by rw [hs.value, valBE_append_singleton]

/-- The outer loop, over input values of `f` bits. -/
theorem holds_foldl (ht : 0 < t) : ∀ (xs : List Nat), (∀ x ∈ xs, x < 2 ^ f) →
    Holds f t xs (xs.foldl (push f t) ⟨0, 0, []⟩) := by
  intro xs
  induction xs using List.reverseRecOn with
  | nil => exact fun _ => ⟨ht, by simp, by simp, by simp⟩
  | append_singleton xs v ih =>
    intro h
    rw [List.foldl_append, List.foldl_cons, List.foldl_nil]
    exact (ih fun x hx => h x (by simp [hx])).push ht (h v (by simp))

end ConvertState

/-- The last value of a padded conversion, and the test of an unpadded one:
the pending bits shifted to the top of `tobits`. -/
theorem shiftLeft_and_maxv {b t : Nat} (hb : b ≤ t) (acc : Nat) :
    (acc <<< (t - b)) &&& ((1 <<< t) - 1) = acc % 2 ^ b * 2 ^ (t - b) := by
  have hsplit : 2 ^ t = 2 ^ b * 2 ^ (t - b) := by rw [← Nat.pow_add, Nat.add_sub_cancel' hb]
  rw [Nat.one_shiftLeft, Nat.and_two_pow_sub_one_eq_mod, Nat.shiftLeft_eq, hsplit, Nat.mul_mod_mul_right]

section ConvertBits

variable {f t : Nat} {xs ys : List Nat}

theorem ConvertBits_pad (ht : 0 < t) (hxs : ∀ x ∈ xs, x < 2 ^ f) :
    ∃ p, p < t ∧ Regrouped f t xs (ConvertBits f t true xs).1 p ∧ (ConvertBits f t true xs).2 = true := by
  have hs := ConvertState.holds_foldl ht xs hxs
  set s := xs.foldl (ConvertState.push f t) ⟨0, 0, []⟩ with hs_def
  simp only [ConvertBits, ← hs_def, if_true]
  by_cases hb : s.bits = 0
  · -- nothing pending: the output is already the regrouping
    rw [if_neg (not_not.mpr hb)]
    refine ⟨0, ht, ⟨hxs, hs.digits, ?_, ?_⟩, trivial⟩
    · have := hs.length
      rw [hb] at this
      omega
    · have := hs.value
      rw [hb, Nat.pow_zero, Nat.mul_one, Nat.mod_one, Nat.add_zero] at this
      rw [Nat.pow_zero, Nat.mul_one, this]
  · -- the pending bits are flushed with `t - bits` zeros after them
    rw [if_pos hb, shiftLeft_and_maxv hs.bits_lt.le]
    have hlast : s.acc % 2 ^ s.bits * 2 ^ (t - s.bits) < 2 ^ t := by
      have hsplit : 2 ^ t = 2 ^ s.bits * 2 ^ (t - s.bits) := by
        rw [← Nat.pow_add, Nat.add_sub_cancel' hs.bits_lt.le]
      rw [hsplit]
      exact Nat.mul_lt_mul_of_pos_right (Nat.mod_lt _ (Nat.two_pow_pos _)) (Nat.two_pow_pos _)
    refine ⟨t - s.bits, by omega, ⟨hxs, fun y hy => ?_, ?_, ?_⟩, trivial⟩
    · rcases List.mem_append.mp hy with hy | hy
      · exact hs.digits y hy
      · rw [List.mem_singleton.mp hy]
        exact hlast
    · have := hs.length
      rw [List.length_append, List.length_singleton, Nat.mul_succ]
      have := hs.bits_lt
      omega
    · have hpow : 2 ^ t = 2 ^ s.bits * 2 ^ (t - s.bits) := by
        rw [← Nat.pow_add, Nat.add_sub_cancel' hs.bits_lt.le]
      rw [valBE_append_singleton, ← hs.value, hpow]
      ring

/-- A padded conversion returns the one regrouping of its input with fewer
than `tobits` zero bits added. -/
theorem ConvertBits_pad_iff (ht : 0 < t) (hxs : ∀ x ∈ xs, x < 2 ^ f) :
    ConvertBits f t true xs = (ys, true) ↔ ∃ p, p < t ∧ Regrouped f t xs ys p := by
  obtain ⟨p, hp, hreg, hok⟩ := ConvertBits_pad ht hxs
  constructor
  · intro h
    rw [h] at hreg
    exact ⟨p, hp, hreg⟩
  · rintro ⟨p', hp', hreg'⟩
    obtain ⟨rfl, -⟩ := hreg.unique hreg' hp hp'
    exact Prod.ext rfl hok

/-- An unpadded conversion succeeds on the regroupings of its output with
fewer than `frombits` zero bits added, and only on them. -/
theorem ConvertBits_nopad_iff (ht : 0 < t) (hxs : ∀ x ∈ xs, x < 2 ^ f) :
    ConvertBits f t false xs = (ys, true) ↔ ∃ p, p < f ∧ p < t ∧ Regrouped t f ys xs p := by
  have hs := ConvertState.holds_foldl ht xs hxs
  set s := xs.foldl (ConvertState.push f t) ⟨0, 0, []⟩ with hs_def
  have htail := shiftLeft_and_maxv hs.bits_lt.le s.acc
  simp only [ConvertBits, ← hs_def, Bool.false_eq_true, if_false, htail]
  have hpos : 0 < 2 ^ (t - s.bits) := Nat.two_pow_pos _
  constructor
  · intro h
    by_cases hfail : s.bits ≥ f ∨ s.acc % 2 ^ s.bits * 2 ^ (t - s.bits) ≠ 0
    · rw [if_pos hfail] at h
      exact absurd (Prod.mk.inj h).2 Bool.false_ne_true
    rw [if_neg hfail] at h
    simp only [not_or, not_le, ne_eq, not_not, Nat.mul_eq_zero, hpos.ne', or_false] at hfail
    obtain ⟨hbits, hzero⟩ := hfail
    obtain ⟨rfl, -⟩ := Prod.mk.inj h
    refine ⟨s.bits, hbits, hs.bits_lt, hs.digits, hxs, hs.length.symm, ?_⟩
    rw [← hs.value, hzero, Nat.add_zero]
  · rintro ⟨p, hpf, hpt, hreg⟩
    -- the pending bits are the padding of the regrouping, and they are zero
    obtain ⟨hlen, rfl⟩ := mul_add_inj (hs.length.trans hreg.length) hs.bits_lt hpt
    have hval : valBE (2 ^ t) s.out * 2 ^ s.bits + s.acc % 2 ^ s.bits = valBE (2 ^ t) ys * 2 ^ s.bits := by
      rw [hs.value, hreg.value]
    have hzero : s.acc % 2 ^ s.bits = 0 := by
      have h := congrArg (· % 2 ^ s.bits) hval
      simp only [Nat.mul_add_mod_self_right, Nat.mul_mod_left, Nat.mod_mod] at h
      exact h
    rw [hzero, Nat.add_zero] at hval
    have hout : s.out = ys := eq_of_valBE_eq (Nat.one_lt_two_pow ht.ne') hlen hs.digits hreg.source
      (Nat.eq_of_mul_eq_mul_right (Nat.two_pow_pos _) hval)
    rw [if_neg (by rw [hzero, Nat.zero_mul]; omega), hout]

/-- A padded conversion to fewer bits is undone by the unpadded one back. -/
theorem ConvertBits_nopad_pad (ht : 0 < t) (htf : t ≤ f) (hxs : ∀ x ∈ xs, x < 2 ^ f) :
    ConvertBits t f false (ConvertBits f t true xs).1 = (xs, true) := by
  obtain ⟨p, hp, hreg, -⟩ := ConvertBits_pad ht hxs
  exact (ConvertBits_nopad_iff (by omega) hreg.digits).mpr ⟨p, hp, by omega, hreg⟩

/-- A padded conversion followed by the unpadded one back returns the input
followed by the whole values of `frombits` bits the padding holds, none when
`tobits ≤ frombits`. -/
theorem ConvertBits_nopad_pad_zeros (ht : 0 < t) (hf : 0 < f) (hxs : ∀ x ∈ xs, x < 2 ^ f) :
    ∃ k, f * k < t ∧ ConvertBits t f false (ConvertBits f t true xs).1 = (xs ++ List.replicate k 0, true) := by
  obtain ⟨p, hp, hreg, -⟩ := ConvertBits_pad ht hxs
  -- the padding is `p / f` zero values followed by `p % f` bits
  rw [← Nat.div_add_mod p f] at hreg hp
  refine ⟨p / f, by omega, ?_⟩
  exact (ConvertBits_nopad_iff hf hreg.digits).mpr ⟨p % f, by omega, Nat.mod_lt _ hf, hreg.append_zeros⟩

/-- An unpadded conversion succeeds exactly on what a padded conversion the
other way outputs. -/
theorem ConvertBits_nopad_ok_iff (ht : 0 < t) (hf : 0 < f) (hys : ∀ y ∈ ys, y < 2 ^ f) :
    (ConvertBits f t false ys).2 = true ↔ ∃ zs, (∀ z ∈ zs, z < 2 ^ t) ∧ (ConvertBits t f true zs).1 = ys := by
  constructor
  · intro h
    obtain ⟨p, hpf, -, hreg⟩ := (ConvertBits_nopad_iff ht hys).mp (Prod.ext rfl h)
    exact ⟨_, hreg.source, congrArg Prod.fst ((ConvertBits_pad_iff hf hreg.source).mpr ⟨p, hpf, hreg⟩)⟩
  · rintro ⟨zs, hzs, rfl⟩
    obtain ⟨p, hp, hreg, -⟩ := ConvertBits_pad hf hzs
    -- whole values of `tobits` bits in the padding are read back as zeros
    rw [← Nat.div_add_mod p t] at hreg hp
    have hok := (ConvertBits_nopad_iff ht hreg.digits).mpr ⟨p % t, by omega, Nat.mod_lt _ ht, hreg.append_zeros⟩
    rw [hok]

/-- For the widths the source uses, a padded conversion is undone by the
unpadded one back up to zero values the padding holds, and an unpadded
conversion succeeds exactly on the outputs of padded ones. -/
theorem ConvertBits_regroup_roundtrip {frombits tobits : Nat} (hf : frombits ∈ [5, 6, 8])
    (ht : tobits ∈ [5, 6, 8]) :
    (∀ x : List Nat, (∀ v ∈ x, v < 2 ^ frombits) →
      ∃ k, frombits * k < tobits ∧
        ConvertBits tobits frombits false (ConvertBits frombits tobits true x).1 = (x ++ List.replicate k 0, true)) ∧
    (∀ y : List Nat, (∀ v ∈ y, v < 2 ^ frombits) →
      ((ConvertBits frombits tobits false y).2 = true ↔
        ∃ z, (∀ v ∈ z, v < 2 ^ tobits) ∧ (ConvertBits tobits frombits true z).1 = y)) := by
  have hf0 : 0 < frombits := by simp only [List.mem_cons, List.not_mem_nil, or_false] at hf; omega
  have ht0 : 0 < tobits := by simp only [List.mem_cons, List.not_mem_nil, or_false] at ht; omega
  exact ⟨fun x hx => ConvertBits_nopad_pad_zeros ht0 hf0 hx, fun y hy => ConvertBits_nopad_ok_iff ht0 hf0 hy⟩

theorem ConvertBits_regroup_roundtrip_five_eight :
    (5 ∈ [5, 6, 8] ∧ 8 ∈ [5, 6, 8]) ∧ ∃ k, 5 * k < 8 ∧
      ConvertBits 8 5 false (ConvertBits 5 8 true [1, 2, 3]).1 = ([1, 2, 3] ++ List.replicate k 0, true) :=
  ⟨⟨by decide, by decide⟩, (ConvertBits_regroup_roundtrip (by decide) (by decide)).1 [1, 2, 3] (by decide)⟩

/-- From 5 to 8 bits, two values take 10 bits and are padded to 16: the
unpadded conversion back reads the six padding bits as one more zero value.
And a value too wide for 5 bits passes the unpadded conversion, though no
padded one outputs it. -/
theorem ConvertBits_extra_zero :
    ConvertBits 8 5 false (ConvertBits 5 8 true [1, 1]).1 = ([1, 1, 0], true) ∧
      (ConvertBits 5 8 false [0, 32]).2 = true ∧
      ¬∃ z, (∀ v ∈ z, v < 2 ^ 8) ∧ (ConvertBits 8 5 true z).1 = [0, 32] := by
  -- `drain` recurses on the pending bits, so the runs are unfolded rather than decided
  refine ⟨by simp [ConvertBits, ConvertState.push, ConvertState.drain],
    by simp [ConvertBits, ConvertState.push, ConvertState.drain], ?_⟩
  rintro ⟨z, hz, hout⟩
  obtain ⟨p, -, hreg, -⟩ := ConvertBits_pad (by decide : 0 < 5) hz
  rw [hout] at hreg
  exact absurd (hreg.digits 32 (by simp)) (by decide)

end ConvertBits

/-! ## The encoders and decoders -/

/-- `ToLower(c)`: `(c >= 'A' && c <= 'Z' ? (c - 'A') + 'a' : c)`. -/
def ToLower (c : Char) : Char :=
  if 'A' ≤ c ∧ c ≤ 'Z' then Char.ofNat (c.toNat - 'A'.toNat + 'a'.toNat) else c

/-- The encoders' `while (str.size() % n) str += '=';`: `'='` up to the next
multiple of `n` characters. -/
def padEquals (n : Nat) (str : List Char) : List Char :=
  str ++ List.replicate ((n - str.length % n) % n) '='

/-- `EncodeBase64` and `EncodeBase32`, which differ in their alphabet, the
width of its values and the length `n` of a padded group. -/
def encodeBaseN (alphabet : List Char) (tobits n : Nat) (pad : Bool) (input : List UInt8) : List Char :=
  let str := (ConvertBits 8 tobits true (input.map UInt8.toNat)).1.map fun v => alphabet.getD v '\x00'
  if pad then padEquals n str else str

/-- The first loop of the decoders: the values of the characters up to the
first one the table does not read, and the text from that one on. -/
def readValues (table : Char → Int) : List Char → List Nat × List Char
  | [] => ([], [])
  | c :: cs =>
    if table c = -1 then ([], c :: cs)
    else ((table c).toNat :: (readValues table cs).1, (readValues table cs).2)

/-- The second loop of the decoders, over `'='`: whether nothing else follows,
and how many were passed. -/
def skipPadding : List Char → Bool × Nat
  | [] => (true, 0)
  | c :: cs => if c ≠ '=' then (false, 0) else ((skipPadding cs).1, (skipPadding cs).2 + 1)

/-- `DecodeBase64(const char *p, bool *pf_invalid)` and `DecodeBase32`, on the
characters of `p` before its NUL: the bytes and `*pf_invalid`. The values read
are converted to bytes; after them only `'='` may follow, fewer than a group
of them, up to a whole number of groups. -/
def decodeBaseN (table : Char → Int) (frombits n : Nat) (p : List Char) : List UInt8 × Bool :=
  let r := readValues table p
  let ret := ConvertBits frombits 8 false r.1
  let padding := if ret.2 then skipPadding r.2 else (false, 0)
  let valid := padding.1 && (r.1.length + padding.2) % n == 0 && padding.2 < n
  (ret.1.map UInt8.ofNat, !valid)

/-- `pbase64`. -/
def pbase64 : List Char := "ABCDEFGHIJKLMNOPQRSTUVWXYZabcdefghijklmnopqrstuvwxyz0123456789+/".toList

/-- `decode64_table`. -/
def decode64_table : List Int := [
  -1, -1, -1, -1, -1, -1, -1, -1, -1, -1, -1, -1, -1, -1, -1, -1,
  -1, -1, -1, -1, -1, -1, -1, -1, -1, -1, -1, -1, -1, -1, -1, -1,
  -1, -1, -1, -1, -1, -1, -1, -1, -1, -1, -1, 62, -1, -1, -1, 63,
  52, 53, 54, 55, 56, 57, 58, 59, 60, 61, -1, -1, -1, -1, -1, -1,
  -1, 0, 1, 2, 3, 4, 5, 6, 7, 8, 9, 10, 11, 12, 13, 14,
  15, 16, 17, 18, 19, 20, 21, 22, 23, 24, 25, -1, -1, -1, -1, -1,
  -1, 26, 27, 28, 29, 30, 31, 32, 33, 34, 35, 36, 37, 38, 39, 40,
  41, 42, 43, 44, 45, 46, 47, 48, 49, 50, 51, -1, -1, -1, -1, -1,
  -1, -1, -1, -1, -1, -1, -1, -1, -1, -1, -1, -1, -1, -1, -1, -1,
  -1, -1, -1, -1, -1, -1, -1, -1, -1, -1, -1, -1, -1, -1, -1, -1,
  -1, -1, -1, -1, -1, -1, -1, -1, -1, -1, -1, -1, -1, -1, -1, -1,
  -1, -1, -1, -1, -1, -1, -1, -1, -1, -1, -1, -1, -1, -1, -1, -1,
  -1, -1, -1, -1, -1, -1, -1, -1, -1, -1, -1, -1, -1, -1, -1, -1,
  -1, -1, -1, -1, -1, -1, -1, -1, -1, -1, -1, -1, -1, -1, -1, -1,
  -1, -1, -1, -1, -1, -1, -1, -1, -1, -1, -1, -1, -1, -1, -1, -1,
  -1, -1, -1, -1, -1, -1, -1, -1, -1, -1, -1, -1, -1, -1, -1, -1]

/-- `decode64_table[(uint8_t)c]`. A character beyond a byte is none of the
source's `char`s; it reads as `-1`. -/
def decode64 (c : Char) : Int := decode64_table.getD c.toNat (-1)

/-- `pbase32`. -/
def pbase32 : List Char := "abcdefghijklmnopqrstuvwxyz234567".toList

/-- `decode32_table`. -/
def decode32_table : List Int := [
  -1, -1, -1, -1, -1, -1, -1, -1, -1, -1, -1, -1, -1, -1, -1, -1,
  -1, -1, -1, -1, -1, -1, -1, -1, -1, -1, -1, -1, -1, -1, -1, -1,
  -1, -1, -1, -1, -1, -1, -1, -1, -1, -1, -1, -1, -1, -1, -1, -1,
  -1, -1, 26, 27, 28, 29, 30, 31, -1, -1, -1, -1, -1, -1, -1, -1,
  -1, 0, 1, 2, 3, 4, 5, 6, 7, 8, 9, 10, 11, 12, 13, 14,
  15, 16, 17, 18, 19, 20, 21, 22, 23, 24, 25, -1, -1, -1, -1, -1,
  -1, 0, 1, 2, 3, 4, 5, 6, 7, 8, 9, 10, 11, 12, 13, 14,
  15, 16, 17, 18, 19, 20, 21, 22, 23, 24, 25, -1, -1, -1, -1, -1,
  -1, -1, -1, -1, -1, -1, -1, -1, -1, -1, -1, -1, -1, -1, -1, -1,
  -1, -1, -1, -1, -1, -1, -1, -1, -1, -1, -1, -1, -1, -1, -1, -1,
  -1, -1, -1, -1, -1, -1, -1, -1, -1, -1, -1, -1, -1, -1, -1, -1,
  -1, -1, -1, -1, -1, -1, -1, -1, -1, -1, -1, -1, -1, -1, -1, -1,
  -1, -1, -1, -1, -1, -1, -1, -1, -1, -1, -1, -1, -1, -1, -1, -1,
  -1, -1, -1, -1, -1, -1, -1, -1, -1, -1, -1, -1, -1, -1, -1, -1,
  -1, -1, -1, -1, -1, -1, -1, -1, -1, -1, -1, -1, -1, -1, -1, -1,
  -1, -1, -1, -1, -1, -1, -1, -1, -1, -1, -1, -1, -1, -1, -1, -1]

/-- `decode32_table[(uint8_t)c]`. -/
def decode32 (c : Char) : Int := decode32_table.getD c.toNat (-1)

/-- `EncodeBase64(input)`. -/
def EncodeBase64 (input : List UInt8) : List Char := encodeBaseN pbase64 6 4 true input

/-- `DecodeBase64(str, pf_invalid)`, with its check that `str` has no NUL. -/
def DecodeBase64 (str : List Char) : List UInt8 × Bool :=
  if ValidAsCString str then decodeBaseN decode64 6 4 str else ([], true)

/-- `EncodeBase32(input, pad)`. -/
def EncodeBase32 (input : List UInt8) (pad : Bool) : List Char := encodeBaseN pbase32 5 8 pad input

/-- `DecodeBase32(str, pf_invalid)`. -/
def DecodeBase32 (str : List Char) : List UInt8 × Bool :=
  if ValidAsCString str then decodeBaseN decode32 5 8 str else ([], true)

/-! ## Tables that read their alphabet back -/

/-- An alphabet of `2 ^ bits` characters and a table that reads each of them
back. The table may read more characters than the alphabet has; `norm` maps
each to the alphabet's character of its value. -/
structure CodeTable (bits : Nat) where
  chars : List Char
  table : Char → Int
  norm : Char → Char
  table_chars : ∀ v < 2 ^ bits, table (chars.getD v '\x00') = v
  chars_table : ∀ c, table c ≠ -1 → (table c).toNat < 2 ^ bits ∧ chars.getD (table c).toNat '\x00' = norm c
  table_pad : table '=' = -1
  norm_pad : norm '=' = '='
  chars_ne_nul : ∀ v < 2 ^ bits, chars.getD v '\x00' ≠ '\x00'

section Loops

variable (table : Char → Int)

theorem readValues_append {pre rest : List Char} (hpre : ∀ c ∈ pre, table c ≠ -1)
    (hrest : ∀ c ∈ rest.head?, table c = -1) :
    readValues table (pre ++ rest) = (pre.map fun c => (table c).toNat, rest) := by
  induction pre with
  | nil =>
    cases rest with
    | nil => rfl
    | cons c cs => simp [readValues, hrest c rfl]
  | cons c pre ih =>
    rw [List.cons_append, readValues, if_neg (hpre c List.mem_cons_self),
      ih fun c' hc' => hpre c' (List.mem_cons_of_mem c hc')]
    rfl

/-- The values read are those of the characters before where the loop stops. -/
theorem readValues_spec : ∀ p : List Char, ∃ pre, p = pre ++ (readValues table p).2 ∧
    (readValues table p).1 = pre.map (fun c => (table c).toNat) ∧ ∀ c ∈ pre, table c ≠ -1
  | [] => ⟨[], rfl, rfl, by simp⟩
  | c :: cs => by
    by_cases hc : table c = -1
    · exact ⟨[], by simp [readValues, hc], by simp [readValues, hc], by simp⟩
    · obtain ⟨pre, hsplit, hvals, hpre⟩ := readValues_spec cs
      refine ⟨c :: pre, ?_, ?_, ?_⟩
      · rw [readValues, if_neg hc, List.cons_append, ← hsplit]
      · rw [readValues, if_neg hc, hvals, List.map_cons]
      · intro c' hc'
        rcases List.mem_cons.mp hc' with rfl | hc'
        · exact hc
        · exact hpre c' hc'

@[simp] theorem skipPadding_replicate (k : Nat) : skipPadding (List.replicate k '=') = (true, k) := by
  induction k with
  | zero => rfl
  | succ k ih => simp [List.replicate_succ, skipPadding, ih]

theorem eq_replicate_of_skipPadding : ∀ rest : List Char, (skipPadding rest).1 = true →
    rest = List.replicate (skipPadding rest).2 '='
  | [], _ => rfl
  | c :: cs, h => by
    by_cases hc : c = '='
    · subst hc
      simp only [skipPadding, ne_eq, not_true_eq_false, if_false] at h ⊢
      rw [List.replicate_succ, ← eq_replicate_of_skipPadding cs h]
    · simp [skipPadding, hc] at h

end Loops

/-- `'='` fill a text up to whole groups of `n`, fewer than `n` of them. -/
theorem add_padLen_mod {n : Nat} (hn : 0 < n) (m : Nat) : (m + (n - m % n) % n) % n = 0 := by
  rcases Nat.eq_zero_or_pos (m % n) with h0 | hpos
  · rw [h0, Nat.sub_zero, Nat.mod_self, Nat.add_zero, h0]
  · have hm := Nat.mod_lt m hn
    have hsum : m + (n - m % n) = n * (m / n + 1) := by
      have := Nat.div_add_mod m n
      rw [Nat.mul_succ]
      omega
    rw [Nat.mod_eq_of_lt (by omega : n - m % n < n), hsum, Nat.mul_mod_right]

/-- The number of `'='` that completes a group is the one `padEquals` adds. -/
theorem padLen_eq {n m k : Nat} (hn : 0 < n) (h : (m + k) % n = 0) (hk : k < n) : (n - m % n) % n = k := by
  have hm := Nat.mod_lt m hn
  have hdvd : n ∣ m % n + k := by
    rw [Nat.dvd_iff_mod_eq_zero, Nat.add_mod, Nat.mod_mod, ← Nat.add_mod]
    exact h
  obtain ⟨j, hj⟩ := hdvd
  -- `m % n + k` is `0` or `n`
  have hj2 : j < 2 := by
    by_contra hge
    have : n * 2 ≤ n * j := Nat.mul_le_mul_left n (by omega)
    omega
  rcases j with _ | _ | j
  · rw [Nat.mul_zero] at hj
    rw [show m % n = 0 by omega, Nat.sub_zero, Nat.mod_self]
    omega
  · rw [Nat.mul_one] at hj
    rw [Nat.mod_eq_of_lt (by omega)]
    omega
  · omega

section CodeTable

variable {bits n : Nat} (T : CodeTable bits)

theorem CodeTable.table_ne (v : Nat) (hv : v < 2 ^ bits) : T.table (T.chars.getD v '\x00') ≠ -1 := by
  rw [T.table_chars v hv]
  omega

/-- Encoding with the alphabet, and reading back with the table. -/
theorem readValues_encode {ys : List Nat} (hys : ∀ y ∈ ys, y < 2 ^ bits) (k : Nat) :
    readValues T.table (ys.map (fun v => T.chars.getD v '\x00') ++ List.replicate k '=') =
      (ys, List.replicate k '=') := by
  rw [readValues_append]
  · rw [List.map_map]
    refine Prod.ext ?_ rfl
    conv_rhs => rw [← List.map_id ys]
    refine List.map_congr_left fun y hy => ?_
    simp only [Function.comp_apply, T.table_chars y (hys y hy), Int.toNat_natCast, id]
  · intro c hc
    obtain ⟨y, hy, rfl⟩ := List.mem_map.mp hc
    exact T.table_ne y (hys y hy)
  · intro c hc
    cases k with
    | zero => simp at hc
    | succ k =>
      rw [List.replicate_succ, List.head?_cons, Option.mem_some_iff] at hc
      rw [← hc]
      exact T.table_pad

theorem validAsCString_encode {ys : List Nat} (hys : ∀ y ∈ ys, y < 2 ^ bits) (k : Nat) :
    ValidAsCString (ys.map (fun v => T.chars.getD v '\x00') ++ List.replicate k '=') = true := by
  simp only [ValidAsCString, Bool.not_eq_eq_eq_not, Bool.not_true, List.contains_eq_mem, decide_eq_false_iff_not,
    List.mem_append, List.mem_map, List.mem_replicate, not_or, not_exists, not_and]
  exact ⟨fun y hy hnul => T.chars_ne_nul y (hys y hy) hnul, fun _ h => by cases h⟩

theorem bytes_lt (x : List UInt8) : ∀ v ∈ x.map UInt8.toNat, v < 2 ^ 8 := by
  intro v hv
  obtain ⟨b, -, rfl⟩ := List.mem_map.mp hv
  exact b.toNat_lt

/-- A padded encoding: the alphabet's characters of the regrouped bytes, then `'='`. -/
theorem encodeBaseN_eq (x : List UInt8) :
    encodeBaseN T.chars bits n true x =
      (ConvertBits 8 bits true (x.map UInt8.toNat)).1.map (fun v => T.chars.getD v '\x00') ++
        List.replicate ((n - (ConvertBits 8 bits true (x.map UInt8.toNat)).1.length % n) % n) '=' := by
  simp only [encodeBaseN, if_true, padEquals, List.length_map]

theorem validAsCString_encodeBaseN (hb : 0 < bits) (x : List UInt8) :
    ValidAsCString (encodeBaseN T.chars bits n true x) = true := by
  obtain ⟨p, -, hreg, -⟩ := ConvertBits_pad hb (bytes_lt x)
  rw [encodeBaseN_eq]
  exact validAsCString_encode T hreg.digits _

/-- Decoding inverts encoding. -/
theorem decodeBaseN_encodeBaseN (hb : 0 < bits) (hb8 : bits ≤ 8) (hn : 0 < n) (x : List UInt8) :
    decodeBaseN T.table bits n (encodeBaseN T.chars bits n true x) = (x, false) := by
  obtain ⟨p, -, hreg, -⟩ := ConvertBits_pad hb (bytes_lt x)
  set ys := (ConvertBits 8 bits true (x.map UInt8.toNat)).1 with hys
  have hencode := encodeBaseN_eq T (n := n) x
  rw [← hys] at hencode
  -- the values read are the regrouped bytes, and they regroup back
  have hback : ConvertBits bits 8 false ys = (x.map UInt8.toNat, true) := ConvertBits_nopad_pad hb hb8 (bytes_lt x)
  simp only [decodeBaseN, hencode, readValues_encode T hreg.digits, hback, if_true, skipPadding_replicate,
    add_padLen_mod hn, Nat.mod_lt _ hn, beq_self_eq_true, decide_true, Bool.and_self,
    Bool.not_true, List.map_map]
  refine Prod.ext ?_ rfl
  conv_rhs => rw [← List.map_id x]
  exact List.map_congr_left fun b _ => UInt8.ofNat_toNat

/-- A text the decoder accepts is the encoding of what it reads, up to `norm`. -/
theorem encodeBaseN_decodeBaseN (hb : 0 < bits) (hn : 0 < n) (p : List Char)
    (h : (decodeBaseN T.table bits n p).2 = false) :
    encodeBaseN T.chars bits n true (decodeBaseN T.table bits n p).1 = p.map T.norm := by
  obtain ⟨pre, hsplit, hvals, hpre⟩ := readValues_spec T.table p
  set vals := (readValues T.table p).1 with hvals_def
  set rest := (readValues T.table p).2 with hrest_def
  have hdigits : ∀ v ∈ vals, v < 2 ^ bits := by
    rw [hvals]
    intro v hv
    obtain ⟨c, hc, rfl⟩ := List.mem_map.mp hv
    exact (T.chars_table c (hpre c hc)).1
  set ret := ConvertBits bits 8 false vals with hret
  -- an accepted text converts without error and ends in its padding
  obtain ⟨hok, hpad, hmod, hlt⟩ : ret.2 = true ∧ (skipPadding rest).1 = true ∧
      (vals.length + (skipPadding rest).2) % n = 0 ∧ (skipPadding rest).2 < n := by
    simp only [decodeBaseN, ← hvals_def, ← hrest_def, ← hret, Bool.not_eq_false', Bool.and_eq_true,
      beq_iff_eq, decide_eq_true_eq] at h
    by_cases hc : ret.2 = true
    · rw [if_pos hc] at h
      exact ⟨hc, h.1.1, h.1.2, h.2⟩
    · rw [if_neg hc] at h
      exact absurd h.1.1 Bool.false_ne_true
  obtain ⟨q, hqb, hq8, hreg⟩ := (ConvertBits_nopad_iff (by decide) hdigits).mp (Prod.ext rfl hok)
  have hbytes : (ret.1.map UInt8.ofNat).map UInt8.toNat = ret.1 := by
    rw [List.map_map]
    conv_rhs => rw [← List.map_id ret.1]
    refine List.map_congr_left fun v hv => ?_
    simp only [Function.comp_apply, id]
    exact Nat.mod_eq_of_lt (hreg.source v hv)
  have hfwd : ConvertBits 8 bits true ret.1 = (vals, true) := (ConvertBits_pad_iff hb hreg.source).mpr ⟨q, hqb, hreg⟩
  have hchars : vals.map (fun v => T.chars.getD v '\x00') = pre.map T.norm := by
    rw [hvals, List.map_map]
    exact List.map_congr_left fun c hc => (T.chars_table c (hpre c hc)).2
  show padEquals n ((ConvertBits 8 bits true ((ret.1.map UInt8.ofNat).map UInt8.toNat)).1.map
    fun v => T.chars.getD v '\x00') = p.map T.norm
  rw [hbytes, hfwd, padEquals, List.length_map, padLen_eq hn hmod hlt, hchars]
  conv_rhs => rw [hsplit, List.map_append, eq_replicate_of_skipPadding rest hpad, List.map_replicate, T.norm_pad]

end CodeTable

/-! ## The tables of the source -/

set_option maxRecDepth 10000 in
theorem decode64_pbase64 : ∀ v < 64, decode64 (pbase64.getD v '\x00') = v := by decide

set_option maxRecDepth 10000 in
theorem pbase64_decode64_table : ∀ i < 256, decode64_table.getD i (-1) ≠ -1 →
    (decode64_table.getD i (-1)).toNat < 64 ∧
      pbase64.getD (decode64_table.getD i (-1)).toNat '\x00' = Char.ofNat i := by decide

set_option maxRecDepth 10000 in
theorem decode32_pbase32 : ∀ v < 32, decode32 (pbase32.getD v '\x00') = v := by decide

set_option maxRecDepth 10000 in
theorem pbase32_decode32_table : ∀ i < 256, decode32_table.getD i (-1) ≠ -1 →
    (decode32_table.getD i (-1)).toNat < 32 ∧
      pbase32.getD (decode32_table.getD i (-1)).toNat '\x00' = ToLower (Char.ofNat i) := by decide

/-- A character a table reads is a byte. -/
theorem toNat_lt_of_getD_ne {table : List Int} (htable : table.length = 256) {c : Char}
    (h : table.getD c.toNat (-1) ≠ -1) : c.toNat < 256 := by
  by_contra hge
  exact h (List.getD_eq_default _ _ (by omega))

set_option maxRecDepth 10000 in
/-- The base64 alphabet and `decode64_table`. -/
def base64Table : CodeTable 6 where
  chars := pbase64
  table := decode64
  norm := id
  table_chars := decode64_pbase64
  chars_table c hc := by
    have hlt := toNat_lt_of_getD_ne rfl hc
    have := pbase64_decode64_table c.toNat hlt hc
    rwa [Char.ofNat_toNat] at this
  table_pad := by decide
  norm_pad := rfl
  chars_ne_nul := by decide

set_option maxRecDepth 10000 in
/-- The base32 alphabet and `decode32_table`, which also reads capitals. -/
def base32Table : CodeTable 5 where
  chars := pbase32
  table := decode32
  norm := ToLower
  table_chars := decode32_pbase32
  chars_table c hc := by
    have hlt := toNat_lt_of_getD_ne rfl hc
    have := pbase32_decode32_table c.toNat hlt hc
    rwa [Char.ofNat_toNat] at this
  table_pad := by decide
  norm_pad := by decide
  chars_ne_nul := by decide

/-- `DecodeBase64` and `DecodeBase32` invert their encoders, and accept
exactly the canonical padded encodings: a text either accepts without
raising the invalid flag is the encoding of what it returns, lowercased for
base32. -/
theorem base64_base32_canonical :
    (∀ x : List UInt8, DecodeBase64 (EncodeBase64 x) = (x, false)) ∧
    (∀ x : List UInt8, DecodeBase32 (EncodeBase32 x true) = (x, false)) ∧
    (∀ s : List Char, (DecodeBase64 s).2 = false → EncodeBase64 (DecodeBase64 s).1 = s) ∧
    (∀ s : List Char, (DecodeBase32 s).2 = false → EncodeBase32 (DecodeBase32 s).1 true = s.map ToLower) := by
  refine ⟨fun x => ?_, fun x => ?_, fun s hs => ?_, fun s hs => ?_⟩
  · have hv : ValidAsCString (EncodeBase64 x) = true := validAsCString_encodeBaseN base64Table (by decide) x
    rw [DecodeBase64, if_pos hv]
    exact decodeBaseN_encodeBaseN base64Table (by decide) (by decide) (by decide) x
  · have hv : ValidAsCString (EncodeBase32 x true) = true := validAsCString_encodeBaseN base32Table (by decide) x
    rw [DecodeBase32, if_pos hv]
    exact decodeBaseN_encodeBaseN base32Table (by decide) (by decide) (by decide) x
  · -- a text with a NUL is rejected before it is read
    unfold DecodeBase64 at hs ⊢
    split_ifs at hs ⊢
    exact (encodeBaseN_decodeBaseN base64Table (by decide) (by decide) s hs).trans (List.map_id s)
  · unfold DecodeBase32 at hs ⊢
    split_ifs at hs ⊢
    exact encodeBaseN_decodeBaseN base32Table (by decide) (by decide) s hs

set_option maxRecDepth 4000 in
/-- `Zm9vYg==` is read as `foob` and is the base64 encoding of it; the capitals
`MZXW6YQ=` are read as `foob` too, whose base32 encoding is the text in lower
case; and `foo` is read back from both encodings. -/
theorem base64_base32_canonical_foob :
    DecodeBase64 "Zm9vYg==".toList = ([0x66, 0x6f, 0x6f, 0x62], false) ∧
      EncodeBase64 (DecodeBase64 "Zm9vYg==".toList).1 = "Zm9vYg==".toList ∧
      DecodeBase32 "MZXW6YQ=".toList = ([0x66, 0x6f, 0x6f, 0x62], false) ∧
      "MZXW6YQ=".toList.map ToLower = "mzxw6yq=".toList ∧
      EncodeBase32 (DecodeBase32 "MZXW6YQ=".toList).1 true = "MZXW6YQ=".toList.map ToLower ∧
      DecodeBase64 (EncodeBase64 [0x66, 0x6f, 0x6f]) = ([0x66, 0x6f, 0x6f], false) ∧
      DecodeBase32 (EncodeBase32 [0x66, 0x6f, 0x6f] true) = ([0x66, 0x6f, 0x6f], false) := by
  -- the decoders' loops run on the two texts
  have h64 : DecodeBase64 "Zm9vYg==".toList = ([0x66, 0x6f, 0x6f, 0x62], false) := by
    simp +decide [DecodeBase64, decodeBaseN, ConvertBits, ConvertState.push, ConvertState.drain,
      readValues, skipPadding, decode64, decode64_table]
  have h32 : DecodeBase32 "MZXW6YQ=".toList = ([0x66, 0x6f, 0x6f, 0x62], false) := by
    simp +decide [DecodeBase32, decodeBaseN, ConvertBits, ConvertState.push, ConvertState.drain,
      readValues, skipPadding, decode32, decode32_table]
  exact ⟨h64, base64_base32_canonical.2.2.1 _ (by rw [h64]), h32, by decide,
    base64_base32_canonical.2.2.2 _ (by rw [h32]), base64_base32_canonical.1 _,
    base64_base32_canonical.2.1 _⟩

end BitcoinAbc
