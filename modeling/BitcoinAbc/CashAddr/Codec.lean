import Mathlib
import BitcoinAbc.Lib.Lfsr

/-!
# CashAddr strings (cashaddr.cpp)

A cashaddr string is a prefix, `':'`, and a payload of 5-bit values written
with `CHARSET`, followed by eight values of checksum: the remainder of the
prefix and payload, read as a polynomial over `GF(32)`, modulo the generator
`g(x)` (`PolyMod`).

- `polyModStep_eq`, `polyModShift_xorLinear`, `polyModShift_small`: one pass
  of the loop of `PolyMod` is `L(c) ^ d` for a feedback `L` that is linear in
  exclusive or and only shifts states of fewer than 35 bits, so the library's
  `Lfsr.run_append_pack` applies;
- `VerifyChecksum_CreateChecksum`: a payload followed by its checksum passes
  `VerifyChecksum`;
- `Decode_lt`: the payload `Decode` returns has 5-bit values;
- `Decode_Encode`: `Decode` reads back what `Encode` writes, for a non-empty
  prefix of lowercase letters;
- `Decode_short_payload`: a string whose checksum holds over fewer than eight
  values reaches `values.end() - 8`, before the start of `values`.
-/

namespace BitcoinAbc
namespace CashAddr

open Regroup Lfsr

/-- `CHARSET`. -/
def CHARSET : List Char := "qpzry9x8gf2tvdw0s3jn54khce6mua7l".toList

/-- `CHARSET_REV`. -/
def CHARSET_REV : List Int := [
  -1, -1, -1, -1, -1, -1, -1, -1, -1, -1, -1, -1, -1, -1, -1, -1,
  -1, -1, -1, -1, -1, -1, -1, -1, -1, -1, -1, -1, -1, -1, -1, -1,
  -1, -1, -1, -1, -1, -1, -1, -1, -1, -1, -1, -1, -1, -1, -1, -1,
  15, -1, 10, 17, 21, 20, 26, 30, 7, 5, -1, -1, -1, -1, -1, -1,
  -1, 29, -1, 24, 13, 25, 9, 8, 23, -1, 18, 22, 31, 27, 19, -1,
  1, 0, 3, 16, 11, 28, 12, 14, 6, 4, 2, -1, -1, -1, -1, -1,
  -1, 29, -1, 24, 13, 25, 9, 8, 23, -1, 18, 22, 31, 27, 19, -1,
  1, 0, 3, 16, 11, 28, 12, 14, 6, 4, 2, -1, -1, -1, -1, -1]

/-! ## The checksum -/

/-- One pass of the loop of `PolyMod`: the state `c`, the coefficients of a
remainder modulo `g(x)`, times `x`, plus `d`. -/
def polyModStep (c d : Nat) : Nat :=
  let c0 := (c >>> 35) % 256
  let c := ((c &&& 0x07ffffffff) <<< 5) ^^^ d
  let c := if c0 &&& 0x01 ≠ 0 then c ^^^ 0x98f2bc8e61 else c
  let c := if c0 &&& 0x02 ≠ 0 then c ^^^ 0x79b76d99e2 else c
  let c := if c0 &&& 0x04 ≠ 0 then c ^^^ 0xf33e5fb3c4 else c
  let c := if c0 &&& 0x08 ≠ 0 then c ^^^ 0xae2eabe2a8 else c
  let c := if c0 &&& 0x10 ≠ 0 then c ^^^ 0x1e4f43e470 else c
  c

/-- `PolyMod(v)`: the loop from `1`, and the result `c ^ 1`. -/
def PolyMod (v : List Nat) : Nat := v.foldl polyModStep 1 ^^^ 1

/-- `LowerCase(c)`: `c | 0x20`. -/
def LowerCase (c : Char) : Char := Char.ofNat (c.toNat ||| 0x20)

/-- `ExpandPrefix(prefix)`: the low five bits of each character, then `0`. -/
def ExpandPrefix (pre : List Char) : List Nat := pre.map (fun c => c.toNat &&& 0x1f) ++ [0]

/-- `VerifyChecksum(prefix, payload)`. -/
def VerifyChecksum (pre : List Char) (payload : List Nat) : Bool := PolyMod (ExpandPrefix pre ++ payload) == 0

/-- `CreateChecksum(prefix, payload)`: the eight 5-bit groups of `PolyMod`
of the expanded prefix and the payload followed by eight zeros. -/
def CreateChecksum (pre : List Char) (payload : List Nat) : List Nat :=
  let enc := ExpandPrefix pre ++ payload ++ List.replicate 8 0
  let mod := PolyMod enc
  (List.range 8).map fun i => (mod >>> (5 * (7 - i))) &&& 0x1f

/-- `cashaddr::Encode(prefix, payload)`. -/
def Encode (pre : List Char) (payload : List Nat) : List Char :=
  let checksum := CreateChecksum pre payload
  let combined := payload ++ checksum
  pre ++ [':'] ++ combined.map fun c => CHARSET.getD c '\x00'

/-! ## The checksum is linear -/

/-- The feedback of `PolyMod`: the state times `x`, modulo `g(x)`. -/
def polyModShift (c : Nat) : Nat := polyModStep c 0

/-- A pass of the loop is the feedback with the input value added. -/
theorem polyModStep_eq (c d : Nat) : polyModStep c d = polyModShift c ^^^ d := by
  simp only [polyModShift, polyModStep, ite_xor, Nat.xor_zero]
  ac_rfl

theorem polyModShift_xorLinear : XorLinear polyModShift := by
  intro a b
  -- the tested bits of the top value `c0` are linear, and so is each term they add
  have hc0 : (a ^^^ b) >>> 35 % 256 = (a >>> 35 % 256) ^^^ (b >>> 35 % 256) := by
    rw [Nat.shiftRight_xor_distrib, show (256 : Nat) = 2 ^ 8 from rfl, Nat.xor_mod_two_pow]
  simp only [polyModShift, polyModStep, ite_xor, Nat.xor_zero, hc0, ite_xor_bit 0 (show (0x01 : Nat) = 2 ^ 0 from rfl),
    ite_xor_bit 1 (show (0x02 : Nat) = 2 ^ 1 from rfl), ite_xor_bit 2 (show (0x04 : Nat) = 2 ^ 2 from rfl),
    ite_xor_bit 3 (show (0x08 : Nat) = 2 ^ 3 from rfl), ite_xor_bit 4 (show (0x10 : Nat) = 2 ^ 4 from rfl)]
  -- the shifted low bits are linear as well
  rw [Nat.and_xor_distrib_right, Nat.shiftLeft_xor_distrib]
  ac_rfl

/-- Below `x^7`, the feedback is a shift by one coefficient. -/
theorem polyModShift_small {c : Nat} (hc : c < 2 ^ (5 * 7)) : polyModShift c = c <<< 5 := by
  have htop : c >>> 35 = 0 := by
    rw [Nat.shiftRight_eq_div_pow]
    exact Nat.div_eq_of_lt hc
  have hlow : c &&& 0x07ffffffff = c := by
    rw [show (0x07ffffffff : Nat) = 2 ^ 35 - 1 from rfl, Nat.and_two_pow_sub_one_eq_mod]
    exact Nat.mod_eq_of_lt hc
  simp [polyModShift, polyModStep, htop, hlow]

theorem polyModStep_lt (c : Nat) {d : Nat} (hd : d < 2 ^ 40) : polyModStep c d < 2 ^ 40 := by
  have hlow : (c &&& 0x07ffffffff) <<< 5 < 2 ^ 40 := by
    rw [show (0x07ffffffff : Nat) = 2 ^ 35 - 1 from rfl, Nat.and_two_pow_sub_one_eq_mod, Nat.shiftLeft_eq]
    have := Nat.mod_lt c (Nat.two_pow_pos 35)
    calc c % 2 ^ 35 * 2 ^ 5 < 2 ^ 35 * 2 ^ 5 := Nat.mul_lt_mul_of_pos_right this (by decide)
      _ = 2 ^ 40 := by rw [← Nat.pow_add]
  have hterm : ∀ (p : Prop) [Decidable p] (g : Nat), g < 2 ^ 40 → (if p then g else 0) < 2 ^ 40 := by
    intro p _ g hg
    split_ifs
    · exact hg
    · exact Nat.two_pow_pos 40
  simp only [polyModStep, ite_xor]
  repeat (first | apply Nat.xor_lt_two_pow | exact hlow | exact hd | exact hterm _ _ (by decide))

theorem PolyMod_eq (v : List Nat) : PolyMod v = run polyModShift 1 v ^^^ 1 := by
  unfold PolyMod run
  congr 1
  exact congrArg (fun f => v.foldl f 1) (funext fun c => funext fun d => polyModStep_eq c d)

/-- The remainder of a non-empty list fits in 40 bits. -/
theorem PolyMod_lt {v : List Nat} {d : Nat} (hd : d < 2 ^ 40) : PolyMod (v ++ [d]) < 2 ^ 40 := by
  unfold PolyMod
  rw [List.foldl_append, List.foldl_cons, List.foldl_nil]
  exact Nat.xor_lt_two_pow (polyModStep_lt _ hd) (by decide)

/-- The eight values `CreateChecksum` cuts out of the remainder. -/
theorem CreateChecksum_eq (pre : List Char) (payload : List Nat) :
    CreateChecksum pre payload =
      (List.range 8).map fun i =>
        PolyMod (ExpandPrefix pre ++ payload ++ List.replicate 8 0) / 2 ^ (5 * (8 - 1 - i)) % 2 ^ 5 := by
  unfold CreateChecksum
  refine List.map_congr_left fun i _ => ?_
  rw [Nat.shiftRight_eq_div_pow, show (0x1f : Nat) = 2 ^ 5 - 1 from rfl, Nat.and_two_pow_sub_one_eq_mod]

/-- The checksum values `CreateChecksum` returns have five bits. -/
theorem CreateChecksum_lt (pre : List Char) (payload : List Nat) : ∀ v ∈ CreateChecksum pre payload, v < 2 ^ 5 := by
  rw [CreateChecksum_eq]
  intro v hv
  obtain ⟨i, -, rfl⟩ := List.mem_map.mp hv
  exact Nat.mod_lt _ (by decide)

/-- A payload followed by its checksum passes `VerifyChecksum`. -/
theorem VerifyChecksum_CreateChecksum (pre : List Char) (payload : List Nat) :
    VerifyChecksum pre (payload ++ CreateChecksum pre payload) = true := by
  set enc := ExpandPrefix pre ++ payload with henc
  set mod := PolyMod (enc ++ List.replicate 8 0) with hmod
  have hlen : (CreateChecksum pre payload).length = 8 := by simp [CreateChecksum]
  -- the checksum packs back into the remainder of the message followed by zeros
  have hval : valBE (2 ^ 5) (CreateChecksum pre payload) = mod := by
    have hlt : mod < 2 ^ 40 := by
      rw [hmod, show List.replicate 8 0 = List.replicate 7 0 ++ [0] from rfl, ← List.append_assoc]
      exact PolyMod_lt (by decide)
    rw [CreateChecksum_eq, ← henc, ← hmod, valBE_map_range, Nat.mod_eq_of_lt hlt]
  have hsplit := run_append_pack polyModShift_xorLinear (by decide : 0 < 5) (fun x hx => polyModShift_small hx)
    1 enc (CreateChecksum pre payload) (CreateChecksum_lt pre payload) (by omega)
  rw [hlen, hval] at hsplit
  have hmod' : mod = run polyModShift 1 (enc ++ List.replicate 8 0) ^^^ 1 := by rw [hmod, PolyMod_eq]
  rw [VerifyChecksum, ← List.append_assoc, ← henc, PolyMod_eq, hsplit, hmod']
  -- the remainder cancels itself, and so does the final `^ 1`
  simp only [← Nat.xor_assoc, Nat.xor_self, Nat.zero_xor, beq_self_eq_true]

/-! ## Decoding -/

/-- What the first loop of `Decode` records: the kinds of character seen, and
the index of the separator. -/
structure Scan where
  lower : Bool
  upper : Bool
  hasNumber : Bool
  prefixSize : Nat
  deriving DecidableEq

/-- The first loop of `Decode`, from index `i` on; `none` where it returns
`{}`. -/
def scan : Nat → Scan → List Char → Option Scan
  | _, s, [] => some s
  | i, s, c :: cs =>
    if 'a' ≤ c ∧ c ≤ 'z' then scan (i + 1) { s with lower := true } cs
    else if 'A' ≤ c ∧ c ≤ 'Z' then scan (i + 1) { s with upper := true } cs
    else if '0' ≤ c ∧ c ≤ '9' then scan (i + 1) { s with hasNumber := true } cs
    else if c = ':' then
      -- the separator cannot be first, follow a number, or come twice
      if s.hasNumber ∨ i = 0 ∨ s.prefixSize ≠ 0 then none
      else scan (i + 1) { s with prefixSize := i } cs
    else none

/-- `CHARSET_REV[c]` for a character below `128`; `none` where `Decode`
returns `{}`. -/
def charsetRev (c : Char) : Option Nat :=
  if c.toNat > 127 then none
  else if CHARSET_REV.getD c.toNat (-1) = -1 then none
  else some (CHARSET_REV.getD c.toNat (-1)).toNat

/-- What `Decode` may run into besides a result. -/
inductive Fault where
  /-- `data(values.begin(), values.end() - 8)` over fewer than eight values:
  an iterator before the start of `values`, undefined behaviour. -/
  | valuesBeforeBegin
  deriving DecidableEq, Repr

/-- `cashaddr::Decode(str, default_prefix)`: the prefix and the payload, or
`{}`, the empty prefix and payload, on failure. -/
def Decode (str defaultPrefix : List Char) : Except Fault (List Char × List Nat) :=
  match scan 0 ⟨false, false, false, 0⟩ str with
  | none => .ok ([], [])
  | some s =>
    if s.upper ∧ s.lower then .ok ([], [])
    else
      let pre := if s.prefixSize = 0 then defaultPrefix else (str.take s.prefixSize).map LowerCase
      let prefixSize := if s.prefixSize = 0 then 0 else s.prefixSize + 1
      match (str.drop prefixSize).mapM charsetRev with
      | none => .ok ([], [])
      | some values =>
        if !VerifyChecksum pre values then .ok ([], [])
        else if values.length < 8 then .error .valuesBeforeBegin
        else .ok (pre, values.take (values.length - 8))

/-! ## The values `Decode` reads -/

/-- `CHARSET_REV` holds 5-bit values. -/
theorem charsetRev_lt {c : Char} {v : Nat} (h : charsetRev c = some v) : v < 32 := by
  have htable : ∀ n < 128, CHARSET_REV.getD n (-1) = -1 ∨ (CHARSET_REV.getD n (-1)).toNat < 32 := by
    decide
  unfold charsetRev at h
  split_ifs at h with h127 hneg
  obtain rfl := Option.some.inj h
  exact (htable c.toNat (by omega)).resolve_left hneg

/-- The values `Decode` reads through `CHARSET_REV` have five bits. -/
theorem mapM_charsetRev_lt : ∀ {cs : List Char} {vs : List Nat}, cs.mapM charsetRev = some vs → ∀ v ∈ vs, v < 32
  | [], vs, h => by
    obtain rfl : vs = [] := (Option.some.inj h).symm
    simp
  | c :: cs, vs, h => by
    rw [List.mapM_cons] at h
    simp only [Option.bind_eq_bind, Option.bind_eq_some_iff, Option.pure_def, Option.some.injEq] at h
    obtain ⟨w, hw, ws, hws, rfl⟩ := h
    intro v hv
    rcases List.mem_cons.mp hv with rfl | hv
    · exact charsetRev_lt hw
    · exact mapM_charsetRev_lt hws v hv

/-- The payload `Decode` returns has 5-bit values. -/
theorem Decode_lt {str defaultPrefix pre : List Char} {payload : List Nat}
    (h : Decode str defaultPrefix = .ok (pre, payload)) : ∀ v ∈ payload, v < 32 := by
  unfold Decode at h
  split at h
  · cases h; simp
  rename_i s _
  by_cases hul : s.upper ∧ s.lower
  · rw [if_pos hul] at h
    cases h; simp
  rw [if_neg hul] at h
  dsimp only at h
  split at h
  · cases h; simp
  rename_i values hvalues
  -- whichever prefix is kept, the payload is a part of `values`
  generalize (if s.prefixSize = 0 then defaultPrefix else (str.take s.prefixSize).map LowerCase) = p at h
  split_ifs at h
  · cases h; simp
  · cases h
    exact fun v hv => mapM_charsetRev_lt hvalues v (List.mem_of_mem_take hv)

/-! ## Reading back what `Encode` writes -/
/-- The characters `Encode` writes for values below `32` are lowercase letters
and digits, and `CHARSET_REV` maps each back to its value. -/
theorem charsetRev_CHARSET : ∀ v < 32, charsetRev (CHARSET.getD v '\x00') = some v ∧
    (('a' ≤ CHARSET.getD v '\x00' ∧ CHARSET.getD v '\x00' ≤ 'z') ∨
      ('0' ≤ CHARSET.getD v '\x00' ∧ CHARSET.getD v '\x00' ≤ '9')) := by
  decide

theorem LowerCase_of_lower {c : Char} (hc : 'a' ≤ c ∧ c ≤ 'z') : LowerCase c = c := by
  have hbits : ∀ n < 123, 97 ≤ n → n ||| 0x20 = n := by decide
  have hlo : 97 ≤ c.toNat := hc.1
  have hhi : c.toNat < 123 := Nat.lt_succ_of_le hc.2
  rw [LowerCase, hbits _ hhi hlo, Char.ofNat_toNat]

/-- The sanity loop over lowercase letters only sets `lower`. -/
theorem scan_append_lower (i : Nat) (s : Scan) {cs : List Char} (hcs : ∀ c ∈ cs, 'a' ≤ c ∧ c ≤ 'z')
    (hne : cs ≠ []) (rest : List Char) :
    scan i s (cs ++ rest) = scan (i + cs.length) { s with lower := true } rest := by
  induction cs generalizing i s with
  | nil => exact absurd rfl hne
  | cons c cs ih =>
    rw [List.cons_append, scan, if_pos (hcs c List.mem_cons_self)]
    cases cs with
    | nil => rfl
    | cons d ds =>
      rw [ih (i + 1) _ (fun x hx => hcs x (List.mem_cons_of_mem c hx)) (List.cons_ne_nil d ds),
        show i + 1 + (d :: ds).length = i + (c :: d :: ds).length by simp only [List.length_cons]; omega]

/-- Over lowercase letters and digits, the sanity loop succeeds and leaves
`upper` and `prefixSize` as they are. -/
theorem scan_data (i : Nat) (s : Scan) {cs : List Char}
    (hcs : ∀ c ∈ cs, ('a' ≤ c ∧ c ≤ 'z') ∨ ('0' ≤ c ∧ c ≤ '9')) :
    ∃ s', scan i s cs = some s' ∧ s'.upper = s.upper ∧ s'.prefixSize = s.prefixSize := by
  induction cs generalizing i s with
  | nil => exact ⟨s, rfl, rfl, rfl⟩
  | cons c cs ih =>
    have htail := fun x hx => hcs x (List.mem_cons_of_mem c hx)
    rcases hcs c List.mem_cons_self with hl | hd
    · rw [scan, if_pos hl]
      exact ih (i + 1) _ htail
    · -- a digit is neither a lowercase nor an uppercase letter
      have h9 : c.toNat ≤ 57 := hd.2
      have hnl : ¬('a' ≤ c ∧ c ≤ 'z') := fun h => by
        have : 97 ≤ c.toNat := h.1
        omega
      have hnu : ¬('A' ≤ c ∧ c ≤ 'Z') := fun h => by
        have : 65 ≤ c.toNat := h.1
        omega
      rw [scan, if_neg hnl, if_neg hnu, if_pos hd]
      exact ih (i + 1) _ htail

theorem mapM_charsetRev {vs : List Nat} (hvs : ∀ v ∈ vs, v < 32) :
    (vs.map fun v => CHARSET.getD v '\x00').mapM charsetRev = some vs := by
  induction vs with
  | nil => rfl
  | cons v vs ih =>
    rw [List.map_cons, List.mapM_cons, (charsetRev_CHARSET v (hvs v List.mem_cons_self)).1,
      ih fun w hw => hvs w (List.mem_cons_of_mem v hw)]
    rfl

/-- `Decode` reads back the prefix and payload `Encode` writes, for a
non-empty prefix of lowercase letters and a payload of 5-bit values. -/
theorem Decode_Encode {pre : List Char} (hpre : pre ≠ []) (hlower : ∀ c ∈ pre, 'a' ≤ c ∧ c ≤ 'z')
    {payload : List Nat} (hpay : ∀ v ∈ payload, v < 32) (defaultPrefix : List Char) :
    Decode (Encode pre payload) defaultPrefix = .ok (pre, payload) := by
  set values := payload ++ CreateChecksum pre payload with hvalues
  have hvs : ∀ v ∈ values, v < 32 := by
    intro v hv
    rcases List.mem_append.mp hv with h | h
    · exact hpay v h
    · exact CreateChecksum_lt pre payload v h
  set data := values.map fun v => CHARSET.getD v '\x00' with hdata
  have henc : Encode pre payload = pre ++ ':' :: data := by simp [Encode, hdata, hvalues]
  -- the prefix sets `lower`, the separator `prefixSize`, and the data changes neither
  have hcolon : scan pre.length { (⟨false, false, false, 0⟩ : Scan) with lower := true } (':' :: data) =
      scan (pre.length + 1) ⟨true, false, false, pre.length⟩ data := by
    have hlen : pre.length ≠ 0 := fun h => hpre (List.length_eq_zero_iff.mp h)
    rw [scan, if_neg (by decide), if_neg (by decide), if_neg (by decide), if_pos rfl,
      if_neg (by simp [hlen])]
  obtain ⟨s, hs, hup, hsize⟩ := @scan_data (pre.length + 1) ⟨true, false, false, pre.length⟩ data
    (fun c hc => by
      obtain ⟨v, hv, rfl⟩ := List.mem_map.mp hc
      exact (charsetRev_CHARSET v (hvs v hv)).2)
  have hscan : scan 0 ⟨false, false, false, 0⟩ (Encode pre payload) = some s := by
    rw [henc, scan_append_lower 0 _ hlower hpre, Nat.zero_add, hcolon, hs]
  have hsize0 : s.prefixSize ≠ 0 := by
    rw [hsize]
    exact fun h => hpre (List.length_eq_zero_iff.mp h)
  have hpre' : ((Encode pre payload).take s.prefixSize).map LowerCase = pre := by
    rw [hsize, henc, List.take_left' rfl]
    rw [List.map_congr_left fun c hc => LowerCase_of_lower (hlower c hc), List.map_id']
  have hdrop : (Encode pre payload).drop (s.prefixSize + 1) = data := by
    rw [hsize, henc, ← List.drop_drop, List.drop_left' rfl, List.drop_one, List.tail_cons]
  have hlen : ¬values.length < 8 := by simp [hvalues, CreateChecksum]
  have htake : values.take (values.length - 8) = payload := by
    simp [hvalues, CreateChecksum]
  have hver : VerifyChecksum pre values = true := VerifyChecksum_CreateChecksum pre payload
  simp only [Decode, hscan, hup, hsize0, hpre', if_false]
  rw [hdrop, hdata, mapM_charsetRev hvs]
  simp only [hver, hlen, htake, Bool.not_true, Bool.false_eq_true, false_and, if_false]

/-! ## Fewer than eight values -/

/-- With the prefix `c`, seven values pass the checksum, and `Decode` builds
the range `values.end() - 8` before the start of its seven values, whatever
the default prefix. -/
theorem Decode_short_payload (defaultPrefix : List Char) :
    Decode "c:qvdy2z3".toList defaultPrefix = .error .valuesBeforeBegin := by
  have hs : scan 0 ⟨false, false, false, 0⟩ "c:qvdy2z3".toList = some ⟨true, false, true, 1⟩ := by
    decide
  rw [Decode, hs]
  simp only [Nat.one_ne_zero, if_false]
  decide

end CashAddr
end BitcoinAbc
