import Mathlib

/-!
# Regrouping digits between power-of-two bases

A list of digits in base `2^f`, the most significant first, is a string of
`f` bits per digit. Cutting that string into groups of `t` bits, the last
group filled up with `p` zero bits, gives digits in base `2^t`: the list is
`Regrouped`.

- `valBE`: the value of a digit list read the most significant digit first,
  the order a loop over the list takes; it is `Nat.ofDigits` of the reversed
  list, which gives its bound (`valBE_lt`) and that a digit list is determined
  by its length and value (`eq_of_valBE_eq`); `valBE_map_range` reads back the
  digits a loop cuts out of a number;
- `Regrouped.unique`: with fewer than `t` padding bits, a regrouping is
  determined by what it regroups;
- `Regrouped.append_zeros`: padding of `f` bits or more is zero digits of
  what is regrouped.

The first comes down to `mul_add_inj`: a length in bits is a multiple of the
group size plus a remainder in one way only.
-/

namespace Regroup

/-- The value of `ds` in base `b`, the most significant digit first. -/
def valBE (b : Nat) (ds : List Nat) : Nat := ds.foldl (fun acc d => acc * b + d) 0

section Value

variable {b : Nat}

theorem foldl_valBE : ∀ (ds : List Nat) (a : Nat),
    ds.foldl (fun acc d => acc * b + d) a = a * b ^ ds.length + valBE b ds
  | [], a => by simp [valBE]
  | d :: ds, a => by
    have hd : valBE b (d :: ds) = d * b ^ ds.length + valBE b ds := by
      rw [valBE, List.foldl_cons, foldl_valBE ds, Nat.zero_mul, Nat.zero_add]
    rw [List.foldl_cons, foldl_valBE ds, hd, List.length_cons, Nat.pow_succ]
    ring

@[simp] theorem valBE_nil : valBE b [] = 0 := rfl

theorem valBE_cons (d : Nat) (ds : List Nat) : valBE b (d :: ds) = d * b ^ ds.length + valBE b ds := by
  rw [valBE, List.foldl_cons, foldl_valBE ds, Nat.zero_mul, Nat.zero_add]

theorem valBE_append (xs ys : List Nat) : valBE b (xs ++ ys) = valBE b xs * b ^ ys.length + valBE b ys := by
  rw [valBE, List.foldl_append, foldl_valBE, ← valBE]

@[simp] theorem valBE_append_singleton (ds : List Nat) (d : Nat) : valBE b (ds ++ [d]) = valBE b ds * b + d := by
  rw [valBE_append]
  simp [valBE]

/-- Zero digits after `ds` shift its value up. -/
theorem valBE_append_replicate_zero (ds : List Nat) (k : Nat) :
    valBE b (ds ++ List.replicate k 0) = valBE b ds * b ^ k := by
  induction k with
  | zero => simp
  | succ k ih => rw [List.replicate_succ', ← List.append_assoc, valBE_append_singleton, ih, Nat.pow_succ, Nat.mul_assoc,
      Nat.add_zero]

theorem valBE_eq_ofDigits (ds : List Nat) : valBE b ds = Nat.ofDigits b ds.reverse := by
  induction ds using List.reverseRecOn with
  | nil => rfl
  | append_singleton ds d ih =>
    rw [valBE_append_singleton, List.reverse_append, List.reverse_singleton, List.singleton_append,
      Nat.ofDigits_cons, ih]
    ring

theorem valBE_lt (hb : 1 < b) {ds : List Nat} (h : ∀ d ∈ ds, d < b) : valBE b ds < b ^ ds.length := by
  rw [valBE_eq_ofDigits, ← List.length_reverse]
  exact Nat.ofDigits_lt_base_pow_length hb fun d hd => h d (List.mem_reverse.mp hd)

/-- Digit lists of one length and one value are equal. -/
theorem eq_of_valBE_eq (hb : 1 < b) {xs ys : List Nat} (hlen : xs.length = ys.length)
    (hx : ∀ d ∈ xs, d < b) (hy : ∀ d ∈ ys, d < b) (h : valBE b xs = valBE b ys) : xs = ys := by
  rw [valBE_eq_ofDigits, valBE_eq_ofDigits] at h
  exact List.reverse_inj.mp <| Nat.ofDigits_inj_of_len_eq hb (by simpa using hlen)
    (fun d hd => hx d (List.mem_reverse.mp hd)) (fun d hd => hy d (List.mem_reverse.mp hd)) h

/-- The `n` digits of `w` bits of `v`, the most significant first, stand for
the low `w * n` bits of `v`. -/
theorem valBE_map_range (w n v : Nat) :
    valBE (2 ^ w) ((List.range n).map fun i => v / 2 ^ (w * (n - 1 - i)) % 2 ^ w) = v % 2 ^ (w * n) := by
  induction n with
  | zero => simp [Nat.mod_one]
  | succ n ih =>
    have htail : ((List.range n).map fun i => v / 2 ^ (w * (n + 1 - 1 - (i + 1))) % 2 ^ w) =
        (List.range n).map fun i => v / 2 ^ (w * (n - 1 - i)) % 2 ^ w :=
      List.map_congr_left fun i _ => by rw [show n + 1 - 1 - (i + 1) = n - 1 - i by omega]
    rw [List.range_succ_eq_map, List.map_cons, List.map_map, Function.comp_def, htail, valBE_cons, ih,
      List.length_map, List.length_range, show n + 1 - 1 - 0 = n by omega, ← Nat.pow_mul,
      Nat.mul_succ, Nat.pow_add, Nat.mod_mul]
    ring

end Value

/-- A number is a multiple of `t` plus a remainder below `t` in one way only. -/
theorem mul_add_inj {t a a' p p' : Nat} (h : t * a + p = t * a' + p') (hp : p < t) (hp' : p' < t) :
    a = a' ∧ p = p' := by
  have ht : 0 < t := by omega
  obtain ⟨hq, hr⟩ := (Nat.div_mod_unique ht).mpr ⟨(Nat.add_comm _ _).symm, hp⟩
  obtain ⟨hq', hr'⟩ := (Nat.div_mod_unique ht).mpr ⟨(Nat.add_comm _ _).symm, hp'⟩
  rw [h] at hq hr
  exact ⟨hq.symm.trans hq', hr.symm.trans hr'⟩

/-- The low `b + f` bits of `a` shifted up by `f` bits, with `x` in the
lowest `f`. -/
theorem mul_two_pow_add_mod {f x : Nat} (hx : x < 2 ^ f) (a b : Nat) :
    (a * 2 ^ f + x) % 2 ^ (b + f) = a % 2 ^ b * 2 ^ f + x := by
  have hsplit : a * 2 ^ f + x = a % 2 ^ b * 2 ^ f + x + 2 ^ (b + f) * (a / 2 ^ b) := by
    conv_lhs => rw [← Nat.mod_add_div a (2 ^ b)]
    rw [Nat.pow_add]
    ring
  have hlow : a % 2 ^ b * 2 ^ f + x < 2 ^ (b + f) := by
    have ha : a % 2 ^ b + 1 ≤ 2 ^ b := Nat.mod_lt _ (Nat.two_pow_pos b)
    calc a % 2 ^ b * 2 ^ f + x < a % 2 ^ b * 2 ^ f + 2 ^ f := by omega
      _ = (a % 2 ^ b + 1) * 2 ^ f := by ring
      _ ≤ 2 ^ b * 2 ^ f := Nat.mul_le_mul_right _ ha
      _ = 2 ^ (b + f) := (Nat.pow_add 2 b f).symm
  rw [hsplit, Nat.add_mul_mod_self_left, Nat.mod_eq_of_lt hlow]

/-- `ys`, digits of `t` bits, cut the bits of `xs`, digits of `f` bits,
followed by `p` zero bits. -/
structure Regrouped (f t : Nat) (xs ys : List Nat) (p : Nat) : Prop where
  source : ∀ x ∈ xs, x < 2 ^ f
  digits : ∀ y ∈ ys, y < 2 ^ t
  length : t * ys.length = f * xs.length + p
  value : valBE (2 ^ t) ys = valBE (2 ^ f) xs * 2 ^ p

namespace Regrouped

variable {f t p p' : Nat} {xs xs' ys ys' : List Nat}

/-- With fewer than `t` padding bits, the regrouping of `xs` is unique. -/
theorem unique (h : Regrouped f t xs ys p) (h' : Regrouped f t xs ys' p') (hp : p < t) (hp' : p' < t) :
    ys = ys' ∧ p = p' := by
  -- both lengths in bits are `f * xs.length` rounded up to a multiple of `t`
  obtain ⟨hlen, hpp⟩ := mul_add_inj (show t * ys.length + p' = t * ys'.length + p by
    have := h.length; have := h'.length; omega) hp' hp
  subst hpp
  refine ⟨eq_of_valBE_eq (Nat.one_lt_two_pow (by omega)) hlen h.digits h'.digits ?_, rfl⟩
  rw [h.value, h'.value]

/-- Padding bits that make up whole digits of `f` bits are zero digits of
what is regrouped. -/
theorem append_zeros {k : Nat} (h : Regrouped f t xs ys (f * k + p)) :
    Regrouped f t (xs ++ List.replicate k 0) ys p := by
  refine ⟨fun x hx => ?_, h.digits, ?_, ?_⟩
  · rcases List.mem_append.mp hx with hx | hx
    · exact h.source x hx
    · rw [List.eq_of_mem_replicate hx]
      exact Nat.two_pow_pos f
  · rw [h.length, List.length_append, List.length_replicate]
    ring
  · rw [h.value, valBE_append_replicate_zero, Nat.pow_add, Nat.pow_mul]
    ring

end Regrouped

end Regroup
