import Mathlib

/-!
# Decimal numerals as lists of characters

Core reads a numeral with `Nat.ofDigitChars 10 l 0`, the most significant
digit first, and writes one with `Nat.toDigits 10 n`. A fixed-point decimal
text, a whole part and a fraction of some fixed number of places, needs a few
more facts about them:

- `AllDigits l`: every character is a decimal digit;
- `padZeros w l`: `l` padded on the left with zeros to the width `w`, as
  `printf("%0*d")` pads;
- `ofDigitChars_padZeros`: leading zeros do not change the value;
- `ofDigitChars_append_zeros`: trailing zeros multiply it by `10` each;
- `ofDigitChars_append`, `ofDigitChars_cons_zero`: a numeral split in two;
- `ofDigitChars_point`: a whole part and a fraction read at `d` places;
- `ofDigitChars_lt`: `k` digits stand for less than `10^k`.

A reader may also keep the trailing zeros of a numeral aside and multiply
them in only when a non-zero digit follows (`digitsFold`):

- `digitsFold_value`: the mantissa times ten to the zeros kept aside is the
  numeral;
- `digitsFold_mod_ten`: the mantissa then ends in a non-zero digit, unless it
  is still the one it started from;
- `digitsFold_eq_zero`: a mantissa that stays zero read only zeros.
-/

namespace Decimal

/-- Every character is one of `'0'` to `'9'`. -/
def AllDigits (l : List Char) : Prop := ∀ c ∈ l, c.isDigit = true

instance (l : List Char) : Decidable (AllDigits l) :=
  List.decidableBAll (fun c : Char => c.isDigit = true) l

theorem AllDigits.append {l m : List Char} (hl : AllDigits l) (hm : AllDigits m) :
    AllDigits (l ++ m) := by
  intro c hc
  rcases List.mem_append.mp hc with h | h
  · exact hl c h
  · exact hm c h

theorem allDigits_toDigits (n : Nat) : AllDigits (Nat.toDigits 10 n) :=
  fun _ hc => Nat.isDigit_of_mem_toDigits (by decide) (by decide) hc

theorem allDigits_replicate_zero (n : Nat) : AllDigits (List.replicate n '0') := by
  intro c hc
  rw [List.eq_of_mem_replicate hc]
  rfl

/-- A digit's value is below ten. -/
theorem digit_lt {c : Char} (h : c.isDigit = true) : c.toNat - '0'.toNat < 10 := by
  simp only [Char.isDigit, Bool.and_eq_true, decide_eq_true_eq] at h
  have h₁ : c.toNat ≤ 57 := h.2
  show c.toNat - 48 < 10
  omega

theorem zero_le_digit {c : Char} (h : c.isDigit = true) : '0'.toNat ≤ c.toNat := by
  simp only [Char.isDigit, Bool.and_eq_true, decide_eq_true_eq] at h
  exact h.1

/-- `l` padded on the left with zeros to the width `w`. -/
def padZeros (w : Nat) (l : List Char) : List Char := List.replicate (w - l.length) '0' ++ l

theorem length_padZeros {w : Nat} {l : List Char} (h : l.length ≤ w) : (padZeros w l).length = w := by
  rw [padZeros, List.length_append, List.length_replicate]
  omega

theorem AllDigits.padZeros {l : List Char} (h : AllDigits l) (w : Nat) : AllDigits (padZeros w l) :=
  (allDigits_replicate_zero _).append h

theorem ofDigitChars_padZeros (w : Nat) (l : List Char) :
    Nat.ofDigitChars 10 (padZeros w l) 0 = Nat.ofDigitChars 10 l 0 := by
  rw [padZeros, Nat.ofDigitChars_append, Nat.ofDigitChars_replicate_zero, Nat.mul_zero]

theorem ofDigitChars_append (l m : List Char) :
    Nat.ofDigitChars 10 (l ++ m) 0 = Nat.ofDigitChars 10 l 0 * 10 ^ m.length + Nat.ofDigitChars 10 m 0 := by
  rw [Nat.ofDigitChars_append, Nat.ofDigitChars_eq_ofDigitChars_zero, Nat.mul_comm]

theorem ofDigitChars_append_zeros (l : List Char) (n : Nat) :
    Nat.ofDigitChars 10 (l ++ List.replicate n '0') 0 = Nat.ofDigitChars 10 l 0 * 10 ^ n := by
  rw [Nat.ofDigitChars_append, Nat.ofDigitChars_replicate_zero, Nat.mul_comm]

/-- A whole part and a fraction of at most `d` places, read at `d` places: the
whole part counts in units of `10^d`. -/
theorem ofDigitChars_point (w f : List Char) {d : Nat} (h : f.length ≤ d) :
    Nat.ofDigitChars 10 (w ++ f) 0 * 10 ^ (d - f.length) =
      Nat.ofDigitChars 10 w 0 * 10 ^ d + Nat.ofDigitChars 10 f 0 * 10 ^ (d - f.length) := by
  have hpow : 10 ^ f.length * 10 ^ (d - f.length) = 10 ^ d := by
    rw [← Nat.pow_add, Nat.add_sub_cancel' h]
  rw [ofDigitChars_append, Nat.add_mul, Nat.mul_assoc, hpow]

/-- The leading digit is worth `10^(k - 1)` times its value. -/
theorem ofDigitChars_cons_zero (c : Char) (l : List Char) :
    Nat.ofDigitChars 10 (c :: l) 0 = (c.toNat - '0'.toNat) * 10 ^ l.length + Nat.ofDigitChars 10 l 0 := by
  rw [Nat.ofDigitChars_cons, Nat.ofDigitChars_eq_ofDigitChars_zero, Nat.mul_zero, Nat.zero_add,
    Nat.mul_comm]

/-- `k` digits stand for less than `10^k`. The induction peels the leading
digit, worth `10^(k - 1)` times at most nine. -/
theorem ofDigitChars_lt : ∀ {l : List Char}, AllDigits l → Nat.ofDigitChars 10 l 0 < 10 ^ l.length
  | [], _ => by simp
  | c :: l, h => by
    have hc := digit_lt (h c List.mem_cons_self)
    have ih := ofDigitChars_lt fun d hd => h d (List.mem_cons_of_mem _ hd)
    rw [ofDigitChars_cons_zero, List.length_cons, Nat.pow_succ]
    calc (c.toNat - '0'.toNat) * 10 ^ l.length + Nat.ofDigitChars 10 l 0
        < (c.toNat - '0'.toNat) * 10 ^ l.length + 10 ^ l.length := Nat.add_lt_add_left ih _
      _ = (c.toNat - '0'.toNat + 1) * 10 ^ l.length := by rw [Nat.succ_mul]
      _ ≤ 10 * 10 ^ l.length := Nat.mul_le_mul_right _ hc
      _ = 10 ^ l.length * 10 := Nat.mul_comm _ _

/-! ## A numeral read with its trailing zeros kept aside -/

/-- The text starts with a digit. -/
def startsWithDigit : List Char → Bool
  | c :: _ => c.isDigit
  | [] => false

/-- Every text is a run of digits and a text that does not start with one. -/
theorem exists_digits_append : ∀ (q : List Char),
    ∃ ds rest, q = ds ++ rest ∧ AllDigits ds ∧ startsWithDigit rest = false
  | [] => ⟨[], [], rfl, (fun _ h => nomatch h), rfl⟩
  | c :: q => by
    by_cases hc : c.isDigit = true
    · obtain ⟨ds, rest, rfl, hds, hrest⟩ := exists_digits_append q
      exact ⟨c :: ds, rest, rfl, List.forall_mem_cons.mpr ⟨hc, hds⟩, hrest⟩
    · exact ⟨[], c :: q, rfl, (fun _ h => nomatch h), by simpa [startsWithDigit] using hc⟩

/-- One digit read into a mantissa and a count of the zeros kept aside since
its last non-zero digit: a zero is counted, and a non-zero digit takes the
zeros kept aside into the mantissa. -/
def pushDigit (s : Nat × Nat) (c : Char) : Nat × Nat :=
  if c = '0' then (s.1, s.2 + 1) else (s.1 * 10 ^ (s.2 + 1) + (c.toNat - '0'.toNat), 0)

/-- `pushDigit` over the digits of a numeral. -/
def digitsFold (s : Nat × Nat) (ds : List Char) : Nat × Nat := ds.foldl pushDigit s

theorem digitsFold_cons (s : Nat × Nat) (c : Char) (ds : List Char) :
    digitsFold s (c :: ds) = digitsFold (pushDigit s c) ds := rfl

theorem digitsFold_append (s : Nat × Nat) (ds es : List Char) :
    digitsFold s (ds ++ es) = digitsFold (digitsFold s ds) es := List.foldl_append

theorem le_pushDigit (s : Nat × Nat) (c : Char) : s.1 ≤ (pushDigit s c).1 := by
  unfold pushDigit
  split
  · exact Nat.le_refl _
  · exact Nat.le_add_right_of_le (Nat.le_mul_of_pos_right _ (Nat.pow_pos (by decide)))

/-- The mantissa only grows. -/
theorem le_digitsFold : ∀ (s : Nat × Nat) (ds : List Char), s.1 ≤ (digitsFold s ds).1
  | _, [] => Nat.le_refl _
  | s, c :: ds => (le_pushDigit s c).trans (le_digitsFold (pushDigit s c) ds)

/-- Each digit adds at most one zero to those kept aside. -/
theorem digitsFold_snd_le : ∀ (s : Nat × Nat) (ds : List Char), (digitsFold s ds).2 ≤ s.2 + ds.length
  | _, [] => Nat.le_refl _
  | s, c :: ds => by
    have hpush : (pushDigit s c).2 ≤ s.2 + 1 := by
      unfold pushDigit
      split <;> simp
    have := digitsFold_snd_le (pushDigit s c) ds
    rw [digitsFold_cons, List.length_cons]
    omega

/-- The mantissa and the zeros kept aside together are the numeral read so
far. -/
theorem digitsFold_value : ∀ (s : Nat × Nat) {ds : List Char}, AllDigits ds →
    (digitsFold s ds).1 * 10 ^ (digitsFold s ds).2 = Nat.ofDigitChars 10 ds (s.1 * 10 ^ s.2)
  | s, [], _ => rfl
  | s, c :: ds, h => by
    have hpush : (pushDigit s c).1 * 10 ^ (pushDigit s c).2 = 10 * (s.1 * 10 ^ s.2) + (c.toNat - '0'.toNat) := by
      unfold pushDigit
      split
      · rename_i hc
        subst hc
        show s.1 * 10 ^ (s.2 + 1) = 10 * (s.1 * 10 ^ s.2) + 0
        ring
      · show (s.1 * 10 ^ (s.2 + 1) + (c.toNat - '0'.toNat)) * 10 ^ 0 = _
        ring
    rw [digitsFold_cons, digitsFold_value _ fun d hd => h d (List.mem_cons_of_mem c hd), hpush,
      Nat.ofDigitChars_cons]

/-- A non-zero digit is worth at least one. -/
theorem one_le_digit {c : Char} (h : c.isDigit = true) (h0 : c ≠ '0') : 1 ≤ c.toNat - '0'.toNat := by
  have hge := zero_le_digit h
  have hne : c.toNat ≠ '0'.toNat := fun e => h0 (Char.toNat_inj.mp e)
  omega

/-- `1` to `9` are digits. -/
theorem isDigit_of_nonzero {c : Char} (h1 : '1' ≤ c) (h9 : c ≤ '9') : c.isDigit = true := by
  have h1' : 49 ≤ c.toNat := h1
  have h9' : c.toNat ≤ 57 := h9
  simp only [Char.isDigit, Bool.and_eq_true, decide_eq_true_eq]
  exact ⟨show 48 ≤ c.toNat by omega, h9'⟩

theorem ne_zero_of_one_le {c : Char} (h1 : '1' ≤ c) : c ≠ '0' := by
  rintro rfl
  exact absurd h1 (by decide)

/-- The mantissa ends in a non-zero digit, unless no non-zero digit was read:
the zeros after the last one stay aside. -/
theorem digitsFold_mod_ten : ∀ (s : Nat × Nat) {ds : List Char}, AllDigits ds →
    (digitsFold s ds).1 = s.1 ∨ (digitsFold s ds).1 % 10 ≠ 0
  | s, [], _ => .inl rfl
  | s, c :: ds, h => by
    have hc := h c List.mem_cons_self
    have ih := digitsFold_mod_ten (pushDigit s c) fun d hd => h d (List.mem_cons_of_mem c hd)
    rw [digitsFold_cons]
    by_cases h0 : c = '0'
    · have hs : (pushDigit s c).1 = s.1 := by simp [pushDigit, h0]
      rwa [hs] at ih
    · -- the new mantissa ends in the digit just read
      have hmod : (pushDigit s c).1 % 10 ≠ 0 := by
        have h1 := one_le_digit hc h0
        have h9 := digit_lt hc
        have hpow : s.1 * 10 ^ (s.2 + 1) = s.1 * 10 ^ s.2 * 10 := by ring
        simp only [pushDigit, if_neg h0, hpow]
        omega
      rcases ih with ih | ih
      · exact .inr (ih ▸ hmod)
      · exact .inr ih

/-- Only zeros read from a zero mantissa keep it zero, each one kept aside. -/
theorem digitsFold_eq_zero : ∀ (t : Nat) {ds : List Char}, AllDigits ds →
    (digitsFold (0, t) ds).1 = 0 → (digitsFold (0, t) ds).2 = t + ds.length
  | t, [], _, _ => rfl
  | t, c :: ds, h, h0 => by
    have hc := h c List.mem_cons_self
    rw [digitsFold_cons] at h0 ⊢
    by_cases hz : c = '0'
    · have hs : pushDigit (0, t) c = (0, t + 1) := by simp [pushDigit, hz]
      rw [hs] at h0 ⊢
      rw [digitsFold_eq_zero (t + 1) (fun d hd => h d (List.mem_cons_of_mem c hd)) h0, List.length_cons]
      omega
    · -- a non-zero digit leaves a non-zero mantissa
      have h1 := one_le_digit hc hz
      have hle := le_digitsFold (pushDigit (0, t) c) ds
      simp only [pushDigit, if_neg hz, Nat.zero_mul, Nat.zero_add] at hle h0
      omega

end Decimal
