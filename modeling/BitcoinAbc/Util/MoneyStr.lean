import Mathlib
import BitcoinAbc.Consensus.Amount
import BitcoinAbc.Lib.Decimal

/-!
# Money strings (util/moneystr.cpp, consensus/amount.cpp)

`FormatMoney` writes an amount as `[-]whole.frac` in the running currency,
the fraction trimmed of its trailing zeros down to two places; the conversion
to `UniValue` writes it with all `decimals` places. `ParseMoney` reads such a
text back, digit by digit, with a guard on the length of the whole part
against overflow. The two currencies are `BCHA` (a coin of `COIN` satoshis,
eight decimals) and `XEC` (a coin of `100` satoshis, two decimals).

A text is a list of characters. Every `Amount` operation is the checked
`int64_t` arithmetic of `Consensus/Amount`, whose `overflow` is undefined
behaviour in the source.

- `FormatMoney_denotes`, `toUniValue_denotes`: for every amount but
  `INT64_MIN`, the text has the amount's sign, whole part and fraction;
- `ParseMoney_eq_ok`: `ParseMoney` never overflows, and what it accepts is the
  exact value of the trimmed text;
- `ParseMoney_FormatMoney`: every amount of `[0, MAX_MONEY]` is read back;
- `FormatMoney_INT64_MIN`: `-amt` overflows at `INT64_MIN`.
-/

namespace BitcoinAbc

open Script Decimal

/-- `Currency`: the value of a whole coin and of the smallest unit shown, and
the number of places of the fraction. The ticker is only used by
`Amount::ToString`, which is not modelled. -/
structure Currency where
  baseunit : Amount
  subunit : Amount
  decimals : Nat
  deriving DecidableEq, Repr

/-- `BCHA{COIN, SATOSHI, 8, "BCHA"}`. -/
def BCHA : Currency := ⟨COIN, Amount.SATOSHI, 8⟩

/-- `XEC{100 * SATOSHI, SATOSHI, 2, "XEC"}`. -/
def XEC : Currency := ⟨⟨100 * Amount.SATOSHI.amount⟩, Amount.SATOSHI, 2⟩

/-! ## Characters and C strings -/

/-- `IsDigit(c)`: `c >= '0' && c <= '9'`. -/
def IsDigit (c : Char) : Bool := decide ('0' ≤ c) && decide (c ≤ '9')

/-- `IsSpace(c)`: space, form feed, newline, carriage return, tab or vertical
tab. -/
def IsSpace (c : Char) : Bool :=
  c == ' ' || c == '\x0c' || c == '\n' || c == '\r' || c == '\t' || c == '\x0b'

/-- `ValidAsCString(str)`: no embedded NUL, so that `strlen` sees the whole
string. -/
def ValidAsCString (str : List Char) : Bool := !str.contains '\x00'

/-- `TrimString(str)` with its default pattern, the characters of `IsSpace`:
`str` without its leading and trailing white space. -/
def TrimString (str : List Char) : List Char :=
  ((str.dropWhile IsSpace).reverse.dropWhile IsSpace).reverse

/-- `atoi64(str)`, that is `strtoll(str, nullptr, 10)`: leading white space,
an optional sign, then the longest run of digits, saturated to the `int64_t`
range. -/
def atoi64 (str : List Char) : Int :=
  let s := str.dropWhile IsSpace
  let signed : Bool × List Char := match s with
    | '-' :: t => (true, t)
    | '+' :: t => (false, t)
    | _ => (false, s)
  let v : Int := Nat.ofDigitChars 10 (signed.2.takeWhile IsDigit) 0
  max INT64_MIN (min INT64_MAX (if signed.1 then -v else v))

/-- `strprintf("%d", n)`. -/
def formatInt (n : Int) : List Char :=
  (if n < 0 then ['-'] else []) ++ Nat.toDigits 10 n.natAbs

/-- `strprintf("%0*d", width, n)`: zero-padded on the left to `width`
characters, the sign counted. -/
def formatPadded (width : Nat) (n : Int) : List Char :=
  if n < 0 then '-' :: padZeros (width - 1) (Nat.toDigits 10 n.natAbs)
  else padZeros width (Nat.toDigits 10 n.natAbs)

/-! ## `FormatMoney` -/

/-- The trimming loop of `FormatMoney` from index `i` down: it counts the
zeros at `i`, `i - 1`, ... as long as the character two places before is a
digit. On the texts `FormatMoney` builds it stops at the second place of the
fraction, before `str[i - 2]` could leave the string. -/
def trimCount (str : List Char) : Nat → Nat
  | i + 2 =>
    if str.getD (i + 2) ' ' = '0' ∧ IsDigit (str.getD i ' ') = true then trimCount str (i + 1) + 1
    else 0
  | _ => 0

/-- The right trim of `FormatMoney`: `str` less the `nTrim` characters the
loop counts from its end. -/
def trimZeros (str : List Char) : List Char :=
  let nTrim := trimCount str (str.length - 1)
  str.take (str.length - nTrim)

/-- `FormatMoney(amt)`. -/
def FormatMoney (currency : Currency) (amt : Amount) : Except (CheckError Unit) (List Char) := do
  let amt_abs ← if amt.amount > 0 then pure amt else amt.neg
  let str := formatInt (amt_abs.amount.tdiv currency.baseunit.amount) ++
    '.' :: formatPadded currency.decimals
      ((amt_abs.amount.tmod currency.baseunit.amount).tdiv currency.subunit.amount)
  -- right-trim excess zeros before the decimal point
  let str := trimZeros str
  return if amt.amount < 0 then '-' :: str else str

/-- `Amount::operator UniValue()`: `[-]quotient.remainder`, the remainder
padded to `decimals` places and not trimmed. -/
def toUniValue (currency : Currency) (a : Amount) : Except (CheckError Unit) (List Char) := do
  let sign := decide (a.amount < 0)
  let n_abs ← if sign then a.neg else pure a
  let quotient := n_abs.amount.tdiv currency.baseunit.amount
  let remainder := (n_abs.amount.tmod currency.baseunit.amount).tdiv currency.subunit.amount
  return (if sign then ['-'] else []) ++ formatInt quotient ++ '.' :: formatPadded currency.decimals remainder

/-! ## `ParseMoney` -/

/-- `while (IsDigit(*p) && (nMult > Amount::zero())) { nUnits += (*p++ - '0') *
nMult; nMult /= 10; }`: the fraction, and the characters left at `p`. -/
def fracLoop : List Char → Amount → Amount → Except (CheckError Unit) (Amount × List Char)
  | [], _, nUnits => pure (nUnits, [])
  | c :: p, nMult, nUnits =>
    if IsDigit c = true ∧ nMult.amount > 0 then do
      let d ← Amount.mul (c.toNat - '0'.toNat) nMult
      let nUnits ← nUnits.add d
      fracLoop p ⟨nMult.amount.tdiv 10⟩ nUnits
    else pure (nUnits, c :: p)

/-- The loop `for (; *p; p++)` of `ParseMoney`: `none` where it returns
`false`; otherwise `strWhole`, `nUnits` and the characters left at `p`. -/
def wholeLoop (baseunit : Amount) :
    List Char → List Char → Except (CheckError Unit) (Option (List Char × Amount × List Char))
  | strWhole, [] => pure (some (strWhole, ⟨0⟩, []))
  | strWhole, c :: p =>
    if c = '.' then do
      let (nUnits, p) ← fracLoop p ⟨baseunit.amount.tdiv 10⟩ ⟨0⟩
      pure (some (strWhole, nUnits, p))
    else if IsSpace c = true then pure none
    else if IsDigit c = false then pure none
    else wholeLoop baseunit (strWhole ++ [c]) p

/-- `ParseMoney(money_string, nRet)`: `none` for `false`, `some nRet` for
`true`. -/
def ParseMoney (currency : Currency) (money_string : List Char) :
    Except (CheckError Unit) (Option Amount) := do
  if ValidAsCString money_string = false then return none
  let str := TrimString money_string
  if str.isEmpty then return none
  let some (strWhole, nUnits, p) ← wholeLoop currency.baseunit [] str | return none
  if !p.isEmpty then return none
  unless currency.decimals ≤ 18 do throw .assertFails
  -- guard against 63 bit overflow
  if strWhole.length > 18 - currency.decimals then return none
  if nUnits.amount < 0 ∨ nUnits.amount > currency.baseunit.amount then return none
  let nWhole ← Amount.mul (atoi64 strWhole) currency.baseunit
  let nRet ← nWhole.add nUnits
  return some nRet

/-! ## The two currencies -/

/-- A currency of `10^decimals` satoshis to the coin, shown to the satoshi,
with between two and eighteen places: both `BCHA` and `XEC`. -/
structure Currency.Decimal (c : Currency) : Prop where
  baseunit_eq : c.baseunit.amount = 10 ^ c.decimals
  subunit_eq : c.subunit.amount = 1
  two_le : 2 ≤ c.decimals
  le_eighteen : c.decimals ≤ 18

theorem BCHA_decimal : BCHA.Decimal := ⟨by decide, rfl, by decide, by decide⟩

theorem XEC_decimal : XEC.Decimal := ⟨by decide, rfl, by decide, by decide⟩

/-- A coin is at most `10^18` satoshis. -/
theorem Currency.Decimal.coin_le {c : Currency} (hc : c.Decimal) : 10 ^ c.decimals ≤ 10 ^ 18 :=
  Nat.pow_le_pow_right (by decide) hc.le_eighteen

theorem Currency.Decimal.baseunit_natCast {c : Currency} (hc : c.Decimal) :
    c.baseunit.amount = ((10 ^ c.decimals : Nat) : Int) := by
  rw [hc.baseunit_eq]
  push_cast
  rfl

/-! ## Characters -/

theorem IsDigit_eq (c : Char) : IsDigit c = c.isDigit := rfl

theorem IsSpace_of_isDigit {c : Char} (h : c.isDigit = true) : IsSpace c = false := by
  cases hs : IsSpace c
  · rfl
  · simp only [IsSpace, Bool.or_eq_true, beq_iff_eq] at hs
    rcases hs with ((((rfl | rfl) | rfl) | rfl) | rfl) | rfl <;> revert h <;> decide

theorem ne_of_isDigit {c d : Char} (h : c.isDigit = true) (hd : d.isDigit = false) : c ≠ d := by
  rintro rfl
  rw [h] at hd
  exact Bool.noConfusion hd

/-- `TrimString` keeps a text with no white space. -/
theorem TrimString_eq_self {s : List Char} (h : ∀ c ∈ s, IsSpace c = false) : TrimString s = s := by
  have hkeep : ∀ l : List Char, (∀ c ∈ l, IsSpace c = false) → l.dropWhile IsSpace = l := by
    intro l hl
    cases l with
    | nil => rfl
    | cons c t => exact List.dropWhile_cons_of_neg (by rw [hl c List.mem_cons_self]; decide)
  rw [TrimString, hkeep s h, hkeep s.reverse (fun c hc => h c (List.mem_reverse.mp hc)), List.reverse_reverse]

/-- On digits alone, `strtoll` reads the numeral's value. -/
theorem atoi64_digits {w : List Char} (hw : AllDigits w) (hlt : Nat.ofDigitChars 10 w 0 < 2 ^ 63) :
    atoi64 w = Nat.ofDigitChars 10 w 0 := by
  have hkeep : w.dropWhile IsSpace = w := by
    cases w with
    | nil => rfl
    | cons ch t => exact List.dropWhile_cons_of_neg (by rw [IsSpace_of_isDigit (hw ch List.mem_cons_self)]; decide)
  have hall : w.takeWhile IsDigit = w := List.takeWhile_eq_self_iff.mpr fun x hx => hw x hx
  unfold atoi64
  dsimp only
  rw [hkeep]
  -- a digit is no sign
  split
  · exact absurd (hw '-' List.mem_cons_self) (by decide)
  · exact absurd (hw '+' List.mem_cons_self) (by decide)
  · dsimp only
    rw [if_neg Bool.false_ne_true, hall]
    unfold INT64_MIN INT64_MAX
    omega

/-- The characters of `whole.frac` are digits and the point. -/
theorem mem_point_text {ds frac : List Char} (hds : AllDigits ds) (hfrac : AllDigits frac) :
    ∀ ch ∈ ds ++ '.' :: frac, ch.isDigit = true ∨ ch = '.' := by
  intro ch hch
  rcases List.mem_append.mp hch with h | h
  · exact .inl (hds ch h)
  · rcases List.mem_cons.mp h with rfl | h
    · exact .inr rfl
    · exact .inl (hfrac ch h)

/-- `whole.frac` is a C string with no white space to trim. -/
theorem point_text_plain {ds frac : List Char} (hds : AllDigits ds) (hfrac : AllDigits frac) :
    ValidAsCString (ds ++ '.' :: frac) = true ∧ TrimString (ds ++ '.' :: frac) = ds ++ '.' :: frac := by
  have hchars := mem_point_text hds hfrac
  have hnul : '\x00' ∉ ds ++ '.' :: frac := fun h => by
    rcases hchars _ h with h | h <;> revert h <;> decide
  constructor
  · simpa [ValidAsCString] using hnul
  · refine TrimString_eq_self fun ch hch => ?_
    rcases hchars ch hch with h | rfl
    · exact IsSpace_of_isDigit h
    · rfl

/-! ## The trimming loop -/

/-- The loop reads no further than its index. -/
theorem trimCount_append (l m : List Char) : ∀ j, j < l.length → trimCount (l ++ m) j = trimCount l j
  | 0, _ => rfl
  | 1, _ => rfl
  | i + 2, h => by
    rw [trimCount, trimCount, List.getD_append _ _ _ _ h, List.getD_append _ _ _ _ (by omega),
      trimCount_append l m (i + 1) (by omega)]

/-- On `pre ++ '.' :: frac`, with a fraction of at least two digits, the loop
counts the trailing zeros of the fraction past its second place. The induction
takes the fraction's last digit off: a zero is counted, and the rest of the
count is the loop on the shorter text. -/
theorem trimCount_point (pre : List Char) : ∀ (n : Nat) (frac : List Char), frac.length = n →
    AllDigits frac → 2 ≤ n →
    ∃ kept k, frac = kept ++ List.replicate k '0' ∧ 2 ≤ kept.length ∧
      trimCount (pre ++ '.' :: frac) (pre.length + n) = k
  | 0, _, _, _, h2 => absurd h2 (by decide)
  | 1, _, _, _, h2 => absurd h2 (by decide)
  | m + 2, frac, hlen, hdig, _ => by
    obtain ⟨frac0, x, rfl⟩ : ∃ frac0 x, frac = frac0 ++ [x] := by
      rcases List.eq_nil_or_concat frac with h | ⟨frac0, x, h⟩
      · rw [h] at hlen
        exact absurd hlen (by simp)
      · exact ⟨frac0, x, by rw [h, List.concat_eq_append]⟩
    have hlen0 : frac0.length = m + 1 := by simpa using hlen
    have hsplit : pre ++ '.' :: (frac0 ++ [x]) = (pre ++ '.' :: frac0) ++ [x] := by simp
    have hlast : (pre ++ '.' :: (frac0 ++ [x])).getD (pre.length + m + 2) ' ' = x := by
      rw [hsplit, List.getD_append_right _ _ _ _ (by simp; omega),
        show pre.length + m + 2 - (pre ++ '.' :: frac0).length = 0 by simp; omega]
      rfl
    -- nothing is kept from a fraction that is all zeros past its second place
    have hnone : ∃ kept k, frac0 ++ [x] = kept ++ List.replicate k '0' ∧ 2 ≤ kept.length ∧ 0 = k :=
      ⟨frac0 ++ [x], 0, by simp, by simp; omega, rfl⟩
    rw [show pre.length + (m + 2) = pre.length + m + 2 by omega, trimCount, hlast]
    cases m with
    | zero =>
      -- two places before the last is the point
      have hpoint : (pre ++ '.' :: (frac0 ++ [x])).getD (pre.length + 0) ' ' = '.' := by simp
      rw [hpoint, if_neg (fun h => absurd h.2 (by decide))]
      exact hnone
    | succ m =>
      have hdigit : IsDigit ((pre ++ '.' :: (frac0 ++ [x])).getD (pre.length + (m + 1)) ' ') = true := by
        rw [List.getD_append_right _ _ _ _ (by omega), show pre.length + (m + 1) - pre.length = m + 1 by omega,
          List.getD_cons_succ, List.getD_append _ _ _ _ (by omega), List.getD_eq_getElem _ _ (by omega),
          IsDigit_eq]
        exact hdig _ (List.mem_append_left _ (List.getElem_mem _))
      by_cases hx : x = '0'
      · rw [if_pos ⟨hx, hdigit⟩, hsplit, show pre.length + (m + 1) + 1 = pre.length + (m + 2) by omega,
          trimCount_append _ _ _ (by simp; omega)]
        obtain ⟨kept, k, hfrac0, hkept, hcount⟩ :=
          trimCount_point pre (m + 2) frac0 hlen0 (fun c hc => hdig c (List.mem_append_left _ hc))
            (Nat.le_add_left _ _)
        refine ⟨kept, k + 1, ?_, hkept, ?_⟩
        · rw [hfrac0, hx, List.replicate_succ', List.append_assoc]
        · rw [hcount]
      · rw [if_neg (fun h => hx h.1)]
        exact hnone

/-! ## What a money text stands for -/

/-- A money text: a sign, the digits of the whole part and those of the
fraction after the point. -/
structure MoneyText where
  negative : Bool
  whole : List Char
  frac : List Char
  deriving DecidableEq, Repr

namespace MoneyText

/-- The characters of the text, `[-]whole.frac`. -/
def render (t : MoneyText) : List Char := (if t.negative then ['-'] else []) ++ t.whole ++ '.' :: t.frac

/-- The magnitude in satoshis of a text at `decimals` places. -/
def units (decimals : Nat) (t : MoneyText) : Nat :=
  Nat.ofDigitChars 10 (t.whole ++ t.frac) 0 * 10 ^ (decimals - t.frac.length)

/-- The amount in satoshis a text stands for at `decimals` places. -/
def value (decimals : Nat) (t : MoneyText) : Int :=
  if t.negative then -(t.units decimals : Int) else t.units decimals

/-- Digits on both sides of the point, at most `decimals` of them after it. -/
structure WellFormed (decimals : Nat) (t : MoneyText) : Prop where
  whole_digits : AllDigits t.whole
  whole_ne_nil : t.whole ≠ []
  frac_digits : AllDigits t.frac
  frac_le : t.frac.length ≤ decimals

/-- The whole part counts in coins of `10^decimals`, the fraction in its
places. -/
theorem units_eq {decimals : Nat} {t : MoneyText} (h : t.frac.length ≤ decimals) :
    t.units decimals = Nat.ofDigitChars 10 t.whole 0 * 10 ^ decimals +
      Nat.ofDigitChars 10 t.frac 0 * 10 ^ (decimals - t.frac.length) :=
  ofDigitChars_point t.whole t.frac h

/-- The fraction is worth less than a coin. -/
theorem frac_units_lt {decimals : Nat} {t : MoneyText} (hwf : t.frac.length ≤ decimals)
    (hdig : AllDigits t.frac) :
    Nat.ofDigitChars 10 t.frac 0 * 10 ^ (decimals - t.frac.length) < 10 ^ decimals := by
  calc Nat.ofDigitChars 10 t.frac 0 * 10 ^ (decimals - t.frac.length)
      < 10 ^ t.frac.length * 10 ^ (decimals - t.frac.length) :=
        Nat.mul_lt_mul_of_pos_right (ofDigitChars_lt hdig) (Nat.two_pow_pos _ |>.trans_le
          (Nat.pow_le_pow_left (by decide) _))
    _ = 10 ^ decimals := by rw [← Nat.pow_add, Nat.add_sub_cancel' hwf]

end MoneyText

/-! ## `FormatMoney` and the `UniValue` conversion -/

section Format

variable {c : Currency}

/-- The untrimmed text of `n ≥ 0` satoshis: the quotient, and the remainder
padded to `decimals` places. -/
theorem formatParts_eq (hc : c.Decimal) (n : Nat) :
    formatInt ((n : Int).tdiv c.baseunit.amount) ++
        '.' :: formatPadded c.decimals (((n : Int).tmod c.baseunit.amount).tdiv c.subunit.amount) =
      Nat.toDigits 10 (n / 10 ^ c.decimals) ++
        '.' :: padZeros c.decimals (Nat.toDigits 10 (n % 10 ^ c.decimals)) := by
  rw [hc.baseunit_natCast, hc.subunit_eq, ← Int.ofNat_tdiv, ← Int.ofNat_tmod, Int.tdiv_one, formatInt, formatPadded,
    if_neg (Int.not_lt.mpr (Int.natCast_nonneg _)), if_neg (Int.not_lt.mpr (Int.natCast_nonneg _)),
    Int.natAbs_natCast, Int.natAbs_natCast, List.nil_append]

/-- The remainder's digits fill the `decimals` places. -/
theorem length_padZeros_mod (n : Nat) {d : Nat} (hd : 0 < d) :
    (padZeros d (Nat.toDigits 10 (n % 10 ^ d))).length = d :=
  length_padZeros ((Nat.length_toDigits_le_iff (by decide) hd).mpr (Nat.mod_lt _ (Nat.pow_pos (by decide))))

/-- `FormatMoney`'s text of `n ≥ 0` satoshis before the sign: the whole part,
and the fraction less its trailing zeros past the second place, with the same
value. -/
theorem formatTrimmed_eq (hc : c.Decimal) (n : Nat) :
    ∃ kept, trimZeros (Nat.toDigits 10 (n / 10 ^ c.decimals) ++
        '.' :: padZeros c.decimals (Nat.toDigits 10 (n % 10 ^ c.decimals))) =
        Nat.toDigits 10 (n / 10 ^ c.decimals) ++ '.' :: kept ∧
      AllDigits kept ∧ 2 ≤ kept.length ∧ kept.length ≤ c.decimals ∧
      Nat.ofDigitChars 10 kept 0 * 10 ^ (c.decimals - kept.length) = n % 10 ^ c.decimals := by
  generalize hW : Nat.toDigits 10 (n / 10 ^ c.decimals) = W
  generalize hF : padZeros c.decimals (Nat.toDigits 10 (n % 10 ^ c.decimals)) = F
  have hFlen : F.length = c.decimals := hF ▸ length_padZeros_mod n (by have := hc.two_le; omega)
  have hFdig : AllDigits F := hF ▸ (allDigits_toDigits _).padZeros _
  have hFval : Nat.ofDigitChars 10 F 0 = n % 10 ^ c.decimals := by
    rw [← hF, ofDigitChars_padZeros, Nat.ofDigitChars_ten_toDigits]
  obtain ⟨kept, k, rfl, hkept, hcount⟩ := trimCount_point W c.decimals F hFlen hFdig hc.two_le
  have hlen : (W ++ '.' :: (kept ++ List.replicate k '0')).length - 1 = W.length + c.decimals := by
    simp only [List.length_append, List.length_cons, List.length_replicate] at hFlen ⊢
    omega
  have hklen : kept.length + k = c.decimals := by simpa using hFlen
  refine ⟨kept, ?_, fun x hx => hFdig x (List.mem_append_left _ hx), hkept, by omega, ?_⟩
  · rw [trimZeros, hlen, hcount, show W ++ '.' :: (kept ++ List.replicate k '0') =
      (W ++ '.' :: kept) ++ List.replicate k '0' by simp]
    exact List.take_left' (by simp; omega)
  · rw [← hFval, ofDigitChars_append_zeros, show c.decimals - kept.length = k by omega]

/-- Away from `INT64_MIN`, the magnitude `amt > 0 ? amt : -amt` is computed
without overflow; the `do` block continues with it in both branches. -/
theorem abs_bind_eq {β : Type} {a : Amount} (ha : INT64_MIN < a.amount) (ha' : a.amount ≤ INT64_MAX)
    (k : Amount → Except (CheckError Unit) β) :
    (if a.amount > 0 then pure a >>= k else a.neg >>= k) = k ⟨(a.amount.natAbs : Int)⟩ := by
  obtain ⟨A⟩ := a
  unfold INT64_MIN at ha
  unfold INT64_MAX at ha'
  dsimp only at ha ha' ⊢
  by_cases hpos : A > 0
  · rw [if_pos hpos, show A = (A.natAbs : Int) by omega]
    rfl
  · rw [if_neg hpos, Amount.neg]
    dsimp only
    rw [if_pos (CScriptNum.inInt64_iff.mpr (by omega)), Except.ok_bind, show -A = (A.natAbs : Int) by omega]

/-- The same magnitude as `sign ? -amount : amount`. -/
theorem signAbs_bind_eq {β : Type} {a : Amount} (ha : INT64_MIN < a.amount) (ha' : a.amount ≤ INT64_MAX)
    (k : Amount → Except (CheckError Unit) β) :
    (if decide (a.amount < 0) = true then a.neg >>= k else pure a >>= k) = k ⟨(a.amount.natAbs : Int)⟩ := by
  obtain ⟨A⟩ := a
  unfold INT64_MIN at ha
  unfold INT64_MAX at ha'
  dsimp only at ha ha' ⊢
  by_cases hneg : A < 0
  · rw [if_pos (decide_eq_true hneg), Amount.neg]
    dsimp only
    rw [if_pos (CScriptNum.inInt64_iff.mpr (by omega)), Except.ok_bind, show -A = (A.natAbs : Int) by omega]
  · rw [if_neg (by simpa using hneg), show A = (A.natAbs : Int) by omega]
    rfl

/-- The magnitude split into the coins and the fraction. -/
theorem units_toDigits (d n : Nat) {frac : List Char} (hle : frac.length ≤ d)
    (hfrac : Nat.ofDigitChars 10 frac 0 * 10 ^ (d - frac.length) = n % 10 ^ d) (negative : Bool) :
    MoneyText.units d ⟨negative, Nat.toDigits 10 (n / 10 ^ d), frac⟩ = n := by
  rw [MoneyText.units_eq hle]
  dsimp only
  rw [Nat.ofDigitChars_ten_toDigits, hfrac, Nat.div_add_mod']

theorem value_of_units {d : Nat} {t : MoneyText} {a : Int} (hneg : t.negative = decide (a < 0))
    (hunits : t.units d = a.natAbs) : t.value d = a := by
  rw [MoneyText.value, hunits, hneg]
  by_cases ha : a < 0
  · rw [if_pos (decide_eq_true ha)]
    omega
  · rw [if_neg (by simpa using ha)]
    omega

/-- For every amount but `INT64_MIN`, `FormatMoney` writes its sign, the digits
of its whole coins and a fraction of two to `decimals` places, with the
amount's value. -/
theorem FormatMoney_denotes (hc : c.Decimal) {a : Amount} (ha : INT64_MIN < a.amount)
    (ha' : a.amount ≤ INT64_MAX) :
    ∃ t : MoneyText, FormatMoney c a = .ok t.render ∧ t.WellFormed c.decimals ∧ 2 ≤ t.frac.length ∧
      t.negative = decide (a.amount < 0) ∧
      t.whole = Nat.toDigits 10 (a.amount.natAbs / 10 ^ c.decimals) ∧ t.value c.decimals = a.amount := by
  obtain ⟨kept, htrim, hdig, h2, hle, hval⟩ := formatTrimmed_eq hc a.amount.natAbs
  refine ⟨⟨decide (a.amount < 0), Nat.toDigits 10 (a.amount.natAbs / 10 ^ c.decimals), kept⟩, ?_,
    ⟨allDigits_toDigits _, Nat.toDigits_ne_nil, hdig, hle⟩, h2, rfl, rfl,
    value_of_units rfl (units_toDigits _ _ hle hval _)⟩
  rw [FormatMoney, abs_bind_eq ha ha']
  dsimp only
  rw [formatParts_eq hc, htrim, MoneyText.render]
  by_cases hneg : a.amount < 0
  · rw [if_pos hneg, if_pos (decide_eq_true hneg)]
    rfl
  · rw [if_neg hneg, if_neg (by simpa using hneg)]
    rfl

/-- For every amount but `INT64_MIN`, the `UniValue` text has the amount's
sign, whole coins and all `decimals` places. -/
theorem toUniValue_denotes (hc : c.Decimal) {a : Amount} (ha : INT64_MIN < a.amount)
    (ha' : a.amount ≤ INT64_MAX) :
    ∃ t : MoneyText, toUniValue c a = .ok t.render ∧ t.WellFormed c.decimals ∧
      t.frac.length = c.decimals ∧ t.negative = decide (a.amount < 0) ∧ t.value c.decimals = a.amount := by
  have hd : 0 < c.decimals := by have := hc.two_le; omega
  have hlen := length_padZeros_mod a.amount.natAbs hd
  have hval : Nat.ofDigitChars 10 (padZeros c.decimals (Nat.toDigits 10 (a.amount.natAbs % 10 ^ c.decimals))) 0 *
      10 ^ (c.decimals - (padZeros c.decimals (Nat.toDigits 10 (a.amount.natAbs % 10 ^ c.decimals))).length) =
      a.amount.natAbs % 10 ^ c.decimals := by
    rw [hlen, Nat.sub_self, Nat.pow_zero, Nat.mul_one, ofDigitChars_padZeros, Nat.ofDigitChars_ten_toDigits]
  refine ⟨⟨decide (a.amount < 0), Nat.toDigits 10 (a.amount.natAbs / 10 ^ c.decimals),
    padZeros c.decimals (Nat.toDigits 10 (a.amount.natAbs % 10 ^ c.decimals))⟩, ?_,
    ⟨allDigits_toDigits _, Nat.toDigits_ne_nil, (allDigits_toDigits _).padZeros _, hlen.le⟩, hlen, rfl,
    value_of_units rfl (units_toDigits _ _ hlen.le hval _)⟩
  rw [toUniValue, signAbs_bind_eq ha ha']
  dsimp only
  rw [List.append_assoc, formatParts_eq hc, MoneyText.render, List.append_assoc]
  rfl

end Format

/-- `-amt` overflows `int64_t` at `INT64_MIN`, in `FormatMoney` and in the
`UniValue` conversion alike, whatever the currency. -/
theorem FormatMoney_INT64_MIN (c : Currency) :
    FormatMoney c ⟨INT64_MIN⟩ = .error .overflow ∧ toUniValue c ⟨INT64_MIN⟩ = .error .overflow := by
  have hneg : (Amount.neg ⟨INT64_MIN⟩ : Except (CheckError Unit) Amount) = .error .overflow :=
    if_neg (by decide)
  constructor
  · rw [FormatMoney, if_neg (by decide), hneg]
    rfl
  · rw [toUniValue, if_pos (by decide), hneg]
    rfl

/-! ## `ParseMoney` -/

/-- A multiplier of zero ends the fraction at once. -/
theorem fracLoop_zero (p : List Char) (nUnits : Amount) : fracLoop p ⟨0⟩ nUnits = .ok (nUnits, p) := by
  cases p with
  | nil => rfl
  | cons ch p =>
    rw [fracLoop, if_neg (fun h => absurd h.2 (by decide))]
    rfl

/-- The digit at the front of the fraction moves up `len` places. -/
theorem frac_step (d v len k : Nat) (hlen : len ≤ k + 1) :
    d * 10 ^ (k + 1) + v * 10 ^ (k + 1 - len) = (d * 10 ^ len + v) * 10 ^ (k + 1 + 1 - (len + 1)) := by
  have hpow : 10 ^ len * 10 ^ (k + 1 - len) = 10 ^ (k + 1) := by rw [← Nat.pow_add, Nat.add_sub_cancel' hlen]
  rw [show k + 1 + 1 - (len + 1) = k + 1 - len by omega, Nat.add_mul, Nat.mul_assoc, hpow]

/-- With the multipliers `10^k, ..., 10, 1`, the loop reads at most `k + 1`
digits into the units, and stops before that only at a character that is not
a digit. The induction is on the characters, the multiplier dropping a power
of ten at each digit; the bound keeps every sum inside `int64_t`. -/
theorem fracLoop_spec : ∀ (p : List Char) (k u : Nat), u + 10 ^ (k + 1) ≤ 2 ^ 63 →
    ∃ ds rest, p = ds ++ rest ∧ AllDigits ds ∧ ds.length ≤ k + 1 ∧
      (ds.length < k + 1 → ∀ ch ∈ rest.head?, ch.isDigit = false) ∧
      fracLoop p ⟨((10 ^ k : Nat) : Int)⟩ ⟨(u : Int)⟩ =
        .ok (⟨((u + Nat.ofDigitChars 10 ds 0 * 10 ^ (k + 1 - ds.length) : Nat) : Int)⟩, rest)
  | [], k, u, _ =>
    ⟨[], [], rfl, (fun _ h => nomatch h), Nat.zero_le _, (fun _ _ h => nomatch h), by simp [fracLoop]⟩
  | ch :: p, k, u, hu => by
    by_cases hd : ch.isDigit = true
    · have hdlt := digit_lt hd
      -- the digit's share, and room for the rest of the fraction after it
      have hpos : 0 < 10 ^ k := Nat.pow_pos (by decide)
      have hshare : (ch.toNat - '0'.toNat) * 10 ^ k + 10 ^ k ≤ 10 ^ (k + 1) := by
        rw [← Nat.succ_mul, Nat.pow_succ, Nat.mul_comm (10 ^ k)]
        exact Nat.mul_le_mul_right _ hdlt
      -- `*p - '0'` is the digit's value
      have hval : (ch.toNat : Int) - ('0'.toNat : Int) = ((ch.toNat - '0'.toNat : Nat) : Int) := by
        have := zero_le_digit hd
        omega
      have hmul : (Amount.mul ((ch.toNat : Int) - ('0'.toNat : Int)) ⟨((10 ^ k : Nat) : Int)⟩ :
          Except (CheckError Unit) Amount) = .ok ⟨(((ch.toNat - '0'.toNat) * 10 ^ k : Nat) : Int)⟩ := by
        rw [hval, Amount.mul_eq_ok] <;> dsimp only <;> rw [← Int.natCast_mul]
        exact CScriptNum.inInt64_iff.mpr (by omega)
      have hadd : (Amount.add ⟨(u : Int)⟩ ⟨(((ch.toNat - '0'.toNat) * 10 ^ k : Nat) : Int)⟩ :
          Except (CheckError Unit) Amount) = .ok ⟨((u + (ch.toNat - '0'.toNat) * 10 ^ k : Nat) : Int)⟩ := by
        rw [Amount.add_eq_ok] <;> dsimp only <;> rw [← Int.natCast_add]
        exact CScriptNum.inInt64_iff.mpr (by omega)
      rw [fracLoop, if_pos ⟨hd, by dsimp only; exact Int.natCast_pos.mpr (Nat.pow_pos (by decide))⟩]
      simp only [hmul, hadd, Except.ok_bind]
      cases k with
      | zero =>
        -- the last place: the multiplier drops to zero
        refine ⟨[ch], p, rfl, fun x hx => by rw [List.mem_singleton.mp hx]; exact hd, le_rfl,
          fun h => absurd h (by simp), ?_⟩
        rw [show ((10 ^ 0 : Nat) : Int).tdiv 10 = 0 by decide, fracLoop_zero, ofDigitChars_cons_zero]
        simp
      | succ k =>
        have hdiv : ((10 ^ (k + 1) : Nat) : Int).tdiv 10 = ((10 ^ k : Nat) : Int) := by
          rw [show (10 : Int) = ((10 : Nat) : Int) from rfl, ← Int.ofNat_tdiv, Nat.pow_succ,
            Nat.mul_div_cancel _ (by decide)]
        rw [hdiv]
        obtain ⟨ds, rest, rfl, hdig, hlen, hstop, hrun⟩ :=
          fracLoop_spec p k (u + (ch.toNat - '0'.toNat) * 10 ^ (k + 1)) (by
            have : 10 ^ (k + 1 + 1) = 10 ^ (k + 1) * 10 := Nat.pow_succ 10 (k + 1)
            omega)
        refine ⟨ch :: ds, rest, rfl, ?_, by simp; omega, fun h => hstop (by simp at h; omega), ?_⟩
        · intro x hx
          rcases List.mem_cons.mp hx with rfl | hx
          · exact hd
          · exact hdig x hx
        · rw [hrun, ofDigitChars_cons_zero, List.length_cons, Nat.add_assoc,
            frac_step _ _ _ _ hlen]
    · -- not a digit: the loop stops here
      rw [fracLoop, if_neg (fun h => hd (by rw [← IsDigit_eq]; exact h.1))]
      refine ⟨[], ch :: p, rfl, (fun _ h => nomatch h), Nat.zero_le _, (fun _ x hx => ?_), by simp⟩
      rw [Option.mem_def, List.head?_cons, Option.some.injEq] at hx
      rw [← hx]
      simpa using hd

/-- A fraction of at most `k + 1` digits is read whole. -/
theorem fracLoop_all {frac : List Char} {k u : Nat} (hdig : AllDigits frac) (hlen : frac.length ≤ k + 1)
    (hu : u + 10 ^ (k + 1) ≤ 2 ^ 63) :
    fracLoop frac ⟨((10 ^ k : Nat) : Int)⟩ ⟨(u : Int)⟩ =
      .ok (⟨((u + Nat.ofDigitChars 10 frac 0 * 10 ^ (k + 1 - frac.length) : Nat) : Int)⟩, []) := by
  obtain ⟨ds, rest, rfl, -, hds, hstop, hrun⟩ := fracLoop_spec frac k u hu
  -- the loop stops early only at a character that is not a digit, and there is none
  obtain rfl : rest = [] := by
    cases rest with
    | nil => rfl
    | cons ch rest =>
      have hch : ch.isDigit = true := hdig ch (List.mem_append_right _ List.mem_cons_self)
      have hshort : ds.length < k + 1 := by
        rw [List.length_append, List.length_cons] at hlen
        omega
      exact absurd (hstop hshort ch rfl) (by rw [hch]; decide)
  rw [List.append_nil] at hrun ⊢
  exact hrun

/-- Digits extend `strWhole` and the loop goes on after them. -/
theorem wholeLoop_digits (baseunit : Amount) : ∀ (ds acc rest : List Char), AllDigits ds →
    wholeLoop baseunit acc (ds ++ rest) = wholeLoop baseunit (acc ++ ds) rest
  | [], acc, rest, _ => by rw [List.nil_append, List.append_nil]
  | ch :: ds, acc, rest, hdig => by
    have hd : ch.isDigit = true := hdig ch List.mem_cons_self
    rw [List.cons_append, wholeLoop, if_neg (ne_of_isDigit hd (by decide)),
      if_neg (by rw [IsSpace_of_isDigit hd]; decide), if_neg (by rw [IsDigit_eq, hd]; decide),
      wholeLoop_digits baseunit ds (acc ++ [ch]) rest (fun x hx => hdig x (List.mem_cons_of_mem _ hx)),
      List.append_assoc, List.singleton_append]

section Parse

variable {c : Currency}

/-- The first multiplier of the fraction, `baseunit / 10`. -/
theorem baseunit_tdiv_ten (hc : c.Decimal) :
    c.baseunit.amount.tdiv 10 = ((10 ^ (c.decimals - 1) : Nat) : Int) := by
  have hd : c.decimals = c.decimals - 1 + 1 := by have := hc.two_le; omega
  rw [hc.baseunit_natCast, show (10 : Int) = ((10 : Nat) : Int) from rfl, ← Int.ofNat_tdiv, hd, Nat.pow_succ,
    Nat.mul_div_cancel _ (by decide), Nat.add_sub_cancel]

/-- What the loop ends with when it reaches the end of the text: the digits
it has read, then possibly a point and at most `decimals` digits of fraction,
worth `nUnits`. On a text of the two currencies it never overflows. -/
theorem wholeLoop_spec (hc : c.Decimal) : ∀ (str acc : List Char), ∃ r,
    wholeLoop c.baseunit acc str = .ok r ∧ ∀ w nUnits, r = some (w, nUnits, []) →
      ∃ ds frac, AllDigits ds ∧ AllDigits frac ∧ frac.length ≤ c.decimals ∧ w = acc ++ ds ∧
        (frac = [] ∧ str = ds ∨ str = ds ++ '.' :: frac) ∧
        nUnits.amount = ((Nat.ofDigitChars 10 frac 0 * 10 ^ (c.decimals - frac.length) : Nat) : Int)
  | [], acc => ⟨_, rfl, fun w nUnits h => by
      obtain ⟨rfl, rfl⟩ : acc = w ∧ (⟨0⟩ : Amount) = nUnits := by simpa using h
      exact ⟨[], [], (fun _ h => nomatch h), (fun _ h => nomatch h), Nat.zero_le _, by simp,
        .inl ⟨rfl, rfl⟩, by simp⟩⟩
  | ch :: str, acc => by
    have hd1 : c.decimals - 1 + 1 = c.decimals := by have := hc.two_le; omega
    by_cases hpt : ch = '.'
    · -- the point: the fraction with the multipliers `10^(decimals - 1), ..., 1`
      subst hpt
      have hbound : 0 + 10 ^ (c.decimals - 1 + 1) ≤ 2 ^ 63 := by
        rw [hd1, Nat.zero_add]
        exact hc.coin_le.trans (by decide)
      obtain ⟨ds, rest, rfl, hdig, hlen, -, hrun⟩ := fracLoop_spec str (c.decimals - 1) 0 hbound
      rw [hd1, Nat.zero_add, Int.natCast_zero] at hrun
      refine ⟨some (acc, ⟨((Nat.ofDigitChars 10 ds 0 * 10 ^ (c.decimals - ds.length) : Nat) : Int)⟩, rest),
        by rw [wholeLoop, if_pos rfl, baseunit_tdiv_ten hc, hrun]; rfl, ?_⟩
      intro w nUnits h
      obtain ⟨rfl, rfl, rfl⟩ : acc = w ∧ _ = nUnits ∧ rest = [] := by simpa using h
      exact ⟨[], ds, (fun _ h => nomatch h), hdig, hd1 ▸ hlen, by simp, .inr (by simp), rfl⟩
    · by_cases hsp : IsSpace ch = true
      · exact ⟨none, by rw [wholeLoop, if_neg hpt, if_pos hsp]; rfl, fun _ _ h => nomatch h⟩
      by_cases hdg : IsDigit ch = false
      · exact ⟨none, by rw [wholeLoop, if_neg hpt, if_neg hsp, if_pos hdg]; rfl, fun _ _ h => nomatch h⟩
      -- a digit of the whole part
      obtain ⟨r, hr, hspec⟩ := wholeLoop_spec hc str (acc ++ [ch])
      refine ⟨r, by rw [wholeLoop, if_neg hpt, if_neg hsp, if_neg hdg]; exact hr, ?_⟩
      intro w nUnits h
      obtain ⟨ds, frac, hds, hfrac, hle, rfl, hshape, hval⟩ := hspec w nUnits h
      have hch : ch.isDigit = true := by rw [← IsDigit_eq]; simpa using hdg
      refine ⟨ch :: ds, frac, ?_, hfrac, hle, by simp, ?_, hval⟩
      · intro x hx
        rcases List.mem_cons.mp hx with rfl | hx
        · exact hch
        · exact hds x hx
      · rcases hshape with ⟨rfl, rfl⟩ | rfl
        · exact .inl ⟨rfl, rfl⟩
        · exact .inr rfl

/-- Digits, a point and a fraction of at most `decimals` digits: the loop
reads them all. -/
theorem wholeLoop_point (hc : c.Decimal) {ds frac : List Char} (hds : AllDigits ds) (hfrac : AllDigits frac)
    (hle : frac.length ≤ c.decimals) :
    wholeLoop c.baseunit [] (ds ++ '.' :: frac) =
      .ok (some (ds, ⟨((Nat.ofDigitChars 10 frac 0 * 10 ^ (c.decimals - frac.length) : Nat) : Int)⟩, [])) := by
  have hd1 : c.decimals - 1 + 1 = c.decimals := by have := hc.two_le; omega
  have hrun := fracLoop_all (u := 0) hfrac (hd1.symm ▸ hle)
    (by rw [hd1, Nat.zero_add]; exact hc.coin_le.trans (by decide))
  rw [hd1, Nat.zero_add, Int.natCast_zero] at hrun
  rw [wholeLoop_digits _ ds [] _ hds, List.nil_append, wholeLoop, if_pos rfl, baseunit_tdiv_ten hc, hrun]
  rfl

/-- A whole part that passes the length guard is worth at most `10^18`
satoshis with a coin's worth to spare. -/
theorem whole_units_le (hc : c.Decimal) {ds : List Char} (hds : AllDigits ds)
    (hlen : ds.length ≤ 18 - c.decimals) :
    Nat.ofDigitChars 10 ds 0 * 10 ^ c.decimals + 10 ^ c.decimals ≤ 10 ^ 18 := by
  have hwlt : Nat.ofDigitChars 10 ds 0 < 10 ^ (18 - c.decimals) :=
    lt_of_lt_of_le (ofDigitChars_lt hds) (Nat.pow_le_pow_right (by decide) hlen)
  rw [← Nat.succ_mul, ← Nat.sub_add_cancel hc.le_eighteen, Nat.pow_add]
  exact Nat.mul_le_mul_right _ hwlt

/-- `atoi64(strWhole) * baseunit` on a whole part that passes the length
guard: no overflow, since `10^18 < 2^63`. -/
theorem atoi64_mul_baseunit (hc : c.Decimal) {ds : List Char} (hds : AllDigits ds)
    (hlen : ds.length ≤ 18 - c.decimals) :
    (Amount.mul (atoi64 ds) c.baseunit : Except (CheckError Unit) Amount) =
      .ok ⟨((Nat.ofDigitChars 10 ds 0 * 10 ^ c.decimals : Nat) : Int)⟩ := by
  have hwhole := whole_units_le hc hds hlen
  have hcoin : 0 < 10 ^ c.decimals := Nat.pow_pos (by decide)
  have hle : Nat.ofDigitChars 10 ds 0 ≤ Nat.ofDigitChars 10 ds 0 * 10 ^ c.decimals := Nat.le_mul_of_pos_right _ hcoin
  have h18 : 10 ^ 18 < 2 ^ 63 := by decide
  rw [atoi64_digits hds (by omega), Amount.mul_eq_ok] <;> rw [hc.baseunit_natCast, ← Int.natCast_mul]
  exact CScriptNum.inInt64_iff.mpr (by omega)

/-- `nWhole + nUnits`, with the units below a coin: no overflow either. -/
theorem add_units_eq (hc : c.Decimal) {ds : List Char} (hds : AllDigits ds)
    (hlen : ds.length ≤ 18 - c.decimals) {u : Nat} (hu : u < 10 ^ c.decimals) :
    (Amount.add ⟨((Nat.ofDigitChars 10 ds 0 * 10 ^ c.decimals : Nat) : Int)⟩ ⟨(u : Int)⟩ :
      Except (CheckError Unit) Amount) = .ok ⟨((Nat.ofDigitChars 10 ds 0 * 10 ^ c.decimals + u : Nat) : Int)⟩ := by
  have hwhole := whole_units_le hc hds hlen
  have hcoin : 0 < 10 ^ c.decimals := Nat.pow_pos (by decide)
  have h18 : 10 ^ 18 < 2 ^ 63 := by decide
  rw [Amount.add_eq_ok] <;> dsimp only <;> rw [← Int.natCast_add]
  exact CScriptNum.inInt64_iff.mpr (by omega)

/-- `ParseMoney` never overflows on a text of a decimal currency, and what it
accepts is the trimmed text, digits with at most `decimals` of them after an
optional point, at its exact value. -/
theorem ParseMoney_eq_ok (hc : c.Decimal) (money_string : List Char) :
    ∃ r, ParseMoney c money_string = .ok r ∧ ∀ nRet, r = some nRet →
      ∃ whole frac, AllDigits whole ∧ AllDigits frac ∧ frac.length ≤ c.decimals ∧
        (frac = [] ∧ TrimString money_string = whole ∨ TrimString money_string = whole ++ '.' :: frac) ∧
        nRet.amount = ((Nat.ofDigitChars 10 (whole ++ frac) 0 * 10 ^ (c.decimals - frac.length) : Nat) : Int) := by
  unfold ParseMoney
  by_cases hvalid : ValidAsCString money_string = false
  · exact ⟨none, by rw [if_pos hvalid]; rfl, fun _ h => nomatch h⟩
  rw [if_neg hvalid]
  dsimp only
  by_cases hempty : (TrimString money_string).isEmpty = true
  · exact ⟨none, by rw [if_pos hempty]; rfl, fun _ h => nomatch h⟩
  rw [if_neg hempty]
  obtain ⟨r, hr, hspec⟩ := wholeLoop_spec hc (TrimString money_string) []
  rw [hr, Except.ok_bind]
  rcases r with _ | ⟨w, nUnits, p⟩
  · exact ⟨none, rfl, fun _ h => nomatch h⟩
  dsimp only
  by_cases hp : p = []
  swap
  · exact ⟨none, by rw [if_pos (by simpa using hp)]; rfl, fun _ h => nomatch h⟩
  subst hp
  obtain ⟨ds, frac, hds, hfrac, hle, hw, hshape, hval⟩ := hspec w nUnits rfl
  rw [List.nil_append] at hw
  subst w
  obtain ⟨U⟩ := nUnits
  dsimp only at hval
  subst hval
  rw [if_neg (by decide), if_pos hc.le_eighteen]
  by_cases hlong : ds.length > 18 - c.decimals
  · exact ⟨none, by rw [if_pos hlong]; rfl, fun _ h => nomatch h⟩
  rw [if_neg hlong]
  -- the fraction is below a coin
  have hunits : Nat.ofDigitChars 10 frac 0 * 10 ^ (c.decimals - frac.length) < 10 ^ c.decimals :=
    MoneyText.frac_units_lt (t := ⟨false, ds, frac⟩) hle hfrac
  rw [if_neg (by dsimp only; rw [hc.baseunit_natCast]; omega)]
  refine ⟨_, by rw [atoi64_mul_baseunit hc hds (by omega), Except.ok_bind, add_units_eq hc hds (by omega) hunits]; rfl, ?_⟩
  rintro nRet ⟨⟩
  exact ⟨ds, frac, hds, hfrac, hle, hshape, by rw [ofDigitChars_point ds frac hle]⟩

/-- A well-formed text with no sign and at most `18 - decimals` whole digits
is read back at its value. -/
theorem ParseMoney_render (hc : c.Decimal) {t : MoneyText} (hwf : t.WellFormed c.decimals)
    (hneg : t.negative = false) (hlen : t.whole.length ≤ 18 - c.decimals) :
    ParseMoney c t.render = .ok (some ⟨t.value c.decimals⟩) := by
  obtain ⟨negative, ds, frac⟩ := t
  obtain ⟨hds, -, hfrac, hle⟩ := hwf
  dsimp only at hneg hlen hds hfrac hle
  subst hneg
  obtain ⟨hvalid, htrim⟩ := point_text_plain hds hfrac
  have hunits : Nat.ofDigitChars 10 frac 0 * 10 ^ (c.decimals - frac.length) < 10 ^ c.decimals :=
    MoneyText.frac_units_lt (t := ⟨false, ds, frac⟩) hle hfrac
  rw [show MoneyText.render ⟨false, ds, frac⟩ = ds ++ '.' :: frac from rfl, ParseMoney,
    if_neg (by rw [hvalid]; decide)]
  rw [htrim, if_neg (by simp), wholeLoop_point hc hds hfrac hle, Except.ok_bind]
  dsimp only
  rw [if_neg (by decide), if_pos hc.le_eighteen]
  rw [if_neg (by omega), if_neg (by rw [hc.baseunit_natCast]; omega), atoi64_mul_baseunit hc hds hlen,
    Except.ok_bind, add_units_eq hc hds hlen hunits, MoneyText.value, if_neg Bool.false_ne_true,
    MoneyText.units_eq hle]
  rfl

/-- In a currency of fewer than eighteen places, every amount of
`[0, MAX_MONEY]` is written by `FormatMoney` as a text that `ParseMoney` reads
back to it. -/
theorem ParseMoney_FormatMoney (hc : c.Decimal) (h18 : c.decimals < 18) {a : Amount} (h0 : 0 ≤ a.amount)
    (hmax : a.amount ≤ MAX_MONEY.amount) :
    ∃ s, FormatMoney c a = .ok s ∧ ParseMoney c s = .ok (some a) := by
  rw [MAX_MONEY_amount] at hmax
  obtain ⟨t, hfmt, hwf, -, hneg, hwhole, hval⟩ :=
    FormatMoney_denotes hc (a := a) (by unfold INT64_MIN; omega) (by unfold INT64_MAX; omega)
  refine ⟨t.render, hfmt, ?_⟩
  have hpos : t.negative = false := by
    rw [hneg]
    exact decide_eq_false (Int.not_lt.mpr h0)
  -- the whole part of an amount below `10^18` has at most `18 - decimals` digits
  have hlen : t.whole.length ≤ 18 - c.decimals := by
    rw [hwhole]
    refine (Nat.length_toDigits_le_iff (by decide) (by omega)).mpr ?_
    rw [Nat.div_lt_iff_lt_mul (Nat.pow_pos (by decide)), ← Nat.pow_add, Nat.sub_add_cancel hc.le_eighteen]
    omega
  rw [ParseMoney_render hc hwf hpos hlen, hval]

/-- `MAX_MONEY` in BCHA, of eight places, is written and read back. -/
theorem ParseMoney_FormatMoney_maxMoney :
    ∃ s, FormatMoney BCHA MAX_MONEY = .ok s ∧ ParseMoney BCHA s = .ok (some MAX_MONEY) :=
  ParseMoney_FormatMoney BCHA_decimal (by decide) (by decide) le_rfl

end Parse

end BitcoinAbc
