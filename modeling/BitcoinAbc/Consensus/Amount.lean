import Mathlib
import BitcoinAbc.Primitives.Transaction
import BitcoinAbc.Script.ScriptNum
import BitcoinAbc.Lib.ExceptRefine

/-!
# Money range and `int64_t` arithmetic (consensus/amount.h)

`Amount` wraps an `int64_t`, and its `+`, `-` and `+=` are plain `int64_t`
arithmetic: an overflow is undefined behaviour. The checks that use them
(`CheckTransactionCommon`, `GetValueOut`, `Consensus::CheckTxInputs`,
`ConnectBlock`) end in one of three ways the code must never reach besides
their own rejections: a signed overflow, a thrown `std::runtime_error`, or a
failed `assert`. `CheckError` names all of them, so that a theorem can say
that a check never reaches one.

- `Amount.add`, `Amount.sub`: the `int64_t` operations, which end in
  `overflow` outside the 64-bit range;
- `add_eq_ok_of_moneyRange`: two amounts in `MoneyRange` add without
  overflow, since `2 * MAX_MONEY < 2^63`.
-/

namespace BitcoinAbc

/-- `COIN`: `100000000 * SATOSHI`. -/
def COIN : Amount := ⟨100000000⟩

/-- `MAX_MONEY`: `21000000 * COIN`. -/
def MAX_MONEY : Amount := ⟨21000000 * COIN.amount⟩

/-- `MoneyRange(nValue)`. -/
def MoneyRange (nValue : Amount) : Bool :=
  decide (0 ≤ nValue.amount) && decide (nValue.amount ≤ MAX_MONEY.amount)

@[simp] theorem MAX_MONEY_amount : MAX_MONEY.amount = 2100000000000000 := rfl

theorem MoneyRange_iff {nValue : Amount} :
    MoneyRange nValue = true ↔ 0 ≤ nValue.amount ∧ nValue.amount ≤ 2100000000000000 := by
  rw [MoneyRange, Bool.and_eq_true, decide_eq_true_iff, decide_eq_true_iff]
  rfl

/-- How a check ends when it does not accept: `state.Invalid(result, reason)`
followed by `return false`; or a signed overflow of `int64_t`, a thrown
`std::runtime_error`, or a failed `assert`, none of which the code may reach. -/
inductive CheckError (ρ : Type) where
  | invalid (result : ρ) (reason : String)
  | overflow
  | throws (what : String)
  | assertFails
  deriving DecidableEq, Repr

namespace CheckError

variable {ρ : Type}

/-- A rejection by the check itself, as opposed to a fault of the code. -/
def IsInvalid : CheckError ρ → Prop
  | invalid _ _ => True
  | _ => False

end CheckError

namespace Amount

variable {ρ : Type}

/-- `Amount::zero()`. -/
def zero : Amount := ⟨0⟩

/-- `operator+` and `operator+=`: `int64_t` addition. -/
def add (a b : Amount) : Except (CheckError ρ) Amount :=
  if Script.inInt64 (a.amount + b.amount) then .ok ⟨a.amount + b.amount⟩ else .error .overflow

/-- `operator-(a, b)`: `a + -b`, where the negation is `int64_t` too. -/
def sub (a b : Amount) : Except (CheckError ρ) Amount :=
  if Script.inInt64 (-b.amount) then add a ⟨-b.amount⟩ else .error .overflow

/-- `operator-=`: `amount -= a.amount`, an `int64_t` subtraction of its own,
not through the negation `operator-` uses. -/
def subAssign (a b : Amount) : Except (CheckError ρ) Amount :=
  if Script.inInt64 (a.amount - b.amount) then .ok ⟨a.amount - b.amount⟩ else .error .overflow

/-- `operator-()`: `int64_t` negation, which overflows at `INT64_MIN`. -/
def neg (a : Amount) : Except (CheckError ρ) Amount :=
  if Script.inInt64 (-a.amount) then .ok ⟨-a.amount⟩ else .error .overflow

/-- `operator*(int64_t a, Amount b)`: `int64_t` multiplication. -/
def mul (a : Int) (b : Amount) : Except (CheckError ρ) Amount :=
  if Script.inInt64 (a * b.amount) then .ok ⟨a * b.amount⟩ else .error .overflow

/-- Within four times `MAX_MONEY`, nothing overflows. -/
theorem inInt64_of_abs_le {v : Int} (h : |v| ≤ 4 * MAX_MONEY.amount) : Script.inInt64 v = true := by
  rw [MAX_MONEY_amount] at h
  exact Script.CScriptNum.inInt64_iff.mpr (by constructor <;> linarith [abs_le.mp h])

theorem add_returns (a b : Amount) :
    Except.Returns (.overflow : CheckError ρ) (Script.inInt64 (a.amount + b.amount) = true)
      (add a b) (· = ⟨a.amount + b.amount⟩) := by
  unfold add
  split
  · exact .pure rfl
  · exact .error_of_not ‹_›

theorem subAssign_returns (a b : Amount) :
    Except.Returns (.overflow : CheckError ρ) (Script.inInt64 (a.amount - b.amount) = true)
      (subAssign a b) (· = ⟨a.amount - b.amount⟩) := by
  unfold subAssign
  split
  · exact .pure rfl
  · exact .error_of_not ‹_›

/-- `a - b` is `a + -b`, which fails when either step leaves `int64_t`. -/
theorem sub_returns (a b : Amount) :
    Except.Returns (.overflow : CheckError ρ)
      (Script.inInt64 (-b.amount) = true ∧ Script.inInt64 (a.amount - b.amount) = true)
      (sub a b) (· = ⟨a.amount - b.amount⟩) := by
  unfold sub
  split
  · refine (add_returns a ⟨-b.amount⟩).weaken (fun h => ?_) |>.conseq fun r hr => ?_
    · rw [← Int.sub_eq_add_neg]
      exact h.2
    · rw [hr, Int.sub_eq_add_neg]
  · exact .error_of_not fun h => ‹¬_› h.1

theorem mul_eq_ok {a : Int} {b : Amount} (h : Script.inInt64 (a * b.amount) = true) :
    (mul a b : Except (CheckError ρ) Amount) = .ok ⟨a * b.amount⟩ := by
  rw [mul, if_pos h]

theorem add_eq_ok {a b : Amount} (h : Script.inInt64 (a.amount + b.amount) = true) :
    (add a b : Except (CheckError ρ) Amount) = .ok ⟨a.amount + b.amount⟩ := by
  rw [add, if_pos h]

/-- Two amounts in `MoneyRange` add without overflow. -/
theorem add_eq_ok_of_moneyRange {a b : Amount} (ha : MoneyRange a = true)
    (hb : MoneyRange b = true) :
    (add a b : Except (CheckError ρ) Amount) = .ok ⟨a.amount + b.amount⟩ := by
  rw [MoneyRange_iff] at ha hb
  exact add_eq_ok (Script.CScriptNum.inInt64_iff.mpr (by omega))

/-- The difference of two amounts in `MoneyRange` is computed without
overflow. -/
theorem sub_eq_ok_of_moneyRange {a b : Amount} (ha : MoneyRange a = true)
    (hb : MoneyRange b = true) :
    (sub a b : Except (CheckError ρ) Amount) = .ok ⟨a.amount - b.amount⟩ := by
  rw [MoneyRange_iff] at ha hb
  have hneg : Script.inInt64 (-b.amount) = true :=
    Script.CScriptNum.inInt64_iff.mpr (by omega)
  have hsum : Script.inInt64 (a.amount + -b.amount) = true :=
    Script.CScriptNum.inInt64_iff.mpr (by omega)
  rw [sub, if_pos hneg, add_eq_ok hsum, Int.sub_eq_add_neg]

/-- A running total from `a`, with every amount added not negative, adds
without overflow when the final total fits in `int64_t`. The induction is on
the amounts added. -/
theorem foldlM_add_eq_ok {β : Type} (f : β → Amount) :
    ∀ (l : List β) (a : Amount), 0 ≤ a.amount → (∀ x ∈ l, 0 ≤ (f x).amount) →
      a.amount + (l.map fun x => (f x).amount).sum ≤ 2 ^ 63 - 1 →
      (l.foldlM (fun t x => t.add (f x)) a : Except (CheckError ρ) Amount) =
        .ok ⟨a.amount + (l.map fun x => (f x).amount).sum⟩
  | [], a, _, _, _ => by
    rw [List.foldlM_nil, List.map_nil, List.sum_nil, Int.add_zero]
    rfl
  | x :: l, a, ha, hl, hsum => by
    rw [List.map_cons, List.sum_cons] at hsum ⊢
    have hx : 0 ≤ (f x).amount := hl x List.mem_cons_self
    have hrest : 0 ≤ (l.map fun x => (f x).amount).sum :=
      List.sum_nonneg fun _ hmem => by
        obtain ⟨y, hy, rfl⟩ := List.mem_map.mp hmem
        exact hl y (List.mem_cons_of_mem _ hy)
    -- the first addition stays below the final total
    have hfirst : Script.inInt64 (a.amount + (f x).amount) = true :=
      Script.CScriptNum.inInt64_iff.mpr (by omega)
    rw [List.foldlM_cons, add_eq_ok hfirst, Except.ok_bind,
      foldlM_add_eq_ok f l ⟨a.amount + (f x).amount⟩ (by dsimp only; omega)
        (fun y hy => hl y (List.mem_cons_of_mem _ hy)) (by dsimp only; omega)]
    dsimp only
    rw [Int.add_assoc]

end Amount

end BitcoinAbc
