import Mathlib
import BitcoinAbc.Consensus.Amount

/-!
# Branch-and-bound coin selection (wallet/coinselection.cpp)

`SelectCoinsBnB` looks for a set of output groups whose effective values add
up to a value in `[not_input_fees + target_value, not_input_fees +
target_value + cost_of_change]`. It walks the binary tree of the include and
exclude choices, the groups sorted by effective value, depth first with the
include branch first, for at most `TOTAL_TRIES` iterations. The walk keeps
the choices made so far in `curr_selection`, with the value they select
(`curr_value`), the value of the groups not decided yet
(`curr_available_value`) and the waste of the selection (`curr_waste`), and
it remembers the least wasteful selection in range that it met.

Each iteration of the `for` loop is `bnbIteration`: it backtracks
(`backtrackStep`) when the selection cannot reach the range any more, has
left it, or only grows in waste; it records the selection when it is in
range (`recordBest`) and then backtracks; otherwise it goes one group deeper
(`forwardStep`). Every `Amount` operation is `int64_t` arithmetic, so that an
overflow shows as `CheckError.overflow`, and every `utxo_pool.at(i)` is
`vecAt`, which throws past the end.

`std::sort` with the `descending` comparator is the parameter `sort`: the
standard fixes the order of groups of equal effective value nowhere, and the
results only ask that it permutes the pool.
-/

namespace BitcoinAbc

namespace Wallet

/-- `OutputGroup`, with the fields `SelectCoinsBnB` reads. -/
structure OutputGroup (CInputCoin : Type) where
  m_outputs : List CInputCoin
  m_value : Amount
  effective_value : Amount
  fee : Amount
  long_term_fee : Amount
  deriving DecidableEq, Repr

variable {CInputCoin : Type}

/-- The `descending` comparator `std::sort` is given. -/
def descending (a b : OutputGroup CInputCoin) : Bool :=
  decide (a.effective_value.amount > b.effective_value.amount)

/-- `TOTAL_TRIES`. -/
def TOTAL_TRIES : Nat := 100000

/-- `v.at(i)`: `std::vector::at` throws `std::out_of_range` past the end. -/
def vecAt {α : Type} (v : List α) (i : Nat) : Except (CheckError Unit) α :=
  match v[i]? with
  | some x => .ok x
  | none => .error (.throws "vector::_M_range_check")

theorem vecAt_of_lt {α : Type} {v : List α} {i : Nat} (h : i < v.length) : vecAt v i = .ok v[i] := by
  rw [vecAt, List.getElem?_eq_getElem h]

/-- `v.resize(n)` on a `std::vector<bool>`: cut to `n`, or filled with
`false`. -/
def resize (v : List Bool) (n : Nat) : List Bool :=
  v.take n ++ List.replicate (n - v.length) false

/-- The locals of the search loop. `curr_selection` is kept last element
first, so that its `back()` is the head. -/
structure BnBState where
  curr_value : Amount
  curr_available_value : Amount
  curr_selection : List Bool
  curr_waste : Amount
  best_selection : List Bool
  best_waste : Amount
  deriving DecidableEq, Repr

/-- One pass of the loop that computes `curr_available_value`: the `assert`
that the effective value is positive, then the sum. -/
def addAvailable (curr_available_value : Amount) (utxo : OutputGroup CInputCoin) :
    Except (CheckError Unit) Amount :=
  if utxo.effective_value.amount > 0 then
    curr_available_value.add utxo.effective_value
  else
    throw .assertFails

/-- The loop that computes `curr_available_value`. -/
def availableValue (utxo_pool : List (OutputGroup CInputCoin)) : Except (CheckError Unit) Amount :=
  utxo_pool.foldlM addAvailable Amount.zero

section Search

variable (utxo_pool : List (OutputGroup CInputCoin)) (actual_target cost_of_change : Amount)

/-- The three conditions for starting a backtrack. `||` and `&&` cut short,
so that `utxo_pool.at(0)` is read, twice, only when the waste has grown past
the best one. -/
def backtrackCond (s : BnBState) : Except (CheckError Unit) Bool := do
  let reach ← s.curr_value.add s.curr_available_value
  if reach.amount < actual_target.amount then
    pure true
  else
    let upper ← actual_target.add cost_of_change
    if s.curr_value.amount > upper.amount then
      pure true
    else if s.curr_waste.amount > s.best_waste.amount then
      let d ← (← vecAt utxo_pool 0).fee.sub (← vecAt utxo_pool 0).long_term_fee
      pure (decide (d.amount > 0))
    else
      pure false

/-- The `while` loop of the backtrack: pop the excluded groups off the back of
`curr_selection`, giving their effective values back to
`curr_available_value`. -/
def popExcluded : List Bool → Amount → Except (CheckError Unit) (List Bool × Amount)
  | [], curr_available_value => pure ([], curr_available_value)
  | true :: sel, curr_available_value => pure (true :: sel, curr_available_value)
  | false :: sel, curr_available_value => do
    let utxo ← vecAt utxo_pool sel.length
    popExcluded sel (← curr_available_value.add utxo.effective_value)

/-- Backtracking: past the excluded groups, turn the last included one into an
excluded one, or `break` when there is none. -/
def backtrackStep (s : BnBState) : Except (CheckError Unit) (ForInStep BnBState) := do
  let (sel, curr_available_value) ← popExcluded utxo_pool s.curr_selection s.curr_available_value
  match sel with
  | [] => pure (.done { s with curr_selection := [], curr_available_value := curr_available_value })
  | _ :: rest =>
    -- `curr_selection.back() = false`, then `utxo_pool.at(curr_selection.size() - 1)`
    let utxo ← vecAt utxo_pool rest.length
    let curr_value ← s.curr_value.subAssign utxo.effective_value
    let curr_waste ← s.curr_waste.subAssign (← utxo.fee.sub utxo.long_term_fee)
    pure (.yield
      { s with curr_selection := false :: rest, curr_available_value := curr_available_value,
               curr_value := curr_value, curr_waste := curr_waste })

/-- Whether to skip the inclusion of `utxo`: the group before it was excluded
and has the same effective value and fee. -/
def skipCond (utxo : OutputGroup CInputCoin) : List Bool → Except (CheckError Unit) Bool
  | false :: rest => do
    if utxo.effective_value ≠ (← vecAt utxo_pool rest.length).effective_value then
      pure false
    else
      pure (decide (utxo.fee = (← vecAt utxo_pool rest.length).fee))
  | _ => pure false

/-- Moving forwards: take the next group off `curr_available_value`, then
include it, or exclude it where `skipCond` holds. -/
def forwardStep (s : BnBState) : Except (CheckError Unit) (ForInStep BnBState) := do
  let utxo ← vecAt utxo_pool s.curr_selection.length
  let curr_available_value ← s.curr_available_value.subAssign utxo.effective_value
  if ← skipCond utxo_pool utxo s.curr_selection then
    pure (.yield
      { s with curr_available_value := curr_available_value,
               curr_selection := false :: s.curr_selection })
  else
    let curr_value ← s.curr_value.add utxo.effective_value
    let curr_waste ← s.curr_waste.add (← utxo.fee.sub utxo.long_term_fee)
    pure (.yield
      { s with curr_available_value := curr_available_value,
               curr_selection := true :: s.curr_selection, curr_value := curr_value,
               curr_waste := curr_waste })

/-- `curr_waste -= (curr_value - actual_target)`, after the comparison. -/
def removeExcess (s : BnBState) : Except (CheckError Unit) BnBState := do
  let curr_waste ← s.curr_waste.subAssign (← s.curr_value.sub actual_target)
  pure { s with curr_waste := curr_waste }

/-- The selection is in range: add the excess to the waste, keep the
selection, resized to the pool, if it wastes no more than the best one, and
`break` at a waste of zero. -/
def recordBest (s : BnBState) : Except (CheckError Unit) (ForInStep BnBState) := do
  let curr_waste ← s.curr_waste.add (← s.curr_value.sub actual_target)
  if curr_waste.amount ≤ s.best_waste.amount then
    let s :=
      { s with curr_waste := curr_waste,
               best_selection := resize s.curr_selection.reverse utxo_pool.length,
               best_waste := curr_waste }
    if s.best_waste.amount = 0 then
      pure (.done s)
    else
      pure (.yield (← removeExcess actual_target s))
  else
    pure (.yield (← removeExcess actual_target { s with curr_waste := curr_waste }))

/-- One iteration of the depth-first search loop. -/
def bnbIteration (s : BnBState) : Except (CheckError Unit) (ForInStep BnBState) := do
  if ← backtrackCond utxo_pool actual_target cost_of_change s then
    backtrackStep utxo_pool s
  else if s.curr_value.amount ≥ actual_target.amount then
    match ← recordBest utxo_pool actual_target s with
    | .done s => pure (.done s)
    | .yield s => backtrackStep utxo_pool s
  else
    forwardStep utxo_pool s

/-- `for (size_t i = 0; i < tries; ++i)` over `bnbIteration`. -/
def bnbLoop : Nat → BnBState → Except (CheckError Unit) BnBState
  | 0, s => pure s
  | tries + 1, s => do
    match ← bnbIteration utxo_pool actual_target cost_of_change s with
    | .done s => pure s
    | .yield s => bnbLoop tries s

end Search

/-- The loop that sets the output, over `best_selection` from index `i` on:
the outputs and `m_value` of every selected group. -/
def collectSelected [DecidableEq CInputCoin] (utxo_pool : List (OutputGroup CInputCoin)) (i : Nat) :
    List Bool → Finset CInputCoin → Amount → Except (CheckError Unit) (Finset CInputCoin × Amount)
  | [], out_set, value_ret => pure (out_set, value_ret)
  | false :: rest, out_set, value_ret => collectSelected utxo_pool (i + 1) rest out_set value_ret
  | true :: rest, out_set, value_ret => do
    let out_set := out_set ∪ (← vecAt utxo_pool i).m_outputs.toFinset
    let value_ret ← value_ret.add (← vecAt utxo_pool i).m_value
    collectSelected utxo_pool (i + 1) rest out_set value_ret

/-- `SelectCoinsBnB(utxo_pool, target_value, cost_of_change, out_set,
value_ret, not_input_fees)`: what it returns, and `utxo_pool`, `out_set` and
`value_ret` after the call. -/
def SelectCoinsBnB [DecidableEq CInputCoin]
    (sort : List (OutputGroup CInputCoin) → List (OutputGroup CInputCoin))
    (utxo_pool : List (OutputGroup CInputCoin)) (target_value cost_of_change value_ret
      not_input_fees : Amount) :
    Except (CheckError Unit) (Bool × List (OutputGroup CInputCoin) × Finset CInputCoin × Amount) := do
  let actual_target ← not_input_fees.add target_value
  let curr_available_value ← availableValue utxo_pool
  if curr_available_value.amount < actual_target.amount then
    pure (false, utxo_pool, ∅, value_ret)
  else
    let utxo_pool := sort utxo_pool
    let s ← bnbLoop utxo_pool actual_target cost_of_change TOTAL_TRIES
      { curr_value := Amount.zero, curr_available_value := curr_available_value, curr_selection := [],
        curr_waste := Amount.zero, best_selection := [], best_waste := MAX_MONEY }
    if s.best_selection.isEmpty then
      pure (false, utxo_pool, ∅, value_ret)
    else
      let (out_set, value_ret) ← collectSelected utxo_pool 0 s.best_selection ∅ Amount.zero
      pure (true, utxo_pool, out_set, value_ret)

end Wallet

end BitcoinAbc
