import Mathlib
import BitcoinAbc.Consensus.Amount
import BitcoinAbc.Validation.BlockUndo

/-!
# Transaction value checks (consensus/tx_check.cpp, consensus/tx_verify.cpp)

`CheckTransactionCommon` adds up the outputs of a transaction, checking each
value and each running total against `MoneyRange`; `GetValueOut` adds them up
again and throws when a value or a total leaves the range; and
`Consensus::CheckTxInputs` adds up the values of the coins a transaction
spends and returns the fee. All three use `int64_t` additions whose operands
are checked only in part before the addition (CVE-2010-5139), so the model
makes an overflow an outcome of its own (`CheckError.overflow`).

The coins `CheckTxInputs` reads are those the cache shows (`inputs`), which
is what `HaveCoin` and `AccessCoin` answer on a valid cache
(`CCoinsViewCache.HaveCoin_eq`, `CCoinsViewCache.AccessCoin_eq`). A
transaction's serialized size and the size of its coinbase `scriptSig` are
arguments: the model of a transaction keeps only what the other checks read.

- `checkOutputValues_eq_ok_iff`: the output loop accepts exactly the outputs
  in `MoneyRange` whose total stays in it, and never overflows;
- `valueOutFrom_eq_ok`: `GetValueOut` returns the total of such outputs;
- `sumInputValues_spec`: the input loop never overflows on coins in
  `MoneyRange` and returns their total;
- `CheckTransaction_valueAccounting`: no overflow, running totals in range,
  the fee exactly the inputs' total minus the outputs', and the outputs
  `CheckTransactionCommon` rejects.
-/

namespace BitcoinAbc

/-- `TxValidationResult`: the results the checks of this module give. -/
inductive TxValidationResult where
  | TX_CONSENSUS
  | TX_MISSING_INPUTS
  | TX_PREMATURE_SPEND
  deriving DecidableEq, Repr

/-- What the transaction checks return. -/
abbrev TxCheck (α : Type) := Except (CheckError TxValidationResult) α

/-- `COINBASE_MATURITY`. -/
def COINBASE_MATURITY : UInt32 := 100

/-- `MAX_COINBASE_SCRIPTSIG_SIZE`. -/
def MAX_COINBASE_SCRIPTSIG_SIZE : Nat := 100

/-- The total of a list of outputs, as a mathematical integer. -/
def sumValues (outs : List CTxOut) : Int := (outs.map fun txout => txout.nValue.amount).sum

@[simp] theorem sumValues_nil : sumValues [] = 0 := rfl

@[simp] theorem sumValues_cons (txout : CTxOut) (outs : List CTxOut) :
    sumValues (txout :: outs) = txout.nValue.amount + sumValues outs := by
  rw [sumValues, List.map_cons, List.sum_cons]
  rfl

/-! ## `CheckTransactionCommon` -/

/-- The loop of `CheckTransactionCommon` over the outputs, from the running
total `nValueOut`. -/
def checkOutputValues : Amount → List CTxOut → TxCheck Unit
  | _, [] => .ok ()
  | nValueOut, txout :: rest => do
    if txout.nValue.amount < 0 then throw (.invalid .TX_CONSENSUS "bad-txns-vout-negative")
    if txout.nValue.amount > MAX_MONEY.amount then
      throw (.invalid .TX_CONSENSUS "bad-txns-vout-toolarge")
    let nValueOut ← nValueOut.add txout.nValue
    if !MoneyRange nValueOut then throw (.invalid .TX_CONSENSUS "bad-txns-txouttotal-toolarge")
    checkOutputValues nValueOut rest

/-- `CheckTransactionCommon(tx, state)`, with `::GetSerializeSize(tx,
PROTOCOL_VERSION)` given as `serializeSize`. -/
def CheckTransactionCommon (tx : CTransaction) (serializeSize : Nat) : TxCheck Unit := do
  if tx.vin.isEmpty then throw (.invalid .TX_CONSENSUS "bad-txns-vin-empty")
  if tx.vout.isEmpty then throw (.invalid .TX_CONSENSUS "bad-txns-vout-empty")
  if serializeSize > MAX_TX_SIZE then throw (.invalid .TX_CONSENSUS "bad-txns-oversize")
  checkOutputValues ⟨0⟩ tx.vout

/-- `CheckCoinbase(tx, state)`, with `tx.vin[0].scriptSig.size()` given as
`scriptSigSize`. -/
def CheckCoinbase (tx : CTransaction) (serializeSize scriptSigSize : Nat) : TxCheck Unit := do
  if !tx.IsCoinBase then throw (.invalid .TX_CONSENSUS "bad-cb-missing")
  CheckTransactionCommon tx serializeSize
  if scriptSigSize < 2 || scriptSigSize > MAX_COINBASE_SCRIPTSIG_SIZE then
    throw (.invalid .TX_CONSENSUS "bad-cb-length")

/-- The loop of `CheckRegularTransaction` over the inputs, with the outpoints
`vInOutPoints` seen so far. -/
def checkInputOutPoints : List COutPoint → List CTxIn → TxCheck Unit
  | _, [] => .ok ()
  | vInOutPoints, txin :: rest => do
    if txin.prevout.IsNull then throw (.invalid .TX_CONSENSUS "bad-txns-prevout-null")
    -- `!vInOutPoints.insert(txin.prevout).second`
    if txin.prevout ∈ vInOutPoints then
      throw (.invalid .TX_CONSENSUS "bad-txns-inputs-duplicate")
    checkInputOutPoints (txin.prevout :: vInOutPoints) rest

/-- `CheckRegularTransaction(tx, state)`. -/
def CheckRegularTransaction (tx : CTransaction) (serializeSize : Nat) : TxCheck Unit := do
  if tx.IsCoinBase then throw (.invalid .TX_CONSENSUS "bad-tx-coinbase")
  CheckTransactionCommon tx serializeSize
  checkInputOutPoints [] tx.vin

/-! ## `GetValueOut` -/

/-- The loop of `GetValueOut`, from the running total `nValueOut`. The test
`!MoneyRange(tx_out.nValue) || !MoneyRange(nValueOut + tx_out.nValue)` only
adds when the value is in range. -/
def valueOutFrom : Amount → List CTxOut → TxCheck Amount
  | nValueOut, [] => .ok nValueOut
  | nValueOut, tx_out :: rest => do
    if !MoneyRange tx_out.nValue then throw (.throws "GetValueOut: value out of range")
    let sum ← nValueOut.add tx_out.nValue
    if !MoneyRange sum then throw (.throws "GetValueOut: value out of range")
    -- `nValueOut += tx_out.nValue`
    valueOutFrom sum rest

/-- `CTransaction::GetValueOut()`. -/
def CTransaction.GetValueOut (tx : CTransaction) : TxCheck Amount := do
  let nValueOut ← valueOutFrom ⟨0⟩ tx.vout
  if !MoneyRange nValueOut then throw .assertFails
  return nValueOut

/-! ## The output loops -/

theorem sumValues_append (outs₁ outs₂ : List CTxOut) :
    sumValues (outs₁ ++ outs₂) = sumValues outs₁ + sumValues outs₂ := by
  rw [sumValues, List.map_append, List.sum_append]
  rfl

theorem sumValues_nonneg {outs : List CTxOut}
    (h : ∀ txout ∈ outs, MoneyRange txout.nValue = true) : 0 ≤ sumValues outs := by
  induction outs with
  | nil => exact Int.le_refl 0
  | cons txout rest ih =>
    have hv := (MoneyRange_iff.mp (h txout List.mem_cons_self)).1
    have hrest := ih fun o ho => h o (List.mem_cons_of_mem txout ho)
    rw [sumValues_cons]
    omega

/-- Outputs in `MoneyRange` with a total in it: every running total is in it
too. -/
theorem moneyRange_sumValues_take {outs : List CTxOut}
    (hall : ∀ txout ∈ outs, MoneyRange txout.nValue = true)
    (htotal : sumValues outs ≤ MAX_MONEY.amount) (k : Nat) :
    MoneyRange ⟨sumValues (outs.take k)⟩ = true := by
  have hsplit := sumValues_append (outs.take k) (outs.drop k)
  rw [List.take_append_drop] at hsplit
  have htake := sumValues_nonneg fun o (ho : o ∈ outs.take k) => hall o (List.mem_of_mem_take ho)
  have hdrop := sumValues_nonneg fun o (ho : o ∈ outs.drop k) => hall o (List.mem_of_mem_drop ho)
  rw [MAX_MONEY_amount] at htotal
  rw [MoneyRange_iff]
  show 0 ≤ sumValues (outs.take k) ∧ sumValues (outs.take k) ≤ 2100000000000000
  constructor <;> omega

/-- An output outside `MoneyRange` is rejected before anything is added. -/
theorem checkOutputValues_cons_of_not_moneyRange (nValueOut : Amount) {txout : CTxOut}
    (rest : List CTxOut) (h : MoneyRange txout.nValue = false) :
    ∃ reason, checkOutputValues nValueOut (txout :: rest) =
      .error (.invalid .TX_CONSENSUS reason) := by
  by_cases hneg : txout.nValue.amount < 0
  · exact ⟨"bad-txns-vout-negative", by rw [checkOutputValues, if_pos hneg]; rfl⟩
  · have hbig : txout.nValue.amount > MAX_MONEY.amount := by
      rw [MAX_MONEY_amount]
      by_contra hle
      have : MoneyRange txout.nValue = true := MoneyRange_iff.mpr ⟨by omega, by omega⟩
      rw [h] at this
      cases this
    exact ⟨"bad-txns-vout-toolarge", by rw [checkOutputValues, if_neg hneg, if_pos hbig]; rfl⟩

/-- An output in `MoneyRange` is added without overflow to a total in it; the
new total is checked. -/
theorem checkOutputValues_cons_of_moneyRange {nValueOut : Amount} {txout : CTxOut}
    (rest : List CTxOut) (ha : MoneyRange nValueOut = true) (h : MoneyRange txout.nValue = true) :
    checkOutputValues nValueOut (txout :: rest) =
      if MoneyRange ⟨nValueOut.amount + txout.nValue.amount⟩ then
        checkOutputValues ⟨nValueOut.amount + txout.nValue.amount⟩ rest
      else .error (.invalid .TX_CONSENSUS "bad-txns-txouttotal-toolarge") := by
  have hv := MoneyRange_iff.mp h
  rw [checkOutputValues, if_neg (by omega), if_neg (by rw [MAX_MONEY_amount]; omega),
    Amount.add_eq_ok_of_moneyRange ha h]
  simp only [Except.ok_bind]
  cases MoneyRange ⟨nValueOut.amount + txout.nValue.amount⟩ <;> rfl

/-- The output loop of `CheckTransactionCommon`, from a total in
`MoneyRange`, accepts exactly the outputs in `MoneyRange` that keep the total
in it. The induction is on the outputs. -/
theorem checkOutputValues_eq_ok_iff : ∀ {nValueOut : Amount} (outs : List CTxOut),
    MoneyRange nValueOut = true →
    (checkOutputValues nValueOut outs = .ok () ↔
      (∀ txout ∈ outs, MoneyRange txout.nValue = true) ∧
        nValueOut.amount + sumValues outs ≤ MAX_MONEY.amount)
  | nValueOut, [], ha => by
    have ha' := MoneyRange_iff.mp ha
    rw [sumValues_nil, Int.add_zero, MAX_MONEY_amount]
    exact ⟨fun _ => ⟨fun _ h => (nomatch h), ha'.2⟩, fun _ => rfl⟩
  | nValueOut, txout :: rest, ha => by
    have ha' := MoneyRange_iff.mp ha
    cases hv : MoneyRange txout.nValue with
    | false =>
      -- rejected at once; and the output is not in range
      obtain ⟨reason, hrej⟩ := checkOutputValues_cons_of_not_moneyRange nValueOut rest hv
      rw [hrej]
      constructor
      · intro h
        cases h
      · rintro ⟨hall, -⟩
        rw [hall txout List.mem_cons_self] at hv
        cases hv
    | true =>
      have hv' := MoneyRange_iff.mp hv
      rw [checkOutputValues_cons_of_moneyRange rest ha hv]
      cases hs : MoneyRange ⟨nValueOut.amount + txout.nValue.amount⟩ with
      | true =>
        rw [if_pos rfl, checkOutputValues_eq_ok_iff rest hs, sumValues_cons]
        constructor
        · rintro ⟨hall, htotal⟩
          refine ⟨fun o ho => ?_, by rw [← Int.add_assoc]; exact htotal⟩
          rcases List.mem_cons.mp ho with rfl | ho
          · exact hv
          · exact hall o ho
        · rintro ⟨hall, htotal⟩
          exact ⟨fun o ho => hall o (List.mem_cons_of_mem txout ho),
            by rw [Int.add_assoc]; exact htotal⟩
      | false =>
        -- the new total is above `MAX_MONEY`, and the rest only adds to it
        have hover : 2100000000000000 < nValueOut.amount + txout.nValue.amount := by
          by_contra hle
          have : MoneyRange ⟨nValueOut.amount + txout.nValue.amount⟩ = true :=
            MoneyRange_iff.mpr ⟨by show 0 ≤ nValueOut.amount + txout.nValue.amount; omega,
              by show nValueOut.amount + txout.nValue.amount ≤ 2100000000000000; omega⟩
          rw [hs] at this
          cases this
        rw [if_neg Bool.false_ne_true, sumValues_cons, MAX_MONEY_amount]
        constructor
        · intro h
          cases h
        · rintro ⟨hall, htotal⟩
          have hrest := sumValues_nonneg fun o ho => hall o (List.mem_cons_of_mem txout ho)
          omega

/-- From a total in `MoneyRange`, the output loop rejects or accepts, and
never overflows. -/
theorem checkOutputValues_errorsIn : ∀ {nValueOut : Amount} (outs : List CTxOut),
    MoneyRange nValueOut = true →
    Except.ErrorsIn CheckError.IsInvalid (checkOutputValues nValueOut outs)
  | _, [], _ => Except.ErrorsIn.ok ()
  | nValueOut, txout :: rest, ha => by
    cases hv : MoneyRange txout.nValue with
    | false =>
      obtain ⟨reason, hrej⟩ := checkOutputValues_cons_of_not_moneyRange nValueOut rest hv
      rw [hrej]
      exact Except.ErrorsIn.error trivial
    | true =>
      rw [checkOutputValues_cons_of_moneyRange rest ha hv]
      exact Except.ErrorsIn.ite (fun hs => checkOutputValues_errorsIn rest hs)
        (fun _ => Except.ErrorsIn.error trivial)

/-- `GetValueOut` throws at an output outside `MoneyRange`, before adding. -/
theorem valueOutFrom_cons_of_not_moneyRange (nValueOut : Amount) {tx_out : CTxOut}
    (rest : List CTxOut) (h : MoneyRange tx_out.nValue = false) :
    valueOutFrom nValueOut (tx_out :: rest) = .error (.throws "GetValueOut: value out of range") := by
  rw [valueOutFrom, h]
  rfl

theorem valueOutFrom_cons_of_moneyRange {nValueOut : Amount} {tx_out : CTxOut}
    (rest : List CTxOut) (ha : MoneyRange nValueOut = true) (h : MoneyRange tx_out.nValue = true) :
    valueOutFrom nValueOut (tx_out :: rest) =
      if MoneyRange ⟨nValueOut.amount + tx_out.nValue.amount⟩ then
        valueOutFrom ⟨nValueOut.amount + tx_out.nValue.amount⟩ rest
      else .error (.throws "GetValueOut: value out of range") := by
  rw [valueOutFrom, h, Amount.add_eq_ok_of_moneyRange ha h]
  simp only [Except.ok_bind]
  cases MoneyRange ⟨nValueOut.amount + tx_out.nValue.amount⟩ <;> rfl

/-- `GetValueOut`'s loop returns the total of outputs in `MoneyRange` whose
running totals stay in it. -/
theorem valueOutFrom_eq_ok : ∀ {nValueOut : Amount} (outs : List CTxOut),
    MoneyRange nValueOut = true → (∀ txout ∈ outs, MoneyRange txout.nValue = true) →
    nValueOut.amount + sumValues outs ≤ MAX_MONEY.amount →
    valueOutFrom nValueOut outs = .ok ⟨nValueOut.amount + sumValues outs⟩
  | nValueOut, [], _, _, _ => by
    rw [sumValues_nil, Int.add_zero]
    rfl
  | nValueOut, txout :: rest, ha, hall, htotal => by
    have hv := hall txout List.mem_cons_self
    have hrest := sumValues_nonneg fun o ho => hall o (List.mem_cons_of_mem txout ho)
    have ha' := MoneyRange_iff.mp ha
    have hv' := MoneyRange_iff.mp hv
    rw [sumValues_cons, MAX_MONEY_amount] at htotal
    -- the running total is in range, since the rest only adds to it
    have hs : MoneyRange ⟨nValueOut.amount + txout.nValue.amount⟩ = true :=
      MoneyRange_iff.mpr ⟨by show 0 ≤ nValueOut.amount + txout.nValue.amount; omega,
        by show nValueOut.amount + txout.nValue.amount ≤ 2100000000000000; omega⟩
    rw [valueOutFrom_cons_of_moneyRange rest ha hv, if_pos hs,
      valueOutFrom_eq_ok rest hs (fun o ho => hall o (List.mem_cons_of_mem txout ho))
        (by rw [MAX_MONEY_amount]; show nValueOut.amount + txout.nValue.amount + _ ≤ _; omega),
      sumValues_cons, Int.add_assoc]

/-- `GetValueOut` returns the total of outputs in `MoneyRange` whose total is
in it. -/
theorem GetValueOut_eq_ok {tx : CTransaction}
    (hall : ∀ txout ∈ tx.vout, MoneyRange txout.nValue = true)
    (htotal : sumValues tx.vout ≤ MAX_MONEY.amount) :
    tx.GetValueOut = .ok ⟨sumValues tx.vout⟩ := by
  have hzero : MoneyRange ⟨0⟩ = true := by decide
  have hloop := valueOutFrom_eq_ok tx.vout hzero hall
    (by show 0 + sumValues tx.vout ≤ _; rw [Int.zero_add]; exact htotal)
  rw [Int.zero_add] at hloop
  have hrange := moneyRange_sumValues_take hall htotal tx.vout.length
  rw [List.take_length] at hrange
  rw [CTransaction.GetValueOut, hloop, Except.ok_bind, hrange]
  rfl

/-! ## The checks of a transaction -/

/-- `CheckTransactionCommon`: three rejections, then the output loop from a
zero total. -/
theorem CheckTransactionCommon_eq (tx : CTransaction) (serializeSize : Nat) :
    CheckTransactionCommon tx serializeSize =
      if tx.vin = [] then .error (.invalid .TX_CONSENSUS "bad-txns-vin-empty")
      else if tx.vout = [] then .error (.invalid .TX_CONSENSUS "bad-txns-vout-empty")
      else if serializeSize > MAX_TX_SIZE then .error (.invalid .TX_CONSENSUS "bad-txns-oversize")
      else checkOutputValues ⟨0⟩ tx.vout := by
  rw [CheckTransactionCommon]
  simp only [List.isEmpty_iff]
  split_ifs <;> rfl

/-- `CheckTransactionCommon` accepts exactly the transactions with inputs and
outputs, within the size limit, whose outputs are in `MoneyRange` with a total
in it. -/
theorem CheckTransactionCommon_eq_ok_iff (tx : CTransaction) (serializeSize : Nat) :
    CheckTransactionCommon tx serializeSize = .ok () ↔
      tx.vin ≠ [] ∧ tx.vout ≠ [] ∧ serializeSize ≤ MAX_TX_SIZE ∧
        (∀ txout ∈ tx.vout, MoneyRange txout.nValue = true) ∧
          sumValues tx.vout ≤ MAX_MONEY.amount := by
  rw [CheckTransactionCommon_eq]
  by_cases hvin : tx.vin = []
  · rw [if_pos hvin]
    exact ⟨fun h => (nomatch h), fun h => absurd hvin h.1⟩
  by_cases hvout : tx.vout = []
  · rw [if_neg hvin, if_pos hvout]
    exact ⟨fun h => (nomatch h), fun h => absurd hvout h.2.1⟩
  by_cases hsize : serializeSize > MAX_TX_SIZE
  · rw [if_neg hvin, if_neg hvout, if_pos hsize]
    exact ⟨fun h => (nomatch h), fun h => absurd h.2.2.1 (by omega)⟩
  rw [if_neg hvin, if_neg hvout, if_neg hsize, checkOutputValues_eq_ok_iff tx.vout (by decide)]
  show _ ∧ 0 + sumValues tx.vout ≤ _ ↔ _
  rw [Int.zero_add]
  exact ⟨fun h => ⟨hvin, hvout, by omega, h⟩, fun h => h.2.2.2⟩

/-- `CheckTransactionCommon` rejects or accepts, and never overflows. -/
theorem CheckTransactionCommon_errorsIn (tx : CTransaction) (serializeSize : Nat) :
    Except.ErrorsIn CheckError.IsInvalid (CheckTransactionCommon tx serializeSize) := by
  rw [CheckTransactionCommon_eq]
  -- each rejection before the loop is a validation failure
  refine Except.ErrorsIn.ite (fun _ => Except.ErrorsIn.error trivial) fun _ => ?_
  refine Except.ErrorsIn.ite (fun _ => Except.ErrorsIn.error trivial) fun _ => ?_
  refine Except.ErrorsIn.ite (fun _ => Except.ErrorsIn.error trivial) fun _ => ?_
  exact checkOutputValues_errorsIn tx.vout (by decide)

theorem CheckRegularTransaction_eq_ok {tx : CTransaction} {serializeSize : Nat}
    (h : CheckRegularTransaction tx serializeSize = .ok ()) :
    tx.IsCoinBase = false ∧ CheckTransactionCommon tx serializeSize = .ok () := by
  rw [CheckRegularTransaction] at h
  cases hcb : tx.IsCoinBase with
  | true =>
    rw [hcb, if_pos rfl] at h
    cases h
  | false =>
    rw [hcb, if_neg Bool.false_ne_true, Except.bind_eq_ok] at h
    obtain ⟨_, hcommon, -⟩ := h
    exact ⟨rfl, hcommon⟩

theorem CheckCoinbase_eq_ok {tx : CTransaction} {serializeSize scriptSigSize : Nat}
    (h : CheckCoinbase tx serializeSize scriptSigSize = .ok ()) :
    CheckTransactionCommon tx serializeSize = .ok () := by
  rw [CheckCoinbase] at h
  cases hcb : tx.IsCoinBase with
  | false =>
    rw [hcb, if_pos (show (!false) = true from rfl)] at h
    cases h
  | true =>
    rw [hcb, if_neg (show ¬(!true) = true from Bool.false_ne_true)] at h
    obtain ⟨_, hcommon, -⟩ := Except.bind_eq_ok.mp h
    exact hcommon

/-! ## `Consensus::CheckTxInputs` -/

/-- `inputs.HaveCoin(outpoint)`: a coin that is not spent. -/
def haveCoin (inputs : COutPoint → Option Coin) (outpoint : COutPoint) : Bool :=
  match inputs outpoint with
  | some coin => !coin.IsSpent
  | none => false

/-- `inputs.AccessCoin(outpoint)`: `coinEmpty` when there is none. -/
def accessCoin (inputs : COutPoint → Option Coin) (outpoint : COutPoint) : Coin :=
  (inputs outpoint).getD coinEmpty

/-- `CCoinsViewCache::HaveInputs(tx)`. -/
def HaveInputs (inputs : COutPoint → Option Coin) (tx : CTransaction) : Bool :=
  tx.IsCoinBase || tx.vin.all fun txin => haveCoin inputs txin.prevout

namespace Consensus

/-- The loop of `CheckTxInputs` over the inputs, from the running total
`nValueIn`. The value is added before it is checked. -/
def sumInputValues (inputs : COutPoint → Option Coin) (nSpendHeight : Int) :
    Amount → List CTxIn → TxCheck Amount
  | nValueIn, [] => .ok nValueIn
  | nValueIn, txin :: rest => do
    let coin := accessCoin inputs txin.prevout
    if coin.IsSpent then throw .assertFails
    -- `nSpendHeight - coin.GetHeight() < COINBASE_MATURITY` is computed in
    -- `unsigned int`, since `GetHeight()` is a `uint32_t`
    if coin.IsCoinBase && UInt32.ofInt nSpendHeight - coin.GetHeight < COINBASE_MATURITY then
      throw (.invalid .TX_PREMATURE_SPEND "bad-txns-premature-spend-of-coinbase")
    let nValueIn ← nValueIn.add coin.out.nValue
    if !MoneyRange coin.out.nValue || !MoneyRange nValueIn then
      throw (.invalid .TX_CONSENSUS "bad-txns-inputvalues-outofrange")
    sumInputValues inputs nSpendHeight nValueIn rest

/-- `Consensus::CheckTxInputs(tx, state, inputs, nSpendHeight, txfee)`: the
fee when the inputs pass. -/
def CheckTxInputs (tx : CTransaction) (inputs : COutPoint → Option Coin) (nSpendHeight : Int) :
    TxCheck Amount := do
  if !HaveInputs inputs tx then
    throw (.invalid .TX_MISSING_INPUTS "bad-txns-inputs-missingorspent")
  let nValueIn ← sumInputValues inputs nSpendHeight ⟨0⟩ tx.vin
  let value_out ← tx.GetValueOut
  if nValueIn.amount < value_out.amount then throw (.invalid .TX_CONSENSUS "bad-txns-in-belowout")
  let txfee_aux ← nValueIn.sub value_out
  if !MoneyRange txfee_aux then throw (.invalid .TX_CONSENSUS "bad-txns-fee-outofrange")
  return txfee_aux

end Consensus

/-! ## The input loop -/

/-- The total of the coins that a list of inputs spends. -/
def valueIn (inputs : COutPoint → Option Coin) (vin : List CTxIn) : Int :=
  (vin.map fun txin => (accessCoin inputs txin.prevout).out.nValue.amount).sum

section Inputs

variable (inputs : COutPoint → Option Coin) (nSpendHeight : Int)

@[simp] theorem valueIn_nil : valueIn inputs [] = 0 := rfl

@[simp] theorem valueIn_cons (txin : CTxIn) (rest : List CTxIn) :
    valueIn inputs (txin :: rest) =
      (accessCoin inputs txin.prevout).out.nValue.amount + valueIn inputs rest := by
  rw [valueIn, List.map_cons, List.sum_cons]
  rfl

variable {inputs}

theorem accessCoin_of_haveCoin {outpoint : COutPoint} (h : haveCoin inputs outpoint = true) :
    ∃ coin, inputs outpoint = some coin ∧ coin.IsSpent = false ∧
      accessCoin inputs outpoint = coin := by
  rw [haveCoin] at h
  cases hcoin : inputs outpoint with
  | none =>
    rw [hcoin] at h
    cases h
  | some coin =>
    rw [hcoin, Bool.not_eq_true'] at h
    exact ⟨coin, rfl, h, by rw [accessCoin, hcoin]; rfl⟩

/-- A transaction that is not a coinbase has its inputs when every coin it
spends is there. -/
theorem HaveInputs_iff {tx : CTransaction} (hcb : tx.IsCoinBase = false) :
    HaveInputs inputs tx = true ↔ ∀ txin ∈ tx.vin, haveCoin inputs txin.prevout = true := by
  rw [HaveInputs, hcb, Bool.false_or, List.all_eq_true]

namespace Consensus

/-- An input whose coin is there and in `MoneyRange`: the maturity check,
then the value added without overflow to a total in `MoneyRange`, then the
range check. -/
theorem sumInputValues_cons {nValueIn : Amount} {txin : CTxIn} (rest : List CTxIn) {coin : Coin}
    (hcoin : inputs txin.prevout = some coin) (hunspent : coin.IsSpent = false)
    (ha : MoneyRange nValueIn = true) (hv : MoneyRange coin.out.nValue = true) :
    sumInputValues inputs nSpendHeight nValueIn (txin :: rest) =
      if coin.IsCoinBase && UInt32.ofInt nSpendHeight - coin.GetHeight < COINBASE_MATURITY then
        .error (.invalid .TX_PREMATURE_SPEND "bad-txns-premature-spend-of-coinbase")
      else if !MoneyRange ⟨nValueIn.amount + coin.out.nValue.amount⟩ then
        .error (.invalid .TX_CONSENSUS "bad-txns-inputvalues-outofrange")
      else sumInputValues inputs nSpendHeight ⟨nValueIn.amount + coin.out.nValue.amount⟩ rest := by
  have hacc : accessCoin inputs txin.prevout = coin := by
    rw [accessCoin, hcoin]
    rfl
  rw [sumInputValues]
  simp only [hacc, hunspent, hv, Amount.add_eq_ok_of_moneyRange ha hv, Except.ok_bind,
    Bool.false_eq_true, if_false, Bool.not_true, Bool.false_or]
  split_ifs <;> rfl

/-- The input loop over coins that are there and in `MoneyRange`, from a total
in `MoneyRange`, rejects or returns that total plus their values, in
`MoneyRange`; it never overflows. The induction is on the inputs. -/
theorem sumInputValues_spec (hview : ∀ o c, inputs o = some c → MoneyRange c.out.nValue = true) :
    ∀ {nValueIn : Amount} (vin : List CTxIn), MoneyRange nValueIn = true →
      (∀ txin ∈ vin, haveCoin inputs txin.prevout = true) →
      Except.ErrorsIn CheckError.IsInvalid (sumInputValues inputs nSpendHeight nValueIn vin) ∧
        ∀ v, sumInputValues inputs nSpendHeight nValueIn vin = .ok v →
          v.amount = nValueIn.amount + valueIn inputs vin ∧ MoneyRange v = true
  | nValueIn, [], ha, _ => by
    refine ⟨Except.ErrorsIn.ok nValueIn, fun v hv => ?_⟩
    cases hv
    exact ⟨by rw [valueIn_nil, Int.add_zero], ha⟩
  | nValueIn, txin :: rest, ha, hhave => by
    obtain ⟨coin, hcoin, hunspent, hacc⟩ :=
      accessCoin_of_haveCoin (hhave txin List.mem_cons_self)
    have hv := hview _ _ hcoin
    rw [sumInputValues_cons nSpendHeight rest hcoin hunspent ha hv]
    split_ifs with hpremature hs
    · exact ⟨Except.ErrorsIn.error trivial, fun _ h => (nomatch h)⟩
    · exact ⟨Except.ErrorsIn.error trivial, fun _ h => (nomatch h)⟩
    · have hs' : MoneyRange ⟨nValueIn.amount + coin.out.nValue.amount⟩ = true := by
        simpa using hs
      obtain ⟨herr, hok⟩ := sumInputValues_spec hview rest hs'
        (fun t ht => hhave t (List.mem_cons_of_mem txin ht))
      refine ⟨herr, fun v h => ?_⟩
      obtain ⟨hamount, hrange⟩ := hok v h
      refine ⟨?_, hrange⟩
      rw [hamount, valueIn_cons, hacc, ← Int.add_assoc]

variable {nSpendHeight}

/-- `CheckTxInputs` on a transaction that is not a coinbase, whose outputs are
in `MoneyRange` with a total in it, against coins in `MoneyRange`: it rejects
or returns the inputs' total minus the outputs' total, in `MoneyRange`, and
never overflows, throws or fails an `assert`. -/
theorem CheckTxInputs_spec {tx : CTransaction}
    (hview : ∀ o c, inputs o = some c → MoneyRange c.out.nValue = true)
    (hcb : tx.IsCoinBase = false) (hall : ∀ txout ∈ tx.vout, MoneyRange txout.nValue = true)
    (htotal : sumValues tx.vout ≤ MAX_MONEY.amount) :
    Except.ErrorsIn CheckError.IsInvalid (CheckTxInputs tx inputs nSpendHeight) ∧
      ∀ txfee, CheckTxInputs tx inputs nSpendHeight = .ok txfee →
        txfee.amount = valueIn inputs tx.vin - sumValues tx.vout ∧ MoneyRange txfee = true := by
  rw [CheckTxInputs]
  by_cases hhave : HaveInputs inputs tx = true
  swap
  · rw [if_pos (by simpa using hhave)]
    exact ⟨Except.ErrorsIn.error trivial, fun _ h => (nomatch h)⟩
  rw [if_neg (by simpa using hhave)]
  have hzero : MoneyRange ⟨0⟩ = true := by decide
  obtain ⟨herr, hok⟩ :=
    sumInputValues_spec nSpendHeight hview tx.vin hzero
      ((HaveInputs_iff hcb).mp hhave)
  cases hsum : sumInputValues inputs nSpendHeight ⟨0⟩ tx.vin with
  | error e =>
    exact ⟨Except.ErrorsIn.error (herr e hsum), fun _ h => (nomatch h)⟩
  | ok nValueIn =>
    obtain ⟨hamount, hin⟩ := hok nValueIn hsum
    have hout := GetValueOut_eq_ok hall htotal
    have hout_range := moneyRange_sumValues_take hall htotal tx.vout.length
    rw [List.take_length] at hout_range
    have hin' := MoneyRange_iff.mp hin
    have hout_nonneg := sumValues_nonneg hall
    simp only [Except.ok_bind, hout]
    split_ifs with hbelow
    · exact ⟨Except.ErrorsIn.error trivial, fun _ h => (nomatch h)⟩
    have hbelow' : ¬nValueIn.amount < sumValues tx.vout := hbelow
    -- the fee lies between zero and the inputs' total
    have hfee : MoneyRange ⟨nValueIn.amount - sumValues tx.vout⟩ = true :=
      MoneyRange_iff.mpr ⟨by show 0 ≤ nValueIn.amount - sumValues tx.vout; omega,
        by show nValueIn.amount - sumValues tx.vout ≤ 2100000000000000; omega⟩
    rw [Amount.sub_eq_ok_of_moneyRange hin hout_range]
    simp only [Except.ok_bind, hfee]
    refine ⟨Except.ErrorsIn.pure _, fun txfee h => ?_⟩
    cases h
    refine ⟨?_, hfee⟩
    show nValueIn.amount - sumValues tx.vout = _
    rw [hamount, Int.zero_add]

end Consensus

end Inputs



/-! ## Value accounting -/

/-- A transaction without inputs, whose one output is in `MoneyRange`, is
rejected by `CheckTransactionCommon` all the same, for the missing inputs. -/
theorem CheckTransactionCommon_rejects_valid_outputs :
    (∀ txout ∈ [(⟨⟨1⟩, []⟩ : CTxOut)], MoneyRange txout.nValue = true) ∧
      sumValues [(⟨⟨1⟩, []⟩ : CTxOut)] ≤ MAX_MONEY.amount ∧
      CheckTransactionCommon ⟨[], [⟨⟨1⟩, []⟩], ⟨0⟩⟩ 0 =
        .error (.invalid .TX_CONSENSUS "bad-txns-vin-empty") :=
  ⟨by decide, by decide, rfl⟩

/-- Transaction value accounting. `CheckTransactionCommon` never overflows. A
transaction accepted by `CheckRegularTransaction` or `CheckCoinbase` keeps
every running output total in `[0, MAX_MONEY]`, and `GetValueOut` returns its
output total without throwing. Against coins in `MoneyRange`, `CheckTxInputs`
on an accepted regular transaction never overflows, throws or fails an
`assert`, and its fee is the inputs' total minus the outputs', in
`[0, MAX_MONEY]`. Among transactions with inputs and outputs, within the size
limit, `CheckTransactionCommon` rejects exactly those with an output outside
`[0, MAX_MONEY]` or an output total above `MAX_MONEY`. -/
theorem CheckTransaction_valueAccounting (tx : CTransaction) (serializeSize scriptSigSize : Nat) :
    Except.ErrorsIn CheckError.IsInvalid (CheckTransactionCommon tx serializeSize) ∧
    (CheckRegularTransaction tx serializeSize = .ok () ∨
        CheckCoinbase tx serializeSize scriptSigSize = .ok () →
      (∀ k, MoneyRange ⟨sumValues (tx.vout.take k)⟩ = true) ∧
        tx.GetValueOut = .ok ⟨sumValues tx.vout⟩) ∧
    (CheckRegularTransaction tx serializeSize = .ok () →
      ∀ (inputs : COutPoint → Option Coin) (nSpendHeight : Int),
        (∀ o c, inputs o = some c → MoneyRange c.out.nValue = true) →
        Except.ErrorsIn CheckError.IsInvalid (Consensus.CheckTxInputs tx inputs nSpendHeight) ∧
          ∀ txfee, Consensus.CheckTxInputs tx inputs nSpendHeight = .ok txfee →
            txfee.amount = valueIn inputs tx.vin - sumValues tx.vout ∧
              MoneyRange txfee = true) ∧
    (tx.vin ≠ [] → tx.vout ≠ [] → serializeSize ≤ MAX_TX_SIZE →
      (CheckTransactionCommon tx serializeSize = .ok () ↔
        (∀ txout ∈ tx.vout, MoneyRange txout.nValue = true) ∧
          sumValues tx.vout ≤ MAX_MONEY.amount)) := by
  have hvalues : CheckTransactionCommon tx serializeSize = .ok () →
      (∀ txout ∈ tx.vout, MoneyRange txout.nValue = true) ∧
        sumValues tx.vout ≤ MAX_MONEY.amount :=
    fun h => ((CheckTransactionCommon_eq_ok_iff tx serializeSize).mp h).2.2.2
  refine ⟨CheckTransactionCommon_errorsIn tx serializeSize, ?_, ?_, ?_⟩
  · intro haccepted
    -- both checks run `CheckTransactionCommon` first
    have hcommon : CheckTransactionCommon tx serializeSize = .ok () := by
      rcases haccepted with h | h
      · exact (CheckRegularTransaction_eq_ok h).2
      · exact CheckCoinbase_eq_ok h
    obtain ⟨hall, htotal⟩ := hvalues hcommon
    exact ⟨moneyRange_sumValues_take hall htotal, GetValueOut_eq_ok hall htotal⟩
  · intro hreg inputs nSpendHeight hview
    obtain ⟨hcb, hcommon⟩ := CheckRegularTransaction_eq_ok hreg
    obtain ⟨hall, htotal⟩ := hvalues hcommon
    exact Consensus.CheckTxInputs_spec hview hcb hall htotal
  · intro hvin hvout hsize
    rw [CheckTransactionCommon_eq_ok_iff]
    exact ⟨fun h => h.2.2.2, fun h => ⟨hvin, hvout, hsize, h⟩⟩

/-- A transaction spending output `0` of transaction `1` into one output of
5 satoshis. -/
def feeTx : CTransaction := ⟨[⟨⟨⟨1⟩, 0⟩⟩], [⟨⟨5⟩, []⟩], ⟨2⟩⟩

/-- The coins: 7 satoshis at that output, created at height 1 by a
transaction that is not a coinbase. -/
def feeInputs : COutPoint → Option Coin :=
  fun o => if o = ⟨⟨1⟩, 0⟩ then some (Coin.make ⟨⟨7⟩, []⟩ 1 false) else none

example : Consensus.CheckTxInputs feeTx feeInputs 10 = .ok ⟨2⟩ := rfl

theorem CheckTransaction_valueAccounting_feeTx :
    CheckRegularTransaction feeTx 100 = .ok () ∧
      (∀ o c, feeInputs o = some c → MoneyRange c.out.nValue = true) ∧
      feeTx.vin ≠ [] ∧ feeTx.vout ≠ [] ∧ 100 ≤ MAX_TX_SIZE ∧
      ((∀ k, MoneyRange ⟨sumValues (feeTx.vout.take k)⟩ = true) ∧
        feeTx.GetValueOut = .ok ⟨sumValues feeTx.vout⟩) ∧
      (Except.ErrorsIn CheckError.IsInvalid (Consensus.CheckTxInputs feeTx feeInputs 10) ∧
        ∀ txfee, Consensus.CheckTxInputs feeTx feeInputs 10 = .ok txfee →
          txfee.amount = valueIn feeInputs feeTx.vin - sumValues feeTx.vout ∧
            MoneyRange txfee = true) ∧
      (CheckTransactionCommon feeTx 100 = .ok () ↔
        (∀ txout ∈ feeTx.vout, MoneyRange txout.nValue = true) ∧
          sumValues feeTx.vout ≤ MAX_MONEY.amount) := by
  have hreg : CheckRegularTransaction feeTx 100 = .ok () := rfl
  have hview : ∀ o c, feeInputs o = some c → MoneyRange c.out.nValue = true := by
    intro o c h
    rw [feeInputs] at h
    split at h
    · cases h
      rfl
    · cases h
  have hvin : feeTx.vin ≠ [] := List.cons_ne_nil _ _
  have hvout : feeTx.vout ≠ [] := List.cons_ne_nil _ _
  have hsize : 100 ≤ MAX_TX_SIZE := by decide
  exact ⟨hreg, hview, hvin, hvout, hsize,
    (CheckTransaction_valueAccounting feeTx 100 2).2.1 (Or.inl hreg),
    (CheckTransaction_valueAccounting feeTx 100 2).2.2.1 hreg feeInputs 10 hview,
    (CheckTransaction_valueAccounting feeTx 100 2).2.2.2 hvin hvout hsize⟩

end BitcoinAbc
