import Mathlib
import BitcoinAbc.Validation.Connect
import BitcoinAbc.Validation.Subsidy
import BitcoinAbc.Consensus.TxCheck
import BitcoinAbc.Lib.Ledger

/-!
# `ConnectBlock` with its value checks (validation.cpp)

`ConnectBlock` first runs the transaction checks of `CheckBlock` and, where
it applies, the BIP30 check that no output of the block is already an unspent
coin; then it adds every output of the block to the view (`AddCoins`, where a
coinbase may overwrite a coin and another transaction may not), then,
transaction by transaction, checks the inputs against the view
(`Consensus::CheckTxInputs`), adds the fee to `nFees`, checks that `nFees`
stays in `MoneyRange`, runs the sequence-lock and script checks and spends the
inputs; last it limits what the coinbase pays to `nFees` plus the subsidy. The sequence-lock and script checks
are left open (`InputChecks`): the value of the coins does not depend on them.

The value argument is carried by the total of the coins a view shows
(`Function.weightSum` of `coinValue` over a set of outpoints that holds them):

- `connectTx_spec`: a transaction that is not a coinbase spends coins worth
  its fee plus its outputs, and the fee goes into `nFees`;
- `connectAll_spec`: over the loop, the total shown plus `nFees` plus the
  outputs of the transactions so far stays what it was;
- `ConnectBlock_value`: a block that connects leaves a total at most the total
  before plus its subsidy, with every coin in `MoneyRange`, where the BIP30
  check runs or the transactions other than the coinbase have new ids;
- `ConnectBlocks_value`: the same over a chain of blocks connected one after
  the other;
- `ConnectBlock_noOverflow`: on a view whose coins are in `MoneyRange`,
  `ConnectBlock` never ends in an `int64_t` overflow, under the same condition
  on the ids.
-/

namespace BitcoinAbc

open Function

/-- `BlockValidationResult`, as far as `ConnectBlock` and `CheckBlock`'s
transaction checks give one. -/
inductive BlockValidationResult where
  | BLOCK_CONSENSUS
  deriving DecidableEq, Repr

/-- A check of a block: `state.Invalid(result, reason)` or a fault. -/
abbrev BlockCheck (α : Type) := Except (CheckError BlockValidationResult) α

/-- A failed transaction check as a block check reports it,
`state.Invalid(BLOCK_CONSENSUS, tx_state.GetRejectReason())`; a fault stays
what it is. -/
def CheckError.toBlock : CheckError TxValidationResult → CheckError BlockValidationResult
  | .invalid _ reason => .invalid .BLOCK_CONSENSUS reason
  | .overflow => .overflow
  | .throws what => .throws what
  | .assertFails => .assertFails

/-- An exception or a failed `assert` of the coins code. -/
def CoinsError.toBlock : CoinsError → CheckError BlockValidationResult
  | .logic_error what => .throws what
  | .out_of_range => .throws "out_of_range"
  | .length_error => .throws "length_error"
  | .abort => .assertFails

/-- The transaction checks of `CheckBlock(block, state, params,
validationOptions)`, given each transaction's serialized size and coinbase
`scriptSig` size. -/
def CheckBlock (block : CBlock) (serializeSize scriptSigSize : CTransaction → Nat) :
    BlockCheck Unit :=
  match block.vtx with
  -- First transaction must be coinbase.
  | [] => throw (.invalid .BLOCK_CONSENSUS "bad-cb-missing")
  | cb :: txs => do
    -- And a valid coinbase.
    (CheckCoinbase cb (serializeSize cb) (scriptSigSize cb)).mapError CheckError.toBlock
    -- Check transactions for regularity, skipping the first.
    txs.forM fun tx => (CheckRegularTransaction tx (serializeSize tx)).mapError CheckError.toBlock

/-- The checks of `ConnectBlock` on the inputs of a transaction that the model
leaves open, each given the coins the view shows: `SequenceLocks` (BIP68),
and `CheckInputScripts`, which answers its reject reason when it fails. -/
structure InputChecks where
  SequenceLocks : CTransaction → (COutPoint → Option Coin) → Bool
  CheckInputScripts : CTransaction → (COutPoint → Option Coin) → Except String Unit

/-- One turn of `ConnectBlock`'s loop over the transactions, over the state of
the coins loop (`spendTx`) and `nFees`. -/
def connectTx (checks : InputChecks) (nHeight : Nat)
    (s : (CoinsView × CBlockUndo × Nat) × Amount) (tx : CTransaction) :
    BlockCheck ((CoinsView × CBlockUndo × Nat) × Amount) := do
  let (spends, nFees) := s
  let isCoinBase := tx.IsCoinBase
  let txfee ← if !isCoinBase then
      (Consensus.CheckTxInputs tx spends.1.coins nHeight).mapError CheckError.toBlock
    else pure ⟨0⟩
  let nFees ← nFees.add txfee
  if !MoneyRange nFees then
    throw (.invalid .BLOCK_CONSENSUS "bad-txns-accumulated-fee-outofrange")
  -- The following checks do not apply to the coinbase.
  if isCoinBase then return (spends, nFees)
  if !checks.SequenceLocks tx spends.1.coins then
    throw (.invalid .BLOCK_CONSENSUS "bad-txns-nonfinal")
  match checks.CheckInputScripts tx spends.1.coins with
  | .error reason => throw (.invalid .BLOCK_CONSENSUS reason)
  | .ok () =>
    let spends ← (spendTx spends tx).mapError CoinsError.toBlock
    return (spends, nFees)

/-- `BIP34_IMPLIES_BIP30_LIMIT`: from this height on the BIP30 check runs on
every block, since a coinbase of an earlier block may indicate it. -/
def BIP34_IMPLIES_BIP30_LIMIT : Nat := 1983702

/-- One outpoint of the BIP30 check: `view.HaveCoin(COutPoint(txid, o))`
rejects the block. -/
def checkBIP30Output (txid : TxId) (view : CoinsView) (o : Nat) : BlockCheck CoinsView :=
  match view.HaveCoin ⟨txid, UInt32.ofNat o⟩ with
  | (_, true) => throw (.invalid .BLOCK_CONSENSUS "bad-txns-BIP30")
  | (view, false) => pure view

/-- The BIP30 check of `ConnectBlock`: no output of a transaction of the block
may be where the view shows an unspent coin. -/
def checkBIP30 (view : CoinsView) (block : CBlock) : BlockCheck CoinsView :=
  block.vtx.foldlM (fun view tx => (List.range tx.vout.length).foldlM (checkBIP30Output tx.GetId) view)
    view

/-- `ConnectBlock(block, state, pindex, view, ...)` for a block at height
`nHeight`, with the halving interval of the consensus parameters: the view
and the undo data. `fEnforceBIP30` is what the code computes from the block
index: false for the two blocks that broke BIP30 (heights 91842 and 91880,
with their hashes) and for a block on the chain whose block at the BIP34
height is `BIP34Hash`. -/
def ConnectBlock (checks : InputChecks) (serializeSize scriptSigSize : CTransaction → Nat)
    (nSubsidyHalvingInterval : Nat) (view : CoinsView) (block : CBlock) (nHeight : Nat)
    (fEnforceBIP30 : Bool) : BlockCheck (CoinsView × CBlockUndo) := do
  CheckBlock block serializeSize scriptSigSize
  -- BIP30: no transaction may overwrite one with unspent outputs
  let view ← (if fEnforceBIP30 || decide (nHeight ≥ BIP34_IMPLIES_BIP30_LIMIT) then checkBIP30 view block
    else pure view : BlockCheck CoinsView)
  let blockundo : CBlockUndo := ⟨List.replicate (block.vtx.length - 1) ⟨[]⟩⟩
  -- Add all outputs
  let view ← match block.vtx.foldlM (fun view tx => AddCoins view tx nHeight false) view with
    | .ok view => pure view
    -- thrown from AddCoin when the block has duplicate transactions
    | .error (.logic_error _) => throw (.invalid .BLOCK_CONSENSUS "tx-duplicate")
    | .error e => throw e.toBlock
  let ((view, blockundo, _), nFees) ←
    block.vtx.foldlM (connectTx checks nHeight) ((view, blockundo, 0), ⟨0⟩)
  let blockReward ← nFees.add (GetBlockSubsidy nHeight nSubsidyHalvingInterval)
  -- `CheckBlock` has rejected a block without transactions
  let some cb := block.vtx.head? | throw (.invalid .BLOCK_CONSENSUS "bad-cb-missing")
  let valueOut ← cb.GetValueOut.mapError CheckError.toBlock
  if valueOut.amount > blockReward.amount then
    throw (.invalid .BLOCK_CONSENSUS "bad-cb-amount")
  return (view, blockundo)

/-- Connecting the blocks of a chain, each with its height and its
`fEnforceBIP30`, one after the other on the view that the previous one
leaves. -/
def ConnectBlocks (checks : InputChecks) (serializeSize scriptSigSize : CTransaction → Nat)
    (nSubsidyHalvingInterval : Nat) : CoinsView → List (CBlock × Nat × Bool) → BlockCheck CoinsView
  | view, [] => pure view
  | view, (block, nHeight, fEnforceBIP30) :: blocks => do
    let (view, _) ← ConnectBlock checks serializeSize scriptSigSize nSubsidyHalvingInterval
      view block nHeight fEnforceBIP30
    ConnectBlocks checks serializeSize scriptSigSize nSubsidyHalvingInterval view blocks

/-- The value of a coin. -/
def coinValue (coin : Coin) : Int := coin.out.nValue.amount

/-! ## What the transaction checks give -/

/-- `CheckBlock` accepts a block whose first transaction passes
`CheckCoinbase` and whose other ones pass `CheckRegularTransaction`. -/
theorem CheckBlock_eq_ok {block : CBlock} {serializeSize scriptSigSize : CTransaction → Nat}
    (h : CheckBlock block serializeSize scriptSigSize = .ok ()) :
    ∃ cb txs, block.vtx = cb :: txs ∧
      CheckCoinbase cb (serializeSize cb) (scriptSigSize cb) = .ok () ∧
      ∀ tx ∈ txs, CheckRegularTransaction tx (serializeSize tx) = .ok () := by
  unfold CheckBlock at h
  split at h
  · cases h
  · next cb txs hvtx =>
    obtain ⟨⟨⟩, hcb, htxs⟩ := Except.bind_eq_ok.mp h
    refine ⟨cb, txs, hvtx, Except.mapError_eq_ok.mp hcb, fun tx htx => ?_⟩
    exact Except.mapError_eq_ok.mp ((Except.forM_eq_ok txs).mp htxs tx htx)

theorem CheckCoinbase_isCoinBase {tx : CTransaction} {serializeSize scriptSigSize : Nat}
    (h : CheckCoinbase tx serializeSize scriptSigSize = .ok ()) : tx.IsCoinBase = true := by
  cases hcb : tx.IsCoinBase with
  | true => rfl
  | false =>
    rw [CheckCoinbase, hcb, if_pos (show (!false) = true from rfl)] at h
    cases h

/-- Every transaction of a block that passes `CheckBlock` passes
`CheckTransactionCommon`, and is the coinbase or passes
`CheckRegularTransaction`. -/
theorem CheckBlock_txs {block : CBlock} {serializeSize scriptSigSize : CTransaction → Nat}
    (h : CheckBlock block serializeSize scriptSigSize = .ok ()) :
    ∀ tx ∈ block.vtx, CheckTransactionCommon tx (serializeSize tx) = .ok () ∧
      (tx.IsCoinBase = true ∨ CheckRegularTransaction tx (serializeSize tx) = .ok ()) := by
  obtain ⟨cb, txs, hvtx, hcb, hregs⟩ := CheckBlock_eq_ok h
  intro tx htx
  rw [hvtx, List.mem_cons] at htx
  rcases htx with rfl | htx
  · exact ⟨CheckCoinbase_eq_ok hcb, .inl (CheckCoinbase_isCoinBase hcb)⟩
  · exact ⟨(CheckRegularTransaction_eq_ok (hregs tx htx)).2, .inr (hregs tx htx)⟩

/-- The outputs of a block that passes `CheckBlock` are in `MoneyRange`. -/
theorem CheckBlock_outputs_moneyRange {block : CBlock}
    {serializeSize scriptSigSize : CTransaction → Nat}
    (h : CheckBlock block serializeSize scriptSigSize = .ok ()) :
    ∀ tx ∈ block.vtx, ∀ txout ∈ tx.vout, MoneyRange txout.nValue = true :=
  fun tx htx => ((CheckTransactionCommon_eq_ok_iff _ _).mp (CheckBlock_txs h tx htx).1).2.2.2.1

/-- The inputs of a transaction that passes `CheckRegularTransaction` spend
pairwise distinct outpoints. -/
theorem checkInputOutPoints_nodup :
    ∀ {seen : List COutPoint} {vin : List CTxIn}, checkInputOutPoints seen vin = .ok () →
      (vin.map CTxIn.prevout).Nodup ∧ ∀ txin ∈ vin, txin.prevout ∉ seen
  | _, [], _ => ⟨List.nodup_nil, fun _ h => absurd h List.not_mem_nil⟩
  | seen, txin :: rest, h => by
    rw [checkInputOutPoints] at h
    split at h
    · cases h
    · split at h
      · cases h
      · next hnull hdup =>
        obtain ⟨hnd, hnot⟩ := checkInputOutPoints_nodup h
        refine ⟨List.nodup_cons.mpr ⟨fun hmem => ?_, hnd⟩, fun t ht => ?_⟩
        · obtain ⟨t, ht, heq⟩ := List.mem_map.mp hmem
          exact hnot t ht (heq ▸ List.mem_cons_self)
        · rcases List.mem_cons.mp ht with rfl | ht
          · exact hdup
          · exact fun hmem => hnot t ht (List.mem_cons_of_mem _ hmem)

theorem CheckRegularTransaction_inputs_nodup {tx : CTransaction} {serializeSize : Nat}
    (h : CheckRegularTransaction tx serializeSize = .ok ()) :
    (tx.vin.map CTxIn.prevout).Nodup := by
  rw [CheckRegularTransaction] at h
  split at h
  · cases h
  · obtain ⟨⟨⟩, -, hinputs⟩ := Except.bind_eq_ok.mp h
    exact (checkInputOutPoints_nodup hinputs).1

/-- `CheckTxInputs` accepts only transactions whose inputs are all there. -/
theorem CheckTxInputs_haveInputs {tx : CTransaction} {inputs : COutPoint → Option Coin}
    {nSpendHeight : Int} {txfee : Amount}
    (h : Consensus.CheckTxInputs tx inputs nSpendHeight = .ok txfee) :
    HaveInputs inputs tx = true := by
  cases hhave : HaveInputs inputs tx with
  | true => rfl
  | false =>
    rw [Consensus.CheckTxInputs, hhave, if_pos (show (!false) = true from rfl)] at h
    cases h

/-- Over inputs whose coins are all there, `valueIn` adds the coins' values. -/
theorem valueIn_eq_sum {inputs : COutPoint → Option Coin} :
    ∀ {vin : List CTxIn}, (∀ txin ∈ vin, haveCoin inputs txin.prevout = true) →
      valueIn inputs vin = ((vin.map CTxIn.prevout).map fun k => entryWeight coinValue (inputs k)).sum
  | [], _ => rfl
  | txin :: vin, h => by
    obtain ⟨coin, hcoin, -, hacc⟩ := accessCoin_of_haveCoin (h txin List.mem_cons_self)
    rw [valueIn_cons, hacc, valueIn_eq_sum fun t ht => h t (List.mem_cons_of_mem _ ht),
      List.map_cons, List.map_cons, List.sum_cons, hcoin, entryWeight_some]
    rfl

/-! ## The BIP30 check -/

section BIP30

variable {v v' : CoinsView} {m : COutPoint → Option Coin} {hb : BlockHash} {rest : List PlainView}

/-- An outpoint that passes the check is one the view shows nothing at, and
the view shows what it showed. -/
theorem checkBIP30Output_spec {txid : TxId} {o : Nat} (hv : v.Shows ⟨m, hb⟩ rest)
    (h : checkBIP30Output txid v o = .ok v') :
    v'.Shows ⟨m, hb⟩ rest ∧ m ⟨txid, UInt32.ofNat o⟩ = none := by
  obtain ⟨hv₁, hhave⟩ := hv.HaveCoin (o := ⟨txid, UInt32.ofNat o⟩)
  unfold checkBIP30Output at h
  split at h
  · cases h
  · next v₁ hres =>
    rw [hres] at hv₁ hhave
    rw [Except.pure_eq_ok] at h
    subst h
    exact ⟨hv₁, by simpa using hhave.symm⟩

/-- A block that passes the check leaves the view showing what it showed,
which is nothing at any output of its transactions. -/
theorem checkBIP30_spec {block : CBlock} (hv : v.Shows ⟨m, hb⟩ rest) (h : checkBIP30 v block = .ok v') :
    v'.Shows ⟨m, hb⟩ rest ∧ ∀ tx ∈ block.vtx, ∀ i < tx.vout.length, m ⟨tx.GetId, UInt32.ofNat i⟩ = none := by
  refine Except.foldlM_inv_forall (·.Shows ⟨m, hb⟩ rest)
    (fun tx => ∀ i < tx.vout.length, m ⟨tx.GetId, UInt32.ofNat i⟩ = none) block.vtx ?_ v v' hv h
  intro v₁ tx v₂ _ hv₁ htx
  -- the inner loop, over the output indices of `tx`
  obtain ⟨hv₂, hnone⟩ := Except.foldlM_inv_forall (·.Shows ⟨m, hb⟩ rest)
    (fun o => m ⟨tx.GetId, UInt32.ofNat o⟩ = none) _ (fun _ _ _ _ hs ho => checkBIP30Output_spec hs ho)
    v₁ v₂ hv₁ htx
  exact ⟨hv₂, fun i hi => hnone i (List.mem_range.mpr hi)⟩

theorem checkBIP30_noOverflow (v : CoinsView) (block : CBlock) :
    Except.ErrorsIn (· ≠ .overflow) (checkBIP30 v block) := by
  refine Except.ErrorsIn.foldlM _ (fun _ tx _ => Except.ErrorsIn.foldlM _ (fun w o _ => ?_) _) _
  unfold checkBIP30Output
  split
  · exact Except.ErrorsIn.error nofun
  · exact Except.ErrorsIn.pure _

/-- Past the BIP30 check, or where it does not run and the transactions other
than the coinbase create no coin at an outpoint of `s`, which holds what the
view shows: the view shows what it showed, and nothing where those
transactions create coins. -/
theorem bip30_pass_spec {block : CBlock} {nHeight : Nat} {fEnforceBIP30 : Bool} {s : Finset COutPoint}
    (hv : v.Shows ⟨m, hb⟩ rest) (hs : SupportedOn m s)
    (hreg : (fEnforceBIP30 || decide (nHeight ≥ BIP34_IMPLIES_BIP30_LIMIT)) = false →
      ∀ tx ∈ block.vtx, tx.IsCoinBase = false → ∀ k ∈ (tx.createdCoins nHeight).map Prod.fst, k ∉ s)
    (h : (if fEnforceBIP30 || decide (nHeight ≥ BIP34_IMPLIES_BIP30_LIMIT) then checkBIP30 v block
      else pure v) = .ok v') :
    v'.Shows ⟨m, hb⟩ rest ∧
      ∀ tx ∈ block.vtx, tx.IsCoinBase = false → ∀ k ∈ (tx.createdCoins nHeight).map Prod.fst, m k = none := by
  cases hc : (fEnforceBIP30 || decide (nHeight ≥ BIP34_IMPLIES_BIP30_LIMIT)) with
  | true =>
    rw [hc, if_pos rfl] at h
    obtain ⟨hv', hnone⟩ := checkBIP30_spec hv h
    exact ⟨hv', fun tx htx _ => CTransaction.createdCoins_absent (hnone tx htx)⟩
  | false =>
    -- no check: the ids are new
    rw [hc, if_neg Bool.false_ne_true, Except.pure_eq_ok] at h
    subst h
    exact ⟨hv, fun tx htx hcb k hk => hs.eq_none (hreg hc tx htx hcb k hk)⟩

end BIP30

/-! ## One transaction -/

section Step

variable {checks : InputChecks} {nHeight : Nat} {m : COutPoint → Option Coin} {hb : BlockHash}
  {rest : List PlainView} {s : Finset COutPoint}

/-- The spends of a transaction that is not a coinbase erase the outpoints it
spends. -/
theorem spendTx_shows {v v' : CoinsView} {bu bu' : CBlockUndo} {idx idx' : Nat}
    {tx : CTransaction} (hv : v.Shows ⟨m, hb⟩ rest) (hcb : tx.IsCoinBase = false)
    (h : spendTx (v, bu, idx) tx = .ok (v', bu', idx')) :
    v'.Shows ⟨updates m ((tx.vin.map CTxIn.prevout).map fun k => (k, none)), hb⟩ rest := by
  simp only [spendTx, hcb, Bool.false_eq_true, ↓reduceIte] at h
  split at h
  · obtain ⟨⟨v₁, undo⟩, hspend, h⟩ := Except.bind_eq_ok.mp h
    cases h
    exact (SpendCoins_spec hv hcb hspend).2
  · cases h

/-- The coinbase turn of the loop changes nothing but adds a zero fee. -/
theorem connectTx_coinbase {spends spends' : CoinsView × CBlockUndo × Nat} {nFees nFees' : Amount}
    {tx : CTransaction} (hcb : tx.IsCoinBase = true) (hFees : MoneyRange nFees = true)
    (h : connectTx checks nHeight (spends, nFees) tx = .ok (spends', nFees')) :
    spends' = spends ∧ nFees' = nFees := by
  have hzero : MoneyRange ⟨0⟩ = true := by decide
  simp only [connectTx, hcb, Bool.not_true, Bool.false_eq_true, ↓reduceIte, pure_bind] at h
  rw [Amount.add_eq_ok_of_moneyRange hFees hzero, Except.ok_bind, Int.add_zero] at h
  have hrange : MoneyRange ⟨nFees.amount⟩ = true := hFees
  simp only [hrange, Bool.not_true, Bool.false_eq_true, ↓reduceIte] at h
  cases h
  exact ⟨rfl, rfl⟩

/-- What the turn of a transaction that is not a coinbase went through: the
input checks with their fee, the fee added to `nFees` within `MoneyRange`, and
the spends. -/
theorem connectTx_eq_ok {v v' : CoinsView} {bu bu' : CBlockUndo} {idx idx' : Nat}
    {nFees nFees' : Amount} {tx : CTransaction} (hcb : tx.IsCoinBase = false)
    (h : connectTx checks nHeight ((v, bu, idx), nFees) tx = .ok ((v', bu', idx'), nFees')) :
    ∃ txfee, Consensus.CheckTxInputs tx v.coins nHeight = .ok txfee ∧
      (nFees.add txfee : BlockCheck Amount) = .ok nFees' ∧ MoneyRange nFees' = true ∧
      spendTx (v, bu, idx) tx = .ok (v', bu', idx') := by
  simp only [connectTx, hcb, Bool.not_false, Bool.false_eq_true, ↓reduceIte,
    Except.bind_eq_ok] at h
  obtain ⟨txfee, hfee, nFees₁, hadd, h⟩ := h
  -- past the fee check, the sequence locks and the scripts, the spends
  obtain ⟨hrange, h⟩ := Except.ite_throw_bind_eq_ok h
  obtain ⟨-, h⟩ := Except.ite_throw_bind_eq_ok h
  split at h
  · cases h
  obtain ⟨⟨v₁, bu₁, idx₁⟩, hspend, h⟩ := Except.bind_eq_ok.mp h
  cases h
  exact ⟨txfee, Except.mapError_eq_ok.mp hfee, hadd, by simpa using hrange,
    Except.mapError_eq_ok.mp hspend⟩

/-- A transaction that is not a coinbase, on a view that shows `m` with coins
in `MoneyRange`: its turn spends its inputs, whose coins are worth its fee
plus its outputs, and adds the fee to `nFees`, which stays in range. -/
theorem connectTx_spec {v v' : CoinsView} {bu bu' : CBlockUndo} {idx idx' : Nat}
    {nFees nFees' : Amount} {tx : CTransaction} {serializeSize : Nat}
    (hv : v.Shows ⟨m, hb⟩ rest) (hview : ∀ o c, m o = some c → MoneyRange c.out.nValue = true)
    (hs : SupportedOn m s) (hreg : CheckRegularTransaction tx serializeSize = .ok ())
    (hFees : MoneyRange nFees = true)
    (h : connectTx checks nHeight ((v, bu, idx), nFees) tx = .ok ((v', bu', idx'), nFees')) :
    v'.Shows ⟨updates m ((tx.vin.map CTxIn.prevout).map fun k => (k, none)), hb⟩ rest ∧
      MoneyRange nFees' = true ∧
      weightSum coinValue (updates m ((tx.vin.map CTxIn.prevout).map fun k => (k, none))) s +
          nFees'.amount + sumValues tx.vout =
        weightSum coinValue m s + nFees.amount := by
  obtain ⟨hcb, hcommon⟩ := CheckRegularTransaction_eq_ok hreg
  obtain ⟨-, -, -, hall, htotal⟩ := (CheckTransactionCommon_eq_ok_iff _ _).mp hcommon
  obtain ⟨txfee, hfee, hadd, hrange, hspend⟩ := connectTx_eq_ok hcb h
  have hm : v.coins = m := hv.coins_eq
  rw [hm] at hfee
  obtain ⟨hfee_amount, hfee_range⟩ := (Consensus.CheckTxInputs_spec hview hcb hall htotal).2 _ hfee
  rw [Amount.add_eq_ok_of_moneyRange hFees hfee_range] at hadd
  cases hadd
  refine ⟨spendTx_shows hv hcb hspend, hrange, ?_⟩
  -- the spent coins are there, at distinct outpoints, and worth `valueIn`
  have hhave := (HaveInputs_iff hcb).mp (CheckTxInputs_haveInputs hfee)
  have hsub : ∀ k ∈ tx.vin.map CTxIn.prevout, k ∈ s := by
    intro k hk
    obtain ⟨txin, htxin, rfl⟩ := List.mem_map.mp hk
    obtain ⟨coin, hcoin, -⟩ := accessCoin_of_haveCoin (hhave txin htxin)
    exact hs _ (by rw [hcoin]; rfl)
  have herase := weightSum_updates_none (w := coinValue) (f := m)
    (CheckRegularTransaction_inputs_nodup hreg) hsub
  rw [← valueIn_eq_sum hhave] at herase
  show _ + (nFees.amount + txfee.amount) + _ = _
  omega

/-- The loop over transactions that are not coinbases: the total shown, plus
`nFees`, plus the outputs of the transactions looped over, stays what it was.
The induction is on the transactions, from any view, record and `nFees`. -/
theorem connectAll_spec {serializeSize : CTransaction → Nat} {txs : List CTransaction}
    {v v' : CoinsView} {bu bu' : CBlockUndo} {idx idx' : Nat} {nFees nFees' : Amount}
    (hv : v.Shows ⟨m, hb⟩ rest) (hview : ∀ o c, m o = some c → MoneyRange c.out.nValue = true)
    (hs : SupportedOn m s) (hreg : ∀ tx ∈ txs, CheckRegularTransaction tx (serializeSize tx) = .ok ())
    (hFees : MoneyRange nFees = true)
    (h : txs.foldlM (connectTx checks nHeight) ((v, bu, idx), nFees) = .ok ((v', bu', idx'), nFees')) :
    v'.Shows ⟨updates m ((spentOutpoints txs).map fun k => (k, none)), hb⟩ rest ∧
      MoneyRange nFees' = true ∧
      weightSum coinValue (updates m ((spentOutpoints txs).map fun k => (k, none))) s +
          nFees'.amount + (txs.map fun tx => sumValues tx.vout).sum =
        weightSum coinValue m s + nFees.amount := by
  induction txs generalizing m v bu idx nFees with
  | nil =>
    simp only [List.foldlM_nil, Except.pure_eq_ok, Prod.mk.injEq] at h
    obtain ⟨⟨rfl, rfl, rfl⟩, rfl⟩ := h
    refine ⟨hv, hFees, ?_⟩
    rw [spentOutpoints_nil, List.map_nil, updates_nil, List.map_nil, List.sum_nil, Int.add_zero]
  | cons tx txs ih =>
    rw [List.foldlM_cons, Except.bind_eq_ok] at h
    obtain ⟨⟨⟨v₁, bu₁, idx₁⟩, nFees₁⟩, h₁, h⟩ := h
    obtain ⟨hv₁, hFees₁, hval₁⟩ := connectTx_spec hv hview hs (hreg tx List.mem_cons_self) hFees h₁
    -- the next turns run on the view with the inputs of `tx` spent
    have hview₁ : ∀ o c, updates m ((tx.vin.map CTxIn.prevout).map fun k => (k, none)) o = some c →
        MoneyRange c.out.nValue = true :=
      fun o c hc => hview o c (updates_none_eq_some hc)
    obtain ⟨hv', hFees', hval'⟩ := ih hv₁ hview₁ (hs.updates_none _)
      (fun t ht => hreg t (List.mem_cons_of_mem _ ht)) hFees₁ h
    rw [spentOutpoints_cons, List.map_append, updates_append]
    refine ⟨hv', hFees', ?_⟩
    rw [List.map_cons, List.sum_cons]
    omega

end Step

/-! ## The coins a block creates -/

section Created

variable {txid : TxId} {isCoinBase : Bool} {nHeight : Nat}

/-- The spendable outputs create coins worth at most all the outputs, whose
values are in `MoneyRange`. -/
theorem outputCoins_value_le : ∀ {outs : List (CTxOut × Nat)},
    (∀ q ∈ outs, MoneyRange q.1.nValue = true) →
    ((outputCoins txid isCoinBase nHeight outs).map fun p => entryWeight coinValue p.2).sum ≤
      (outs.map fun q => q.1.nValue.amount).sum
  | [], _ => Int.le_refl 0
  | (out, i) :: outs, h => by
    have ih := outputCoins_value_le fun q hq => h q (List.mem_cons_of_mem _ hq)
    have hout := (MoneyRange_iff.mp (h (out, i) List.mem_cons_self)).1
    unfold outputCoins
    split
    · -- an unspendable output creates nothing
      rw [List.map_cons, List.sum_cons]
      omega
    · rw [List.map_cons, List.sum_cons, List.map_cons, List.sum_cons, entryWeight_some]
      show out.nValue.amount + _ ≤ out.nValue.amount + _
      omega

theorem CTransaction.createdCoins_value_le {tx : CTransaction}
    (hall : ∀ txout ∈ tx.vout, MoneyRange txout.nValue = true) :
    ((tx.createdCoins nHeight).map fun p => entryWeight coinValue p.2).sum ≤ sumValues tx.vout := by
  have hmap : (tx.vout.zipIdx.map fun q => q.1.nValue.amount) =
      tx.vout.map fun out => out.nValue.amount := by
    conv_rhs => rw [← List.zipIdx_map_fst 0 tx.vout]
    rw [List.map_map]
    rfl
  rw [CTransaction.createdCoins, sumValues, ← hmap]
  exact outputCoins_value_le fun q hq => hall q.1 (List.fst_mem_of_mem_zipIdx hq)

/-- A block whose outputs are in `MoneyRange` creates coins worth at most all
its outputs. -/
theorem CBlock.createdCoins_value_le : ∀ {txs : List CTransaction},
    (∀ tx ∈ txs, ∀ txout ∈ tx.vout, MoneyRange txout.nValue = true) →
    (((txs.flatMap fun tx => tx.createdCoins nHeight)).map fun p => entryWeight coinValue p.2).sum ≤
      (txs.map fun tx => sumValues tx.vout).sum
  | [], _ => Int.le_refl 0
  | tx :: txs, h => by
    have htx : ((tx.createdCoins nHeight).map fun p => entryWeight coinValue p.2).sum ≤
        sumValues tx.vout :=
      CTransaction.createdCoins_value_le (h tx List.mem_cons_self)
    have ih := CBlock.createdCoins_value_le fun t ht => h t (List.mem_cons_of_mem _ ht)
    rw [List.flatMap_cons, List.map_append, List.sum_append, List.map_cons, List.sum_cons]
    omega

/-- The coins a block creates are its outputs, so in `MoneyRange` when they are. -/
theorem CBlock.createdCoins_moneyRange {txs : List CTransaction} {p : COutPoint × Option Coin}
    {c : Coin} (h : ∀ tx ∈ txs, ∀ txout ∈ tx.vout, MoneyRange txout.nValue = true)
    (hp : p ∈ txs.flatMap fun tx => tx.createdCoins nHeight) (hc : p.2 = some c) :
    MoneyRange c.out.nValue = true := by
  obtain ⟨tx, htx, hp⟩ := List.mem_flatMap.mp hp
  obtain ⟨out, i, hi, -, rfl⟩ := mem_outputCoins hp
  cases hc
  exact h tx htx out (List.fst_mem_of_mem_zipIdx hi)

/-- After the first pass the coins shown are in `MoneyRange`, when the coins
before and the outputs of the block are. -/
theorem updates_createdCoins_moneyRange {m : COutPoint → Option Coin} {txs : List CTransaction}
    (hview : ∀ o c, m o = some c → MoneyRange c.out.nValue = true)
    (hall : ∀ tx ∈ txs, ∀ txout ∈ tx.vout, MoneyRange txout.nValue = true) :
    ∀ o c, updates m (txs.flatMap fun tx => tx.createdCoins nHeight) o = some c →
      MoneyRange c.out.nValue = true := by
  intro o c hc
  rcases updates_apply_eq_or o m (txs.flatMap fun tx => tx.createdCoins nHeight) with hold | hmem
  · exact hview o c (hold ▸ hc)
  · rw [hc] at hmem
    exact CBlock.createdCoins_moneyRange hall hmem rfl

end Created

/-! ## One block -/

/-- What a block that connects went through: its transaction checks, the
BIP30 check where it runs, the outputs added, the loop over its transactions,
and the limit on the coinbase. -/
theorem ConnectBlock_eq_ok {checks : InputChecks} {serializeSize scriptSigSize : CTransaction → Nat}
    {nSubsidyHalvingInterval : Nat} {view view' : CoinsView} {block : CBlock} {nHeight : Nat}
    {fEnforceBIP30 : Bool} {blockundo : CBlockUndo}
    (h : ConnectBlock checks serializeSize scriptSigSize nSubsidyHalvingInterval view block nHeight
      fEnforceBIP30 = .ok (view', blockundo)) :
    ∃ cb txs view₀ view₁ idx nFees blockReward valueOut,
      CheckBlock block serializeSize scriptSigSize = .ok () ∧ block.vtx = cb :: txs ∧
      CheckCoinbase cb (serializeSize cb) (scriptSigSize cb) = .ok () ∧
      (∀ tx ∈ txs, CheckRegularTransaction tx (serializeSize tx) = .ok ()) ∧
      (if fEnforceBIP30 || decide (nHeight ≥ BIP34_IMPLIES_BIP30_LIMIT) then checkBIP30 view block
        else pure view) = .ok view₀ ∧
      block.vtx.foldlM (fun view tx => AddCoins view tx nHeight false) view₀ = .ok view₁ ∧
      block.vtx.foldlM (connectTx checks nHeight)
          ((view₁, ⟨List.replicate (block.vtx.length - 1) ⟨[]⟩⟩, 0), ⟨0⟩) =
        .ok ((view', blockundo, idx), nFees) ∧
      (nFees.add (GetBlockSubsidy nHeight nSubsidyHalvingInterval) : BlockCheck Amount) =
        .ok blockReward ∧
      cb.GetValueOut = .ok valueOut ∧ valueOut.amount ≤ blockReward.amount := by
  rw [ConnectBlock, Except.bind_eq_ok] at h
  obtain ⟨⟨⟩, hcheck, h⟩ := h
  rw [Except.bind_eq_ok] at h
  obtain ⟨view₀, hpass, h⟩ := h
  obtain ⟨cb, txs, hvtx, hcb, hregs⟩ := CheckBlock_eq_ok hcheck
  -- the outputs were added without an exception
  cases hadd : block.vtx.foldlM (fun view tx => AddCoins view tx nHeight false) view₀ with
  | error e =>
    rw [hadd] at h
    cases e <;> exact (nomatch h)
  | ok view₁ =>
    rw [hadd] at h
    simp only [pure_bind, Except.bind_eq_ok] at h
    obtain ⟨⟨⟨view₂, bu₂, idx⟩, nFees⟩, hloop, blockReward, hreward, h⟩ := h
    rw [hvtx, List.head?_cons] at h
    simp only [Except.bind_eq_ok] at h
    obtain ⟨valueOut, hout, h⟩ := h
    -- the coinbase pays no more than the reward
    obtain ⟨hle, h⟩ := Except.ite_throw_bind_eq_ok h
    cases h
    exact ⟨cb, txs, view₀, view₁, idx, nFees, blockReward, valueOut, hcheck, hvtx, hcb, hregs, hpass,
      hadd, hloop, hreward, Except.mapError_eq_ok.mp hout, Int.le_of_not_gt hle⟩

/-- A block that connects, on a view that shows `m` with coins in `MoneyRange`
held by `s`, where the BIP30 check runs or the transactions other than the
coinbase create no coin at an outpoint of `s`: the view ends showing coins in
`MoneyRange`, held by `s` and the created outpoints, worth at most what `m`
was worth plus the subsidy. The coinbase may write over a coin: that takes the
coin's value out. -/
theorem ConnectBlock_value {checks : InputChecks} {serializeSize scriptSigSize : CTransaction → Nat}
    {nSubsidyHalvingInterval : Nat} {v v' : CoinsView} {m : COutPoint → Option Coin}
    {hb : BlockHash} {rest : List PlainView} {s : Finset COutPoint} {block : CBlock} {nHeight : Nat}
    {fEnforceBIP30 : Bool} {bu : CBlockUndo} (hv : v.Shows ⟨m, hb⟩ rest)
    (hview : ∀ o c, m o = some c → MoneyRange c.out.nValue = true) (hs : SupportedOn m s)
    (hreg : (fEnforceBIP30 || decide (nHeight ≥ BIP34_IMPLIES_BIP30_LIMIT)) = false →
      ∀ tx ∈ block.vtx, tx.IsCoinBase = false → ∀ k ∈ (tx.createdCoins nHeight).map Prod.fst, k ∉ s)
    (h : ConnectBlock checks serializeSize scriptSigSize nSubsidyHalvingInterval v block nHeight
      fEnforceBIP30 = .ok (v', bu)) :
    ∃ m', v'.Shows ⟨m', hb⟩ rest ∧ (∀ o c, m' o = some c → MoneyRange c.out.nValue = true) ∧
      SupportedOn m' (s ∪ ((block.createdCoins nHeight).map Prod.fst).toFinset) ∧
      weightSum coinValue m' (s ∪ ((block.createdCoins nHeight).map Prod.fst).toFinset) ≤
        weightSum coinValue m s + (GetBlockSubsidy nHeight nSubsidyHalvingInterval).amount := by
  obtain ⟨cb, txs, v₀, v₁, idx, nFees, blockReward, valueOut, hcheck, hvtx, hcb, hregs, hpass, hadd,
    hloop, hreward, hout, hle⟩ := ConnectBlock_eq_ok h
  have hall := CheckBlock_outputs_moneyRange hcheck
  obtain ⟨-, -, -, hcb_all, hcb_total⟩ := (CheckTransactionCommon_eq_ok_iff _ _).mp
    (CheckBlock_txs hcheck cb (by rw [hvtx]; exact List.mem_cons_self)).1
  -- the first pass writes the created coins, over nothing but for the coinbase
  obtain ⟨hv₀, hnone⟩ := bip30_pass_spec hv hs hreg hpass
  have hv₁ : v₁.Shows ⟨updates m (block.createdCoins nHeight), hb⟩ rest :=
    AddCoinsAll_shows hv₀ hnone hadd
  have hview₁ : ∀ o c, updates m (block.createdCoins nHeight) o = some c →
      MoneyRange c.out.nValue = true :=
    updates_createdCoins_moneyRange hview hall
  have hs₁ := hs.updates (block.createdCoins nHeight)
  have hval₁ := weightSum_updates_le (w := coinValue) (l := block.createdCoins nHeight) hs
    (fun o c hc => (MoneyRange_iff.mp (hview o c hc)).1)
    fun p hp c hc => (MoneyRange_iff.mp (CBlock.createdCoins_moneyRange hall hp hc)).1
  have hcreated : ((block.createdCoins nHeight).map fun p => entryWeight coinValue p.2).sum ≤
      (block.vtx.map fun tx => sumValues tx.vout).sum :=
    CBlock.createdCoins_value_le hall
  have hsplit : (block.vtx.map fun tx => sumValues tx.vout).sum =
      sumValues cb.vout + (txs.map fun tx => sumValues tx.vout).sum := by
    rw [hvtx, List.map_cons, List.sum_cons]
  -- the coinbase turn changes nothing; the others run on what the first pass left
  rw [hvtx, List.foldlM_cons, Except.bind_eq_ok] at hloop
  obtain ⟨⟨spends₀, nFees₀⟩, h₀, hloop⟩ := hloop
  obtain ⟨rfl, rfl⟩ := connectTx_coinbase (CheckCoinbase_isCoinBase hcb) (by decide) h₀
  obtain ⟨hv', hFees, hval'⟩ := connectAll_spec hv₁ hview₁ hs₁ hregs (by decide) hloop
  -- the coinbase pays at most `nFees` plus the subsidy
  rw [Amount.add_eq_ok_of_moneyRange hFees (GetBlockSubsidy_moneyRange _ _)] at hreward
  cases hreward
  rw [GetValueOut_eq_ok hcb_all hcb_total] at hout
  cases hout
  refine ⟨_, hv', fun o c hc => hview₁ o c (updates_none_eq_some hc), hs₁.updates_none _, ?_⟩
  dsimp only at hval' hle
  omega

/-! ## No overflow

The transaction checks only reject, the fee of each transaction is in
`MoneyRange` against coins in it, so `nFees` stays in it, and so does the
subsidy: no addition of `ConnectBlock` leaves `int64_t`. -/

theorem CheckCoinbase_errorsIn (tx : CTransaction) (serializeSize scriptSigSize : Nat) :
    Except.ErrorsIn CheckError.IsInvalid (CheckCoinbase tx serializeSize scriptSigSize) := by
  rw [CheckCoinbase]
  refine Except.ErrorsIn.ite_throw trivial ?_
  refine Except.ErrorsIn.bind (CheckTransactionCommon_errorsIn tx serializeSize) fun _ _ => ?_
  exact Except.ErrorsIn.ite (fun _ => Except.ErrorsIn.error trivial) fun _ => Except.ErrorsIn.pure ()

theorem checkInputOutPoints_errorsIn : ∀ (seen : List COutPoint) (vin : List CTxIn),
    Except.ErrorsIn CheckError.IsInvalid (checkInputOutPoints seen vin)
  | _, [] => Except.ErrorsIn.ok ()
  | seen, txin :: rest => by
    rw [checkInputOutPoints]
    exact Except.ErrorsIn.ite_throw trivial
      (Except.ErrorsIn.ite_throw trivial (checkInputOutPoints_errorsIn _ rest))

theorem CheckRegularTransaction_errorsIn (tx : CTransaction) (serializeSize : Nat) :
    Except.ErrorsIn CheckError.IsInvalid (CheckRegularTransaction tx serializeSize) := by
  rw [CheckRegularTransaction]
  exact Except.ErrorsIn.ite_throw trivial
    (Except.ErrorsIn.bind (CheckTransactionCommon_errorsIn tx serializeSize) fun _ _ =>
      checkInputOutPoints_errorsIn [] tx.vin)

theorem CheckError.toBlock_ne_overflow {e : CheckError TxValidationResult} (he : e.IsInvalid) :
    e.toBlock ≠ .overflow := by
  cases e with
  | invalid r reason => nofun
  | _ => exact (nomatch he)

theorem CoinsError.toBlock_ne_overflow (e : CoinsError) : e.toBlock ≠ .overflow := by
  cases e <;> nofun

theorem CheckBlock_noOverflow (block : CBlock) (serializeSize scriptSigSize : CTransaction → Nat) :
    Except.ErrorsIn (· ≠ .overflow) (CheckBlock block serializeSize scriptSigSize) := by
  unfold CheckBlock
  split
  · exact Except.ErrorsIn.error nofun
  · next cb txs _ =>
    refine Except.ErrorsIn.bind ((CheckCoinbase_errorsIn _ _ _).mapError
      fun _ => CheckError.toBlock_ne_overflow) fun _ _ => ?_
    exact Except.ErrorsIn.forM txs fun tx _ => (CheckRegularTransaction_errorsIn _ _).mapError
      fun _ => CheckError.toBlock_ne_overflow

/-- What the loop over the transactions keeps: a valid view whose coins are in
`MoneyRange`, and `nFees` in `MoneyRange`. -/
structure LoopSound (st : (CoinsView × CBlockUndo × Nat) × Amount) : Prop where
  valid : st.1.1.Valid
  inRange : ∀ o c, st.1.1.coins o = some c → MoneyRange c.out.nValue = true
  fees : MoneyRange st.2 = true

section Loop

variable {checks : InputChecks} {nHeight : Nat} {st st' : (CoinsView × CBlockUndo × Nat) × Amount}
  {tx : CTransaction}

/-- A turn of the loop that succeeds keeps `LoopSound`. -/
theorem connectTx_loopSound (hst : LoopSound st) (h : connectTx checks nHeight st tx = .ok st') :
    LoopSound st' := by
  obtain ⟨⟨v, bu, idx⟩, nFees⟩ := st
  obtain ⟨⟨v', bu', idx'⟩, nFees'⟩ := st'
  cases hcb : tx.IsCoinBase with
  | true =>
    obtain ⟨hspends, rfl⟩ := connectTx_coinbase hcb hst.fees h
    cases hspends
    exact hst
  | false =>
    obtain ⟨-, -, -, hFees', hspend⟩ := connectTx_eq_ok hcb h
    have hv' := spendTx_shows (CoinsView.Shows.of_valid hst.valid) hcb hspend
    exact ⟨hv'.valid, fun o c hc => hst.inRange o c (updates_none_eq_some (hv'.coins_eq ▸ hc)),
      hFees'⟩

/-- A turn of the loop from a `LoopSound` state, for a coinbase or a
transaction that passes `CheckRegularTransaction`, never overflows. -/
theorem connectTx_noOverflow {serializeSize : Nat} (hst : LoopSound st)
    (htx : tx.IsCoinBase = true ∨ CheckRegularTransaction tx serializeSize = .ok ()) :
    Except.ErrorsIn (· ≠ .overflow) (connectTx checks nHeight st tx) := by
  obtain ⟨⟨v, bu, idx⟩, nFees⟩ := st
  have hzero : MoneyRange ⟨0⟩ = true := by decide
  cases hcb : tx.IsCoinBase with
  | true =>
    -- the fee of the coinbase is zero
    simp only [connectTx, hcb, Bool.not_true, Bool.false_eq_true, ↓reduceIte, pure_bind]
    rw [Amount.add_eq_ok_of_moneyRange hst.fees hzero, Except.ok_bind, Int.add_zero]
    have hrange : MoneyRange ⟨nFees.amount⟩ = true := hst.fees
    simp only [hrange, Bool.not_true, Bool.false_eq_true, ↓reduceIte]
    exact Except.ErrorsIn.pure _
  | false =>
    have hreg : CheckRegularTransaction tx serializeSize = .ok () := by
      rcases htx with htx | htx
      · rw [hcb] at htx
        cases htx
      · exact htx
    obtain ⟨-, hcommon⟩ := CheckRegularTransaction_eq_ok hreg
    obtain ⟨-, -, -, hall, htotal⟩ := (CheckTransactionCommon_eq_ok_iff _ _).mp hcommon
    simp only [connectTx, hcb, Bool.not_false, Bool.false_eq_true, ↓reduceIte]
    refine Except.ErrorsIn.bind ((Consensus.CheckTxInputs_spec hst.inRange hcb hall htotal).1.mapError
      fun _ => CheckError.toBlock_ne_overflow) fun txfee hfee => ?_
    -- the fee is in `MoneyRange`, so adding it to `nFees` does not overflow
    have hfee_range := ((Consensus.CheckTxInputs_spec hst.inRange hcb hall htotal).2 txfee
      (Except.mapError_eq_ok.mp hfee)).2
    rw [Amount.add_eq_ok_of_moneyRange hst.fees hfee_range, Except.ok_bind]
    refine Except.ErrorsIn.ite_throw nofun (Except.ErrorsIn.ite_throw nofun ?_)
    split
    · exact Except.ErrorsIn.error nofun
    · exact Except.ErrorsIn.bind (Except.ErrorsIn.mapError_of _ CoinsError.toBlock_ne_overflow)
        fun _ _ => Except.ErrorsIn.pure _

end Loop

/-- `ConnectBlock` on a valid view whose coins are in `MoneyRange` and held
by `s`, for a block where the BIP30 check runs or the transactions other than
the coinbase create no coin at an outpoint of `s`, never ends in an `int64_t`
overflow: it connects, rejects the block, or faults otherwise. -/
theorem ConnectBlock_noOverflow {checks : InputChecks}
    {serializeSize scriptSigSize : CTransaction → Nat} {nSubsidyHalvingInterval : Nat}
    {v : CoinsView} {s : Finset COutPoint} {block : CBlock} {nHeight : Nat} {fEnforceBIP30 : Bool}
    (hv : v.Valid) (hview : ∀ o c, v.coins o = some c → MoneyRange c.out.nValue = true)
    (hs : SupportedOn v.coins s)
    (hreg : (fEnforceBIP30 || decide (nHeight ≥ BIP34_IMPLIES_BIP30_LIMIT)) = false →
      ∀ tx ∈ block.vtx, tx.IsCoinBase = false → ∀ k ∈ (tx.createdCoins nHeight).map Prod.fst, k ∉ s) :
    Except.ErrorsIn (· ≠ .overflow)
      (ConnectBlock checks serializeSize scriptSigSize nSubsidyHalvingInterval v block nHeight
        fEnforceBIP30) := by
  unfold ConnectBlock
  refine Except.ErrorsIn.bind (CheckBlock_noOverflow block serializeSize scriptSigSize)
    fun _ hcheck => ?_
  refine Except.ErrorsIn.bind (Except.ErrorsIn.ite (fun _ => checkBIP30_noOverflow v block)
    fun _ => Except.ErrorsIn.pure v) fun v₀ hpass => ?_
  obtain ⟨hv₀, hnone⟩ := bip30_pass_spec (CoinsView.Shows.of_valid hv) hs hreg hpass
  cases hadd : block.vtx.foldlM (fun view tx => AddCoins view tx nHeight false) v₀ with
  | error e =>
    -- an exception of the first pass is reported as a rejection or a fault
    cases e <;> exact Except.ErrorsIn.throw_bind nofun
  | ok v₁ =>
    have hzero : MoneyRange ⟨0⟩ = true := by decide
    have hv₁ := AddCoinsAll_shows hv₀ hnone hadd
    have hst₀ : LoopSound ((v₁, ⟨List.replicate (block.vtx.length - 1) ⟨[]⟩⟩, 0), ⟨0⟩) :=
      ⟨hv₁.valid, fun o c hc => updates_createdCoins_moneyRange hview
        (CheckBlock_outputs_moneyRange hcheck) o c (hv₁.coins_eq ▸ hc), hzero⟩
    dsimp only
    rw [pure_bind]
    -- the loop keeps `LoopSound`, turn by turn
    have hturn : ∀ st, ∀ tx ∈ block.vtx, LoopSound st →
        Except.ErrorsIn (· ≠ .overflow) (connectTx checks nHeight st tx) ∧
          ∀ st', connectTx checks nHeight st tx = .ok st' → LoopSound st' :=
      fun st tx htx hst => ⟨connectTx_noOverflow hst (CheckBlock_txs hcheck tx htx).2,
        fun _ h => connectTx_loopSound hst h⟩
    refine Except.ErrorsIn.bind (Except.ErrorsIn.foldlM_inv LoopSound block.vtx hturn _ hst₀)
      fun st hloop => ?_
    have hst : LoopSound st := Except.foldlM_inv LoopSound block.vtx
      (fun st tx st' htx hst h => (hturn st tx htx hst).2 st' h) _ _ hst₀ hloop
    -- `nFees` and the subsidy are in `MoneyRange`, so the reward does not overflow
    rw [Amount.add_eq_ok_of_moneyRange hst.fees (GetBlockSubsidy_moneyRange _ _), Except.ok_bind]
    obtain ⟨cb, txs, hvtx, -, -⟩ := CheckBlock_eq_ok hcheck
    have hcb_mem : cb ∈ block.vtx := by
      rw [hvtx]
      exact List.mem_cons_self
    obtain ⟨-, -, -, hcb_all, hcb_total⟩ :=
      (CheckTransactionCommon_eq_ok_iff _ _).mp (CheckBlock_txs hcheck cb hcb_mem).1
    rw [hvtx, List.head?_cons]
    dsimp only
    rw [GetValueOut_eq_ok hcb_all hcb_total]
    exact Except.ErrorsIn.bind (Except.ErrorsIn.ok _) fun _ _ =>
      Except.ErrorsIn.ite_throw nofun (Except.ErrorsIn.pure _)

/-! ## A chain of blocks -/

/-- The outpoints at which the blocks of a chain, each at its height, create
coins. -/
def createdOutPoints (blocks : List (CBlock × Nat × Bool)) : List COutPoint :=
  blocks.flatMap fun b => (b.1.createdCoins b.2.1).map Prod.fst

@[simp] theorem createdOutPoints_nil : createdOutPoints [] = [] := rfl

theorem createdOutPoints_cons (b : CBlock × Nat × Bool) (blocks : List (CBlock × Nat × Bool)) :
    createdOutPoints (b :: blocks) = (b.1.createdCoins b.2.1).map Prod.fst ++ createdOutPoints blocks :=
  List.flatMap_cons

/-- At each block of a chain where the BIP30 check does not run, no
transaction other than the coinbase creates a coin at an outpoint of `s` or at
one that an earlier block of the chain creates. This is what the code assumes
where it skips the check: past BIP34 a transaction id is not repeated but by
a hash collision, and the two blocks exempt from BIP30 repeat coinbases only. -/
def RegularOutputsNew : Finset COutPoint → List (CBlock × Nat × Bool) → Prop
  | _, [] => True
  | s, (block, nHeight, fEnforceBIP30) :: blocks =>
    ((fEnforceBIP30 || decide (nHeight ≥ BIP34_IMPLIES_BIP30_LIMIT)) = false →
      ∀ tx ∈ block.vtx, tx.IsCoinBase = false → ∀ k ∈ (tx.createdCoins nHeight).map Prod.fst, k ∉ s) ∧
    RegularOutputsNew (s ∪ ((block.createdCoins nHeight).map Prod.fst).toFinset) blocks

/-- What connecting blocks keeps of the view: it is valid, its coins are in
`MoneyRange`, and `s` holds them. -/
structure ViewSound (v : CoinsView) (s : Finset COutPoint) : Prop where
  valid : v.Valid
  inRange : ∀ o c, v.coins o = some c → MoneyRange c.out.nValue = true
  supported : SupportedOn v.coins s

section Chain

variable {checks : InputChecks} {serializeSize scriptSigSize : CTransaction → Nat}
  {nSubsidyHalvingInterval : Nat}

/-- A block that connects keeps `ViewSound`, over `s` and the outpoints it
creates, and adds at most its subsidy to the total. -/
theorem ConnectBlock_sound {v v' : CoinsView} {s : Finset COutPoint} {block : CBlock}
    {nHeight : Nat} {fEnforceBIP30 : Bool} {bu : CBlockUndo} (hv : ViewSound v s)
    (hreg : (fEnforceBIP30 || decide (nHeight ≥ BIP34_IMPLIES_BIP30_LIMIT)) = false →
      ∀ tx ∈ block.vtx, tx.IsCoinBase = false → ∀ k ∈ (tx.createdCoins nHeight).map Prod.fst, k ∉ s)
    (h : ConnectBlock checks serializeSize scriptSigSize nSubsidyHalvingInterval v block nHeight
      fEnforceBIP30 = .ok (v', bu)) :
    ViewSound v' (s ∪ ((block.createdCoins nHeight).map Prod.fst).toFinset) ∧
      weightSum coinValue v'.coins (s ∪ ((block.createdCoins nHeight).map Prod.fst).toFinset) ≤
        weightSum coinValue v.coins s + (GetBlockSubsidy nHeight nSubsidyHalvingInterval).amount := by
  obtain ⟨m', hv', hview', hs', hval⟩ :=
    ConnectBlock_value (CoinsView.Shows.of_valid hv.valid) hv.inRange hv.supported hreg h
  have hm' : v'.coins = m' := hv'.coins_eq
  rw [← hm'] at hview' hs' hval
  exact ⟨⟨hv'.valid, hview', hs'⟩, hval⟩

/-- Blocks connected one after the other, on a view with `ViewSound` over
`s`, where no transaction other than a coinbase creates a coin at an outpoint
of `s` or of an earlier block unless the BIP30 check runs: the view ends with
`ViewSound` over `s` and the created outpoints, worth at most what the first
view was worth plus the subsidies. The induction is on the blocks. -/
theorem ConnectBlocks_value {blocks : List (CBlock × Nat × Bool)} {v v' : CoinsView}
    {s : Finset COutPoint} (hv : ViewSound v s) (hnew : RegularOutputsNew s blocks)
    (h : ConnectBlocks checks serializeSize scriptSigSize nSubsidyHalvingInterval v blocks = .ok v') :
    ViewSound v' (s ∪ (createdOutPoints blocks).toFinset) ∧
      weightSum coinValue v'.coins (s ∪ (createdOutPoints blocks).toFinset) ≤
        weightSum coinValue v.coins s +
          (blocks.map fun b => (GetBlockSubsidy b.2.1 nSubsidyHalvingInterval).amount).sum := by
  induction blocks generalizing v s with
  | nil =>
    cases h
    simp only [createdOutPoints_nil, List.toFinset_nil, Finset.union_empty, List.map_nil,
      List.sum_nil, Int.add_zero]
    exact ⟨hv, Int.le_refl _⟩
  | cons b blocks ih =>
    obtain ⟨block, nHeight, fEnforceBIP30⟩ := b
    obtain ⟨hreg, hnew'⟩ := hnew
    rw [ConnectBlocks, Except.bind_eq_ok] at h
    obtain ⟨⟨v₁, bu⟩, h₁, h⟩ := h
    obtain ⟨hv₁, hval₁⟩ := ConnectBlock_sound hv hreg h₁
    obtain ⟨hv', hval'⟩ := ih hv₁ hnew' h
    -- the outpoints held after the rest of the chain are those of the whole chain
    have hunion : s ∪ ((block.createdCoins nHeight).map Prod.fst).toFinset ∪
        (createdOutPoints blocks).toFinset =
          s ∪ (createdOutPoints ((block, nHeight, fEnforceBIP30) :: blocks)).toFinset := by
      rw [createdOutPoints_cons, List.toFinset_append, Finset.union_assoc]
    rw [← hunion]
    refine ⟨hv', ?_⟩
    rw [List.map_cons, List.sum_cons]
    dsimp only at hval₁ hval' ⊢
    omega

/-- Blocks connected one after the other, under the hypotheses of
`ConnectBlocks_value`, never end in an `int64_t` overflow. -/
theorem ConnectBlocks_noOverflow {blocks : List (CBlock × Nat × Bool)} {v : CoinsView}
    {s : Finset COutPoint} (hv : ViewSound v s) (hnew : RegularOutputsNew s blocks) :
    Except.ErrorsIn (· ≠ .overflow)
      (ConnectBlocks checks serializeSize scriptSigSize nSubsidyHalvingInterval v blocks) := by
  induction blocks generalizing v s with
  | nil => exact Except.ErrorsIn.pure v
  | cons b blocks ih =>
    obtain ⟨block, nHeight, fEnforceBIP30⟩ := b
    obtain ⟨hreg, hnew'⟩ := hnew
    rw [ConnectBlocks]
    refine Except.ErrorsIn.bind (ConnectBlock_noOverflow hv.valid hv.inRange hv.supported hreg)
      fun ⟨v₁, bu⟩ h₁ => ?_
    exact ih (ConnectBlock_sound hv hreg h₁).1 hnew'

end Chain

/-! ## No inflation -/

/-- No inflation. Blocks connected one after the other by `ConnectBlock`, with
the sequence-lock and script checks left open, on a view with `ViewSound` over
`s`, where no transaction other than a coinbase creates a coin at an outpoint
of `s` or of an earlier block unless the BIP30 check runs (a coinbase may
overwrite a coin, as at the two blocks exempt from BIP30): the run never ends
in an `int64_t` overflow, and when every block connects, the view ends with
coins in `MoneyRange`, held by `s` and the created outpoints and worth at most
what the first view was worth plus the subsidies. The subsidy never grows with
the height, is at most `50 * COIN`, is zero from 64 halvings on, and the
subsidies of the heights up to any `H` sum to less than `2 * 50 * COIN` times
the halving interval, so to at most `MAX_MONEY` for an interval of 210000
blocks. -/
theorem ConnectBlocks_noInflation :
    (∀ (checks : InputChecks) (serializeSize scriptSigSize : CTransaction → Nat)
        (nSubsidyHalvingInterval : Nat) (blocks : List (CBlock × Nat × Bool)) (v : CoinsView)
        (s : Finset COutPoint),
      ViewSound v s → RegularOutputsNew s blocks →
      Except.ErrorsIn (· ≠ .overflow)
          (ConnectBlocks checks serializeSize scriptSigSize nSubsidyHalvingInterval v blocks) ∧
        ∀ v', ConnectBlocks checks serializeSize scriptSigSize nSubsidyHalvingInterval v blocks =
            .ok v' →
          ViewSound v' (s ∪ (createdOutPoints blocks).toFinset) ∧
            weightSum coinValue v'.coins (s ∪ (createdOutPoints blocks).toFinset) ≤
              weightSum coinValue v.coins s +
                (blocks.map fun b => (GetBlockSubsidy b.2.1 nSubsidyHalvingInterval).amount).sum) ∧
    (∀ nSubsidyHalvingInterval h₁ h₂, h₁ ≤ h₂ →
      (GetBlockSubsidy h₂ nSubsidyHalvingInterval).amount ≤
        (GetBlockSubsidy h₁ nSubsidyHalvingInterval).amount) ∧
    (∀ nHeight nSubsidyHalvingInterval,
      (GetBlockSubsidy nHeight nSubsidyHalvingInterval).amount ≤ 50 * COIN.amount) ∧
    (∀ nHeight nSubsidyHalvingInterval, 64 ≤ nHeight / nSubsidyHalvingInterval →
      (GetBlockSubsidy nHeight nSubsidyHalvingInterval).amount = 0) ∧
    (∀ nSubsidyHalvingInterval, 1 ≤ nSubsidyHalvingInterval → ∀ H,
      ∑ h ∈ Finset.range (H + 1), (GetBlockSubsidy h nSubsidyHalvingInterval).amount <
        2 * 50 * COIN.amount * nSubsidyHalvingInterval) ∧
    ∀ H, ∑ h ∈ Finset.range (H + 1), (GetBlockSubsidy h 210000).amount ≤ MAX_MONEY.amount := by
  refine ⟨fun checks serializeSize scriptSigSize I blocks v s hv hnew =>
    ⟨ConnectBlocks_noOverflow hv hnew, fun v' h => ConnectBlocks_value hv hnew h⟩,
    fun I h₁ h₂ h => GetBlockSubsidy_antitone I h, GetBlockSubsidy_le,
    fun nHeight I h => GetBlockSubsidy_eq_zero h, fun I hI H => sum_GetBlockSubsidy_lt hI H,
    fun H => ?_⟩
  -- `2 * 50 * COIN * 210000` is `MAX_MONEY`
  have hlt := sum_GetBlockSubsidy_lt (show 0 < 210000 by decide) H
  exact Int.le_of_lt hlt

/-- A chain of two blocks with one coinbase, the same in both, over a view of
no coins and without the BIP30 check, as at the two exempt blocks: the chain
connects, the second coinbase writing over the first one's coin. -/
theorem ConnectBlocks_noInflation_duplicateCoinbase :
    let view : CoinsView := ⟨CCoinsViewDB.empty, CCoinsViewCache.empty, []⟩
    let block : CBlock := ⟨⟨0⟩, [⟨[⟨⟨⟨0⟩, COutPoint.NULL_INDEX⟩⟩], [⟨⟨5000000000⟩, [0x51]⟩], ⟨1⟩⟩]⟩
    let blocks : List (CBlock × Nat × Bool) := [(block, 1, false), (block, 2, false)]
    let checks : InputChecks := ⟨fun _ _ => true, fun _ _ => .ok ()⟩
    ViewSound view ∅ ∧ RegularOutputsNew ∅ blocks ∧
      (ConnectBlocks checks (fun _ => 100) (fun _ => 2) 210000 view blocks).toBool = true ∧
      (Except.ErrorsIn (· ≠ .overflow) (ConnectBlocks checks (fun _ => 100) (fun _ => 2) 210000 view blocks) ∧
        ∀ v', ConnectBlocks checks (fun _ => 100) (fun _ => 2) 210000 view blocks = .ok v' →
          ViewSound v' (∅ ∪ (createdOutPoints blocks).toFinset) ∧
            weightSum coinValue v'.coins (∅ ∪ (createdOutPoints blocks).toFinset) ≤
              weightSum coinValue view.coins ∅ +
                (blocks.map fun b => (GetBlockSubsidy b.2.1 210000).amount).sum) ∧
      (GetBlockSubsidy 420000 210000).amount ≤ (GetBlockSubsidy 210000 210000).amount ∧
      (GetBlockSubsidy (64 * 210000) 210000).amount = 0 ∧
      ∑ h ∈ Finset.range 101, (GetBlockSubsidy h 1).amount < 2 * 50 * COIN.amount * 1 := by
  intro view block blocks checks
  have hcoins : view.coins = fun _ => none := CCoinsViewCache.view_of_cacheCoins_empty rfl
  have hv : ViewSound view ∅ := by
    refine ⟨⟨CCoinsViewCache.empty_valid, trivial⟩, fun o c h => ?_, fun o h => ?_⟩
    · rw [hcoins] at h
      cases h
    · rw [hcoins] at h
      cases h
  -- the blocks hold a coinbase only
  have hcb : ∀ tx ∈ block.vtx, tx.IsCoinBase = true := by decide
  have hnew : RegularOutputsNew ∅ blocks :=
    ⟨fun _ tx htx h => absurd h (by rw [hcb tx htx]; decide),
      fun _ tx htx h => absurd h (by rw [hcb tx htx]; decide), trivial⟩
  exact ⟨hv, hnew, by decide, ConnectBlocks_noInflation.1 checks _ _ 210000 blocks view ∅ hv hnew,
    ConnectBlocks_noInflation.2.1 210000 210000 420000 (by decide),
    ConnectBlocks_noInflation.2.2.2.1 _ 210000 (by decide),
    ConnectBlocks_noInflation.2.2.2.2.1 1 (by decide) 100⟩

end BitcoinAbc
