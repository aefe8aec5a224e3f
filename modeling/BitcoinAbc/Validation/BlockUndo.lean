import Mathlib
import BitcoinAbc.Coins.Cache

/-!
# Connecting a block's coins and undoing them (undo.h, coins.cpp, validation.cpp)

`ConnectBlock` changes the UTXO set in two passes: `AddCoins` for every
transaction in block order, then `SpendCoins` for every transaction but the
coinbase, which records the coins it spends in the block's undo data.
`ApplyBlockUndo` reverses that: it first puts back the coins each input spent
(`UndoCoinSpend`, which falls back to `AccessByTxid` for undo records of the
old format without a height), then spends the block's outputs again, and
moves the view's best block back to the previous block.

All of them act on the cache they are given, `CoinsView`, through its
methods. Heights are block heights (`pindex->nHeight`), taken as natural
numbers and converted to `uint32_t` where the code converts them.
-/

namespace BitcoinAbc

/-! ## Undo data (undo.h, disconnectresult.h) -/

/-- `CTxUndo`: the coins a transaction's inputs spent. -/
structure CTxUndo where
  vprevout : List Coin
  deriving DecidableEq, Repr

/-- `CBlockUndo`: the undo data of every transaction of a block but the
coinbase. -/
structure CBlockUndo where
  vtxundo : List CTxUndo
  deriving DecidableEq, Repr

/-- `DisconnectResult`. -/
inductive DisconnectResult where
  /-- All good. -/
  | OK
  /-- Rolled back, but the UTXO set was inconsistent with the block. -/
  | UNCLEAN
  /-- Something else went wrong. -/
  | FAILED
  deriving DecidableEq, Repr

/-! ## Connecting -/

/-- `AddCoins(cache, tx, nHeight, check_for_overwrite)`: add every output of
`tx` at its index. Without the check only a coinbase's outputs may overwrite
(the pre-BIP30 duplicate coinbases). -/
def AddCoins (cache : CoinsView) (tx : CTransaction) (nHeight : Nat)
    (check_for_overwrite : Bool) : Except CoinsError CoinsView :=
  tx.vout.zipIdx.foldlM (fun cache (out, i) =>
    let outpoint : COutPoint := ⟨tx.GetId, UInt32.ofNat i⟩
    match (if check_for_overwrite then cache.HaveCoin outpoint else (cache, tx.IsCoinBase)) with
    | (cache, overwrite) =>
      cache.AddCoin outpoint (Coin.make out (UInt32.ofNat nHeight) tx.IsCoinBase) overwrite) cache

/-- `SpendCoins(view, tx, txundo, nHeight)`: spend the inputs of a transaction
that is not a coinbase, each into a `Coin()` appended to `txundo`, and assert
that each was there. -/
def SpendCoins (view : CoinsView) (tx : CTransaction) (txundo : CTxUndo) :
    Except CoinsError (CoinsView × CTxUndo) :=
  if tx.IsCoinBase then pure (view, txundo)
  else
    tx.vin.foldlM (fun (view, txundo) txin =>
      match view.SpendCoin txin.prevout with
      | (view, moved) => do
        CoinsError.assert moved.isSome
        return (view, ⟨txundo.vprevout ++ [moved.getD coinEmpty]⟩)) (view, txundo)

/-- One turn of `ConnectBlock`'s second loop, over `(view, blockundo, txIndex)`:
a transaction that is not a coinbase spends its inputs into
`blockundo.vtxundo.at(txIndex)`, which throws `std::out_of_range` past the end. -/
def spendTx (s : CoinsView × CBlockUndo × Nat) (tx : CTransaction) :
    Except CoinsError (CoinsView × CBlockUndo × Nat) := do
  let (view, blockundo, txIndex) := s
  if tx.IsCoinBase then return (view, blockundo, txIndex)
  let some txundo := blockundo.vtxundo[txIndex]? | throw .out_of_range
  let (view, txundo) ← SpendCoins view tx txundo
  return (view, ⟨blockundo.vtxundo.set txIndex txundo⟩, txIndex + 1)

/-- The coin updates of `ConnectBlock` for a block at height `nHeight`: the
outputs of every transaction, then the inputs of every transaction but the
coinbases. -/
def ConnectBlockCoins (view : CoinsView) (block : CBlock) (nHeight : Nat) :
    Except CoinsError (CoinsView × CBlockUndo) := do
  -- blockundo.vtxundo.resize(block.vtx.size() - 1), which wraps for no transaction
  if block.vtx.isEmpty then throw .length_error
  let blockundo : CBlockUndo := ⟨List.replicate (block.vtx.length - 1) ⟨[]⟩⟩
  let view ← block.vtx.foldlM (fun view tx => AddCoins view tx nHeight false) view
  let (view, blockundo, _) ← block.vtx.foldlM spendTx (view, blockundo, 0)
  return (view, blockundo)

/-! ## Disconnecting -/

/-- `ONE_MEGABYTE`. -/
def ONE_MEGABYTE : Nat := 1000000

/-- `MAX_TX_SIZE`. -/
def MAX_TX_SIZE : Nat := ONE_MEGABYTE

/-- `MAX_OUTPUTS_PER_TX`: `MAX_TX_SIZE` over the serialized size of `CTxOut()`,
9 bytes (an 8-byte value and the length byte of an empty script). -/
def MAX_OUTPUTS_PER_TX : Nat := MAX_TX_SIZE / 9

/-- `AccessByTxid(view, txid)`: an unspent output of `txid` among its first
`MAX_OUTPUTS_PER_TX`, or `coinEmpty`. -/
def AccessByTxid (view : CoinsView) (txid : TxId) : CoinsView × Coin :=
  go view 0 MAX_OUTPUTS_PER_TX
where
  /-- The loop from output `n`, with `k` outputs left to look at. -/
  go (view : CoinsView) (n : Nat) : Nat → CoinsView × Coin
    | 0 => (view, coinEmpty)
    | k + 1 =>
      match view.AccessCoin ⟨txid, UInt32.ofNat n⟩ with
      | (view, alternate) => if !alternate.IsSpent then (view, alternate) else go view (n + 1) k

/-- `UndoCoinSpend(undo, view, out)`: put back the coin an input spent. An
undo record without a height takes the height and coinbase flag of another
unspent output of the same transaction, and fails when there is none. -/
def UndoCoinSpend (undo : Coin) (view : CoinsView) (out : COutPoint) :
    Except CoinsError (CoinsView × DisconnectResult) := do
  let (view, overwriting) := view.HaveCoin out
  -- an unspent coin is there already: overwriting it is not clean
  let fClean := !overwriting
  let mut view := view
  let mut undo := undo
  if undo.GetHeight == 0 then
    let (view', alternate) := AccessByTxid view out.txid
    view := view'
    if alternate.IsSpent then
      return (view, .FAILED)
    undo := Coin.make undo.out alternate.GetHeight alternate.IsCoinBase
  let restored ← view.AddCoin out undo !fClean
  return (restored, if fClean then .OK else .UNCLEAN)

/-- The inner loop of `ApplyBlockUndo`'s first pass: put back the coins of one
transaction's inputs. `none` is a return of `FAILED`; otherwise whether every
restore so far was clean. -/
def restoreTxInputs (view : CoinsView) (fClean : Bool) :
    List (CTxIn × Coin) → Except CoinsError (CoinsView × Option Bool)
  | [] => pure (view, some fClean)
  | (txin, undo) :: rest => do
    let (view, res) ← UndoCoinSpend undo view txin.prevout
    if res == .FAILED then return (view, none)
    restoreTxInputs view (fClean && res != .UNCLEAN) rest

/-- `ApplyBlockUndo`'s first pass, over the transactions after the coinbase
with their undo data. -/
def restoreInputs (view : CoinsView) (fClean : Bool) :
    List (CTransaction × CTxUndo) → Except CoinsError (CoinsView × Option Bool)
  | [] => pure (view, some fClean)
  | (tx, txundo) :: rest =>
    -- "transaction and undo data inconsistent"
    if txundo.vprevout.length != tx.vin.length then pure (view, none)
    else do
      let (view, r) ← restoreTxInputs view fClean (tx.vin.zip txundo.vprevout)
      match r with
      | none => return (view, none)
      | some fClean => restoreInputs view fClean rest

/-- One turn of the inner loop of `ApplyBlockUndo`'s second pass, over
`(view, fClean)`: spend the output `out` at index `o` of `tx` unless its script
is unspendable, and note a mismatch with what the block created. -/
def revertOutput (nHeight : Nat) (tx : CTransaction) (s : CoinsView × Bool) (p : CTxOut × Nat) :
    CoinsView × Bool :=
  let (view, fClean) := s
  let (out, o) := p
  if Script.IsUnspendable out.scriptPubKey then (view, fClean)
  else
    let (view, moved) := view.SpendCoin ⟨tx.GetId, UInt32.ofNat o⟩
    -- the `Coin coin` that `SpendCoin` moves into, left as it was when it returns false
    let coin := moved.getD coinEmpty
    (view, fClean && !(moved.isNone || out != coin.out ||
      UInt32.ofNat nHeight != coin.GetHeight || tx.IsCoinBase != coin.IsCoinBase))

/-- `ApplyBlockUndo`'s second pass on one transaction: every output with a
spendable script. -/
def revertTxOutputs (nHeight : Nat) (s : CoinsView × Bool) (tx : CTransaction) : CoinsView × Bool :=
  tx.vout.zipIdx.foldl (revertOutput nHeight tx) s

/-- `ApplyBlockUndo(blockUndo, block, pindex, view)` for a block at height
`nHeight`. -/
def ApplyBlockUndo (blockUndo : CBlockUndo) (block : CBlock) (nHeight : Nat) (view : CoinsView) :
    Except CoinsError (CoinsView × DisconnectResult) := do
  -- "block and undo data inconsistent"
  if blockUndo.vtxundo.length + 1 != block.vtx.length then
    return (view, .FAILED)
  -- First, restore inputs.
  let (view, r) ← restoreInputs view true ((block.vtx.drop 1).zip blockUndo.vtxundo)
  let some fClean := r | return (view, .FAILED)
  -- Second, revert created outputs.
  let (view, fClean) := block.vtx.foldl (revertTxOutputs nHeight) (view, fClean)
  -- Move best block pointer to previous block.
  return (view.SetBestBlock block.hashPrevBlock, if fClean then .OK else .UNCLEAN)

end BitcoinAbc
