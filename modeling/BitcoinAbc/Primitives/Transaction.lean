import Mathlib
import BitcoinAbc.Script.Types

/-!
# Amounts, transactions and blocks

The parts of `consensus/amount.h`, `primitives/transaction.h` and
`primitives/block.h` that the coins database and block connection read:

- `Amount`, an `int64_t` count of satoshis, kept as an `Int`; the places that
  must stay within 64 bits say so where they are modelled;
- `COutPoint`, `CTxIn`, `CTxOut`, `CTransaction` and `CBlock` with only the
  fields that the modelled functions read. A transaction's id is the hash of its
  serialization, which the code caches in the `hash` member; the model takes it
  as a field, and a result that needs distinct ids assumes them.
-/

namespace BitcoinAbc

/-- `uint256`-based `TxId`. -/
structure TxId where
  hash : BitVec 256
  deriving DecidableEq, Repr

/-- `uint256`-based `BlockHash`. -/
structure BlockHash where
  hash : BitVec 256
  deriving DecidableEq, Repr

/-- `base_blob::IsNull`: every byte is zero. -/
def TxId.IsNull (txid : TxId) : Bool := txid.hash == 0

/-- `base_blob::IsNull`. -/
def BlockHash.IsNull (h : BlockHash) : Bool := h.hash == 0

/-- `BlockHash()`: the null hash. -/
def BlockHash.null : BlockHash := ⟨0⟩

/-! ## Amounts (consensus/amount.h) -/

/-- `Amount`: an `int64_t` number of satoshis. -/
structure Amount where
  amount : Int
  deriving DecidableEq, Repr

namespace Amount

/-- `SATOSHI`. -/
def SATOSHI : Amount := ⟨1⟩

/-- `-SATOSHI`, the value of a null output. -/
def minusSatoshi : Amount := ⟨-1⟩

end Amount

/-! ## Transactions (primitives/transaction.h) -/

/-- `COutPoint`: the output `n` of the transaction `txid`. -/
structure COutPoint where
  txid : TxId
  n : UInt32
  deriving DecidableEq, Repr

/-- `CTxOut`. -/
structure CTxOut where
  nValue : Amount
  scriptPubKey : CScript
  deriving DecidableEq, Repr

namespace CTxOut

/-- `CTxOut()`, which calls `SetNull()`: the value `-SATOSHI` and an empty
script. -/
def null : CTxOut := ⟨Amount.minusSatoshi, []⟩

/-- `IsNull()`. -/
def IsNull (out : CTxOut) : Bool := out.nValue == Amount.minusSatoshi

/-- `SetNull()`. -/
def SetNull (_ : CTxOut) : CTxOut := null

@[simp] theorem IsNull_null : null.IsNull = true := rfl

end CTxOut

/-- `CTxIn`: the output it spends (its script and sequence number are not read
by the modelled code). -/
structure CTxIn where
  prevout : COutPoint
  deriving DecidableEq, Repr

/-- `CTransaction`: its inputs, its outputs and the cached hash that `GetId()`
returns. -/
structure CTransaction where
  vin : List CTxIn
  vout : List CTxOut
  hash : TxId
  deriving DecidableEq, Repr

/-- `COutPoint::NULL_INDEX`. -/
def COutPoint.NULL_INDEX : UInt32 := 0xffffffff

/-- `COutPoint::IsNull()`. -/
def COutPoint.IsNull (o : COutPoint) : Bool := o.txid.IsNull && o.n == COutPoint.NULL_INDEX

namespace CTransaction

/-- `GetId()`. -/
def GetId (tx : CTransaction) : TxId := tx.hash

/-- `IsCoinBase()`: a single input, which spends the null outpoint. -/
def IsCoinBase (tx : CTransaction) : Bool :=
  match tx.vin with
  | [txin] => txin.prevout.IsNull
  | _ => false

end CTransaction

/-- `CBlock`: the header field the coins code reads and the transactions. -/
structure CBlock where
  hashPrevBlock : BlockHash
  vtx : List CTransaction
  deriving DecidableEq, Repr

end BitcoinAbc
