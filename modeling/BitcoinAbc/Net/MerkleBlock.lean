import Mathlib
import BitcoinAbc.Net.BlockEncodings

/-!
# Partial Merkle trees (merkleblock.h, merkleblock.cpp)

A `CMerkleBlock` proves that some transactions are in a block without sending
the block: its `CPartialMerkleTree` walks the block's Merkle tree depth first
from the root, and for each node it visits it stores one bit, whether the node
is above a matched transaction. Below a node without a match, and at a matched
leaf, the walk stores the node's hash and does not descend. The receiver walks
the same shape (`TraverseAndExtract`), reading the bits and hashes back,
recomputes the root and collects the matched transaction ids with their
positions; `ExtractMatches` then checks that every bit, up to the padding of
the last byte, and every hash was used. On the wire the bits travel as bytes
(`BitsToBytes`, `BytesToBits`). `verifytxoutproof` (rpc/rawtransaction.cpp)
reads such proofs back and returns the ids they commit to.

The model is generic in the type of hashes, of which `uint256()` is the
`default`, and in `Hash(left, right)`, the double SHA-256 of two hashes that
`merkle.cpp` calls `SHA256D64`. Heights and positions (`int`, `size_t`) are
natural numbers. `CalcTreeWidth` adds in `unsigned int`, the type of
`nTransactions`, so it keeps `nTransactions + (1 << height) - 1` modulo
`2^32`: past `2^31` transactions the sum wraps at height 31, and the loop
that finds the height stops one level below the root. The loop stops by
height 31, so `1 << height` never leaves `int`. A read of `vTxid` or `vMatch`
past its end, which the constructor's callers never make, reads `uint256()`
or `false`.
-/

namespace BitcoinAbc

namespace MerkleBlock

variable {α : Type} [Inhabited α]

/-! ## The bits on the wire -/

/-- `BitsToBytes(bits)`: bit `p` goes to bit `p % 8` of byte `p / 8`, the
bytes starting at zero. -/
def BitsToBytes (bits : List Bool) : List UInt8 :=
  (List.range bits.length).foldl
    (fun ret p => ret.modify (p / 8) (· ||| ((bits.getD p false).toUInt8 <<< (p % 8).toUInt8)))
    (List.replicate ((bits.length + 7) / 8) 0)

/-- `BytesToBits(bytes)`: bit `p` is bit `p % 8` of byte `p / 8`. -/
def BytesToBits (bytes : List UInt8) : List Bool :=
  (List.range (bytes.length * 8)).map fun p =>
    (bytes.getD (p / 8) 0 &&& ((1 : UInt8) <<< (p % 8).toUInt8)) != 0

/-! ## The tree -/

/-- `CPartialMerkleTree`. -/
structure CPartialMerkleTree (α : Type) where
  nTransactions : UInt32
  vBits : List Bool
  vHash : List α
  fBad : Bool
  deriving DecidableEq, Repr

/-- `CalcTreeWidth(height)`: the number of nodes at `height` in a tree over
`nTransactions` leaves, the sum taken modulo `2^32`. -/
def CalcTreeWidth (nTransactions height : Nat) : Nat :=
  ((nTransactions + (1 <<< height) - 1) % 2 ^ 32) >>> height

/-- `while (CalcTreeWidth(nHeight) > 1) nHeight++`, from `nHeight`, for at
most `fuel` passes: the width halves at each pass, so `nTransactions` passes
are more than enough. -/
def treeHeightLoop (nTransactions : Nat) : Nat → Nat → Nat
  | 0, nHeight => nHeight
  | fuel + 1, nHeight =>
    if CalcTreeWidth nTransactions nHeight > 1 then treeHeightLoop nTransactions fuel (nHeight + 1)
    else nHeight

/-- The height of the tree, as the constructor and `ExtractMatches` compute
it. -/
def treeHeight (nTransactions : Nat) : Nat := treeHeightLoop nTransactions nTransactions 0

section Build

variable (Hash : α → α → α) (nTransactions : Nat) (vTxid : List α)

/-- `CalcHash(height, pos, vTxid)`; `none` where `assert(vTxid.size() != 0)`
fails. -/
def CalcHash : Nat → Nat → Option α
  | 0, pos => if vTxid.length = 0 then none else some (vTxid.getD pos default)
  | height + 1, pos =>
    if vTxid.length = 0 then none
    else do
      let left ← CalcHash height (pos * 2)
      -- the right child, or a copy of the left one past the end of the level
      let right ← if pos * 2 + 1 < CalcTreeWidth nTransactions height then
        CalcHash height (pos * 2 + 1) else pure left
      pure (Hash left right)

/-- The loop of `TraverseAndBuild` that sets `fParentOfMatch`: the matches
of the leaves under the node, the first `nTransactions` of them. -/
def parentOfMatch (vMatch : List Bool) (height pos : Nat) : Bool :=
  let first := pos <<< height
  let last := min ((pos + 1) <<< height) nTransactions
  (List.range' first (last - first)).foldl (fun f p => f || vMatch.getD p false) false

/-- `TraverseAndBuild(height, pos, vTxid, vMatch)`, appending to `vBits` and
`vHash`; `none` where `CalcHash` asserts. -/
def TraverseAndBuild (vMatch : List Bool) : Nat → Nat → List Bool × List α → Option (List Bool × List α)
  | 0, pos, (vBits, vHash) => do
    let fParentOfMatch := parentOfMatch nTransactions vMatch 0 pos
    pure (vBits ++ [fParentOfMatch], vHash ++ [← CalcHash Hash nTransactions vTxid 0 pos])
  | height + 1, pos, (vBits, vHash) => do
    let fParentOfMatch := parentOfMatch nTransactions vMatch (height + 1) pos
    if !fParentOfMatch then
      pure (vBits ++ [fParentOfMatch], vHash ++ [← CalcHash Hash nTransactions vTxid (height + 1) pos])
    else
      let acc ← TraverseAndBuild vMatch height (pos * 2) (vBits ++ [fParentOfMatch], vHash)
      if pos * 2 + 1 < CalcTreeWidth nTransactions height then
        TraverseAndBuild vMatch height (pos * 2 + 1) acc
      else pure acc

end Build

/-- `CPartialMerkleTree(vTxid, vMatch)`; `none` where `CalcHash` asserts, on
no transaction. `nTransactions` keeps the size modulo `2^32`. -/
def CPartialMerkleTree.make (Hash : α → α → α) (vTxid : List α) (vMatch : List Bool) :
    Option (CPartialMerkleTree α) := do
  let nTransactions := vTxid.length.toUInt32
  let nHeight := treeHeight nTransactions.toNat
  let (vBits, vHash) ←
    TraverseAndBuild Hash nTransactions.toNat vTxid vMatch nHeight 0 ([], [])
  pure ⟨nTransactions, vBits, vHash, false⟩

/-! ## Extraction -/

/-- The locals `TraverseAndExtract` passes by reference, with `fBad`. -/
structure ExtractState (α : Type) where
  nBitsUsed : Nat
  nHashUsed : Nat
  vMatch : List α
  vnIndex : List Nat
  fBad : Bool
  deriving DecidableEq, Repr

section Extract

variable [DecidableEq α] (Hash : α → α → α) (t : CPartialMerkleTree α)

/-- The end of `TraverseAndExtract` at a node where the walk does not descend:
the stored hash, a match at height `0`. -/
def extractLeaf (height pos : Nat) (fParentOfMatch : Bool) (st : ExtractState α) :
    α × ExtractState α :=
  if st.nHashUsed ≥ t.vHash.length then
    -- overflowed the hash array
    (default, { st with fBad := true })
  else
    let hash := t.vHash.getD st.nHashUsed default
    let st := { st with nHashUsed := st.nHashUsed + 1 }
    if height = 0 ∧ fParentOfMatch then
      (hash, { st with vMatch := st.vMatch ++ [hash], vnIndex := st.vnIndex ++ [pos] })
    else (hash, st)

/-- `TraverseAndExtract(height, pos, nBitsUsed, nHashUsed, vMatch, vnIndex)`. -/
def TraverseAndExtract : Nat → Nat → ExtractState α → α × ExtractState α
  | height, pos, st =>
    if st.nBitsUsed ≥ t.vBits.length then
      -- overflowed the bits array
      (default, { st with fBad := true })
    else
      let fParentOfMatch := t.vBits.getD st.nBitsUsed false
      let st := { st with nBitsUsed := st.nBitsUsed + 1 }
      match height with
      | 0 => extractLeaf t 0 pos fParentOfMatch st
      | height + 1 =>
        if !fParentOfMatch then extractLeaf t (height + 1) pos fParentOfMatch st
        else
          let (left, st) := TraverseAndExtract height (pos * 2) st
          if pos * 2 + 1 < CalcTreeWidth t.nTransactions.toNat height then
            let (right, st) := TraverseAndExtract height (pos * 2 + 1) st
            -- the two branches cover different transactions
            let st := if right = left then { st with fBad := true } else st
            (Hash left right, st)
          else (Hash left left, st)

end Extract

/-- `ExtractMatches(vMatch, vnIndex)`: the root it returns, `vMatch` and
`vnIndex` after the call, and the tree with the `fBad` it leaves. `vMatch` is
cleared first, `vnIndex` is not. -/
def CPartialMerkleTree.ExtractMatches [DecidableEq α] (Hash : α → α → α) (t : CPartialMerkleTree α)
    (vnIndex : List Nat) : α × List α × List Nat × CPartialMerkleTree α :=
  let nTransactions := t.nTransactions.toNat
  -- an empty set will not work
  if nTransactions = 0 then (default, [], vnIndex, t)
  -- there can never be more hashes provided than one for every txid
  else if t.vHash.length > nTransactions then (default, [], vnIndex, t)
  -- there must be at least one bit per node in the partial tree
  else if t.vBits.length < t.vHash.length then (default, [], vnIndex, t)
  else
    let nHeight := treeHeight nTransactions
    let (hashMerkleRoot, st) := TraverseAndExtract Hash t nHeight 0 ⟨0, 0, [], vnIndex, t.fBad⟩
    let t := { t with fBad := st.fBad }
    if st.fBad then (default, st.vMatch, st.vnIndex, t)
    -- every bit was consumed, except for the padding of the last byte
    else if (st.nBitsUsed + 7) / 8 ≠ (t.vBits.length + 7) / 8 then (default, st.vMatch, st.vnIndex, t)
    -- every hash was consumed
    else if st.nHashUsed ≠ t.vHash.length then (default, st.vMatch, st.vnIndex, t)
    else (hashMerkleRoot, st.vMatch, st.vnIndex, t)

/-- The tree as `SERIALIZE_METHODS` reads back what it wrote: the bits go
through `BitsToBytes` and `BytesToBits`, and `fBad` is cleared. -/
def CPartialMerkleTree.reread (t : CPartialMerkleTree α) : CPartialMerkleTree α :=
  { t with vBits := BytesToBits (BitsToBytes t.vBits), fBad := false }

/-! ## Merkle blocks -/

/-- `CMerkleBlock`, with the fields the constructor from a set of
transactions fills. -/
structure CMerkleBlock where
  header : CBlockHeader
  txn : CPartialMerkleTree (BitVec 256)
  deriving DecidableEq, Repr

/-- `CMerkleBlock(block, txids)`: the block's header, and the partial tree over
the ids of its transactions matching those in `txids`; `none` where the tree's
constructor asserts, on a block without transactions. -/
def CMerkleBlock.make (Hash : BitVec 256 → BitVec 256 → BitVec 256) (block : CBlockWithHeader)
    (txids : Finset TxId) : Option CMerkleBlock := do
  let vMatch := block.vtx.map fun tx => decide (tx.GetId ∈ txids)
  let vHashes := block.vtx.map fun tx => tx.GetId.hash
  pure ⟨block.header, ← CPartialMerkleTree.make Hash vHashes vMatch⟩

/-- The Merkle block as `SERIALIZE_METHODS` reads back what it wrote: the
header as it was, the tree read back. -/
def CMerkleBlock.reread (mb : CMerkleBlock) : CMerkleBlock := { mb with txn := mb.txn.reread }

/-! ## Proofs of inclusion -/

/-- `verifytxoutproof`, once the proof is read into `merkleBlock`: `nTx` is the
`nTx` of the block of the active chain with the proof's header, `none` where
there is none. The ids the proof commits to, or the error thrown. -/
def verifytxoutproof (Hash : BitVec 256 → BitVec 256 → BitVec 256) (merkleBlock : CMerkleBlock)
    (nTx : Option Nat) : Except String (List (BitVec 256)) :=
  let (hashMerkleRoot, vMatch, _, _) := merkleBlock.txn.ExtractMatches Hash []
  if hashMerkleRoot ≠ merkleBlock.header.hashMerkleRoot then pure []
  else
    match nTx with
    | none | some 0 => throw "Block not found in chain"
    -- only a proof over as many transactions as the block has gives results
    | some n => pure (if n = merkleBlock.txn.nTransactions.toNat then vMatch else [])

end MerkleBlock

end BitcoinAbc
