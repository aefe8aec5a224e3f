import Mathlib
import BitcoinAbc.Primitives.Transaction
import BitcoinAbc.Lib.Slots
import BitcoinAbc.Crypto.SipHash

/-!
# Compact blocks (blockencodings.cpp, shortidprocessor.h)

A compact block announces a block by its header, a nonce, some prefilled
transactions with their indices, and a 6-byte short id for every other
transaction. The receiver hashes the header and nonce with SHA256 into two
SipHash keys, assigns the short ids to the slots the prefilled transactions
leave free (`ShortIdProcessor`), fills the slots whose short id matches a
transaction of its mempool or of its extra pool (`InitData`), and rebuilds the
block from the transactions it still lacks (`FillBlock`).

SHA256 is left open; SipHash is computed as `SipHashUint256` does. The bucket
count of the `unordered_map` behind `shortIdIndexMap`, which the distribution
check reads, and `CheckBlock` at the end of `FillBlock` are left open too.
-/

namespace BitcoinAbc

/-! ## Messages -/

/-- `CBlockHeader`. -/
structure CBlockHeader where
  nVersion : UInt32
  hashPrevBlock : BlockHash
  hashMerkleRoot : BitVec 256
  nTime : UInt32
  nBits : UInt32
  nNonce : UInt32
  deriving DecidableEq, Repr

/-- `CBlockHeader::IsNull()`. -/
def CBlockHeader.IsNull (header : CBlockHeader) : Bool := header.nBits == 0

/-- The little-endian bytes of the `len`-byte integer `v`. -/
def leBytesOf (v len : Nat) : List UInt8 := (List.range len).map fun j => UInt8.ofNat (v >>> (8 * j))

/-- The serialization of a header, as `stream << header` writes it. -/
def CBlockHeader.serialize (header : CBlockHeader) : List UInt8 :=
  leBytesOf header.nVersion.toNat 4 ++ leBytesOf header.hashPrevBlock.hash.toNat 32 ++
    leBytesOf header.hashMerkleRoot.toNat 32 ++ leBytesOf header.nTime.toNat 4 ++
    leBytesOf header.nBits.toNat 4 ++ leBytesOf header.nNonce.toNat 4

/-- A block as `FillBlock` writes it: the header and the transactions. -/
structure CBlockWithHeader where
  header : CBlockHeader
  vtx : List CTransaction
  deriving DecidableEq, Repr

/-- `CTransaction::IsNull()`. -/
def CTransaction.IsNull (tx : CTransaction) : Bool := tx.vin.isEmpty && tx.vout.isEmpty

/-- `CTransaction::GetHash()`, the same hash as `GetId()` here. -/
def CTransaction.GetHash (tx : CTransaction) : TxId := tx.hash

/-- `PrefilledTransaction`, with its index absolute once read. -/
structure PrefilledTransaction where
  index : UInt32
  tx : CTransaction
  deriving DecidableEq, Repr

/-- `CBlockHeaderAndShortTxIDs`. -/
structure CBlockHeaderAndShortTxIDs where
  shorttxidk0 : UInt64
  shorttxidk1 : UInt64
  nonce : UInt64
  shorttxids : List UInt64
  prefilledtxn : List PrefilledTransaction
  header : CBlockHeader
  deriving DecidableEq, Repr

namespace CBlockHeaderAndShortTxIDs

/-- The SipHash keys `FillShortTxIDSelector` takes from SHA256 of the
serialized header and nonce. -/
def selectorKeys (SHA256 : List UInt8 → BitVec 256) (header : CBlockHeader) (nonce : UInt64) :
    UInt64 × UInt64 :=
  let shorttxidhash := SHA256 (header.serialize ++ leBytesOf nonce.toNat 8)
  (uint256GetUint64 shorttxidhash 0, uint256GetUint64 shorttxidhash 1)

/-- `FillShortTxIDSelector()`. -/
def FillShortTxIDSelector (SHA256 : List UInt8 → BitVec 256) (obj : CBlockHeaderAndShortTxIDs) :
    CBlockHeaderAndShortTxIDs :=
  let (k0, k1) := selectorKeys SHA256 obj.header obj.nonce
  { obj with shorttxidk0 := k0, shorttxidk1 := k1 }

/-- `GetShortID(txhash)`: the low 6 bytes of SipHash under the keys. -/
def GetShortID (obj : CBlockHeaderAndShortTxIDs) (txhash : TxId) : UInt64 :=
  SipHashUint256 obj.shorttxidk0 obj.shorttxidk1 txhash.hash &&& 0xffffffffffff

def BlockTxCount (obj : CBlockHeaderAndShortTxIDs) : Nat :=
  obj.shorttxids.length + obj.prefilledtxn.length

end CBlockHeaderAndShortTxIDs

/-- `MAX_SIZE`, the largest size `ReadCompactSize` accepts. -/
def MAX_SIZE : Nat := 0x02000000

/-- `DifferenceFormatter::Unser` over the vector of prefilled transactions:
each read offset, a `CompactSize`, is added to `m_shift`, which must stay a
`uint32_t` index; `m_shift` then moves past it. -/
def unserDifferences : UInt64 → List (Nat × CTransaction) → Except String (List PrefilledTransaction)
  | _, [] => .ok []
  | m_shift, (n, tx) :: rest => do
    if n > MAX_SIZE then throw "ReadCompactSize(): size too large"
    let shift := m_shift + UInt64.ofNat n
    if shift.toNat < n || shift = UInt64.ofNat (2 ^ 64 - 1) || shift.toNat > 2 ^ 32 - 1 then
      throw "differential value overflow"
    let items ← unserDifferences (shift + 1) rest
    return ⟨UInt32.ofNat shift.toNat, tx⟩ :: items

/-- `Unserialize` of a `CBlockHeaderAndShortTxIDs` into `obj`, from the header,
the nonce, the short ids and the prefilled transactions with their
differential offsets as the stream holds them. The keys are set only when
there is a prefilled transaction; otherwise they stay what `obj` held. -/
def CBlockHeaderAndShortTxIDs.Unserialize (SHA256 : List UInt8 → BitVec 256)
    (obj : CBlockHeaderAndShortTxIDs) (header : CBlockHeader) (nonce : UInt64)
    (shorttxids : List UInt64) (prefilled : List (Nat × CTransaction)) :
    Except String CBlockHeaderAndShortTxIDs := do
  let prefilledtxn ← unserDifferences 0 prefilled
  let obj := { obj with header, nonce, shorttxids, prefilledtxn }
  match obj.prefilledtxn.getLast? with
  | none => return obj
  | some last =>
    -- Thanks to the DifferenceFormatter, the index values in the deserialized
    -- prefilled txs are absolute and sorted.
    let highestPrefilledIndex := last.index.toNat
    -- Make sure the indexes do not overflow 32 bits.
    if highestPrefilledIndex + obj.shorttxids.length > 2 ^ 32 - 1 then
      throw "indexes overflowed 32 bits"
    -- Make sure the indexes are contiguous.
    if highestPrefilledIndex ≥ obj.BlockTxCount then throw "non contiguous indexes"
    return obj.FillShortTxIDSelector SHA256

/-! ## `ShortIdProcessor` -/

/-- `ShortIdProcessor` over items of type `α`. -/
structure ShortIdProcessor (α : Type) where
  evenlyDistributed : Bool
  shortIdCollision : Bool
  outOfBoundIndex : Bool
  itemsAvailable : List (Option α)
  haveItem : List Bool
  shortIdIndexMap : AList fun _ : UInt64 => UInt32

namespace ShortIdProcessor

variable {α : Type} (cmp : α → α → Bool)

/-- `addItem(index, item)`, with the comparison `ItemCompare` as `cmp`: the
state and the number of items added. -/
def addItem (p : ShortIdProcessor α) (index : UInt32) (item : α) : ShortIdProcessor α × Int :=
  if p.itemsAvailable.length ≤ index.toNat then ({ p with outOfBoundIndex := true }, 0)
  else if !p.haveItem.getD index.toNat false then
    ({ p with haveItem := p.haveItem.set index.toNat true,
              itemsAvailable := p.itemsAvailable.set index.toNat (some item) }, 1)
  else
    -- Two items for one index: a short id collision; the index is requested.
    match p.itemsAvailable.getD index.toNat none with
    | some current =>
      if !cmp current item then ({ p with itemsAvailable := p.itemsAvailable.set index.toNat none }, -1)
      else (p, 0)
    | none => (p, 0)

/-- The loop of the constructor over the short ids, from `i` and
`index_offset`. `bucketSize` is the size of the bucket of a key in the map. -/
def shortIdLoop (bucketSize : (AList fun _ : UInt64 => UInt32) → UInt64 → Nat)
    (maxShortIdPerBucket : Nat) : ShortIdProcessor α → Nat → Nat → List UInt64 → ShortIdProcessor α
  | p, _, _, [] => p
  | p, i, index_offset, shortid :: rest =>
    -- `while (itemsAvailable[i + index_offset]) index_offset++;`
    let index_offset := index_offset + (p.itemsAvailable.drop (i + index_offset)).skipFilled
    let p := { p with
      shortIdIndexMap := p.shortIdIndexMap.insert shortid (UInt32.ofNat (i + index_offset)) }
    let p := if bucketSize p.shortIdIndexMap shortid > maxShortIdPerBucket then
        { p with evenlyDistributed := false } else p
    shortIdLoop bucketSize maxShortIdPerBucket p (i + 1) index_offset rest

/-- The constructor `ShortIdProcessor(prefilledItems, shortids,
maxShortIdPerBucket)`, with the prefilled items given by their index and
item. -/
def init (prefilledItems : List (UInt32 × α)) (shortids : List UInt64)
    (maxShortIdPerBucket : Nat) (bucketSize : (AList fun _ : UInt64 => UInt32) → UInt64 → Nat) :
    ShortIdProcessor α :=
  let n := prefilledItems.length + shortids.length
  let p : ShortIdProcessor α := ⟨true, false, false, List.replicate n none, List.replicate n false, ∅⟩
  let p := prefilledItems.foldl (fun p item => (addItem cmp p item.1 item.2).1) p
  let p := shortIdLoop bucketSize maxShortIdPerBucket p 0 0 shortids
  { p with shortIdCollision := p.shortIdIndexMap.entries.length != shortids.length }

/-- `getShortIdCount()`. -/
def getShortIdCount (p : ShortIdProcessor α) : Nat := p.shortIdIndexMap.entries.length

/-- `matchKnownItem(shortid, item)`. -/
def matchKnownItem (p : ShortIdProcessor α) (shortid : UInt64) (item : α) : ShortIdProcessor α × Int :=
  match p.shortIdIndexMap.lookup shortid with
  | none => (p, 0)
  | some index => addItem cmp p index item

/-- `getItem(index)`. -/
def getItem (p : ShortIdProcessor α) (index : Nat) : Option α := p.itemsAvailable.getD index none

end ShortIdProcessor

/-! ## `PartiallyDownloadedBlock` -/

/-- `ReadStatus`. -/
inductive ReadStatus where
  | READ_STATUS_OK
  | READ_STATUS_INVALID
  | READ_STATUS_FAILED
  | READ_STATUS_CHECKBLOCK_FAILED
  deriving DecidableEq, Repr

/-- What `CheckBlock` answers at the end of `FillBlock`: the block passes, it
fails as `BLOCK_MUTATED`, or it fails otherwise. -/
inductive CheckBlockResult where
  | ok
  | mutated
  | invalid
  deriving DecidableEq, Repr

/-- What `PartiallyDownloadedBlock` reads of its node: SHA256, the bound
`config->GetMaxBlockSize() / MIN_TRANSACTION_SIZE` on the transactions of a
block, the bucket sizes of `shortIdIndexMap`, and `CheckBlock`. -/
structure CompactBlockEnv where
  SHA256 : List UInt8 → BitVec 256
  maxBlockTxCount : Nat
  bucketSize : (AList fun _ : UInt64 => UInt32) → UInt64 → Nat
  CheckBlock : CBlockWithHeader → CheckBlockResult

/-- `CTransactionRefCompare`: two transactions are the same when their hashes
are. -/
def CTransactionRefCompare (lhs rhs : CTransaction) : Bool := lhs.GetHash == rhs.GetHash

/-- The state of a `PartiallyDownloadedBlock`. -/
structure PartiallyDownloadedBlock where
  header : Option CBlockHeader
  shortidProcessor : Option (ShortIdProcessor CTransaction)
  prefilled_count : Nat
  mempool_count : Int
  extra_count : Int

/-- A `PartiallyDownloadedBlock` just constructed. -/
def PartiallyDownloadedBlock.empty : PartiallyDownloadedBlock := ⟨none, none, 0, 0, 0⟩

/-- The loops of `InitData` over the mempool and over `extra_txn`, each a
transaction with the hash its short id is computed from: the processor,
`mempool_count` and what this loop added. Each stops once `mempool_count`
reaches the number of short ids. -/
def matchTxns (cmpctblock : CBlockHeaderAndShortTxIDs) :
    ShortIdProcessor CTransaction → Int → Int → List (TxId × CTransaction) →
      ShortIdProcessor CTransaction × Int × Int
  | p, mempool_count, added, [] => (p, mempool_count, added)
  | p, mempool_count, added, (txhash, tx) :: rest =>
    let (p, count) := p.matchKnownItem CTransactionRefCompare (cmpctblock.GetShortID txhash) tx
    let mempool_count := mempool_count + count
    if mempool_count = p.getShortIdCount then (p, mempool_count, added + count)
    else matchTxns cmpctblock p mempool_count (added + count) rest

/-- `InitData(cmpctblock, extra_txn)` on a fresh `PartiallyDownloadedBlock`,
with the mempool's transactions in the order `mapTx` lists them. -/
def InitData (env : CompactBlockEnv) (cmpctblock : CBlockHeaderAndShortTxIDs)
    (mempool : List CTransaction) (extra_txn : List (TxId × CTransaction)) :
    ReadStatus × PartiallyDownloadedBlock :=
  if cmpctblock.header.IsNull || (cmpctblock.shorttxids.isEmpty && cmpctblock.prefilledtxn.isEmpty) then
    (.READ_STATUS_INVALID, .empty)
  else if cmpctblock.shorttxids.length + cmpctblock.prefilledtxn.length > env.maxBlockTxCount then
    (.READ_STATUS_INVALID, .empty)
  else
    let header := some cmpctblock.header
    if cmpctblock.prefilledtxn.any (·.tx.IsNull) then
      (.READ_STATUS_INVALID, { PartiallyDownloadedBlock.empty with header })
    else
      let prefilled_count := cmpctblock.prefilledtxn.length
      let p := ShortIdProcessor.init CTransactionRefCompare
        (cmpctblock.prefilledtxn.map fun pt => (pt.index, pt.tx)) cmpctblock.shorttxids 12
        env.bucketSize
      if !p.evenlyDistributed || p.shortIdCollision || p.outOfBoundIndex then
        (.READ_STATUS_FAILED, ⟨header, some p, prefilled_count, 0, 0⟩)
      else
        let (p, mempool_count, _) := matchTxns cmpctblock p 0 0 (mempool.map fun tx => (tx.GetHash, tx))
        let (p, mempool_count, extra_count) := matchTxns cmpctblock p mempool_count 0 extra_txn
        (.READ_STATUS_OK, ⟨header, some p, prefilled_count, mempool_count, extra_count⟩)

/-- `IsTxAvailable(index)`; none where an `assert` fails. -/
def PartiallyDownloadedBlock.IsTxAvailable (pdb : PartiallyDownloadedBlock) (index : Nat) : Option Bool :=
  match pdb.header, pdb.shortidProcessor with
  | some _, some p => if index < p.itemsAvailable.length then some (p.getItem index).isSome else none
  | _, _ => none

/-- The loop of `FillBlock`: each slot without an item takes the next
transaction of `vtx_missing`; none when they run out. The block's
transactions and the transactions left over. -/
def fillLoop : List (Option CTransaction) → List CTransaction → Option (List CTransaction × List CTransaction)
  | [], vtx_missing => some ([], vtx_missing)
  | none :: _, [] => none
  | none :: items, tx :: vtx_missing => (fillLoop items vtx_missing).map fun r => (tx :: r.1, r.2)
  | some tx :: items, vtx_missing => (fillLoop items vtx_missing).map fun r => (tx :: r.1, r.2)

/-- `FillBlock(block, vtx_missing)`: the status and the block written; none
where an `assert` fails. -/
def PartiallyDownloadedBlock.FillBlock (env : CompactBlockEnv) (pdb : PartiallyDownloadedBlock)
    (vtx_missing : List CTransaction) : Option (ReadStatus × Option CBlockWithHeader) :=
  match pdb.header, pdb.shortidProcessor with
  | some header, some p =>
    match fillLoop p.itemsAvailable vtx_missing with
    | none => some (.READ_STATUS_INVALID, none)
    | some (vtx, rest) =>
      let block : CBlockWithHeader := ⟨header, vtx⟩
      if !rest.isEmpty then some (.READ_STATUS_INVALID, some block)
      else match env.CheckBlock block with
        | .ok => some (.READ_STATUS_OK, some block)
        -- Possible Short ID collision.
        | .mutated => some (.READ_STATUS_FAILED, some block)
        | .invalid => some (.READ_STATUS_CHECKBLOCK_FAILED, some block)
  | _, _ => none

/-! ## What a compact block describes -/

/-- The short id of a transaction under the keys that `FillShortTxIDSelector`
derives from `header` and `nonce`. -/
def shortIdUnder (SHA256 : List UInt8 → BitVec 256) (header : CBlockHeader) (nonce : UInt64)
    (txhash : TxId) : UInt64 :=
  let (k0, k1) := CBlockHeaderAndShortTxIDs.selectorKeys SHA256 header nonce
  SipHashUint256 k0 k1 txhash.hash &&& 0xffffffffffff

/-- The message `M` announces the block `B`: `B`'s header, the transactions at
the indices in `J` prefilled at their absolute index, and, in index order, the
short ids of the others under the keys derived from `M`'s header and nonce. -/
structure Describes (SHA256 : List UInt8 → BitVec 256) (M : CBlockHeaderAndShortTxIDs)
    (B : CBlockWithHeader) (J : Finset Nat) : Prop where
  header_eq : M.header = B.header
  prefilled_eq : M.prefilledtxn =
    (B.vtx.zipIdx.filter fun q => decide (q.2 ∈ J)).map fun q => ⟨UInt32.ofNat q.2, q.1⟩
  shorttxids_eq : M.shorttxids =
    (B.vtx.zipIdx.filter fun q => !decide (q.2 ∈ J)).map fun q =>
      shortIdUnder SHA256 M.header M.nonce q.1.GetHash

instance (SHA256 : List UInt8 → BitVec 256) (M : CBlockHeaderAndShortTxIDs) (B : CBlockWithHeader)
    (J : Finset Nat) : Decidable (Describes SHA256 M B J) :=
  decidable_of_iff (_ ∧ _ ∧ _) ⟨fun ⟨h₁, h₂, h₃⟩ => ⟨h₁, h₂, h₃⟩, fun ⟨h₁, h₂, h₃⟩ => ⟨h₁, h₂, h₃⟩⟩

/-! ## The keys of a message read without prefilled transactions -/

/-- A message with no prefilled transaction is read without
`FillShortTxIDSelector`: the keys stay those of the object read into. -/
theorem Unserialize_nil (SHA256 : List UInt8 → BitVec 256) (obj : CBlockHeaderAndShortTxIDs)
    (header : CBlockHeader) (nonce : UInt64) (shorttxids : List UInt64) :
    CBlockHeaderAndShortTxIDs.Unserialize SHA256 obj header nonce shorttxids [] =
      .ok { obj with header, nonce, shorttxids, prefilledtxn := [] } := rfl

/-- The offsets are read into as many prefilled transactions. -/
theorem unserDifferences_length : ∀ {m_shift : UInt64} {l : List (Nat × CTransaction)}
    {r : List PrefilledTransaction}, unserDifferences m_shift l = .ok r → r.length = l.length
  | _, [], r, h => by
    cases h
    rfl
  | m_shift, (n, tx) :: rest, r, h => by
    rw [unserDifferences] at h
    obtain ⟨-, h⟩ := Except.ite_throw_bind_eq_ok h
    obtain ⟨-, h⟩ := Except.ite_throw_bind_eq_ok h
    obtain ⟨items, hitems, h⟩ := Except.bind_eq_ok.mp h
    rw [Except.pure_eq_ok] at h
    rw [← h, List.length_cons, List.length_cons, unserDifferences_length hitems]

/-- A message read with prefilled transactions has the keys derived from its
header and nonce. -/
theorem Unserialize_keys {SHA256 : List UInt8 → BitVec 256} {obj M : CBlockHeaderAndShortTxIDs}
    {header : CBlockHeader} {nonce : UInt64} {shorttxids : List UInt64}
    {prefilled : List (Nat × CTransaction)}
    (h : CBlockHeaderAndShortTxIDs.Unserialize SHA256 obj header nonce shorttxids prefilled = .ok M)
    (hne : prefilled ≠ []) :
    (M.shorttxidk0, M.shorttxidk1) = CBlockHeaderAndShortTxIDs.selectorKeys SHA256 M.header M.nonce ∧
      M.header = header ∧ M.nonce = nonce ∧ M.shorttxids = shorttxids := by
  rw [CBlockHeaderAndShortTxIDs.Unserialize] at h
  obtain ⟨pts, hpts, h⟩ := Except.bind_eq_ok.mp h
  dsimp only at h
  split at h
  · -- no last prefilled transaction: none was read
    rename_i hlast
    have hnil : pts = [] := List.getLast?_eq_none_iff.mp hlast
    have hlen := unserDifferences_length hpts
    rw [hnil, List.length_nil] at hlen
    exact absurd (List.eq_nil_of_length_eq_zero hlen.symm) hne
  · obtain ⟨-, h⟩ := Except.ite_throw_bind_eq_ok h
    obtain ⟨-, h⟩ := Except.ite_throw_bind_eq_ok h
    rw [Except.pure_eq_ok] at h
    subst h
    exact ⟨rfl, rfl, rfl, rfl⟩

set_option maxRecDepth 10000 in
/-- Without prefilled transactions the receiver keeps the keys of the object it
read into, which the message never set: a transaction of the block that the
mempool offers is not matched, although the short id the message carries for
it is its short id under the keys of the message's header and nonce. The
object read into has keys 0 here; `CBlockHeaderAndShortTxIDs()` leaves them
uninitialized. -/
theorem InitData_misses_offered_tx :
    let tx : CTransaction := ⟨[⟨⟨⟨0⟩, 0⟩⟩], [⟨⟨1⟩, []⟩], ⟨5⟩⟩
    let SHA256 : List UInt8 → BitVec 256 := fun _ => 1
    let B : CBlockWithHeader := ⟨⟨1, ⟨0⟩, 0, 0, 1, 0⟩, [tx]⟩
    let obj : CBlockHeaderAndShortTxIDs := ⟨0, 0, 0, [], [], B.header⟩
    let env : CompactBlockEnv := ⟨SHA256, 1000, fun _ _ => 1, fun _ => .ok⟩
    let M := { obj with nonce := 0, shorttxids := [shortIdUnder SHA256 B.header 0 tx.GetHash] }
    CBlockHeaderAndShortTxIDs.Unserialize SHA256 obj B.header 0 M.shorttxids [] = .ok M ∧
      Describes SHA256 M B ∅ ∧ (InitData env M [tx] []).1 = .READ_STATUS_OK ∧
      (InitData env M [tx] []).2.IsTxAvailable 0 = some false := by
  intro tx SHA256 B obj env M
  exact ⟨rfl, by decide, by decide, by decide⟩

end BitcoinAbc
