import Mathlib
import BitcoinAbc.BlockFilter.Gcs
import BitcoinAbc.Util.GolombRice
import BitcoinAbc.Crypto.SipHash
import BitcoinAbc.Serialize.Integers
import BitcoinAbc.Validation.BlockUndo
import BitcoinAbc.Script.Parse

/-!
# Golomb-coded sets and block filters (blockfilter.h, blockfilter.cpp)

A `GCSFilter` (BIP158) holds a set of byte strings as the sorted list of their
hashes into `[0, N * M)`, each stored as its distance from the one before,
Golomb-Rice coded with parameter `P` after the count `N` as a CompactSize.
It can be built from the elements, or from an encoding received from a peer,
which it checks; `Match` and `MatchAny` walk the codes and the sorted query
hashes side by side.

A `BlockFilter` of type `BASIC` is the filter of the scripts a block pays to
and spends from, keyed by the block hash, with `P = 19` and `M = 784931`.

The element set is an `unordered_set`: a list without repeats
(`ElementSet`), in whatever order the set iterates; the filter sorts the
hashes, so the order does not matter. `HashToRange` takes the `__int128`
branch of `MapIntoRange`, which the portable one agrees with
(`MapIntoRange_eq_mulHi`). The block hash of a new block filter,
`block.GetHash()`, is an argument.
-/

namespace BitcoinAbc

namespace BlockFilter

open Serialize

/-! ## Golomb-coded sets -/

/-- `GCSFilter::ElementSet`: byte strings without repeats. -/
structure ElementSet where
  elems : List (List UInt8)
  nodup : elems.Nodup

/-- `ElementSet::emplace`: the set with `e`, which is new or already there. -/
def ElementSet.emplace (s : ElementSet) (e : List UInt8) : ElementSet :=
  if h : e ∈ s.elems then s else ⟨s.elems ++ [e], s.nodup.append (List.nodup_singleton e) (by simpa using h)⟩

/-- The empty `ElementSet`. -/
def ElementSet.empty : ElementSet := ⟨[], List.nodup_nil⟩

/-- `GCSFilter::Params`. -/
structure Params where
  m_siphash_k0 : UInt64 := 0
  m_siphash_k1 : UInt64 := 0
  m_P : UInt8 := 0
  m_M : UInt32 := 1

/-- `GCSFilter`: the parameters, the element count `m_N`, the range
`m_F = N * M` of the hashes, and the encoding. -/
structure GCSFilter where
  m_params : Params
  m_N : UInt32
  m_F : UInt64
  m_encoded : List UInt8

/-- `GCSFilter::HashToRange(element)` of a filter with parameters `params`
and range `F`: SipHash of the bytes, mapped into `[0, F)`. -/
def HashToRange (params : Params) (F : UInt64) (element : List UInt8) : UInt64 :=
  let hash := ((CSipHasher.make params.m_siphash_k0 params.m_siphash_k1).Write element).Finalize
  MapIntoRange true hash F

/-- `GCSFilter::BuildHashedSet(elements)`: the hashes, sorted. -/
def BuildHashedSet (params : Params) (F : UInt64) (elements : List (List UInt8)) : List UInt64 :=
  (elements.map (HashToRange params F)).mergeSort fun a b => decide (a ≤ b)

/-- The loop of `GCSFilter(params, elements)` over the sorted hashes: the
distance of each from the last, Golomb-Rice coded. -/
def encodeLoop (P : UInt8) : UInt64 → List UInt64 → BitStreamWriter → Except String BitStreamWriter
  | _, [], bitwriter => pure bitwriter
  | last_value, value :: values, bitwriter => do
    let delta := value - last_value
    let bitwriter ← GolombRiceEncode bitwriter P delta
    encodeLoop P value values bitwriter

/-- `GCSFilter(params, elements)`: the count as a CompactSize, then, for a
set with elements, the coded distances padded to a byte. -/
def GCSFilter.ofElements (params : Params) (elements : ElementSet) : Except String GCSFilter := do
  let N := elements.elems.length
  let m_N := N.toUInt32
  if m_N.toNat ≠ N then throw "N must be <2^32"
  let m_F := m_N.toUInt64 * params.m_M.toUInt64
  let m_encoded := WriteCompactSize m_N.toUInt64
  if elements.elems = [] then return ⟨params, m_N, m_F, m_encoded⟩
  let bitwriter ← encodeLoop params.m_P 0 (BuildHashedSet params m_F elements.elems) (.ofStream m_encoded)
  -- `bitwriter.Flush()`; the flush of the destructor then has nothing left
  return ⟨params, m_N, m_F, bitwriter.Flush.m_ostream⟩

/-- The loop of `GCSFilter(params, encoded_filter)`: `N` codes, read and
dropped. -/
def decodeLoop (P : UInt8) : Nat → BitStreamReader → Except String BitStreamReader
  | 0, bitreader => pure bitreader
  | n + 1, bitreader => do
    let (_, bitreader) ← GolombRiceDecode bitreader P
    decodeLoop P n bitreader

/-- `GCSFilter(params, encoded_filter)`: it checks that the encoding holds
exactly `N` codes, and no byte after them. -/
def GCSFilter.ofEncoded (params : Params) (encoded_filter : List UInt8) : Except String GCSFilter := do
  let (N, stream) ← ReadCompactSize encoded_filter true
  let m_N := N.toUInt32
  if m_N.toUInt64 ≠ N then throw "N must be <2^32"
  let m_F := m_N.toUInt64 * params.m_M.toUInt64
  let bitreader ← decodeLoop params.m_P m_N.toNat (.ofStream stream)
  if bitreader.m_istream ≠ [] then throw "encoded_filter contains excess data"
  return ⟨params, m_N, m_F, encoded_filter⟩

/-- The inner `while (true)` loop of `MatchInternal`: the queries below
`value` are passed over. It returns from the match (`.error`), at the end of
the queries or on one equal to `value`, or breaks with the queries from the
first above it (`.ok`). -/
def skipBelow (value : UInt64) : List UInt64 → Except Bool (List UInt64)
  | [] => .error false
  | q :: qs => if q = value then .error true else if q > value then .ok (q :: qs) else skipBelow value qs

/-- The outer loop of `MatchInternal`: `n` more codes to read, the value
reached, the queries left. -/
def matchLoop (P : UInt8) : Nat → UInt64 → List UInt64 → BitStreamReader → Except String Bool
  | 0, _, _, _ => pure false
  | n + 1, value, qs, bitreader => do
    let (delta, bitreader) ← GolombRiceDecode bitreader P
    let value := value + delta
    match skipBelow value qs with
    | .error b => pure b
    | .ok qs => matchLoop P n value qs bitreader

/-- `GCSFilter::MatchInternal(element_hashes, size)`, on sorted hashes. The
`assert(N == m_N)` stops the program where it fails. -/
def GCSFilter.MatchInternal (f : GCSFilter) (element_hashes : List UInt64) : Except String Bool := do
  let (N, stream) ← ReadCompactSize f.m_encoded true
  if N ≠ f.m_N.toUInt64 then throw "assertion failed: N == m_N"
  matchLoop f.m_params.m_P f.m_N.toNat 0 element_hashes (.ofStream stream)

/-- `GCSFilter::Match(element)`. -/
def GCSFilter.Match (f : GCSFilter) (element : List UInt8) : Except String Bool :=
  f.MatchInternal [HashToRange f.m_params f.m_F element]

/-- `GCSFilter::MatchAny(elements)`. -/
def GCSFilter.MatchAny (f : GCSFilter) (elements : ElementSet) : Except String Bool :=
  f.MatchInternal (BuildHashedSet f.m_params f.m_F elements.elems)

end BlockFilter

/-! ## Block filters -/

open BlockFilter

/-- `BlockFilterType`. -/
inductive BlockFilterType where
  | BASIC
  | INVALID
  deriving DecidableEq, Repr

def BASIC_FILTER_P : UInt8 := 19

def BASIC_FILTER_M : UInt32 := 784931

/-- `BasicFilterElements(block, block_undo)`: every script the block pays to,
but the empty ones and those that start with `OP_RETURN`, and every
non-empty script its inputs spend. -/
def BasicFilterElements (block : CBlock) (block_undo : CBlockUndo) : ElementSet :=
  let outputs := block.vtx.foldl (fun elements tx => tx.vout.foldl (fun elements txout =>
    let script := txout.scriptPubKey
    if script = [] ∨ script.getD 0 0 = Script.OP_RETURN_BYTE then elements else elements.emplace script)
    elements) ElementSet.empty
  block_undo.vtxundo.foldl (fun elements tx_undo => tx_undo.vprevout.foldl (fun elements prevout =>
    let script := prevout.out.scriptPubKey
    if script = [] then elements else elements.emplace script) elements) outputs

/-- `BlockFilter`. -/
structure BlockFilter where
  m_filter_type : BlockFilterType
  m_block_hash : BlockHash
  m_filter : GCSFilter

/-- `BlockFilter::BuildParams(params)`: the keys are the first two words of
the block hash. -/
def BlockFilter.BuildParams (filter_type : BlockFilterType) (block_hash : BlockHash) : Option Params :=
  match filter_type with
  | .BASIC =>
    some { m_siphash_k0 := uint256GetUint64 block_hash.hash 0
           m_siphash_k1 := uint256GetUint64 block_hash.hash 1
           m_P := BASIC_FILTER_P
           m_M := BASIC_FILTER_M }
  | .INVALID => none

/-- `BlockFilter(filter_type, block, block_undo)`, with `block_hash` the hash
of the block. -/
def BlockFilter.make (filter_type : BlockFilterType) (block_hash : BlockHash) (block : CBlock)
    (block_undo : CBlockUndo) : Except String BlockFilter := do
  let some params := BuildParams filter_type block_hash | throw "unknown filter_type"
  let m_filter ← GCSFilter.ofElements params (BasicFilterElements block block_undo)
  return ⟨filter_type, block_hash, m_filter⟩

/-- `BlockFilter(filter_type, block_hash, filter)`, which rebuilds a filter
from its encoding, as `Unserialize` does after reading the three fields. -/
def BlockFilter.ofEncoded (filter_type : BlockFilterType) (block_hash : BlockHash) (filter : List UInt8) :
    Except String BlockFilter := do
  let some params := BuildParams filter_type block_hash | throw "unknown filter_type"
  let m_filter ← GCSFilter.ofEncoded params filter
  return ⟨filter_type, block_hash, m_filter⟩

end BitcoinAbc
