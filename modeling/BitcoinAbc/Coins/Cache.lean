import Mathlib
import BitcoinAbc.Primitives.Transaction
import BitcoinAbc.Script.Parse
import BitcoinAbc.Lib.AListSum

/-!
# The coins cache (coins.h, coins.cpp, txdb.cpp)

The UTXO set is read and written through a stack of views: the coins database
at the bottom (`CCoinsViewDB`) and caches above it (`CCoinsViewCache`), each of
which forwards a miss to the view below it (`base`) and pushes its changes down
on `Flush`. This module models:

- `Coin` with its packed height and coinbase flag, and its memory usage;
- `CCoinsCacheEntry` with the `DIRTY` and `FRESH` flags, and a cache's map as
  an association list, in which `BatchWrite` walks the child's entries in their
  order;
- every method of `CCoinsViewCache` that touches the map: `FetchCoin`,
  `GetCoin`, `HaveCoin`, `AccessCoin`, `AddCoin`, `SpendCoin`, `Uncache`,
  `SetBestBlock`, `BatchWrite` and `Flush`, over a base of any type. A method
  that reads the base takes what the base's `GetCoin` answers as a function
  called only on a miss, and one that writes to it takes the base's
  `BatchWrite`;
- the coins part of `CCoinsViewDB`: what it stores and its best block;
- `CoinsView`, a cache with the caches below it over the database, which is
  what the validation code calls methods on; `CoinsStack`, caches over a
  database, and `CoinsStack.step`, one method call on one of its caches.

Two things are left out: the iterator bookkeeping of `BatchWrite` (a throw
leaves the child half-emptied, which the model does not keep since the error
ends the run) and the database's head-block markers, which only a crash in the
middle of a write would show.
-/

namespace BitcoinAbc

/-! ## Memory usage (memusage.h) -/

namespace memusage

/-- `MallocUsage(alloc)` on a 64-bit platform: the request rounded up, with
the allocator's header, to a multiple of 16 bytes. -/
def MallocUsage (alloc : Nat) : Nat :=
  if alloc = 0 then 0 else ((alloc + 31) >>> 4) <<< 4

/-- `DynamicUsage(const prevector<28, uint8_t> &)`: the heap memory of a
script. A script of at most 28 bytes is stored in place; a longer one is taken
to have as much capacity as it has bytes, which is what a copy of it gets. -/
def DynamicUsage (s : CScript) : Nat :=
  MallocUsage (if s.length ≤ 28 then 0 else s.length)

end memusage

/-! ## Coins -/

/-- `Coin`: an output with the height of the block that created it and
whether a coinbase did, packed as `(height << 1) | coinbase`. -/
structure Coin where
  out : CTxOut
  nHeightAndIsCoinBase : UInt32
  deriving DecidableEq, Repr

namespace Coin

/-- `Coin(outIn, nHeightIn, IsCoinbase)`. -/
def make (outIn : CTxOut) (nHeightIn : UInt32) (IsCoinbase : Bool) : Coin :=
  ⟨outIn, (nHeightIn <<< 1) ||| (if IsCoinbase then 1 else 0)⟩

/-- `GetHeight()`. -/
def GetHeight (c : Coin) : UInt32 := c.nHeightAndIsCoinBase >>> 1

/-- `IsCoinBase()`. -/
def IsCoinBase (c : Coin) : Bool := c.nHeightAndIsCoinBase &&& 1 != 0

/-- `IsSpent()`: the output has been nulled. -/
def IsSpent (c : Coin) : Bool := c.out.IsNull

/-- `Clear()`. -/
def Clear (c : Coin) : Coin := { c with out := c.out.SetNull, nHeightAndIsCoinBase := 0 }

/-- `DynamicMemoryUsage()`. -/
def DynamicMemoryUsage (c : Coin) : Nat := memusage.DynamicUsage c.out.scriptPubKey

end Coin

/-- `coinEmpty`, a `Coin()`: a null output at height 0. -/
def coinEmpty : Coin := ⟨CTxOut.null, 0⟩

@[simp] theorem Coin.Clear_eq (c : Coin) : c.Clear = coinEmpty := rfl

@[simp] theorem coinEmpty_IsSpent : coinEmpty.IsSpent = true := rfl

@[simp] theorem coinEmpty_DynamicMemoryUsage : coinEmpty.DynamicMemoryUsage = 0 := rfl

/-! ## Cache entries -/

/-- `CCoinsCacheEntry`: a coin in one cache, with its flags. -/
structure CCoinsCacheEntry where
  coin : Coin
  flags : UInt8
  deriving DecidableEq, Repr

namespace CCoinsCacheEntry

/-- `DIRTY`: the entry may differ from the parent's version. -/
def DIRTY : UInt8 := (1 : UInt8) <<< 0

/-- `FRESH`: the parent does not have the coin, or has it spent. -/
def FRESH : UInt8 := (1 : UInt8) <<< 1

end CCoinsCacheEntry

open CCoinsCacheEntry

/-- `CCoinsMap`: a cache's entries by outpoint. -/
abbrev CCoinsMap := AList fun _ : COutPoint => CCoinsCacheEntry

/-- How the coins code can end other than by returning. -/
inductive CoinsError where
  /-- A thrown `std::logic_error`. -/
  | logic_error (what : String)
  /-- A thrown `std::out_of_range`, from `std::vector::at`. -/
  | out_of_range
  /-- A thrown `std::length_error`, from `std::vector::resize` past its
  maximum size. -/
  | length_error
  /-- A failed `assert`. -/
  | abort
  deriving DecidableEq, Repr

/-- `assert(cond)`. -/
def CoinsError.assert (cond : Bool) : Except CoinsError Unit :=
  if cond then pure () else throw .abort

/-! ## The cache -/

/-- `CCoinsViewCache`: the best block it was last set to, its entries, and the
memory usage of their coins that it keeps up to date. -/
structure CCoinsViewCache where
  hashBlock : BlockHash
  cacheCoins : CCoinsMap
  cachedCoinsUsage : Nat

namespace CCoinsViewCache

variable {β : Type}

/-- `CCoinsViewCache(baseIn)`: no block yet and no entries. -/
def empty : CCoinsViewCache := ⟨BlockHash.null, ∅, 0⟩

/-- `FetchCoin(outpoint)`: the entry of `outpoint`, fetched from the base on a
miss. `base` is the base as it is; `fetched` is what `base->GetCoin(outpoint,
tmp)` leaves of it and the coin it finds (when it returns true), and is called
only on a miss. -/
def FetchCoin (c : CCoinsViewCache) (outpoint : COutPoint) (base : β)
    (fetched : Unit → β × Option Coin) : CCoinsViewCache × β × Option CCoinsCacheEntry :=
  match c.cacheCoins.lookup outpoint with
  | some e => (c, base, some e)
  | none =>
    match fetched () with
    | (base', none) => (c, base', none)
    | (base', some tmp) =>
      -- the parent only has a spent entry: ours can be FRESH
      let e : CCoinsCacheEntry := ⟨tmp, if tmp.IsSpent then FRESH else 0⟩
      ({ c with cacheCoins := c.cacheCoins.insert outpoint e,
                cachedCoinsUsage := c.cachedCoinsUsage + tmp.DynamicMemoryUsage }, base', some e)

/-- `GetCoin(outpoint, coin)`: the coin when it returns true, that is when the
coin is there and unspent. -/
def GetCoin (c : CCoinsViewCache) (outpoint : COutPoint) (base : β)
    (fetched : Unit → β × Option Coin) : CCoinsViewCache × β × Option Coin :=
  match c.FetchCoin outpoint base fetched with
  | (c', base', none) => (c', base', none)
  | (c', base', some e) => (c', base', if e.coin.IsSpent then none else some e.coin)

/-- `HaveCoin(outpoint)`. -/
def HaveCoin (c : CCoinsViewCache) (outpoint : COutPoint) (base : β)
    (fetched : Unit → β × Option Coin) : CCoinsViewCache × β × Bool :=
  match c.FetchCoin outpoint base fetched with
  | (c', base', none) => (c', base', false)
  | (c', base', some e) => (c', base', !e.coin.IsSpent)

/-- `AccessCoin(outpoint)`: the cached coin, spent or not, or `coinEmpty`. -/
def AccessCoin (c : CCoinsViewCache) (outpoint : COutPoint) (base : β)
    (fetched : Unit → β × Option Coin) : CCoinsViewCache × β × Coin :=
  match c.FetchCoin outpoint base fetched with
  | (c', base', none) => (c', base', coinEmpty)
  | (c', base', some e) => (c', base', e.coin)

/-- `cacheCoins.emplace(outpoint)`: the entry of `outpoint`, or a new one that
holds a `Coin()` with no flags, and whether it is new. -/
def emplace (c : CCoinsViewCache) (outpoint : COutPoint) : CCoinsCacheEntry × Bool :=
  match c.cacheCoins.lookup outpoint with
  | some e => (e, false)
  | none => (⟨coinEmpty, 0⟩, true)

/-- `AddCoin(outpoint, coin, possible_overwrite)`. -/
def AddCoin (c : CCoinsViewCache) (outpoint : COutPoint) (coin : Coin)
    (possible_overwrite : Bool) : Except CoinsError CCoinsViewCache := do
  CoinsError.assert !coin.IsSpent
  if Script.IsUnspendable coin.out.scriptPubKey then
    return c
  let (it, inserted) := c.emplace outpoint
  let usage := if inserted then c.cachedCoinsUsage
    else c.cachedCoinsUsage - it.coin.DynamicMemoryUsage
  let fresh ← if !possible_overwrite then do
      if !it.coin.IsSpent then
        throw (.logic_error
          "Attempted to overwrite an unspent coin (when possible_overwrite is false)")
      -- a spent DIRTY entry has not told its parent yet: it cannot become FRESH
      pure (it.flags &&& DIRTY == 0)
    else pure false
  let e : CCoinsCacheEntry := ⟨coin, it.flags ||| (DIRTY ||| if fresh then FRESH else 0)⟩
  return { c with cacheCoins := c.cacheCoins.insert outpoint e,
                  cachedCoinsUsage := usage + coin.DynamicMemoryUsage }

/-- `SpendCoin(outpoint, moveout)`: the coin moved out when it returns true,
that is when an entry was found, spent or not. -/
def SpendCoin (c : CCoinsViewCache) (outpoint : COutPoint) (base : β)
    (fetched : Unit → β × Option Coin) : CCoinsViewCache × β × Option Coin :=
  match c.FetchCoin outpoint base fetched with
  | (c', base', none) => (c', base', none)
  | (c', base', some e) =>
    let usage := c'.cachedCoinsUsage - e.coin.DynamicMemoryUsage
    if e.flags &&& FRESH != 0 then
      ({ c' with cacheCoins := c'.cacheCoins.erase outpoint, cachedCoinsUsage := usage },
        base', some e.coin)
    else
      ({ c' with cacheCoins := c'.cacheCoins.insert outpoint ⟨e.coin.Clear, e.flags ||| DIRTY⟩,
                 cachedCoinsUsage := usage }, base', some e.coin)

/-- `Uncache(outpoint)`: drop the entry if it has no flags. -/
def Uncache (c : CCoinsViewCache) (outpoint : COutPoint) : CCoinsViewCache :=
  match c.cacheCoins.lookup outpoint with
  | some e =>
    if e.flags == 0 then
      { c with cacheCoins := c.cacheCoins.erase outpoint,
               cachedCoinsUsage := c.cachedCoinsUsage - e.coin.DynamicMemoryUsage }
    else c
  | none => c

/-- `SetBestBlock(hashBlockIn)`. -/
def SetBestBlock (c : CCoinsViewCache) (hashBlockIn : BlockHash) : CCoinsViewCache :=
  { c with hashBlock := hashBlockIn }

/-- One turn of `BatchWrite`'s loop: merge the child's entry `e` of `outpoint`. -/
def BatchWriteEntry (c : CCoinsViewCache) (outpoint : COutPoint) (e : CCoinsCacheEntry) :
    Except CoinsError CCoinsViewCache :=
  -- entries that are not DIRTY are skipped
  if e.flags &&& DIRTY == 0 then pure c else
  match c.cacheCoins.lookup outpoint with
  | none =>
    -- spent and FRESH in the child: nothing to tell the parent
    if e.flags &&& FRESH != 0 && e.coin.IsSpent then pure c
    else
      pure { c with
        cacheCoins := c.cacheCoins.insert outpoint
          ⟨e.coin, DIRTY ||| if e.flags &&& FRESH != 0 then FRESH else 0⟩,
        cachedCoinsUsage := c.cachedCoinsUsage + e.coin.DynamicMemoryUsage }
  | some us =>
    if e.flags &&& FRESH != 0 && !us.coin.IsSpent then
      throw (.logic_error "FRESH flag misapplied to coin that exists in parent cache")
    else if us.flags &&& FRESH != 0 && e.coin.IsSpent then
      -- the grandparent does not have it: forget it
      pure { c with cacheCoins := c.cacheCoins.erase outpoint,
                    cachedCoinsUsage := c.cachedCoinsUsage - us.coin.DynamicMemoryUsage }
    else
      pure { c with
        cacheCoins := c.cacheCoins.insert outpoint ⟨e.coin, us.flags ||| DIRTY⟩,
        cachedCoinsUsage :=
          c.cachedCoinsUsage - us.coin.DynamicMemoryUsage + e.coin.DynamicMemoryUsage }

/-- `BatchWrite(mapCoins, hashBlockIn)`, which returns true whenever it
returns. -/
def BatchWrite (c : CCoinsViewCache) (mapCoins : CCoinsMap) (hashBlockIn : BlockHash) :
    Except CoinsError CCoinsViewCache := do
  let c ← mapCoins.entries.foldlM (fun c e => c.BatchWriteEntry e.1 e.2) c
  return { c with hashBlock := hashBlockIn }

/-- `Flush()`: write the entries and the block into the base with its
`BatchWrite`, then empty the cache. Both bases return true whenever they
return, so the result of `Flush` is not kept. -/
def Flush (c : CCoinsViewCache)
    (baseBatchWrite : CCoinsMap → BlockHash → Except CoinsError β) :
    Except CoinsError (CCoinsViewCache × β) := do
  let base' ← baseBatchWrite c.cacheCoins c.hashBlock
  return ({ c with cacheCoins := ∅, cachedCoinsUsage := 0 }, base')

end CCoinsViewCache

/-! ## The database -/

/-- The coins of `CCoinsViewDB::BatchWrite` for one entry: DIRTY entries are
erased when spent and written otherwise. -/
def writeCoin (coins : COutPoint → Option Coin) (outpoint : COutPoint) (e : CCoinsCacheEntry) :
    COutPoint → Option Coin :=
  if e.flags &&& DIRTY != 0 then
    if e.coin.IsSpent then Function.update coins outpoint none
    else Function.update coins outpoint (some e.coin)
  else coins

/-- Writing never stores a spent coin. -/
theorem writeCoin_unspent {coins : COutPoint → Option Coin}
    (h : ∀ o c, coins o = some c → c.IsSpent = false) (outpoint : COutPoint)
    (e : CCoinsCacheEntry) : ∀ o c, writeCoin coins outpoint e o = some c → c.IsSpent = false := by
  intro o c hc
  unfold writeCoin at hc
  split at hc
  · split at hc
    · rw [Function.update_apply] at hc
      split at hc
      · cases hc
      · exact h o c hc
    · rename_i hspent
      rw [Function.update_apply] at hc
      split at hc
      · cases hc
        simpa using hspent
      · exact h o c hc
  · exact h o c hc

/-- A whole batch never stores a spent coin. -/
theorem foldl_writeCoin_unspent (es : List (Sigma fun _ : COutPoint => CCoinsCacheEntry)) :
    ∀ coins : COutPoint → Option Coin, (∀ o c, coins o = some c → c.IsSpent = false) →
      ∀ o c, es.foldl (fun m e => writeCoin m e.1 e.2) coins o = some c → c.IsSpent = false := by
  induction es with
  | nil => exact fun _ h => h
  | cons e es ih => exact fun coins h => ih _ (writeCoin_unspent h e.1 e.2)

/-- The coins part of `CCoinsViewDB`: the coins it stores and its best block.
It never stores a spent coin, since its `BatchWrite` erases them. -/
structure CCoinsViewDB where
  coins : COutPoint → Option Coin
  bestBlock : BlockHash
  unspent : ∀ o c, coins o = some c → c.IsSpent = false

namespace CCoinsViewDB

/-- `GetCoin(outpoint, coin)`: `Read`, which fails on a missing key. -/
def GetCoin (db : CCoinsViewDB) (outpoint : COutPoint) : Option Coin := db.coins outpoint

/-- `BatchWrite(mapCoins, hashBlock)`, which asserts a block hash. -/
def BatchWrite (db : CCoinsViewDB) (mapCoins : CCoinsMap) (hashBlock : BlockHash) :
    Except CoinsError CCoinsViewDB := do
  CoinsError.assert !hashBlock.IsNull
  return { coins := mapCoins.entries.foldl (fun m e => writeCoin m e.1 e.2) db.coins
           bestBlock := hashBlock
           unspent := foldl_writeCoin_unspent _ _ db.unspent }

end CCoinsViewDB

/-! ## A stack of caches -/

/-- Caches over a database, the top one first: each cache's base is the one
after it, and the last one's base is the database. -/
structure CoinsStack where
  db : CCoinsViewDB
  caches : List CCoinsViewCache

/-- `GetCoin(outpoint, coin)` of the view made of `caches` over `db`: the
caches as the call leaves them, and the coin when it returns true. -/
def stackGetCoin (db : CCoinsViewDB) : List CCoinsViewCache → COutPoint →
    List CCoinsViewCache × Option Coin
  | [], outpoint => ([], db.GetCoin outpoint)
  | c :: below, outpoint =>
    match c.GetCoin outpoint below (fun _ => stackGetCoin db below outpoint) with
    | (c', below', r) => (c' :: below', r)

/-- A cache as the validation code holds it (`CCoinsViewCache &view`): the
cache, the caches below it, and the database under them. -/
structure CoinsView where
  db : CCoinsViewDB
  view : CCoinsViewCache
  below : List CCoinsViewCache

namespace CoinsView

/-- `view.GetCoin(outpoint, coin)`. -/
def GetCoin (v : CoinsView) (outpoint : COutPoint) : CoinsView × Option Coin :=
  match v.view.GetCoin outpoint v.below (fun _ => stackGetCoin v.db v.below outpoint) with
  | (c', below', r) => (⟨v.db, c', below'⟩, r)

/-- `view.HaveCoin(outpoint)`. -/
def HaveCoin (v : CoinsView) (outpoint : COutPoint) : CoinsView × Bool :=
  match v.view.HaveCoin outpoint v.below (fun _ => stackGetCoin v.db v.below outpoint) with
  | (c', below', r) => (⟨v.db, c', below'⟩, r)

/-- `view.AccessCoin(outpoint)`. -/
def AccessCoin (v : CoinsView) (outpoint : COutPoint) : CoinsView × Coin :=
  match v.view.AccessCoin outpoint v.below (fun _ => stackGetCoin v.db v.below outpoint) with
  | (c', below', r) => (⟨v.db, c', below'⟩, r)

/-- `view.SpendCoin(outpoint, moveout)`: the coin moved out when it returns
true. -/
def SpendCoin (v : CoinsView) (outpoint : COutPoint) : CoinsView × Option Coin :=
  match v.view.SpendCoin outpoint v.below (fun _ => stackGetCoin v.db v.below outpoint) with
  | (c', below', moved) => (⟨v.db, c', below'⟩, moved)

/-- `view.AddCoin(outpoint, coin, possible_overwrite)`. -/
def AddCoin (v : CoinsView) (outpoint : COutPoint) (coin : Coin) (possible_overwrite : Bool) :
    Except CoinsError CoinsView := do
  let c' ← v.view.AddCoin outpoint coin possible_overwrite
  return { v with view := c' }

/-- `view.Uncache(outpoint)`. -/
def Uncache (v : CoinsView) (outpoint : COutPoint) : CoinsView :=
  { v with view := v.view.Uncache outpoint }

/-- `view.SetBestBlock(hashBlock)`. -/
def SetBestBlock (v : CoinsView) (hashBlock : BlockHash) : CoinsView :=
  { v with view := v.view.SetBestBlock hashBlock }

/-- `view.Flush()`, into the cache below or into the database. -/
def Flush (v : CoinsView) : Except CoinsError CoinsView :=
  match v.below with
  | [] => do
    let (c', db') ← v.view.Flush v.db.BatchWrite
    return ⟨db', c', []⟩
  | p :: rest => do
    let (c', p') ← v.view.Flush p.BatchWrite
    return ⟨v.db, c', p' :: rest⟩

end CoinsView

/-- A method call on one cache. -/
inductive CacheOp where
  | AddCoin (outpoint : COutPoint) (coin : Coin) (possible_overwrite : Bool)
  | SpendCoin (outpoint : COutPoint)
  | GetCoin (outpoint : COutPoint)
  | HaveCoin (outpoint : COutPoint)
  | AccessCoin (outpoint : COutPoint)
  | Uncache (outpoint : COutPoint)
  | SetBestBlock (hashBlock : BlockHash)
  | Flush

/-- A method call on the cache `layer` levels below the top one. -/
structure CoinsOp where
  layer : Nat
  op : CacheOp

/-- What a call answers. `SpendCoin` answers the coin that a fresh `Coin`
passed as `moveout` holds afterwards. -/
inductive CoinsResult where
  | done
  | coin (c : Option Coin)
  | have (b : Bool)
  | access (c : Coin)
  deriving DecidableEq, Repr

/-- The call `op` on the cache of `v`. -/
def CoinsView.call (v : CoinsView) : CacheOp → Except CoinsError (CoinsView × CoinsResult)
  | .AddCoin outpoint coin possible_overwrite => do
    let v' ← v.AddCoin outpoint coin possible_overwrite
    return (v', .done)
  | .SpendCoin outpoint =>
    return ((v.SpendCoin outpoint).1, .access ((v.SpendCoin outpoint).2.getD coinEmpty))
  | .GetCoin outpoint => return ((v.GetCoin outpoint).1, .coin (v.GetCoin outpoint).2)
  | .HaveCoin outpoint => return ((v.HaveCoin outpoint).1, .have (v.HaveCoin outpoint).2)
  | .AccessCoin outpoint => return ((v.AccessCoin outpoint).1, .access (v.AccessCoin outpoint).2)
  | .Uncache outpoint => return (v.Uncache outpoint, .done)
  | .SetBestBlock hashBlock => return (v.SetBestBlock hashBlock, .done)
  | .Flush => do
    let v' ← v.Flush
    return (v', .done)

/-- One call on the stack. A layer that does not exist leaves everything as it
is. -/
def CoinsStack.step (s : CoinsStack) (op : CoinsOp) :
    Except CoinsError (CoinsStack × CoinsResult) :=
  match s.caches.drop op.layer with
  | [] => pure (s, .done)
  | c :: below => do
    let (v', r) ← CoinsView.call ⟨s.db, c, below⟩ op.op
    return (⟨v'.db, s.caches.take op.layer ++ v'.view :: v'.below⟩, r)

end BitcoinAbc
