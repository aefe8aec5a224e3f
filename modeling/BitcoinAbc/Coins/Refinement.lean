import Mathlib
import BitcoinAbc.Coins.View
import BitcoinAbc.Lib.Simulation

/-!
# A stack of caches refines a list of plain maps

Every layer of a stack of caches over the database shows a plain map from
outpoints to coins (`CoinsStack.abs`). The abstract machine keeps one such map
per layer, with its best block (`PlainView`), and a call changes them the way
one expects of plain maps (`plainCall`): a write updates the map of the layer
written, a read answers from it, and a flush copies the layer into the one
below.

The stack simulates that machine (`CoinsStack.step_refines`) for the calls it
is used with (`plainPre`): coins are added and spent on the top cache only,
`AddCoin` adds an unspent coin and may overwrite only where it is told to, and
the bottom cache is flushed into the database only once it has a block. The
simulation invariant is `CCoinsViewCache.Valid` in every cache, so along every
such run no call throws, every read answers from the plain map of its layer,
and every cache's usage counter stays exact.

Writes on a lower cache are not allowed: a cache above it may hold a FRESH
entry for the same outpoint, and its next flush throws (the last run of this
module).
-/

namespace BitcoinAbc

open CCoinsCacheEntry CCoinsViewCache

/-! ## Plain maps -/

/-- What one layer shows: a map from outpoints to coins, and its best block. -/
structure PlainView where
  coins : COutPoint → Option Coin
  bestBlock : BlockHash

/-- Whether the call changes coins. -/
def CacheOp.IsWrite : CacheOp → Bool
  | .AddCoin .. => true
  | .SpendCoin _ => true
  | _ => false

/-- A call on the first of the layers `vs`, over the rest. -/
def plainCall : List PlainView → CacheOp → List PlainView × CoinsResult
  | [], _ => ([], .done)
  | v :: below, .AddCoin o coin _ =>
    ((if Script.IsUnspendable coin.out.scriptPubKey then v
      else { v with coins := Function.update v.coins o (some coin) }) :: below, .done)
  | v :: below, .SpendCoin o =>
    ({ v with coins := Function.update v.coins o none } :: below, .access ((v.coins o).getD coinEmpty))
  | v :: below, .GetCoin o => (v :: below, .coin (v.coins o))
  | v :: below, .HaveCoin o => (v :: below, .have (v.coins o).isSome)
  | v :: below, .AccessCoin o => (v :: below, .access ((v.coins o).getD coinEmpty))
  | v :: below, .Uncache _ => (v :: below, .done)
  | v :: below, .SetBestBlock h => ({ v with bestBlock := h } :: below, .done)
  | v :: below, .Flush =>
    -- the layer below takes this layer's coins and block
    match below with
    | [] => ([v], .done)
    | _ :: rest => (v :: v :: rest, .done)

/-- A call on the layer `op.layer` of the layers `vs`, the top one first. -/
def plainStep (vs : List PlainView) (op : CoinsOp) : List PlainView × CoinsResult :=
  if op.layer + 1 < vs.length then
    (vs.take op.layer ++ (plainCall (vs.drop op.layer) op.op).1,
      (plainCall (vs.drop op.layer) op.op).2)
  else (vs, .done)

/-- What a call needs, read in the layers from the one called down: a cache
below it, an unspent coin for `AddCoin` where nothing is shown unless an
overwrite is allowed, and a block before the bottom cache is flushed into the
database. -/
def CallPre : List PlainView → CacheOp → Prop
  | v :: _ :: _, .AddCoin o coin possible_overwrite =>
    coin.IsSpent = false ∧ (possible_overwrite = false → v.coins o = none)
  | v :: [_], .Flush => v.bestBlock.IsNull = false
  | _ :: _ :: _, _ => True
  | _, _ => False

/-- The calls the stack is used with: coins are written on the top cache only. -/
def plainPre (vs : List PlainView) (op : CoinsOp) : Prop :=
  CallPre (vs.drop op.layer) op.op ∧ (op.op.IsWrite = true → op.layer = 0)

theorem CallPre.two_le {vs : List PlainView} {op : CacheOp} (h : CallPre vs op) : 2 ≤ vs.length := by
  match vs, op, h with
  | _ :: _ :: _, _, _ => simp

/-- A call that does not write leaves the coins of the layer called as they were. -/
theorem plainCall_head_coins (vs : List PlainView) {op : CacheOp} (h : op.IsWrite = false) :
    ((plainCall vs op).1.head?.map PlainView.coins) = vs.head?.map PlainView.coins := by
  match vs, op, h with
  | [], _, _ => rfl
  | _ :: _, .GetCoin _, _ | _ :: _, .HaveCoin _, _ | _ :: _, .AccessCoin _, _
  | _ :: _, .Uncache _, _ | _ :: _, .SetBestBlock _, _ => rfl
  | _ :: [], .Flush, _ | _ :: _ :: _, .Flush, _ => rfl

/-! ## What a stack shows -/

namespace CoinsStack

/-- What the caches `cs` show over a base that shows `base`. -/
def viewOver : List CCoinsViewCache → (COutPoint → Option Coin) → COutPoint → Option Coin
  | [], base => base
  | c :: cs, base => c.view (viewOver cs base)

/-- What each of the caches `cs` shows, with its block. -/
def layersOver : List CCoinsViewCache → (COutPoint → Option Coin) → List PlainView
  | [], _ => []
  | c :: cs, base => ⟨c.view (viewOver cs base), c.hashBlock⟩ :: layersOver cs base

/-- Every cache of `cs` is valid over what the caches after it show. -/
def ValidOver : List CCoinsViewCache → (COutPoint → Option Coin) → Prop
  | [], _ => True
  | c :: cs, base => c.Valid (viewOver cs base) ∧ ValidOver cs base

/-- The layers of the caches `cs` over `db`, and the database's. -/
def plain (db : CCoinsViewDB) (cs : List CCoinsViewCache) : List PlainView :=
  layersOver cs db.coins ++ [⟨db.coins, db.bestBlock⟩]

/-- The abstraction: what each layer of the stack shows. -/
def abs (s : CoinsStack) : List PlainView := plain s.db s.caches

/-- The simulation invariant: every cache is valid. -/
def Valid (s : CoinsStack) : Prop := ValidOver s.caches s.db.coins

variable {base : COutPoint → Option Coin}

theorem viewOver_append (top sub : List CCoinsViewCache) :
    viewOver (top ++ sub) base = viewOver top (viewOver sub base) := by
  induction top with
  | nil => rfl
  | cons c top ih => simp only [List.cons_append, viewOver, ih]

theorem layersOver_append (top sub : List CCoinsViewCache) :
    layersOver (top ++ sub) base = layersOver top (viewOver sub base) ++ layersOver sub base := by
  induction top with
  | nil => rfl
  | cons c top ih => simp only [List.cons_append, layersOver, ih, viewOver_append]

theorem validOver_append (top sub : List CCoinsViewCache) :
    ValidOver (top ++ sub) base ↔ ValidOver top (viewOver sub base) ∧ ValidOver sub base := by
  induction top with
  | nil => simp [ValidOver]
  | cons c top ih => simp only [List.cons_append, ValidOver, ih, viewOver_append, and_assoc]

@[simp] theorem layersOver_length (cs : List CCoinsViewCache) : (layersOver cs base).length = cs.length := by
  induction cs with
  | nil => rfl
  | cons c cs ih => simp [layersOver, ih]

theorem viewOver_showsUnspent (h : ShowsUnspent base) :
    ∀ cs : List CCoinsViewCache, ShowsUnspent (viewOver cs base)
  | [] => h
  | _ :: cs => view_showsUnspent (viewOver_showsUnspent h cs)

theorem plain_cons (db : CCoinsViewDB) (c : CCoinsViewCache) (cs : List CCoinsViewCache) :
    plain db (c :: cs) = ⟨c.view (viewOver cs db.coins), c.hashBlock⟩ :: plain db cs := rfl

/-- The first layer shows what the whole stack shows. -/
theorem plain_head_coins (db : CCoinsViewDB) (cs : List CCoinsViewCache) :
    (plain db cs).head?.map PlainView.coins = some (viewOver cs db.coins) := by
  cases cs <;> rfl

theorem plain_ne_nil (db : CCoinsViewDB) (cs : List CCoinsViewCache) : plain db cs ≠ [] := by
  simp [plain]

theorem plain_append (db : CCoinsViewDB) (top sub : List CCoinsViewCache) :
    plain db (top ++ sub) = layersOver top (viewOver sub db.coins) ++ plain db sub := by
  simp [plain, layersOver_append]

/-! ## Calls that leave the layers below as they were -/

/-- The caches `cs'` are valid and show, layer by layer, what `cs` showed. -/
structure Unchanged (base : COutPoint → Option Coin) (cs cs' : List CCoinsViewCache) : Prop where
  layers_eq : layersOver cs' base = layersOver cs base
  view_eq : viewOver cs' base = viewOver cs base
  valid : ValidOver cs' base

theorem Unchanged.refl {cs : List CCoinsViewCache} (h : ValidOver cs base) : Unchanged base cs cs :=
  ⟨rfl, rfl, h⟩

/-- A cache that still shows the same over unchanged caches. -/
theorem Unchanged.cons {c c' : CCoinsViewCache} {cs cs' : List CCoinsViewCache}
    (h : Unchanged base cs cs') (hc : c'.Valid (viewOver cs base))
    (hv : c'.view (viewOver cs base) = c.view (viewOver cs base)) (hb : c'.hashBlock = c.hashBlock) :
    Unchanged base (c :: cs) (c' :: cs') where
  layers_eq := by simp only [layersOver, h.view_eq, hv, hb, h.layers_eq]
  view_eq := by simp only [viewOver, h.view_eq, hv]
  valid := ⟨h.view_eq ▸ hc, h.valid⟩

theorem Unchanged.plain_eq {db : CCoinsViewDB} {cs cs' : List CCoinsViewCache}
    (h : Unchanged db.coins cs cs') : plain db cs' = plain db cs := by
  simp only [plain, h.layers_eq]

variable (db : CCoinsViewDB)

/-- Reading through a stack answers what it shows and changes nothing it
shows. -/
theorem stackGetCoin_spec (o : COutPoint) :
    ∀ cs : List CCoinsViewCache, ValidOver cs db.coins →
      Unchanged db.coins cs (stackGetCoin db cs o).1 ∧
        (stackGetCoin db cs o).2 = viewOver cs db.coins o
  | [], _ => ⟨Unchanged.refl trivial, rfl⟩
  | c :: below, hv => by
    have ih := stackGetCoin_spec o below hv.2
    have hF := FetchCoin_fetched below (fun _ => stackGetCoin db below o) hv.1
      (viewOver_showsUnspent db.showsUnspent below) ih.2
    have hbelow : Unchanged db.coins below (c.FetchCoin o below fun _ => stackGetCoin db below o).2.1 := by
      rcases FetchCoin_base (c := c) (o := o) below
        (fun _ => stackGetCoin db below o) with h | h
      · rw [h]; exact Unchanged.refl hv.2
      · rw [h]; exact ih.1
    simp only [stackGetCoin, GetCoin_eq]
    exact ⟨hbelow.cons hF.valid hF.view_eq hF.hashBlock_eq, hF.view_apply.symm⟩

/-- `FetchCoin` on a cache of a valid stack, with the base's answer. -/
theorem FetchCoin_stack {c : CCoinsViewCache} {below : List CCoinsViewCache} {o : COutPoint}
    (hv : ValidOver (c :: below) db.coins) :
    Fetched c (viewOver below db.coins) o (c.FetchCoin o below fun _ => stackGetCoin db below o).1
      (c.FetchCoin o below fun _ => stackGetCoin db below o).2.2 ∧
      Unchanged db.coins below (c.FetchCoin o below fun _ => stackGetCoin db below o).2.1 := by
  have hs := stackGetCoin_spec db o below hv.2
  refine ⟨FetchCoin_fetched below (fun _ => stackGetCoin db below o) hv.1
    (viewOver_showsUnspent db.showsUnspent below) hs.2, ?_⟩
  rcases FetchCoin_base (c := c) (o := o) below
    (fun _ => stackGetCoin db below o) with h | h
  · rw [h]; exact Unchanged.refl hv.2
  · rw [h]; exact hs.1

end CoinsStack

/-! ## One call -/

namespace CoinsView

open CoinsStack

/-- What the view shows. -/
def coins (v : CoinsView) : COutPoint → Option Coin := v.view.view (viewOver v.below v.db.coins)

/-- The layers of the view, its own first. -/
def layers (v : CoinsView) : List PlainView := plain v.db (v.view :: v.below)

/-- Every cache of the view is valid over what lies below it. -/
def Valid (v : CoinsView) : Prop := ValidOver (v.view :: v.below) v.db.coins

theorem layers_eq (v : CoinsView) :
    v.layers = ⟨v.coins, v.view.hashBlock⟩ :: plain v.db v.below := rfl

/-- A read leaves a valid view that shows the same. -/
theorem layers_of_fetch {db : CCoinsViewDB} {c c' : CCoinsViewCache}
    {below below' : List CCoinsViewCache} {o : COutPoint} {it : Option CCoinsCacheEntry}
    (hF : Fetched c (viewOver below db.coins) o c' it) (hb : Unchanged db.coins below below') :
    CoinsView.Valid ⟨db, c', below'⟩ ∧ CoinsView.layers ⟨db, c', below'⟩ = CoinsView.layers ⟨db, c, below⟩ :=
  ⟨(hb.cons hF.valid hF.view_eq hF.hashBlock_eq).valid, (hb.cons hF.valid hF.view_eq hF.hashBlock_eq).plain_eq⟩

/-! ## What each method does to the layers -/

/-- The view is valid, shows `top`, and has the layers `rest` below its own. -/
structure Shows (v : CoinsView) (top : PlainView) (rest : List PlainView) : Prop where
  valid : v.Valid
  layers_eq : v.layers = top :: rest

theorem Shows.of_valid {v : CoinsView} (hv : v.Valid) :
    v.Shows ⟨v.coins, v.view.hashBlock⟩ (plain v.db v.below) :=
  ⟨hv, rfl⟩

variable {v v' : CoinsView} {top : PlainView} {rest : List PlainView} {o : COutPoint}
  {m : COutPoint → Option Coin} {hb : BlockHash}

namespace Shows

theorem eq (h : v.Shows top rest) : top = ⟨v.coins, v.view.hashBlock⟩ ∧ rest = plain v.db v.below := by
  have h' := h.layers_eq
  rw [CoinsView.layers_eq, List.cons.injEq] at h'
  exact ⟨h'.1.symm, h'.2.symm⟩

theorem coins_eq (h : v.Shows top rest) : v.coins = top.coins := by
  rw [h.eq.1]

/-- `GetCoin` answers what the view shows and changes nothing it shows. -/
theorem GetCoin (h : v.Shows top rest) : (v.GetCoin o).1.Shows top rest ∧ (v.GetCoin o).2 = top.coins o := by
  obtain ⟨db, c, below⟩ := v
  obtain ⟨rfl, rfl⟩ := h.eq
  have hs := FetchCoin_stack db (o := o) h.valid
  have hl := layers_of_fetch hs.1 hs.2
  simp only [CoinsView.GetCoin, GetCoin_eq]
  exact ⟨⟨hl.1, hl.2⟩, hs.1.view_apply.symm⟩

/-- `HaveCoin` answers whether the view shows a coin. -/
theorem HaveCoin (h : v.Shows top rest) :
    (v.HaveCoin o).1.Shows top rest ∧ (v.HaveCoin o).2 = (top.coins o).isSome := by
  obtain ⟨db, c, below⟩ := v
  obtain ⟨rfl, rfl⟩ := h.eq
  have hs := FetchCoin_stack db (o := o) h.valid
  have hl := layers_of_fetch hs.1 hs.2
  simp only [CoinsView.HaveCoin, HaveCoin_eq]
  exact ⟨⟨hl.1, hl.2⟩, congrArg Option.isSome hs.1.view_apply.symm⟩

/-- `AccessCoin` answers the coin the view shows, `coinEmpty` for none. -/
theorem AccessCoin (h : v.Shows top rest) :
    (v.AccessCoin o).1.Shows top rest ∧ (v.AccessCoin o).2 = (top.coins o).getD coinEmpty := by
  obtain ⟨db, c, below⟩ := v
  obtain ⟨rfl, rfl⟩ := h.eq
  have hs := FetchCoin_stack db (o := o) h.valid
  have hl := layers_of_fetch hs.1 hs.2
  simp only [CoinsView.AccessCoin, AccessCoin_eq]
  exact ⟨⟨hl.1, hl.2⟩, hs.1.coin_apply⟩

/-- `SpendCoin` makes the view show nothing at the outpoint, and moves out the
coin it showed. -/
theorem SpendCoin (h : v.Shows ⟨m, hb⟩ rest) :
    (v.SpendCoin o).1.Shows ⟨Function.update m o none, hb⟩ rest ∧
      (v.SpendCoin o).2.getD coinEmpty = (m o).getD coinEmpty ∧
      ∀ coin, m o = some coin → (v.SpendCoin o).2 = some coin := by
  obtain ⟨db, c, below⟩ := v
  obtain ⟨hm, rfl⟩ := h.eq
  cases hm
  have hs := FetchCoin_stack db (o := o) h.valid
  obtain ⟨c', moved, hspend, hc', hview, hb', hmoved, hfound⟩ :=
    CCoinsViewCache.SpendCoin_spec below (fun _ => stackGetCoin db below o)
      h.valid.1 (viewOver_showsUnspent db.showsUnspent below) (stackGetCoin_spec db o below h.valid.2).2
  simp only [CoinsView.SpendCoin, hspend]
  refine ⟨⟨(hs.2.cons hc' rfl rfl).valid, ?_⟩, hmoved, hfound⟩
  simp only [layers, plain_cons, hs.2.plain_eq, hs.2.view_eq, hview, hb']
  rfl

/-- `AddCoin` of an unspent coin, where the view shows nothing unless an
overwrite is allowed, succeeds and makes the view show the coin (nothing
changes for an unspendable script). -/
theorem AddCoin {coin : Coin} {possible_overwrite : Bool} (h : v.Shows ⟨m, hb⟩ rest)
    (hunspent : coin.IsSpent = false)
    (hnew : Script.IsUnspendable coin.out.scriptPubKey = false → possible_overwrite = false →
      m o = none) :
    ∃ v', v.AddCoin o coin possible_overwrite = .ok v' ∧
      v'.Shows ⟨if Script.IsUnspendable coin.out.scriptPubKey then m
        else Function.update m o (some coin), hb⟩ rest := by
  obtain ⟨db, c, below⟩ := v
  obtain ⟨hm, rfl⟩ := h.eq
  cases hm
  obtain ⟨c', hadd, hc', hb', hview⟩ := AddCoin_spec h.valid.1 hunspent hnew
  refine ⟨⟨db, c', below⟩, by simp [CoinsView.AddCoin, hadd], ⟨hc', h.valid.2⟩, ?_⟩
  simp only [layers, plain_cons, hview, hb']
  rfl

/-- `SetBestBlock` moves the view's block only. -/
theorem SetBestBlock (h : v.Shows ⟨m, hb⟩ rest) (hashBlock : BlockHash) :
    (v.SetBestBlock hashBlock).Shows ⟨m, hashBlock⟩ rest := by
  obtain ⟨db, c, below⟩ := v
  obtain ⟨hm, rfl⟩ := h.eq
  cases hm
  exact ⟨⟨h.valid.1.congr rfl rfl, h.valid.2⟩, rfl⟩

end Shows

/-- A successful `AddCoin` was given an unspent coin: it asserts that first. -/
theorem AddCoin_ok_unspent {coin : Coin} {possible_overwrite : Bool}
    (h : v.AddCoin o coin possible_overwrite = .ok v') : coin.IsSpent = false := by
  cases hs : coin.IsSpent with
  | false => rfl
  | true =>
    simp only [CoinsView.AddCoin, CCoinsViewCache.AddCoin, CoinsError.assert, hs, Bool.not_true,
      Bool.false_eq_true, ↓reduceIte] at h
    cases h

/-- What a successful `AddCoin` did, where the view showed nothing unless an
overwrite was allowed. -/
theorem Shows.AddCoin_of_ok {coin : Coin} {possible_overwrite : Bool} (hv : v.Shows ⟨m, hb⟩ rest)
    (hnew : Script.IsUnspendable coin.out.scriptPubKey = false → possible_overwrite = false →
      m o = none)
    (h : v.AddCoin o coin possible_overwrite = .ok v') :
    v'.Shows ⟨if Script.IsUnspendable coin.out.scriptPubKey then m
      else Function.update m o (some coin), hb⟩ rest := by
  obtain ⟨v'', hadd, hv''⟩ := hv.AddCoin (AddCoin_ok_unspent h) hnew
  rw [hadd] at h
  cases h
  exact hv''

/-- The view's own cache holds an unspent coin at `o`, so that `AddCoin`
without an overwrite throws there. -/
def CachesUnspent (v : CoinsView) (o : COutPoint) : Prop :=
  ∃ e, v.view.cacheCoins.lookup o = some e ∧ e.coin.IsSpent = false

/-- A successful `AddCoin` keeps every unspent coin of the view's cache there,
and caches its own coin unless the script is unspendable. -/
theorem AddCoin_cachesUnspent {coin : Coin} {possible_overwrite : Bool}
    (h : v.AddCoin o coin possible_overwrite = .ok v') :
    (∀ k, v.CachesUnspent k → v'.CachesUnspent k) ∧
      (Script.IsUnspendable coin.out.scriptPubKey = false → v'.CachesUnspent o) := by
  simp only [CoinsView.AddCoin, Except.bind_eq_ok, Except.pure_eq_ok] at h
  obtain ⟨c', hadd, rfl⟩ := h
  obtain ⟨hunspent, hsame, hwrite⟩ := CCoinsViewCache.AddCoin_eq_ok hadd
  cases hs : Script.IsUnspendable coin.out.scriptPubKey with
  | true =>
    cases hsame hs
    exact ⟨fun _ hk => hk, fun h => absurd h (by decide)⟩
  | false =>
    obtain ⟨flags, hmap⟩ := (hwrite hs).1
    have hself : CachesUnspent ⟨v.db, c', v.below⟩ o :=
      ⟨_, by rw [hmap, AList.lookup_insert], hunspent⟩
    refine ⟨fun k hk => ?_, fun _ => hself⟩
    by_cases hko : k = o
    · exact hko ▸ hself
    · obtain ⟨e, hl, he⟩ := hk
      exact ⟨e, by rw [hmap, AList.lookup_insert_ne hko]; exact hl, he⟩

/-- `AddCoin` of a spendable coin without an overwrite, where the view's cache
holds an unspent coin, does not return. -/
theorem AddCoin_ne_ok_of_cachesUnspent {coin : Coin} (hk : v.CachesUnspent o)
    (hs : Script.IsUnspendable coin.out.scriptPubKey = false) : v.AddCoin o coin false ≠ .ok v' := by
  intro h
  simp only [CoinsView.AddCoin, Except.bind_eq_ok] at h
  obtain ⟨c', hadd, -⟩ := h
  obtain ⟨e, hl, he⟩ := hk
  have hspent := ((CCoinsViewCache.AddCoin_eq_ok hadd).2.2 hs).2 rfl e hl
  rw [he] at hspent
  cases hspent

/-- A call that the plain maps allow, on a valid view, succeeds, keeps it valid
and does to its layers what `plainCall` does. -/
theorem call_spec (v : CoinsView) (op : CacheOp) (hv : v.Valid) (hpre : CallPre v.layers op) :
    ∃ v' r, v.call op = .ok (v', r) ∧ v'.Valid ∧ plainCall v.layers op = (v'.layers, r) := by
  have hs := Shows.of_valid hv
  cases op with
  | AddCoin o coin possible_overwrite =>
    obtain ⟨hunspent, hnew⟩ : coin.IsSpent = false ∧ (possible_overwrite = false → v.coins o = none) := by
      obtain ⟨p, ps, hp⟩ := List.exists_cons_of_ne_nil (plain_ne_nil v.db v.below)
      rw [layers_eq, hp] at hpre
      exact hpre
    obtain ⟨v', hadd, hv'⟩ := hs.AddCoin hunspent fun _ => hnew
    refine ⟨v', .done, by simp [call, hadd], hv'.valid, ?_⟩
    rw [hv'.layers_eq, layers_eq]
    simp only [plainCall]
    split <;> rfl
  | SpendCoin o =>
    obtain ⟨hv', hmoved, -⟩ := hs.SpendCoin (o := o)
    refine ⟨_, _, rfl, hv'.valid, ?_⟩
    rw [hv'.layers_eq, layers_eq, hmoved]
    rfl
  | GetCoin o =>
    obtain ⟨hv', hr⟩ := hs.GetCoin (o := o)
    refine ⟨_, _, rfl, hv'.valid, ?_⟩
    rw [hv'.layers_eq, hr, layers_eq]
    rfl
  | HaveCoin o =>
    obtain ⟨hv', hr⟩ := hs.HaveCoin (o := o)
    refine ⟨_, _, rfl, hv'.valid, ?_⟩
    rw [hv'.layers_eq, hr, layers_eq]
    rfl
  | AccessCoin o =>
    obtain ⟨hv', hr⟩ := hs.AccessCoin (o := o)
    refine ⟨_, _, rfl, hv'.valid, ?_⟩
    rw [hv'.layers_eq, hr, layers_eq]
    rfl
  | Uncache o =>
    obtain ⟨db, c, below⟩ := v
    obtain ⟨hc', hview, hb⟩ := Uncache_spec (o := o) hv.1
    refine ⟨_, _, rfl, ⟨hc', hv.2⟩, ?_⟩
    simp only [layers, plain_cons, Uncache, hview, hb]
    rfl
  | SetBestBlock h =>
    refine ⟨_, _, rfl, (hs.SetBestBlock h).valid, ?_⟩
    rw [(hs.SetBestBlock h).layers_eq, layers_eq]
    rfl
  | Flush =>
    obtain ⟨db, c, below⟩ := v
    cases below with
    | nil =>
      -- the bottom cache: the database takes its coins and block
      obtain ⟨db', hwrite, hcoins, hbest⟩ := CCoinsViewDB.BatchWrite_spec (show c.Valid db.coins from hv.1) hpre
      refine ⟨⟨db', { c with cacheCoins := ∅, cachedCoinsUsage := 0 }, []⟩, .done,
        by simp only [call, Flush, Flush_eq_ok hwrite, Except.ok_bind]; rfl,
        ⟨Valid.of_empty rfl rfl, trivial⟩, ?_⟩
      simp only [layers, plain, layersOver, viewOver,
        view_of_cacheCoins_empty
          (show ({ c with cacheCoins := ∅, cachedCoinsUsage := 0 } : CCoinsViewCache).cacheCoins = ∅ from rfl),
        hcoins, hbest]
      rfl
    | cons p rest =>
      obtain ⟨p', hwrite, hp', hb, hview⟩ := BatchWrite_spec hv.2.1 hv.1 c.hashBlock
      refine ⟨⟨db, { c with cacheCoins := ∅, cachedCoinsUsage := 0 }, p' :: rest⟩, .done,
        by simp only [call, Flush, Flush_eq_ok hwrite, Except.ok_bind]; rfl,
        ⟨Valid.of_empty rfl rfl, hp', hv.2.2⟩, ?_⟩
      simp only [layers, plain_cons, viewOver,
        view_of_cacheCoins_empty
          (show ({ c with cacheCoins := ∅, cachedCoinsUsage := 0 } : CCoinsViewCache).cacheCoins = ∅ from rfl),
        hview, hb]
      rfl

end CoinsView

namespace CoinsStack

/-! ## Runs -/

/-- A call that the plain maps allow, on a valid stack, succeeds, keeps the
stack valid and does to its layers what `plainStep` does. -/
theorem step_refines :
    Simulation.StepRefines CoinsStack.step plainStep plainPre CoinsStack.abs CoinsStack.Valid := by
  rintro ⟨db, cs⟩ ⟨d, op⟩ hs ⟨hcall, hwrite⟩
  -- the layer called is a cache, `c`, and the layers from it down are those of its own stack
  have hd : d < cs.length := by
    have := hcall.two_le
    simp [abs, plain] at this
    omega
  obtain ⟨c, below, hdrop⟩ := List.exists_cons_of_ne_nil
    (show cs.drop d ≠ [] by rw [ne_eq, List.drop_eq_nil_iff]; omega)
  have hcs : cs.take d ++ c :: below = cs := by rw [← hdrop, List.take_append_drop]
  have hlen : (layersOver (cs.take d) (viewOver (c :: below) db.coins)).length = d := by
    simp only [layersOver_length, List.length_take]
    omega
  have habs : plain db cs =
      layersOver (cs.take d) (viewOver (c :: below) db.coins) ++ plain db (c :: below) := by
    rw [← plain_append, hcs]
  have hv : ValidOver (cs.take d) (viewOver (c :: below) db.coins) ∧ ValidOver (c :: below) db.coins :=
    (validOver_append _ _).mp (by rw [hcs]; exact hs)
  have hpre : CallPre (plain db (c :: below)) op := by
    have h : CallPre ((plain db cs).drop d) op := hcall
    rwa [habs, List.drop_left' hlen] at h
  obtain ⟨v', r, hcall', hv', hplain⟩ := CoinsView.call_spec ⟨db, c, below⟩ op hv.2 hpre
  have hplain : plainCall (plain db (c :: below)) op = (plain v'.db (v'.view :: v'.below), r) :=
    hplain
  -- the caches above see what they saw: a write is only made at the top
  have htop : viewOver (v'.view :: v'.below) v'.db.coins = viewOver (c :: below) db.coins ∨ d = 0 := by
    cases hw : op.IsWrite with
    | true => exact .inr (hwrite hw)
    | false =>
      have h := plainCall_head_coins (plain db (c :: below)) hw
      rw [hplain, plain_head_coins, plain_head_coins, Option.some.injEq] at h
      exact .inl h
  have htake : ValidOver (cs.take d) (viewOver (v'.view :: v'.below) v'.db.coins) ∧
      layersOver (cs.take d) (viewOver (v'.view :: v'.below) v'.db.coins) =
        layersOver (cs.take d) (viewOver (c :: below) db.coins) := by
    rcases htop with h | rfl
    · rw [h]
      exact ⟨hv.1, rfl⟩
    · exact ⟨trivial, rfl⟩
  refine ⟨⟨v'.db, cs.take d ++ v'.view :: v'.below⟩, r, ?_,
    (validOver_append _ _).mpr ⟨htake.1, hv'⟩, ?_⟩
  · simp only [step, hdrop, hcall', Except.ok_bind]
    rfl
  · have hlt : d + 1 < (plain db cs).length := by
      simp [plain]
      omega
    change plainStep (plain db cs) ⟨d, op⟩ = (plain v'.db (cs.take d ++ v'.view :: v'.below), r)
    simp only [plainStep, if_pos hlt]
    rw [habs, List.take_left' hlen, List.drop_left' hlen, hplain, plain_append, htake.2]

end CoinsStack

/-- Every run of calls that the plain maps allow, from a stack whose caches are
valid: no call fails, every answer is the plain maps' answer, the layers end up
showing what the plain maps hold, and every cache is still valid (its FRESH and
DIRTY flags in valid states, its usage counter exact). -/
theorem CoinsStack.refines_plainViews (s : CoinsStack) (ops : List CoinsOp) (hs : s.Valid)
    (hops : Simulation.Admissible plainPre plainStep s.abs ops) :
    ∃ s' rs, Simulation.run CoinsStack.step s ops = .ok (s', rs) ∧ s'.Valid ∧
      Simulation.runSpec plainStep s.abs ops = (s'.abs, rs) :=
  Simulation.run_refines CoinsStack.step_refines ops s hs hops

/-- A database with no coins and no block. -/
def CCoinsViewDB.empty : CCoinsViewDB := ⟨fun _ => none, BlockHash.null, fun _ _ h => by cases h⟩

/-- New caches over any database are valid. -/
theorem CoinsStack.valid_new (db : CCoinsViewDB) (n : Nat) :
    (⟨db, List.replicate n CCoinsViewCache.empty⟩ : CoinsStack).Valid := by
  induction n with
  | zero => trivial
  | succ n ih => exact ⟨CCoinsViewCache.empty_valid, ih⟩

/-- The outpoint of the runs below. -/
def sampleOutPoint : COutPoint := ⟨⟨1⟩, 0⟩

/-- An unspent coin of value `v` at height 1 with an `OP_TRUE` script. -/
def sampleCoin (v : Int) : Coin := Coin.make ⟨⟨v⟩, [0x51]⟩ 1 false

/-- Two new caches over an empty database: add a coin on top, flush it into
the cache below, and read it there. -/
theorem refines_plainViews_addFlushGet :
    (⟨CCoinsViewDB.empty, [.empty, .empty]⟩ : CoinsStack).Valid ∧
    Simulation.Admissible plainPre plainStep
      (⟨CCoinsViewDB.empty, [.empty, .empty]⟩ : CoinsStack).abs
      [⟨0, .AddCoin sampleOutPoint (sampleCoin 5000) false⟩, ⟨0, .Flush⟩,
        ⟨1, .GetCoin sampleOutPoint⟩] ∧
    ∃ s' rs, Simulation.run CoinsStack.step ⟨CCoinsViewDB.empty, [.empty, .empty]⟩
        [⟨0, .AddCoin sampleOutPoint (sampleCoin 5000) false⟩, ⟨0, .Flush⟩,
          ⟨1, .GetCoin sampleOutPoint⟩] = .ok (s', rs) ∧ s'.Valid ∧
      Simulation.runSpec plainStep (⟨CCoinsViewDB.empty, [.empty, .empty]⟩ : CoinsStack).abs
        [⟨0, .AddCoin sampleOutPoint (sampleCoin 5000) false⟩, ⟨0, .Flush⟩,
          ⟨1, .GetCoin sampleOutPoint⟩] = (s'.abs, rs) := by
  have hs : (⟨CCoinsViewDB.empty, [.empty, .empty]⟩ : CoinsStack).Valid :=
    CoinsStack.valid_new CCoinsViewDB.empty 2
  have hops : Simulation.Admissible plainPre plainStep
      (⟨CCoinsViewDB.empty, [.empty, .empty]⟩ : CoinsStack).abs
      [⟨0, .AddCoin sampleOutPoint (sampleCoin 5000) false⟩, ⟨0, .Flush⟩,
        ⟨1, .GetCoin sampleOutPoint⟩] :=
    ⟨⟨⟨rfl, fun _ => rfl⟩, fun _ => rfl⟩, ⟨trivial, fun h => absurd h (by decide)⟩,
      ⟨trivial, fun h => absurd h (by decide)⟩, trivial⟩
  exact ⟨hs, hops, CoinsStack.refines_plainViews _ _ hs hops⟩

/-- Writing on a lower cache breaks the stack even though each `AddCoin` is
made where its cache shows nothing: the top cache marks its coin FRESH, the
cache below gets a coin for the same outpoint, and flushing the top cache
throws. -/
theorem CoinsStack.lowerWrite_flush_throws :
    ((⟨CCoinsViewDB.empty, [.empty, .empty]⟩ : CoinsStack).abs[0]?.map
        fun v => v.coins sampleOutPoint) = some none ∧
    (∃ s₁, CoinsStack.step ⟨CCoinsViewDB.empty, [.empty, .empty]⟩
        ⟨0, .AddCoin sampleOutPoint (sampleCoin 5000) false⟩ = .ok (s₁, .done) ∧
      (s₁.abs[1]?.map fun v => v.coins sampleOutPoint) = some none) ∧
    Simulation.run CoinsStack.step ⟨CCoinsViewDB.empty, [.empty, .empty]⟩
      [⟨0, .AddCoin sampleOutPoint (sampleCoin 5000) false⟩,
        ⟨1, .AddCoin sampleOutPoint (sampleCoin 7000) false⟩, ⟨0, .Flush⟩] =
      .error (.logic_error "FRESH flag misapplied to coin that exists in parent cache") :=
  ⟨rfl, ⟨_, rfl, rfl⟩, rfl⟩


end BitcoinAbc
