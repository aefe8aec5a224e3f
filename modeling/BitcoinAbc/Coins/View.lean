import Mathlib
import BitcoinAbc.Coins.Cache
import BitcoinAbc.Lib.ExceptRefine

/-!
# What a cache shows, and what keeps it a plain map

A cache shows, for each outpoint, the coin of its entry when it has one (none
when that coin is spent) and what its parent shows otherwise
(`CCoinsViewCache.view`). It stays a faithful layer over its parent while
four facts hold (`CCoinsViewCache.Valid`), the valid states that the comment on
`CCoinsCacheEntry` lists:

- a FRESH entry's outpoint is absent from the parent's view;
- an entry that is not DIRTY shows what the parent shows;
- a spent entry holds `coinEmpty`;
- `cachedCoinsUsage` is the sum of the memory usage of the entries' coins.

Each method of the cache gets one lemma that says what it does to the view
and that it keeps these facts, given what the parent shows (`parent`); the
stack of caches is assembled from them in `Coins.Refinement`.
-/

namespace BitcoinAbc

open CCoinsCacheEntry

/-! ## Flags -/

section Flags

-- `decide` runs through all 256 flag bytes
set_option maxRecDepth 4000

variable (f : UInt8)

theorem or_DIRTY_and_DIRTY : (f ||| DIRTY) &&& DIRTY ≠ 0 := by
  revert f; decide

theorem or_DIRTY_and_FRESH : (f ||| DIRTY) &&& FRESH = f &&& FRESH := by
  revert f; decide

/-- The flags `AddCoin` gives an entry are DIRTY. -/
theorem addFlags_and_DIRTY (b : Bool) : (f ||| (DIRTY ||| if b then FRESH else 0)) &&& DIRTY ≠ 0 := by
  cases b <;> revert f <;> decide

/-- The flags `AddCoin` gives an entry are FRESH when the entry was, or when
it asks for it. -/
theorem addFlags_and_FRESH (b : Bool) :
    (f ||| (DIRTY ||| if b then FRESH else 0)) &&& FRESH ≠ 0 ↔ f &&& FRESH ≠ 0 ∨ b = true := by
  cases b <;> revert f <;> decide

/-- The flags `BatchWrite` gives a new entry of the parent. -/
theorem moveFlags_and_FRESH (b : Bool) : (DIRTY ||| if b then FRESH else 0) &&& FRESH ≠ 0 ↔ b = true := by
  cases b <;> decide

theorem moveFlags_and_DIRTY (b : Bool) : (DIRTY ||| if b then FRESH else 0) &&& DIRTY ≠ 0 := by
  cases b <;> decide

theorem and_eq_zero_of_beq_zero {f : UInt8} (h : (f == 0) = true) (m : UInt8) : f &&& m = 0 := by
  rw [beq_iff_eq] at h
  subst h
  exact UInt8.zero_and

end Flags

/-! ## Views -/

/-- A view that only ever shows unspent coins. -/
def ShowsUnspent (v : COutPoint → Option Coin) : Prop := ∀ o c, v o = some c → c.IsSpent = false

namespace CCoinsCacheEntry

/-- What an entry shows: its coin, unless that is spent. -/
def view (e : CCoinsCacheEntry) : Option Coin := if e.coin.IsSpent then none else some e.coin

theorem view_eq_none {e : CCoinsCacheEntry} : e.view = none ↔ e.coin.IsSpent = true := by
  unfold view
  split <;> simp_all

theorem view_unspent {e : CCoinsCacheEntry} {c : Coin} (h : e.view = some c) : c.IsSpent = false := by
  unfold view at h
  split at h
  · cases h
  · cases h
    rename_i hs
    exact Bool.eq_false_iff.mpr hs

theorem coin_of_view_eq_some {e : CCoinsCacheEntry} {c : Coin} (h : e.view = some c) : e.coin = c := by
  unfold view at h
  split at h
  · cases h
  · exact Option.some.inj h

@[simp] theorem view_of_unspent {coin : Coin} {flags : UInt8} (h : coin.IsSpent = false) :
    (⟨coin, flags⟩ : CCoinsCacheEntry).view = some coin := by
  simp [view, h]

@[simp] theorem view_coinEmpty (flags : UInt8) : (⟨coinEmpty, flags⟩ : CCoinsCacheEntry).view = none :=
  rfl

end CCoinsCacheEntry

namespace CCoinsViewCache

variable {c c' : CCoinsViewCache} {parent : COutPoint → Option Coin} {o : COutPoint}
  {e : CCoinsCacheEntry}

/-- What the cache shows over the view `parent` of its base. -/
def view (c : CCoinsViewCache) (parent : COutPoint → Option Coin) (o : COutPoint) : Option Coin :=
  match c.cacheCoins.lookup o with
  | some e => e.view
  | none => parent o

theorem view_of_lookup_some (h : c.cacheCoins.lookup o = some e) : c.view parent o = e.view := by
  simp [view, h]

theorem view_of_lookup_none (h : c.cacheCoins.lookup o = none) : c.view parent o = parent o := by
  simp [view, h]

theorem view_showsUnspent (h : ShowsUnspent parent) : ShowsUnspent (c.view parent) := by
  intro o coin hv
  cases hl : c.cacheCoins.lookup o with
  | some e =>
    rw [view_of_lookup_some hl] at hv
    exact view_unspent hv
  | none =>
    rw [view_of_lookup_none hl] at hv
    exact h o coin hv

/-- A cache with the same entries shows the same. -/
theorem view_congr (h : c'.cacheCoins = c.cacheCoins) : c'.view parent = c.view parent := by
  funext o
  simp [view, h]

theorem view_of_cacheCoins_insert (h : c'.cacheCoins = c.cacheCoins.insert o e) :
    c'.view parent = Function.update (c.view parent) o e.view := by
  funext o'
  by_cases ho : o' = o
  · subst ho
    simp [view, h, AList.lookup_insert]
  · simp [view, h, AList.lookup_insert_ne ho, Function.update_of_ne ho]

theorem view_of_cacheCoins_erase (h : c'.cacheCoins = c.cacheCoins.erase o) :
    c'.view parent = Function.update (c.view parent) o (parent o) := by
  funext o'
  by_cases ho : o' = o
  · subst ho
    simp [view, h, AList.lookup_erase]
  · simp [view, h, AList.lookup_erase_ne ho, Function.update_of_ne ho]

theorem view_of_cacheCoins_empty (h : c'.cacheCoins = ∅) : c'.view parent = parent := by
  funext o'
  simp [view, h, AList.lookup_empty]

/-! ## The invariant -/

/-- The entries of a cache over a base that shows `parent` are in one of the
valid states, and its usage counter is exact. -/
structure Valid (c : CCoinsViewCache) (parent : COutPoint → Option Coin) : Prop where
  fresh : ∀ o e, c.cacheCoins.lookup o = some e → e.flags &&& FRESH ≠ 0 → parent o = none
  clean : ∀ o e, c.cacheCoins.lookup o = some e → e.flags &&& DIRTY = 0 → e.view = parent o
  spent : ∀ o e, c.cacheCoins.lookup o = some e → e.coin.IsSpent = true → e.coin = coinEmpty
  usage : c.cachedCoinsUsage = c.cacheCoins.sumBy fun e => e.coin.DynamicMemoryUsage

/-- The memory usage of the coin an entry would replace, zero if there is
none. -/
def usageAt (c : CCoinsViewCache) (o : COutPoint) : Nat :=
  ((c.cacheCoins.lookup o).map fun e => e.coin.DynamicMemoryUsage).getD 0

theorem usageAt_of_lookup_some (h : c.cacheCoins.lookup o = some e) :
    c.usageAt o = e.coin.DynamicMemoryUsage := by
  simp [usageAt, h]

theorem usageAt_of_lookup_none (h : c.cacheCoins.lookup o = none) : c.usageAt o = 0 := by
  simp [usageAt, h]

namespace Valid

/-- The counter covers every entry's coin. -/
theorem usageAt_le (hc : c.Valid parent) (o : COutPoint) : c.usageAt o ≤ c.cachedCoinsUsage := by
  have h := AList.sumBy_erase (fun e : CCoinsCacheEntry => e.coin.DynamicMemoryUsage) o c.cacheCoins
  rw [← hc.usage] at h
  unfold usageAt
  omega

/-- Taking an entry's coin out of the counter leaves room for nothing else. -/
theorem sub_add_usageAt (hc : c.Valid parent) (hl : c.cacheCoins.lookup o = some e) :
    c.cachedCoinsUsage - e.coin.DynamicMemoryUsage + c.usageAt o = c.cachedCoinsUsage := by
  have := hc.usageAt_le o
  rw [usageAt_of_lookup_some hl] at this ⊢
  omega

/-- Writing an entry in one of the valid states, with the counter moved by
the difference of the coins' usage, keeps the cache valid. -/
theorem insert (hc : c.Valid parent) (hmap : c'.cacheCoins = c.cacheCoins.insert o e)
    (hfresh : e.flags &&& FRESH ≠ 0 → parent o = none)
    (hclean : e.flags &&& DIRTY = 0 → e.view = parent o)
    (hspent : e.coin.IsSpent = true → e.coin = coinEmpty)
    (husage : c'.cachedCoinsUsage + c.usageAt o = c.cachedCoinsUsage + e.coin.DynamicMemoryUsage) :
    c'.Valid parent where
  fresh o' e' hl := by
    by_cases ho : o' = o
    · subst ho
      rw [hmap, AList.lookup_insert, Option.some.injEq] at hl
      subst hl
      exact hfresh
    · rw [hmap, AList.lookup_insert_ne ho] at hl
      exact hc.fresh o' e' hl
  clean o' e' hl := by
    by_cases ho : o' = o
    · subst ho
      rw [hmap, AList.lookup_insert, Option.some.injEq] at hl
      subst hl
      exact hclean
    · rw [hmap, AList.lookup_insert_ne ho] at hl
      exact hc.clean o' e' hl
  spent o' e' hl := by
    by_cases ho : o' = o
    · subst ho
      rw [hmap, AList.lookup_insert, Option.some.injEq] at hl
      subst hl
      exact hspent
    · rw [hmap, AList.lookup_insert_ne ho] at hl
      exact hc.spent o' e' hl
  usage := by
    have h := AList.sumBy_insert (fun e : CCoinsCacheEntry => e.coin.DynamicMemoryUsage) o e
      c.cacheCoins
    rw [hmap]
    unfold usageAt at husage
    have := hc.usage
    omega

/-- Dropping an entry, with the counter moved by its coin's usage, keeps the
cache valid. -/
theorem erase (hc : c.Valid parent) (hmap : c'.cacheCoins = c.cacheCoins.erase o)
    (husage : c'.cachedCoinsUsage + c.usageAt o = c.cachedCoinsUsage) : c'.Valid parent where
  fresh o' e' hl := by
    by_cases ho : o' = o
    · subst ho
      rw [hmap, AList.lookup_erase] at hl
      cases hl
    · rw [hmap, AList.lookup_erase_ne ho] at hl
      exact hc.fresh o' e' hl
  clean o' e' hl := by
    by_cases ho : o' = o
    · subst ho
      rw [hmap, AList.lookup_erase] at hl
      cases hl
    · rw [hmap, AList.lookup_erase_ne ho] at hl
      exact hc.clean o' e' hl
  spent o' e' hl := by
    by_cases ho : o' = o
    · subst ho
      rw [hmap, AList.lookup_erase] at hl
      cases hl
    · rw [hmap, AList.lookup_erase_ne ho] at hl
      exact hc.spent o' e' hl
  usage := by
    have h := AList.sumBy_erase (fun e : CCoinsCacheEntry => e.coin.DynamicMemoryUsage) o
      c.cacheCoins
    rw [hmap]
    unfold usageAt at husage
    have := hc.usage
    omega

/-- An empty cache is valid over any base. -/
theorem of_empty (hmap : c.cacheCoins = ∅) (husage : c.cachedCoinsUsage = 0) : c.Valid parent where
  fresh o e hl := by simp [hmap, AList.lookup_empty] at hl
  clean o e hl := by simp [hmap, AList.lookup_empty] at hl
  spent o e hl := by simp [hmap, AList.lookup_empty] at hl
  usage := by rw [hmap, husage, AList.sumBy_empty]

/-- Validity reads only the entries and the counter. -/
theorem congr (hc : c.Valid parent) (hmap : c'.cacheCoins = c.cacheCoins)
    (husage : c'.cachedCoinsUsage = c.cachedCoinsUsage) : c'.Valid parent where
  fresh o e hl := hc.fresh o e (hmap ▸ hl)
  clean o e hl := hc.clean o e (hmap ▸ hl)
  spent o e hl := hc.spent o e (hmap ▸ hl)
  usage := by rw [hmap, husage, hc.usage]

/-- What a valid cache shows is read off the entry: a spent one holds
`coinEmpty`. -/
theorem coin_eq (hc : c.Valid parent) (hl : c.cacheCoins.lookup o = some e) :
    e.coin = (e.view).getD coinEmpty := by
  unfold CCoinsCacheEntry.view
  split
  · exact hc.spent o e hl ‹_›
  · rfl

end Valid

theorem empty_valid : empty.Valid parent := Valid.of_empty rfl rfl

/-! ## Reads -/

variable {β : Type} {base : β} {fetched : Unit → β × Option Coin}

/-- What `FetchCoin` leaves: a valid cache that shows the same and has the same
block, whose entry for the outpoint is the one returned; nothing is returned
only where the parent shows nothing. -/
structure Fetched (c : CCoinsViewCache) (parent : COutPoint → Option Coin) (o : COutPoint)
    (c' : CCoinsViewCache) (it : Option CCoinsCacheEntry) : Prop where
  valid : c'.Valid parent
  view_eq : c'.view parent = c.view parent
  hashBlock_eq : c'.hashBlock = c.hashBlock
  lookup_eq : c'.cacheCoins.lookup o = it
  parent_none : it = none → parent o = none

theorem FetchCoin_fetched (base : β) (fetched : Unit → β × Option Coin) (hc : c.Valid parent) (hp : ShowsUnspent parent)
    (hf : (fetched ()).2 = parent o) :
    Fetched c parent o (c.FetchCoin o base fetched).1 (c.FetchCoin o base fetched).2.2 := by
  unfold FetchCoin
  split
  · rename_i e hl
    exact ⟨hc, rfl, rfl, hl, fun h => by cases h⟩
  · rename_i hl
    generalize fetched () = r at hf ⊢
    obtain ⟨base', _ | tmp⟩ := r
    · exact ⟨hc, rfl, rfl, hl, fun _ => hf.symm⟩
    · -- the parent only shows unspent coins, so the new entry has no flags
      have htmp : tmp.IsSpent = false := hp o tmp hf.symm
      simp only [htmp, Bool.false_eq_true, ↓reduceIte]
      refine ⟨hc.insert rfl (fun h => (h (and_eq_zero_of_beq_zero rfl FRESH)).elim) (fun _ => ?_)
        (fun h => by simp_all) ?_, ?_, rfl, AList.lookup_insert _, fun h => by cases h⟩
      · simpa [htmp] using hf
      · simp [usageAt_of_lookup_none hl]
      · rw [view_of_cacheCoins_insert rfl, view_of_unspent htmp, Function.update_eq_self_iff,
          view_of_lookup_none hl]
        exact hf

theorem FetchCoin_base (base : β) (fetched : Unit → β × Option Coin) :
    (c.FetchCoin o base fetched).2.1 = base ∨ (c.FetchCoin o base fetched).2.1 = (fetched ()).1 := by
  unfold FetchCoin
  split
  · exact .inl rfl
  · obtain ⟨base', r⟩ := fetched ()
    cases r <;> exact .inr rfl

namespace Fetched

variable {it : Option CCoinsCacheEntry}

/-- The cache showed the returned entry's coin. -/
theorem view_apply (h : Fetched c parent o c' it) : c.view parent o = it.bind CCoinsCacheEntry.view := by
  rw [← h.view_eq]
  cases it with
  | none => rw [view_of_lookup_none h.lookup_eq, h.parent_none rfl]; rfl
  | some e => exact view_of_lookup_some h.lookup_eq

/-- The returned coin is what the cache showed, `coinEmpty` for nothing. -/
theorem coin_apply (h : Fetched c parent o c' it) :
    (it.map CCoinsCacheEntry.coin).getD coinEmpty = (c.view parent o).getD coinEmpty := by
  rw [h.view_apply]
  cases it with
  | none => rfl
  | some e => exact h.valid.coin_eq h.lookup_eq

end Fetched

theorem GetCoin_eq (c : CCoinsViewCache) (o : COutPoint) (base : β) (fetched : Unit → β × Option Coin) :
    c.GetCoin o base fetched = ((c.FetchCoin o base fetched).1, (c.FetchCoin o base fetched).2.1,
      (c.FetchCoin o base fetched).2.2.bind CCoinsCacheEntry.view) := by
  unfold GetCoin
  obtain ⟨c', base', _ | e⟩ := c.FetchCoin o base fetched <;> rfl

theorem HaveCoin_eq (c : CCoinsViewCache) (o : COutPoint) (base : β) (fetched : Unit → β × Option Coin) :
    c.HaveCoin o base fetched = ((c.FetchCoin o base fetched).1, (c.FetchCoin o base fetched).2.1,
      ((c.FetchCoin o base fetched).2.2.bind CCoinsCacheEntry.view).isSome) := by
  unfold HaveCoin
  obtain ⟨c', base', _ | e⟩ := c.FetchCoin o base fetched
  · rfl
  · simp only [Option.bind_some, CCoinsCacheEntry.view]
    split <;> simp_all

theorem AccessCoin_eq (c : CCoinsViewCache) (o : COutPoint) (base : β) (fetched : Unit → β × Option Coin) :
    c.AccessCoin o base fetched = ((c.FetchCoin o base fetched).1, (c.FetchCoin o base fetched).2.1,
      ((c.FetchCoin o base fetched).2.2.map CCoinsCacheEntry.coin).getD coinEmpty) := by
  unfold AccessCoin
  obtain ⟨c', base', _ | e⟩ := c.FetchCoin o base fetched <;> rfl

/-! ## Writes -/

/-- `SpendCoin` makes the cache show nothing at the outpoint, keeps it valid,
and moves out what it showed (`coinEmpty` for nothing); it returns true when
the cache showed a coin. -/
theorem SpendCoin_spec (base : β) (fetched : Unit → β × Option Coin) (hc : c.Valid parent) (hp : ShowsUnspent parent)
    (hf : (fetched ()).2 = parent o) :
    ∃ c' moved, c.SpendCoin o base fetched = (c', (c.FetchCoin o base fetched).2.1, moved) ∧
      c'.Valid parent ∧ c'.view parent = Function.update (c.view parent) o none ∧
      c'.hashBlock = c.hashBlock ∧ moved.getD coinEmpty = (c.view parent o).getD coinEmpty ∧
      ∀ coin, c.view parent o = some coin → moved = some coin := by
  have hF := FetchCoin_fetched base fetched hc hp hf
  unfold SpendCoin
  generalize c.FetchCoin o base fetched = r at hF ⊢
  obtain ⟨c₁, base₁, it⟩ := r
  dsimp only at hF
  have hcoin := hF.coin_apply
  have hview := hF.view_apply
  cases it with
  | none =>
    have hnone : c.view parent o = none := hview
    refine ⟨c₁, none, rfl, hF.valid, ?_, hF.hashBlock_eq, hcoin, fun coin h => ?_⟩
    · rw [hF.view_eq, ← hnone, Function.update_eq_self]
    · rw [hnone] at h
      cases h
  | some e =>
    have hl := hF.lookup_eq
    have hfound : ∀ coin, c.view parent o = some coin → some e.coin = some coin :=
      fun coin h => congrArg some (coin_of_view_eq_some (hview.symm.trans h))
    simp only at hcoin hl ⊢
    split
    · -- FRESH: the parent shows nothing, so the entry can go
      rename_i hfresh
      have hpar : parent o = none := hF.valid.fresh o e hl (by simpa using hfresh)
      refine ⟨_, some e.coin, rfl, hF.valid.erase rfl (hF.valid.sub_add_usageAt hl), ?_,
        hF.hashBlock_eq, hcoin, hfound⟩
      rw [view_of_cacheCoins_erase rfl, hF.view_eq, hpar]
    · rename_i hfresh
      refine ⟨_, some e.coin, rfl, hF.valid.insert rfl ?_ (fun h => absurd h (or_DIRTY_and_DIRTY _))
        (fun _ => Coin.Clear_eq _) ?_, ?_, hF.hashBlock_eq, hcoin, hfound⟩
      · intro h
        rw [or_DIRTY_and_FRESH] at h
        simp_all
      · simp only [Coin.Clear_eq, coinEmpty_DynamicMemoryUsage, Nat.add_zero]
        exact hF.valid.sub_add_usageAt hl
      · rw [view_of_cacheCoins_insert rfl, hF.view_eq, Coin.Clear_eq, view_coinEmpty]

/-- `AddCoin` of an unspent coin, where the outpoint shows nothing unless an
overwrite is allowed, succeeds, keeps the cache valid and makes it show the
coin (nothing changes for an unspendable script). -/
theorem AddCoin_spec {coin : Coin} {possible_overwrite : Bool} (hc : c.Valid parent)
    (hunspent : coin.IsSpent = false)
    (hnew : Script.IsUnspendable coin.out.scriptPubKey = false → possible_overwrite = false →
      c.view parent o = none) :
    ∃ c', c.AddCoin o coin possible_overwrite = .ok c' ∧ c'.Valid parent ∧
      c'.hashBlock = c.hashBlock ∧
      c'.view parent = if Script.IsUnspendable coin.out.scriptPubKey then c.view parent
        else Function.update (c.view parent) o (some coin) := by
  unfold AddCoin
  simp only [CoinsError.assert, hunspent, Bool.not_false, ↓reduceIte, pure_bind]
  split
  · exact ⟨c, rfl, hc, rfl, rfl⟩
  · rename_i hspendable
    -- the entry `AddCoin` starts from: the cached one, or a new spent one with no flags
    generalize hp : c.emplace o = p
    obtain ⟨it, inserted⟩ := p
    have hstart : (it.flags &&& FRESH ≠ 0 → parent o = none) ∧
        (it.flags &&& DIRTY = 0 → c.view parent o = none → parent o = none) ∧
        (c.view parent o = none → it.coin.IsSpent = true) ∧
        (if inserted then c.cachedCoinsUsage else c.cachedCoinsUsage - it.coin.DynamicMemoryUsage) +
          c.usageAt o = c.cachedCoinsUsage := by
      unfold emplace at hp
      cases hl : c.cacheCoins.lookup o with
      | some e =>
        rw [hl] at hp
        cases hp
        have hle := hc.usageAt_le o
        rw [usageAt_of_lookup_some hl] at hle ⊢
        refine ⟨hc.fresh o it hl, fun hd hv => ?_, fun hv => ?_,
          by simp only [Bool.false_eq_true, ↓reduceIte]; omega⟩
        · rw [← hc.clean o it hl hd, ← view_of_lookup_some hl, hv]
        · rw [view_of_lookup_some hl] at hv
          exact view_eq_none.mp hv
      | none =>
        rw [hl] at hp
        cases hp
        refine ⟨fun h => (h (and_eq_zero_of_beq_zero rfl FRESH)).elim, fun _ hv => ?_,
          fun _ => rfl, by simp [usageAt_of_lookup_none hl]⟩
        rwa [view_of_lookup_none hl] at hv
    obtain ⟨hfresh, hclean, hspent, husage⟩ := hstart
    cases possible_overwrite with
    | true =>
      simp only [Bool.not_true, Bool.false_eq_true, ↓reduceIte]
      refine ⟨_, rfl, hc.insert rfl (fun h => hfresh ?_)
        (fun h => absurd h (addFlags_and_DIRTY it.flags false)) (fun h => by simp_all)
        (by simp only; omega), rfl, ?_⟩
      · simpa using (addFlags_and_FRESH it.flags false).mp h
      · rw [view_of_cacheCoins_insert rfl, view_of_unspent hunspent]
    | false =>
      -- no overwrite: the outpoint shows nothing, so the entry is spent and may become FRESH
      have hv := hnew (Bool.eq_false_iff.mpr hspendable) rfl
      simp only [Bool.not_false, ↓reduceIte, hspent hv, Bool.not_true, Bool.false_eq_true]
      refine ⟨_, rfl, hc.insert rfl (fun h => ?_)
        (fun h => absurd h (addFlags_and_DIRTY it.flags (it.flags &&& DIRTY == 0)))
        (fun h => by simp_all) (by simp only; omega), rfl, ?_⟩
      · rcases (addFlags_and_FRESH it.flags _).mp h with h | h
        · exact hfresh h
        · exact hclean (by simpa using h) hv
      · rw [view_of_cacheCoins_insert rfl, view_of_unspent hunspent]

/-- What a successful `AddCoin` did: its coin was unspent; it changed nothing
for an unspendable script, and otherwise wrote the coin at the outpoint, where
without an overwrite the cache held no unspent coin. -/
theorem AddCoin_eq_ok {coin : Coin} {possible_overwrite : Bool}
    (h : c.AddCoin o coin possible_overwrite = .ok c') :
    coin.IsSpent = false ∧ (Script.IsUnspendable coin.out.scriptPubKey = true → c' = c) ∧
      (Script.IsUnspendable coin.out.scriptPubKey = false →
        (∃ flags, c'.cacheCoins = c.cacheCoins.insert o ⟨coin, flags⟩) ∧
        (possible_overwrite = false → ∀ e, c.cacheCoins.lookup o = some e → e.coin.IsSpent = true)) := by
  unfold AddCoin at h
  cases hsp : coin.IsSpent with
  | true =>
    simp only [CoinsError.assert, hsp, Bool.not_true, Bool.false_eq_true, ↓reduceIte] at h
    cases h
  | false =>
    simp only [CoinsError.assert, hsp, Bool.not_false, ↓reduceIte, pure_bind] at h
    refine ⟨rfl, ?_⟩
    split at h
    · rename_i hs
      cases h
      exact ⟨fun _ => rfl, fun h' => by simp_all⟩
    · rename_i hs
      refine ⟨fun h' => absurd h' hs, fun _ => ?_⟩
      generalize hp : c.emplace o = p at h
      obtain ⟨it, inserted⟩ := p
      cases possible_overwrite with
      | true =>
        simp only [Bool.not_true, Bool.false_eq_true, ↓reduceIte, Except.pure_eq_ok] at h
        subst h
        exact ⟨⟨_, rfl⟩, fun h => absurd h (by decide)⟩
      | false =>
        cases hit : it.coin.IsSpent with
        | false =>
          -- an unspent coin in the cache: the `logic_error`
          simp only [Bool.not_false, ↓reduceIte, hit] at h
          cases h
        | true =>
          simp only [Bool.not_false, Bool.not_true, ↓reduceIte, hit, Bool.false_eq_true,
            Except.pure_eq_ok] at h
          subst h
          refine ⟨⟨_, rfl⟩, fun _ e he => ?_⟩
          -- `emplace` found the cached entry
          rw [emplace, he] at hp
          cases hp
          exact hit

/-- `Uncache` drops only an entry that shows what the parent shows. -/
theorem Uncache_spec (hc : c.Valid parent) :
    (c.Uncache o).Valid parent ∧ (c.Uncache o).view parent = c.view parent ∧
      (c.Uncache o).hashBlock = c.hashBlock := by
  unfold Uncache
  split
  · rename_i e hl
    split
    · rename_i h0
      have hview : e.view = parent o := hc.clean o e hl (and_eq_zero_of_beq_zero h0 DIRTY)
      refine ⟨hc.erase rfl (hc.sub_add_usageAt hl), ?_, rfl⟩
      rw [view_of_cacheCoins_erase rfl, ← hview, ← (view_of_lookup_some hl : c.view parent o = _),
        Function.update_eq_self]
    · exact ⟨hc, rfl, rfl⟩
  · exact ⟨hc, rfl, rfl⟩

/-! ## Merging a child -/

/-- What a child's entry must satisfy over what the parent cache shows: the
three entry facts of `Valid`, read at one outpoint. -/
structure ChildEntry (shown : Option Coin) (e : CCoinsCacheEntry) : Prop where
  fresh : e.flags &&& FRESH ≠ 0 → shown = none
  clean : e.flags &&& DIRTY = 0 → e.view = shown
  spent : e.coin.IsSpent = true → e.coin = coinEmpty

/-- One turn of `BatchWrite` on an entry in a valid state succeeds, keeps the
parent valid and makes it show what the entry shows. -/
theorem BatchWriteEntry_spec (hc : c.Valid parent) (he : ChildEntry (c.view parent o) e) :
    ∃ c', c.BatchWriteEntry o e = .ok c' ∧ c'.Valid parent ∧ c'.hashBlock = c.hashBlock ∧
      c'.view parent = Function.update (c.view parent) o e.view := by
  unfold BatchWriteEntry
  split
  · -- not DIRTY: the parent already shows the entry's coin
    rename_i hd
    refine ⟨c, rfl, hc, rfl, ?_⟩
    rw [he.clean (by simpa using hd), Function.update_eq_self]
  · split
    · rename_i hl
      split
      · -- spent and FRESH: the parent shows nothing either
        rename_i hfs
        simp only [Bool.and_eq_true, bne_iff_ne, ne_eq] at hfs
        refine ⟨c, rfl, hc, rfl, ?_⟩
        rw [view_eq_none.mpr hfs.2, ← he.fresh hfs.1, Function.update_eq_self]
      · refine ⟨_, rfl, hc.insert rfl (fun h => ?_) (fun h => absurd h (moveFlags_and_DIRTY _))
          he.spent ?_, rfl, ?_⟩
        · rw [← (view_of_lookup_none hl : c.view parent o = parent o)]
          exact he.fresh (by simpa using (moveFlags_and_FRESH _).mp h)
        · simp [usageAt_of_lookup_none hl]
        · rw [view_of_cacheCoins_insert rfl]
          rfl
    · rename_i us hl
      split
      · -- FRESH in the child although the parent has it unspent: the entry facts rule it out
        rename_i hbad
        simp only [Bool.and_eq_true, bne_iff_ne, ne_eq, Bool.not_eq_true'] at hbad
        have hnone := he.fresh hbad.1
        rw [view_of_lookup_some hl, view_eq_none, hbad.2] at hnone
        cases hnone
      · split
        · -- FRESH here and spent there: the grandparent never had it
          rename_i _ hfs
          simp only [Bool.and_eq_true, bne_iff_ne, ne_eq] at hfs
          refine ⟨_, rfl, hc.erase rfl (hc.sub_add_usageAt hl), rfl, ?_⟩
          rw [view_of_cacheCoins_erase rfl, hc.fresh o us hl hfs.1, view_eq_none.mpr hfs.2]
        · refine ⟨_, rfl, hc.insert rfl (fun h => hc.fresh o us hl (by rwa [or_DIRTY_and_FRESH] at h))
            (fun h => absurd h (or_DIRTY_and_DIRTY _)) he.spent ?_, rfl, ?_⟩
          · have := hc.sub_add_usageAt hl
            rw [usageAt_of_lookup_some hl] at this ⊢
            simp only
            omega
          · rw [view_of_cacheCoins_insert rfl]
            rfl

/-- The loop of `BatchWrite` over entries with distinct outpoints, each in a
valid state over what the parent shows: the parent ends up showing the
entries' coins where they have an entry and what it showed elsewhere. -/
theorem foldlM_BatchWriteEntry :
    ∀ es : List (Sigma fun _ : COutPoint => CCoinsCacheEntry), es.NodupKeys →
    ∀ c : CCoinsViewCache, c.Valid parent →
    (∀ o e, es.dlookup o = some e → ChildEntry (c.view parent o) e) →
    ∃ c', es.foldlM (fun c e => c.BatchWriteEntry e.1 e.2) c = .ok c' ∧ c'.Valid parent ∧
      c'.hashBlock = c.hashBlock ∧
      ∀ o, c'.view parent o = match es.dlookup o with
        | some e => e.view
        | none => c.view parent o
  | [], _, c, hc, _ => ⟨c, rfl, hc, rfl, fun _ => rfl⟩
  | ⟨o₁, e₁⟩ :: es, hnd, c, hc, hes => by
    rw [List.nodupKeys_cons] at hnd
    obtain ⟨c₁, h₁, hc₁, hb₁, hv₁⟩ :=
      BatchWriteEntry_spec hc (hes o₁ e₁ (List.dlookup_cons_eq _ _ _))
    -- the rest of the entries are at other outpoints, where `c₁` shows what `c` showed
    have hrest : ∀ o e, es.dlookup o = some e → ChildEntry (c₁.view parent o) e := by
      intro o e hl
      have ho : o ≠ o₁ := fun h => hnd.1 (h ▸ List.dlookup_isSome.mp (by simp [hl]))
      rw [hv₁, Function.update_of_ne ho]
      exact hes o e (by rw [List.dlookup_cons_ne _ _ ho, hl])
    obtain ⟨c', h', hc', hb', hv'⟩ := foldlM_BatchWriteEntry es hnd.2 c₁ hc₁ hrest
    refine ⟨c', by simp only [List.foldlM_cons, h₁, h', Except.ok_bind], hc', hb'.trans hb₁,
      fun o => ?_⟩
    rw [hv']
    by_cases ho : o = o₁
    · subst ho
      rw [List.dlookup_eq_none.mpr hnd.1, hv₁, Function.update_self, List.dlookup_cons_eq]
    · rw [List.dlookup_cons_ne _ _ ho, hv₁, Function.update_of_ne ho]

/-- `BatchWrite` of a valid child into a valid parent succeeds: the parent
shows what the child showed and takes its block. -/
theorem BatchWrite_spec {child : CCoinsViewCache} (hc : c.Valid parent)
    (hchild : child.Valid (c.view parent)) (hashBlockIn : BlockHash) :
    ∃ c', c.BatchWrite child.cacheCoins hashBlockIn = .ok c' ∧ c'.Valid parent ∧
      c'.hashBlock = hashBlockIn ∧ c'.view parent = child.view (c.view parent) := by
  obtain ⟨c₁, h₁, hc₁, -, hv₁⟩ := foldlM_BatchWriteEntry child.cacheCoins.entries
    child.cacheCoins.nodupKeys c hc
    fun o e hl => ⟨hchild.fresh o e hl, hchild.clean o e hl, hchild.spent o e hl⟩
  refine ⟨{ c₁ with hashBlock := hashBlockIn }, ?_, hc₁.congr rfl rfl, rfl, ?_⟩
  · simp only [BatchWrite, h₁, Except.ok_bind]
    rfl
  · rw [view_congr rfl]
    funext o
    exact hv₁ o

/-- `Flush` empties the cache once its base has taken the entries. -/
theorem Flush_eq_ok {baseBatchWrite : CCoinsMap → BlockHash → Except CoinsError β} {base' : β}
    (h : baseBatchWrite c.cacheCoins c.hashBlock = .ok base') :
    c.Flush baseBatchWrite = .ok ({ c with cacheCoins := ∅, cachedCoinsUsage := 0 }, base') := by
  simp only [Flush, h, Except.ok_bind]
  rfl

end CCoinsViewCache

/-! ## The database -/

theorem writeCoin_eq (coins : COutPoint → Option Coin) (o : COutPoint) (e : CCoinsCacheEntry) :
    writeCoin coins o e = if (e.flags &&& DIRTY != 0) = true then Function.update coins o e.view
      else coins := by
  unfold writeCoin CCoinsCacheEntry.view
  by_cases hd : (e.flags &&& DIRTY != 0) = true
  · rw [if_pos hd, if_pos hd]
    by_cases hs : e.coin.IsSpent = true
    · rw [if_pos hs, if_pos hs]
    · rw [if_neg hs, if_neg hs]
  · rw [if_neg hd, if_neg hd]

/-- A batch of entries at distinct outpoints writes each DIRTY entry's coin
and leaves every other outpoint alone. -/
theorem foldl_writeCoin_apply :
    ∀ es : List (Sigma fun _ : COutPoint => CCoinsCacheEntry), es.NodupKeys →
    ∀ (coins : COutPoint → Option Coin) (o : COutPoint),
      es.foldl (fun m e => writeCoin m e.1 e.2) coins o = match es.dlookup o with
        | some e => if (e.flags &&& DIRTY != 0) = true then e.view else coins o
        | none => coins o
  | [], _, _, _ => rfl
  | ⟨o₁, e₁⟩ :: es, hnd, coins, o => by
    rw [List.nodupKeys_cons] at hnd
    rw [List.foldl_cons, foldl_writeCoin_apply es hnd.2]
    by_cases ho : o = o₁
    · subst ho
      rw [List.dlookup_eq_none.mpr hnd.1, List.dlookup_cons_eq, writeCoin_eq]
      by_cases hd : (e₁.flags &&& DIRTY != 0) = true
      · simp only [if_pos hd, Function.update_self]
      · simp only [if_neg hd]
    · -- the first entry writes another outpoint
      have h₁ : writeCoin coins o₁ e₁ o = coins o := by
        rw [writeCoin_eq]
        split
        · exact Function.update_of_ne ho _ _
        · rfl
      rw [List.dlookup_cons_ne _ _ ho, h₁]

namespace CCoinsViewDB

/-- The database's `BatchWrite` of a valid cache, with a block hash, succeeds:
it then stores what the cache showed, at that block. -/
theorem BatchWrite_spec {db : CCoinsViewDB} {c : CCoinsViewCache} (hc : c.Valid db.coins)
    {hashBlock : BlockHash} (hb : hashBlock.IsNull = false) :
    ∃ db', db.BatchWrite c.cacheCoins hashBlock = .ok db' ∧ db'.coins = c.view db.coins ∧
      db'.bestBlock = hashBlock := by
  refine ⟨_, by simp [BatchWrite, CoinsError.assert, hb]; rfl, ?_, rfl⟩
  funext o
  dsimp only
  rw [foldl_writeCoin_apply _ c.cacheCoins.nodupKeys]
  unfold CCoinsViewCache.view
  change (match c.cacheCoins.lookup o with
    | some e => if (e.flags &&& DIRTY != 0) = true then e.view else db.coins o
    | none => db.coins o) = _
  split
  · rename_i e hl
    split
    · rfl
    · rename_i hd
      exact (hc.clean o e hl (not_not.mp fun h => hd (bne_iff_ne.mpr h))).symm
  · rfl

/-- What the database shows is unspent. -/
theorem showsUnspent (db : CCoinsViewDB) : ShowsUnspent db.coins := db.unspent

end CCoinsViewDB

end BitcoinAbc
