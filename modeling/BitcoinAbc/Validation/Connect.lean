import Mathlib
import BitcoinAbc.Validation.BlockUndo
import BitcoinAbc.Coins.Refinement
import BitcoinAbc.Lib.Updates

/-!
# What connecting a block does to the coins a view shows

`ConnectBlockCoins` acts on a `CoinsView` through its methods, so by the
method lemmas of `Coins.Refinement` (`CoinsView.Shows`) each of its passes is
a change of the map `m` that the view shows:

- the first pass writes the coins the block creates (`CBlock.createdCoins`),
  one for each output with a spendable script, under the transaction's id and
  the output's index (`AddCoinsAll_spec`). A coinbase may write over a coin;
  another transaction writes where the view shows nothing, since a coin written
  earlier in the pass stays in the view's own cache, where `AddCoin` would
  throw;
- the second pass sets every outpoint the inputs spend to none, in block
  order (`spentOutpoints`), and records what each spend moved out
  (`spentCoins`): the coin the view showed there, `coinEmpty` for none
  (`spendAll_spec`).

`ConnectBlockCoins_spec` puts the two together for a block whose first
transaction is its only coinbase. Where every recorded coin is unspent, every
spend found a coin of its own (`spentCoins_of_unspent`): the outpoints are
pairwise distinct and the records are what the view showed after the first
pass.
-/

namespace BitcoinAbc

open Function

/-! ## Coins as the code packs them -/

namespace Coin

variable {out : CTxOut} {h : UInt32} {cb : Bool}

/-- Below `2^31` the height and the coinbase flag do not overlap in the packed
word. -/
theorem toNat_packed (hh : h.toNat < 2 ^ 31) :
    ((h <<< 1) ||| (if cb then 1 else 0)).toNat = 2 * h.toNat + (if cb then 1 else 0) := by
  have hshift : (h <<< 1).toNat = 2 * h.toNat := by
    simp [UInt32.toNat_shiftLeft, Nat.shiftLeft_eq]
    omega
  rw [UInt32.toNat_or, hshift]
  cases cb with
  | false => simp
  | true =>
    have h1 := Nat.two_pow_add_eq_or_of_lt (i := 1) (b := 1) (by decide) h.toNat
    simp only [Nat.pow_one] at h1
    simp [← h1]

@[simp] theorem make_out : (make out h cb).out = out := rfl

theorem GetHeight_make (hh : h.toNat < 2 ^ 31) : (make out h cb).GetHeight = h := by
  apply UInt32.toNat_inj.mp
  rw [GetHeight, make, UInt32.toNat_shiftRight, toNat_packed hh]
  cases cb <;> simp <;> omega

theorem IsCoinBase_make (hh : h.toNat < 2 ^ 31) : (make out h cb).IsCoinBase = cb := by
  have hlow : (((h <<< 1) ||| (if cb then 1 else 0)) &&& 1).toNat = (if cb then 1 else 0) := by
    rw [UInt32.toNat_and, toNat_packed hh]
    cases cb <;> simp [Nat.and_one_is_mod]
  cases cb <;> simp_all [IsCoinBase, make, ← UInt32.toNat_inj]

end Coin

/-! ## The coins a block creates -/

/-- The coins that the outputs `outs` of the transaction `txid`, each with its
index, create at height `nHeight`: one for each output with a spendable
script. -/
def outputCoins (txid : TxId) (isCoinBase : Bool) (nHeight : Nat) :
    List (CTxOut × Nat) → List (COutPoint × Option Coin)
  | [] => []
  | (out, i) :: outs =>
    if Script.IsUnspendable out.scriptPubKey then outputCoins txid isCoinBase nHeight outs
    else (⟨txid, UInt32.ofNat i⟩, some (Coin.make out (UInt32.ofNat nHeight) isCoinBase)) ::
      outputCoins txid isCoinBase nHeight outs

/-- The coins a transaction creates at height `nHeight`. -/
def CTransaction.createdCoins (tx : CTransaction) (nHeight : Nat) : List (COutPoint × Option Coin) :=
  outputCoins tx.GetId tx.IsCoinBase nHeight tx.vout.zipIdx

/-- The coins a block creates at height `nHeight`, in block order. -/
def CBlock.createdCoins (block : CBlock) (nHeight : Nat) : List (COutPoint × Option Coin) :=
  block.vtx.flatMap fun tx => tx.createdCoins nHeight

section OutputCoins

variable {txid : TxId} {cb : Bool} {nHeight : Nat}

theorem mem_outputCoins {p : COutPoint × Option Coin} :
    ∀ {outs : List (CTxOut × Nat)}, p ∈ outputCoins txid cb nHeight outs →
      ∃ out i, (out, i) ∈ outs ∧ Script.IsUnspendable out.scriptPubKey = false ∧
        p = (⟨txid, UInt32.ofNat i⟩, some (Coin.make out (UInt32.ofNat nHeight) cb))
  | [], hp => absurd hp List.not_mem_nil
  | (out, i) :: outs, hp => by
    unfold outputCoins at hp
    split at hp
    · obtain ⟨out', i', hmem, hs, rfl⟩ := mem_outputCoins hp
      exact ⟨out', i', List.mem_cons_of_mem _ hmem, hs, rfl⟩
    · rename_i hs
      rcases List.mem_cons.mp hp with rfl | hp
      · exact ⟨out, i, List.mem_cons_self, Bool.eq_false_iff.mpr hs, rfl⟩
      · obtain ⟨out', i', hmem, hs', rfl⟩ := mem_outputCoins hp
        exact ⟨out', i', List.mem_cons_of_mem _ hmem, hs', rfl⟩

/-- Output indices that are distinct below `2^32` give distinct outpoints. -/
theorem outputCoins_nodup :
    ∀ {outs : List (CTxOut × Nat)}, (outs.map Prod.snd).Nodup → (∀ q ∈ outs, q.2 < 2 ^ 32) →
      ((outputCoins txid cb nHeight outs).map Prod.fst).Nodup
  | [], _, _ => List.nodup_nil
  | (out, i) :: outs, hnd, hlt => by
    rw [List.map_cons, List.nodup_cons] at hnd
    have hlt' : ∀ q ∈ outs, q.2 < 2 ^ 32 := fun q hq => hlt q (List.mem_cons_of_mem _ hq)
    have ih := outputCoins_nodup hnd.2 hlt'
    unfold outputCoins
    split
    · exact ih
    · rw [List.map_cons, List.nodup_cons]
      refine ⟨fun hmem => ?_, ih⟩
      -- another output with the same outpoint has the same index
      obtain ⟨p, hp, hkey⟩ := List.mem_map.mp hmem
      obtain ⟨out', j, hj, -, rfl⟩ := mem_outputCoins hp
      have hi : i < 2 ^ 32 := hlt (out, i) List.mem_cons_self
      have hj' : j < 2 ^ 32 := hlt' (out', j) hj
      have hij : UInt32.ofNat j = UInt32.ofNat i := (COutPoint.mk.inj hkey).2
      have hji : j = i := by
        have := congrArg UInt32.toNat hij
        simp only [UInt32.toNat_ofNat'] at this
        omega
      have hjmem : j ∈ outs.map Prod.snd := List.mem_map_of_mem (f := Prod.snd) hj
      rw [hji] at hjmem
      exact hnd.1 hjmem

/-- What the outputs create: a spendable coin at the block's height. -/
theorem outputCoins_coin {p : COutPoint × Option Coin} {outs : List (CTxOut × Nat)} {c : Coin}
    (hp : p ∈ outputCoins txid cb nHeight outs) (hc : p.2 = some c) :
    c = Coin.make c.out (UInt32.ofNat nHeight) cb ∧ Script.IsUnspendable c.out.scriptPubKey = false := by
  obtain ⟨out, i, -, hs, rfl⟩ := mem_outputCoins hp
  cases hc
  exact ⟨rfl, hs⟩

end OutputCoins

section CreatedCoins

variable {nHeight : Nat}

theorem CTransaction.txid_of_mem_createdCoins {tx : CTransaction} {p : COutPoint × Option Coin}
    (hp : p ∈ tx.createdCoins nHeight) : p.1.txid = tx.GetId := by
  obtain ⟨out, i, -, -, rfl⟩ := mem_outputCoins hp
  rfl

theorem CTransaction.createdCoins_nodup {tx : CTransaction} (hout : tx.vout.length ≤ 2 ^ 32) :
    ((tx.createdCoins nHeight).map Prod.fst).Nodup := by
  refine outputCoins_nodup ?_ fun q hq => ?_
  · rw [List.zipIdx_map_snd]
    exact List.nodup_range'
  · have := List.snd_lt_of_mem_zipIdx hq
    omega

/-- Transactions with distinct ids, none with `2^32` outputs or more, create
coins at distinct outpoints. -/
theorem CBlock.createdCoins_nodup {block : CBlock} (hids : (block.vtx.map CTransaction.GetId).Nodup)
    (hout : ∀ tx ∈ block.vtx, tx.vout.length ≤ 2 ^ 32) :
    ((block.createdCoins nHeight).map Prod.fst).Nodup := by
  rw [CBlock.createdCoins, List.map_flatMap, List.nodup_flatMap]
  refine ⟨fun tx htx => CTransaction.createdCoins_nodup (hout tx htx), ?_⟩
  refine (List.pairwise_map.mp hids).imp fun {a b} hab => ?_
  intro k hka hkb
  obtain ⟨p, hp, rfl⟩ := List.mem_map.mp hka
  obtain ⟨q, hq, hpq⟩ := List.mem_map.mp hkb
  apply hab
  rw [← CTransaction.txid_of_mem_createdCoins hp, ← CTransaction.txid_of_mem_createdCoins hq, hpq]

theorem CBlock.createdCoins_coin {block : CBlock} {p : COutPoint × Option Coin} {c : Coin}
    (hp : p ∈ block.createdCoins nHeight) (hc : p.2 = some c) :
    ∃ cb, c = Coin.make c.out (UInt32.ofNat nHeight) cb ∧
      Script.IsUnspendable c.out.scriptPubKey = false := by
  obtain ⟨tx, -, hp⟩ := List.mem_flatMap.mp hp
  exact ⟨tx.IsCoinBase, outputCoins_coin hp hc⟩

/-- An outpoint one of the transactions creates is one they create. -/
theorem mem_flatMap_createdCoins {txs : List CTransaction} {tx : CTransaction} (htx : tx ∈ txs)
    {k : COutPoint} (hk : k ∈ (tx.createdCoins nHeight).map Prod.fst) :
    k ∈ (txs.flatMap fun tx => tx.createdCoins nHeight).map Prod.fst := by
  obtain ⟨p, hp, rfl⟩ := List.mem_map.mp hk
  exact List.mem_map_of_mem (List.mem_flatMap.mpr ⟨tx, htx, hp⟩)

/-- A view that shows nothing at any output index of a transaction shows none
of the coins it creates. -/
theorem CTransaction.createdCoins_absent {tx : CTransaction} {m : COutPoint → Option Coin}
    (hnew : ∀ i < tx.vout.length, m ⟨tx.GetId, UInt32.ofNat i⟩ = none) :
    ∀ k ∈ (tx.createdCoins nHeight).map Prod.fst, m k = none := by
  intro k hk
  obtain ⟨p, hp, rfl⟩ := List.mem_map.mp hk
  obtain ⟨out, i, hi, -, rfl⟩ := mem_outputCoins hp
  exact hnew i (by simpa using List.snd_lt_of_mem_zipIdx hi)

/-- A view that shows nothing at any output index of the block's transactions
shows none of the coins the block creates. -/
theorem CBlock.createdCoins_absent {block : CBlock} {m : COutPoint → Option Coin}
    (hnew : ∀ tx ∈ block.vtx, ∀ i < tx.vout.length, m ⟨tx.GetId, UInt32.ofNat i⟩ = none) :
    ∀ k ∈ (block.createdCoins nHeight).map Prod.fst, m k = none := by
  intro k hk
  obtain ⟨p, hp, rfl⟩ := List.mem_map.mp hk
  obtain ⟨tx, htx, hp⟩ := List.mem_flatMap.mp hp
  exact CTransaction.createdCoins_absent (hnew tx htx) _ (List.mem_map_of_mem hp)

/-- Once the block's coins are written, every coin shown has a height and a
spendable script, if every coin shown before had. -/
theorem CBlock.updates_createdCoins_good {block : CBlock} {m : COutPoint → Option Coin}
    (hh : 1 ≤ nHeight ∧ nHeight < 2 ^ 31)
    (hm : ∀ o c, m o = some c → c.GetHeight ≠ 0 ∧ Script.IsUnspendable c.out.scriptPubKey = false) :
    ∀ o c, updates m (block.createdCoins nHeight) o = some c →
      c.GetHeight ≠ 0 ∧ Script.IsUnspendable c.out.scriptPubKey = false := by
  intro o c hc
  rcases updates_apply_eq_or o m (block.createdCoins nHeight) with h | h
  · rw [h] at hc
    exact hm o c hc
  · rw [hc] at h
    obtain ⟨cb, hmake, hs⟩ := CBlock.createdCoins_coin h rfl
    refine ⟨?_, hs⟩
    have hlt : (UInt32.ofNat nHeight).toNat < 2 ^ 31 := by
      rw [UInt32.toNat_ofNat']
      omega
    rw [hmake, Coin.GetHeight_make hlt]
    intro h0
    have h0' := congrArg UInt32.toNat h0
    rw [UInt32.toNat_ofNat', UInt32.toNat_zero] at h0'
    omega

end CreatedCoins

/-! ## The first pass -/

section Connect

variable {v v' : CoinsView} {m : COutPoint → Option Coin} {hb : BlockHash} {rest : List PlainView}
  {nHeight : Nat}

/-- `AddCoins` without the overwrite check writes the coins the transaction
creates. `m₀` is what the view showed before the pass; wherever the view
shows something else now, its own cache holds an unspent coin, and that stays
so. A transaction that is not a coinbase writes only where `m₀` shows nothing,
hence where the view shows nothing at the time: after an earlier write there,
`AddCoin` would have thrown. -/
theorem AddCoins_spec {tx : CTransaction} {m₀ : COutPoint → Option Coin} (hv : v.Shows ⟨m, hb⟩ rest)
    (hcached : ∀ k, m k ≠ m₀ k → v.CachesUnspent k)
    (hnew : tx.IsCoinBase = false → ∀ k ∈ (tx.createdCoins nHeight).map Prod.fst, m₀ k = none)
    (h : AddCoins v tx nHeight false = .ok v') :
    v'.Shows ⟨updates m (tx.createdCoins nHeight), hb⟩ rest ∧
      ∀ k, updates m (tx.createdCoins nHeight) k ≠ m₀ k → v'.CachesUnspent k := by
  unfold AddCoins at h
  unfold CTransaction.createdCoins at hnew ⊢
  generalize tx.vout.zipIdx = outs at h hnew ⊢
  -- the loop over the outputs, from any view and map
  induction outs generalizing v m with
  | nil =>
    simp only [List.foldlM_nil, Except.pure_eq_ok] at h
    subst h
    exact ⟨hv, hcached⟩
  | cons p outs ih =>
    obtain ⟨out, i⟩ := p
    rw [List.foldlM_cons, Except.bind_eq_ok] at h
    obtain ⟨v₁, h₁, h⟩ := h
    simp only [Bool.false_eq_true, ↓reduceIte] at h₁
    have hc₁ := CoinsView.AddCoin_cachesUnspent h₁
    unfold outputCoins at hnew ⊢
    by_cases hs : Script.IsUnspendable out.scriptPubKey = true
    · -- an unspendable output is not added
      rw [if_pos hs] at hnew ⊢
      have hv₁ := hv.AddCoin_of_ok (fun hs' => by rw [Coin.make_out, hs] at hs'; cases hs') h₁
      simp only [Coin.make_out, hs, ↓reduceIte] at hv₁
      exact ih hv₁ (fun k hk => hc₁.1 k (hcached k hk)) h hnew
    · rw [if_neg hs] at hnew ⊢
      have hsp : Script.IsUnspendable out.scriptPubKey = false := Bool.eq_false_iff.mpr hs
      -- without an overwrite the view shows nothing there: `m₀` shows nothing,
      -- and a change since would have left an unspent coin in the cache
      have hk : tx.IsCoinBase = false → m ⟨tx.GetId, UInt32.ofNat i⟩ = none := by
        intro hcb
        by_contra hne
        have hm₀ := hnew hcb _ List.mem_cons_self
        have h₁' := h₁
        rw [hcb] at h₁'
        exact CoinsView.AddCoin_ne_ok_of_cachesUnspent
          (hcached _ fun heq => hne (heq.trans hm₀)) (by rwa [Coin.make_out]) h₁'
      have hv₁ := hv.AddCoin_of_ok (fun _ hcb => hk hcb) h₁
      simp only [Coin.make_out, hs, Bool.false_eq_true, ↓reduceIte] at hv₁
      refine ih hv₁ (fun k hk' => ?_) h fun hcb k hkmem => hnew hcb k (List.mem_cons_of_mem _ hkmem)
      -- the written outpoint is cached now, the others as before
      change update m _ _ k ≠ m₀ k at hk'
      by_cases hko : k = ⟨tx.GetId, UInt32.ofNat i⟩
      · exact hko ▸ hc₁.2 (by rwa [Coin.make_out])
      · rw [update_of_ne hko] at hk'
        exact hc₁.1 k (hcached k hk')

/-- The first pass of `ConnectBlockCoins` over the transactions `txs`, with
`m₀` what the view showed before it. -/
theorem AddCoinsAll_spec {m₀ : COutPoint → Option Coin} :
    ∀ {txs : List CTransaction} {v v' : CoinsView} {m : COutPoint → Option Coin},
    v.Shows ⟨m, hb⟩ rest → (∀ k, m k ≠ m₀ k → v.CachesUnspent k) →
    (∀ tx ∈ txs, tx.IsCoinBase = false → ∀ k ∈ (tx.createdCoins nHeight).map Prod.fst, m₀ k = none) →
    txs.foldlM (fun view tx => AddCoins view tx nHeight false) v = .ok v' →
    v'.Shows ⟨updates m (txs.flatMap fun tx => tx.createdCoins nHeight), hb⟩ rest ∧
      ∀ k, updates m (txs.flatMap fun tx => tx.createdCoins nHeight) k ≠ m₀ k → v'.CachesUnspent k
  | [], v, v', m, hv, hcached, _, h => by
    simp only [List.foldlM_nil, Except.pure_eq_ok] at h
    subst h
    exact ⟨hv, hcached⟩
  | tx :: txs, v, v', m, hv, hcached, hnew, h => by
    rw [List.foldlM_cons, Except.bind_eq_ok] at h
    obtain ⟨v₁, h₁, h⟩ := h
    obtain ⟨hv₁, hcached₁⟩ := AddCoins_spec hv hcached (hnew tx List.mem_cons_self) h₁
    rw [List.flatMap_cons, updates_append]
    exact AddCoinsAll_spec hv₁ hcached₁ (fun t ht => hnew t (List.mem_cons_of_mem _ ht)) h

/-- The first pass from a view that shows nothing where the transactions
other than coinbases create coins. -/
theorem AddCoinsAll_shows {txs : List CTransaction}
    (hv : v.Shows ⟨m, hb⟩ rest)
    (hnew : ∀ tx ∈ txs, tx.IsCoinBase = false → ∀ k ∈ (tx.createdCoins nHeight).map Prod.fst, m k = none)
    (h : txs.foldlM (fun view tx => AddCoins view tx nHeight false) v = .ok v') :
    v'.Shows ⟨updates m (txs.flatMap fun tx => tx.createdCoins nHeight), hb⟩ rest :=
  (AddCoinsAll_spec hv (fun _ hk => absurd rfl hk) hnew h).1

end Connect

/-! ## The second pass -/

/-- The outpoints the inputs of `txs` spend, in order. -/
def spentOutpoints (txs : List CTransaction) : List COutPoint :=
  txs.flatMap fun tx => tx.vin.map CTxIn.prevout

@[simp] theorem spentOutpoints_nil : spentOutpoints [] = [] := rfl

@[simp] theorem spentOutpoints_cons (tx : CTransaction) (txs : List CTransaction) :
    spentOutpoints (tx :: txs) = tx.vin.map CTxIn.prevout ++ spentOutpoints txs :=
  List.flatMap_cons

/-- What spending the outpoints `ks` one after the other moves out of a view
that shows `m`: the coin each finds there, `coinEmpty` for none. -/
def spentCoins (m : COutPoint → Option Coin) : List COutPoint → List Coin
  | [] => []
  | k :: ks => (m k).getD coinEmpty :: spentCoins (update m k none) ks

section SpentCoins

variable {m : COutPoint → Option Coin}

@[simp] theorem spentCoins_length : ∀ {m : COutPoint → Option Coin} (ks : List COutPoint),
    (spentCoins m ks).length = ks.length
  | _, [] => rfl
  | _, _ :: ks => by simp [spentCoins, spentCoins_length ks]

theorem spentCoins_append : ∀ {m : COutPoint → Option Coin} (ks₁ ks₂ : List COutPoint),
    spentCoins m (ks₁ ++ ks₂) =
      spentCoins m ks₁ ++ spentCoins (updates m (ks₁.map fun k => (k, none))) ks₂
  | _, [], _ => rfl
  | _, k :: ks₁, ks₂ => by
    simp only [List.cons_append, spentCoins, List.map_cons, updates_cons, spentCoins_append ks₁ ks₂]

/-- Where nothing spending moved out is spent, each outpoint was spent once and
found a coin, and what it moved out is what the view first showed there. -/
theorem spentCoins_of_unspent : ∀ {m : COutPoint → Option Coin} {ks : List COutPoint},
    (∀ u ∈ spentCoins m ks, u.IsSpent = false) →
    ks.Nodup ∧ (∀ k ∈ ks, (m k).isSome) ∧ spentCoins m ks = ks.map fun k => (m k).getD coinEmpty
  | _, [], _ => ⟨List.nodup_nil, fun _ hk => absurd hk List.not_mem_nil, rfl⟩
  | m, k :: ks, h => by
    have hhead : ((m k).getD coinEmpty).IsSpent = false := h _ List.mem_cons_self
    have hsome : (m k).isSome := by
      cases hmk : m k with
      | none => rw [hmk] at hhead; cases hhead
      | some u => rfl
    obtain ⟨hnd, hall, heq⟩ := spentCoins_of_unspent fun u hu => h u (List.mem_cons_of_mem _ hu)
    -- a later outpoint shows a coin after `k` was spent, so it is not `k`
    have hne : ∀ k' ∈ ks, k' ≠ k := by
      intro k' hk' he
      have := hall k' hk'
      rw [he, update_self] at this
      cases this
    refine ⟨List.nodup_cons.mpr ⟨fun hk => hne k hk rfl, hnd⟩, fun k' hk' => ?_, ?_⟩
    · rcases List.mem_cons.mp hk' with rfl | hk'
      · exact hsome
      · have := hall k' hk'
        rwa [update_of_ne (hne k' hk')] at this
    · rw [spentCoins, heq, List.map_cons]
      congr 1
      exact List.map_congr_left fun k' hk' => by rw [update_of_ne (hne k' hk')]

end SpentCoins

section Spend

variable {v v' : CoinsView} {m : COutPoint → Option Coin} {hb : BlockHash} {rest : List PlainView}

/-- `SpendCoins` on a transaction that is not a coinbase spends its inputs'
outpoints and appends what each moved out. -/
theorem SpendCoins_spec {tx : CTransaction} {undo undo' : CTxUndo} (hv : v.Shows ⟨m, hb⟩ rest)
    (hcb : tx.IsCoinBase = false) (h : SpendCoins v tx undo = .ok (v', undo')) :
    undo'.vprevout = undo.vprevout ++ spentCoins m (tx.vin.map CTxIn.prevout) ∧
      v'.Shows ⟨updates m ((tx.vin.map CTxIn.prevout).map fun k => (k, none)), hb⟩ rest := by
  unfold SpendCoins at h
  simp only [hcb, Bool.false_eq_true, ↓reduceIte] at h
  generalize tx.vin = vin at h ⊢
  -- the loop over the inputs, from any view, map and record
  induction vin generalizing v m undo with
  | nil =>
    simp only [List.foldlM_nil, Except.pure_eq_ok, Prod.mk.injEq] at h
    obtain ⟨rfl, rfl⟩ := h
    exact ⟨by simp [spentCoins], hv⟩
  | cons txin vin ih =>
    rw [List.foldlM_cons, Except.bind_eq_ok] at h
    obtain ⟨⟨v₁, undo₁⟩, h₁, h⟩ := h
    obtain ⟨hv₁, hmoved, -⟩ := hv.SpendCoin (o := txin.prevout)
    -- the assert passed, and the record grew by what was moved out
    have hundo₁ : undo₁ = ⟨undo.vprevout ++ [(m txin.prevout).getD coinEmpty]⟩ := by
      simp only [Except.bind_eq_ok] at h₁
      obtain ⟨_, -, h₁⟩ := h₁
      simp only [Except.pure_eq_ok, Prod.mk.injEq] at h₁
      rw [← h₁.2, hmoved]
    have hv₁' : v₁ = (v.SpendCoin txin.prevout).1 := by
      simp only [Except.bind_eq_ok] at h₁
      obtain ⟨_, -, h₁⟩ := h₁
      simp only [Except.pure_eq_ok, Prod.mk.injEq] at h₁
      exact h₁.1.symm
    subst hundo₁ hv₁'
    obtain ⟨hrec, hv'⟩ := ih hv₁ h
    refine ⟨?_, hv'⟩
    rw [hrec, List.map_cons, spentCoins, List.append_assoc]
    rfl

/-- The second loop of `ConnectBlockCoins` over transactions that are not
coinbases, from the slot `done.length` of a record whose later slots are
empty: each transaction fills its own slot. -/
theorem spendAll_spec : ∀ {txs : List CTransaction} {v v' : CoinsView} {m : COutPoint → Option Coin}
    (done : List CTxUndo) {bu : CBlockUndo} {idx : Nat},
    v.Shows ⟨m, hb⟩ rest → (∀ tx ∈ txs, tx.IsCoinBase = false) →
    txs.foldlM spendTx (v, ⟨done ++ List.replicate txs.length ⟨[]⟩⟩, done.length) = .ok (v', bu, idx) →
    ∃ us, bu.vtxundo = done ++ us ∧
      List.Forall₂ (fun tx u => u.vprevout.length = tx.vin.length) txs us ∧
      us.flatMap CTxUndo.vprevout = spentCoins m (spentOutpoints txs) ∧
      v'.Shows ⟨updates m ((spentOutpoints txs).map fun k => (k, none)), hb⟩ rest
  | [], v, v', m, done, bu, idx, hv, _, h => by
    simp only [List.foldlM_nil, Except.pure_eq_ok, Prod.mk.injEq, List.length_nil,
      List.replicate_zero, List.append_nil] at h
    obtain ⟨rfl, rfl, -⟩ := h
    exact ⟨[], by simp, List.Forall₂.nil, rfl, hv⟩
  | tx :: txs, v, v', m, done, bu, idx, hv, hcb, h => by
    rw [List.foldlM_cons, Except.bind_eq_ok] at h
    obtain ⟨⟨v₁, bu₁, idx₁⟩, h₁, h⟩ := h
    have htx : tx.IsCoinBase = false := hcb tx List.mem_cons_self
    -- the slot of `tx` is the first empty one
    have hslot : (done ++ List.replicate (txs.length + 1) (⟨[]⟩ : CTxUndo))[done.length]? = some ⟨[]⟩ := by
      rw [List.getElem?_append_right (Nat.le_refl _), Nat.sub_self, List.replicate_succ]
      rfl
    simp only [spendTx, htx, Bool.false_eq_true, ↓reduceIte, List.length_cons, hslot,
      Except.bind_eq_ok] at h₁
    obtain ⟨⟨v₂, undo⟩, hspend, h₁⟩ := h₁
    simp only [Except.pure_eq_ok, Prod.mk.injEq] at h₁
    obtain ⟨rfl, rfl, rfl⟩ := h₁
    obtain ⟨hundo, hv₁⟩ := SpendCoins_spec hv htx hspend
    have hset : (done ++ List.replicate (txs.length + 1) (⟨[]⟩ : CTxUndo)).set done.length undo =
        (done ++ [undo]) ++ List.replicate txs.length ⟨[]⟩ := by
      rw [List.set_append_right _ _ (Nat.le_refl _), Nat.sub_self, List.replicate_succ,
        List.set_cons_zero, List.append_assoc, List.singleton_append]
    rw [hset] at h
    have hlen : done.length + 1 = (done ++ [undo]).length := by simp
    rw [hlen] at h
    obtain ⟨us, hbu, hfor, hus, hv'⟩ :=
      spendAll_spec (done ++ [undo]) hv₁ (fun tx' htx' => hcb tx' (List.mem_cons_of_mem _ htx')) h
    have hrec : undo.vprevout = spentCoins m (tx.vin.map CTxIn.prevout) := by
      simpa using hundo
    refine ⟨undo :: us, by rw [hbu, List.append_assoc, List.singleton_append], ?_, ?_, ?_⟩
    · refine List.Forall₂.cons ?_ hfor
      rw [hrec, spentCoins_length, List.length_map]
    · rw [List.flatMap_cons, hus, hrec, spentOutpoints_cons, spentCoins_append]
    · rw [spentOutpoints_cons, List.map_append, updates_append]
      exact hv'

end Spend

/-! ## Both passes -/

/-- `ConnectBlockCoins` on a block whose first transaction is its only
coinbase, from a view that shows none of the coins the block creates: the
view ends showing the created coins with the spent outpoints set to none, and
the undo data holds, transaction by transaction, what each spend moved out. -/
theorem ConnectBlockCoins_spec {v v' : CoinsView} {m : COutPoint → Option Coin} {hb : BlockHash}
    {rest : List PlainView} {block : CBlock} {nHeight : Nat} {bu : CBlockUndo}
    {cb : CTransaction} {txs : List CTransaction}
    (hv : v.Shows ⟨m, hb⟩ rest) (hvtx : block.vtx = cb :: txs) (hcb : cb.IsCoinBase = true)
    (htxs : ∀ tx ∈ txs, tx.IsCoinBase = false)
    (hnew : ∀ k ∈ (block.createdCoins nHeight).map Prod.fst, m k = none)
    (h : ConnectBlockCoins v block nHeight = .ok (v', bu)) :
    List.Forall₂ (fun tx u => u.vprevout.length = tx.vin.length) txs bu.vtxundo ∧
      bu.vtxundo.flatMap CTxUndo.vprevout =
        spentCoins (updates m (block.createdCoins nHeight)) (spentOutpoints txs) ∧
      v'.Shows ⟨updates (updates m (block.createdCoins nHeight))
        ((spentOutpoints txs).map fun k => (k, none)), hb⟩ rest := by
  unfold ConnectBlockCoins at h
  simp only [hvtx, List.isEmpty_cons, Bool.false_eq_true, ↓reduceIte, Except.bind_eq_ok,
    List.length_cons, Nat.add_sub_cancel] at h
  obtain ⟨v₁, hadd, ⟨v₂, bu₂, idx⟩, hspend, h⟩ := h
  simp only [Except.pure_eq_ok, Prod.mk.injEq] at h
  obtain ⟨rfl, rfl⟩ := h
  rw [CBlock.createdCoins, hvtx] at hnew ⊢
  have hv₁ := AddCoinsAll_shows hv (fun tx htx _ k hk => hnew k (mem_flatMap_createdCoins htx hk)) hadd
  -- the coinbase spends nothing
  rw [List.foldlM_cons] at hspend
  simp only [spendTx, hcb, ↓reduceIte, pure_bind] at hspend
  obtain ⟨us, hbu, hfor, hus, hv'⟩ := spendAll_spec [] hv₁ htxs (by simpa using hspend)
  rw [List.nil_append] at hbu
  rw [hbu]
  exact ⟨hfor, hus, hv'⟩

end BitcoinAbc
