import Mathlib
import BitcoinAbc.Validation.Connect

/-!
# Disconnecting a block undoes connecting it

`ApplyBlockUndo` makes two passes over the view, and each is again a change of
the map the view shows (`CoinsView.Shows`):

- the first puts back, input by input, the coin each spend moved out
  (`restoreInputs_spec`); a record is put back as it is, and cleanly, where the
  view shows nothing and the record is an unspent coin with a height and a
  spendable script (`Coin.Restorable`);
- the second spends the coins the block created and checks them against the
  block (`revertAll_spec`); it stays clean where the view shows exactly those
  coins.

`ApplyBlockUndo_undoes_connect` runs `ConnectBlockCoins` and then
`ApplyBlockUndo` on its undo data: the disconnect is clean and the view shows
what it showed before the connect, with the previous block as its best block.
Beside a connect that succeeds, with distinct transaction ids, outpoints the
view does not show and inputs found unspent, it needs a block whose first
transaction is its only coinbase, heights below `2^31` (a coin packs its
height into 31 bits), fewer than `2^32` outputs per transaction, and a view
whose coins all have a height and a spendable script, as every coin `AddCoin`
writes has: a record at height 0 is of the old format, and `UndoCoinSpend`
then looks for another output of its transaction
(`ApplyBlockUndo_heightZero_fails`).
-/

namespace BitcoinAbc

open Function CoinsView

/-- What `UndoCoinSpend` needs of an undo record to put it back as it is: an
unspent coin with a height, whose script `AddCoin` does not drop. -/
def Coin.Restorable (u : Coin) : Prop :=
  u.IsSpent = false ∧ u.GetHeight ≠ 0 ∧ Script.IsUnspendable u.out.scriptPubKey = false

/-- The records the first pass of `ApplyBlockUndo` puts back, with the inputs
they belong to, in order. -/
def restorePairs (l : List (CTransaction × CTxUndo)) : List (CTxIn × Coin) :=
  l.flatMap fun p => p.1.vin.zip p.2.vprevout

@[simp] theorem restorePairs_cons (p : CTransaction × CTxUndo) (l : List (CTransaction × CTxUndo)) :
    restorePairs (p :: l) = p.1.vin.zip p.2.vprevout ++ restorePairs l :=
  List.flatMap_cons

section Restore

variable {v : CoinsView} {m : COutPoint → Option Coin} {hb : BlockHash} {rest : List PlainView}

/-- `UndoCoinSpend` of a restorable record where the view shows nothing: a
clean restore of the record as it is. -/
theorem UndoCoinSpend_spec {undo : Coin} {out : COutPoint} (hv : v.Shows ⟨m, hb⟩ rest)
    (hnone : m out = none) (hu : undo.Restorable) :
    ∃ v', UndoCoinSpend undo v out = .ok (v', .OK) ∧
      v'.Shows ⟨update m out (some undo), hb⟩ rest := by
  obtain ⟨hunspent, hheight, hspendable⟩ := hu
  obtain ⟨hv₁, hhave⟩ := hv.HaveCoin (o := out)
  simp only [hnone, Option.isSome_none] at hhave
  obtain ⟨v', hadd, hv'⟩ := hv₁.AddCoin (o := out) hunspent (fun _ (_ : false = false) => hnone)
  refine ⟨v', ?_, by simpa [hspendable] using hv'⟩
  -- not an overwrite, and a record with a height: no lookup of another output
  have hnz : (undo.GetHeight == 0) = false := by simpa using hheight
  unfold UndoCoinSpend
  simp only [hhave, hnz, Bool.false_eq_true, ↓reduceIte, Bool.not_false, Bool.not_true, hadd,
    Except.ok_bind]
  rfl

/-- The inner loop of the first pass, over records at distinct outpoints where
the view shows nothing: each is put back, cleanly. -/
theorem restoreTxInputs_spec : ∀ {l : List (CTxIn × Coin)} {v : CoinsView}
    {m : COutPoint → Option Coin} (fClean : Bool), v.Shows ⟨m, hb⟩ rest →
    (l.map fun q => q.1.prevout).Nodup → (∀ q ∈ l, m q.1.prevout = none) →
    (∀ q ∈ l, q.2.Restorable) →
    ∃ v', restoreTxInputs v fClean l = .ok (v', some fClean) ∧
      v'.Shows ⟨updates m (l.map fun q => (q.1.prevout, some q.2)), hb⟩ rest
  | [], v, _, _, hv, _, _, _ => ⟨v, rfl, hv⟩
  | (txin, undo) :: l, v, m, fClean, hv, hnd, hnone, hgood => by
    rw [List.map_cons, List.nodup_cons] at hnd
    obtain ⟨v₁, hundo, hv₁⟩ :=
      UndoCoinSpend_spec hv (hnone _ List.mem_cons_self) (hgood _ List.mem_cons_self)
    -- the later records are at other outpoints, which still show nothing
    have hnone' : ∀ q ∈ l, update m txin.prevout (some undo) q.1.prevout = none := by
      intro q hq
      have hne : q.1.prevout ≠ txin.prevout := fun he => hnd.1 (he ▸ List.mem_map_of_mem hq)
      rw [update_of_ne hne]
      exact hnone q (List.mem_cons_of_mem _ hq)
    obtain ⟨v', hrest, hv'⟩ := restoreTxInputs_spec fClean hv₁ hnd.2 hnone'
      (fun q hq => hgood q (List.mem_cons_of_mem _ hq))
    refine ⟨v', ?_, hv'⟩
    have hok : (DisconnectResult.OK == DisconnectResult.FAILED) = false := rfl
    have hclean : (DisconnectResult.OK != DisconnectResult.UNCLEAN) = true := rfl
    simp only [restoreTxInputs, hundo, Except.ok_bind, hok, hclean, Bool.false_eq_true, ↓reduceIte,
      Bool.and_true]
    exact hrest

/-- The first pass of `ApplyBlockUndo` over transactions with undo data of the
right size, whose records are at distinct outpoints where the view shows
nothing: every record is put back, cleanly. -/
theorem restoreInputs_spec : ∀ {l : List (CTransaction × CTxUndo)} {v : CoinsView}
    {m : COutPoint → Option Coin} (fClean : Bool), v.Shows ⟨m, hb⟩ rest →
    (∀ p ∈ l, p.2.vprevout.length = p.1.vin.length) →
    ((restorePairs l).map fun q => q.1.prevout).Nodup →
    (∀ q ∈ restorePairs l, m q.1.prevout = none) → (∀ q ∈ restorePairs l, q.2.Restorable) →
    ∃ v', restoreInputs v fClean l = .ok (v', some fClean) ∧
      v'.Shows ⟨updates m ((restorePairs l).map fun q => (q.1.prevout, some q.2)), hb⟩ rest
  | [], v, _, _, hv, _, _, _, _ => ⟨v, rfl, hv⟩
  | (tx, txundo) :: l, v, m, fClean, hv, hlen, hnd, hnone, hgood => by
    simp only [restorePairs_cons, List.map_append, List.nodup_append, List.mem_append] at hnd hnone hgood
    obtain ⟨v₁, htx, hv₁⟩ := restoreTxInputs_spec fClean hv hnd.1 (fun q hq => hnone q (.inl hq))
      (fun q hq => hgood q (.inl hq))
    -- the records of later transactions are at outpoints this one did not touch
    have hnone' : ∀ q ∈ restorePairs l,
        updates m ((tx.vin.zip txundo.vprevout).map fun q => (q.1.prevout, some q.2)) q.1.prevout =
          none := by
      intro q hq
      have hnot : q.1.prevout ∉ ((tx.vin.zip txundo.vprevout).map fun q => (q.1.prevout, some q.2)).map
          Prod.fst := by
        rw [List.map_map]
        exact fun hmem => hnd.2.2 _ hmem _ (List.mem_map_of_mem hq) rfl
      rw [updates_apply_of_not_mem hnot]
      exact hnone q (.inr hq)
    obtain ⟨v', hrest, hv'⟩ := restoreInputs_spec fClean hv₁
      (fun p hp => hlen p (List.mem_cons_of_mem _ hp)) hnd.2.1 hnone' (fun q hq => hgood q (.inr hq))
    have hsize : (txundo.vprevout.length != tx.vin.length) = false := by
      simpa using hlen (tx, txundo) List.mem_cons_self
    refine ⟨v', ?_, ?_⟩
    · simp only [restoreInputs, hsize, Bool.false_eq_true, ↓reduceIte, htx, Except.ok_bind]
      exact hrest
    · rw [restorePairs_cons, List.map_append, updates_append]
      exact hv'

end Restore

section Revert

variable {v : CoinsView} {m : COutPoint → Option Coin} {hb : BlockHash} {rest : List PlainView}
  {nHeight : Nat}

/-- The second pass on one transaction, where the view shows exactly the coins
it created: they are spent, and nothing is found wrong. -/
theorem revertTxOutputs_spec {tx : CTransaction} (fClean : Bool) (hh : nHeight < 2 ^ 31)
    (hv : v.Shows ⟨m, hb⟩ rest) (hnd : ((tx.createdCoins nHeight).map Prod.fst).Nodup)
    (hshow : ∀ p ∈ tx.createdCoins nHeight, m p.1 = p.2) :
    ∃ v', revertTxOutputs nHeight (v, fClean) tx = (v', fClean) ∧
      v'.Shows ⟨updates m ((tx.createdCoins nHeight).map fun p => (p.1, none)), hb⟩ rest := by
  have hh' : (UInt32.ofNat nHeight).toNat < 2 ^ 31 := by
    rw [UInt32.toNat_ofNat']
    omega
  unfold revertTxOutputs
  unfold CTransaction.createdCoins at hnd hshow ⊢
  generalize tx.vout.zipIdx = outs at hnd hshow ⊢
  -- the loop over the outputs, from any view and map
  induction outs generalizing v m with
  | nil => exact ⟨v, rfl, hv⟩
  | cons p outs ih =>
    obtain ⟨out, o⟩ := p
    rw [List.foldl_cons]
    unfold outputCoins at hnd hshow ⊢
    by_cases hs : Script.IsUnspendable out.scriptPubKey = true
    · rw [if_pos hs] at hnd hshow ⊢
      simp only [revertOutput, hs, ↓reduceIte]
      exact ih hv hnd hshow
    · rw [if_neg hs] at hnd hshow ⊢
      rw [List.map_cons, List.nodup_cons] at hnd
      -- the output's coin is there, as the block created it
      have hcoin := hshow _ List.mem_cons_self
      obtain ⟨hv₁, -, hfound⟩ := hv.SpendCoin (o := ⟨tx.GetId, UInt32.ofNat o⟩)
      have hmoved := hfound _ hcoin
      have hshow' : ∀ q ∈ outputCoins tx.GetId tx.IsCoinBase nHeight outs,
          update m ⟨tx.GetId, UInt32.ofNat o⟩ none q.1 = q.2 := by
        intro q hq
        have hne : q.1 ≠ ⟨tx.GetId, UInt32.ofNat o⟩ := by
          intro he
          have hmem : q.1 ∈ (outputCoins tx.GetId tx.IsCoinBase nHeight outs).map Prod.fst :=
            List.mem_map_of_mem hq
          rw [he] at hmem
          exact hnd.1 hmem
        rw [update_of_ne hne]
        exact hshow q (List.mem_cons_of_mem _ hq)
      obtain ⟨v', hrest, hv'⟩ := ih hv₁ hnd.2 hshow'
      refine ⟨v', ?_, hv'⟩
      have hstep : revertOutput nHeight tx (v, fClean) (out, o) =
          ((v.SpendCoin ⟨tx.GetId, UInt32.ofNat o⟩).1, fClean) := by
        simp only [revertOutput, hs, Bool.false_eq_true, ↓reduceIte, hmoved, Option.isNone_some,
          Option.getD_some, Coin.make_out, Coin.GetHeight_make hh', Coin.IsCoinBase_make hh',
          bne_self_eq_false, Bool.or_self, Bool.not_false, Bool.and_true]
      rw [hstep]
      exact hrest

/-- The second pass of `ApplyBlockUndo` over transactions whose created coins
are at distinct outpoints and shown by the view. -/
theorem revertAll_spec (fClean : Bool) (hh : nHeight < 2 ^ 31) :
    ∀ {txs : List CTransaction} {v : CoinsView} {m : COutPoint → Option Coin},
    v.Shows ⟨m, hb⟩ rest →
    ((txs.flatMap fun tx => tx.createdCoins nHeight).map Prod.fst).Nodup →
    (∀ p ∈ txs.flatMap (fun tx => tx.createdCoins nHeight), m p.1 = p.2) →
    ∃ v', txs.foldl (revertTxOutputs nHeight) (v, fClean) = (v', fClean) ∧
      v'.Shows ⟨updates m ((txs.flatMap fun tx => tx.createdCoins nHeight).map fun p => (p.1, none)),
        hb⟩ rest
  | [], v, _, hv, _, _ => ⟨v, rfl, hv⟩
  | tx :: txs, v, m, hv, hnd, hshow => by
    rw [List.flatMap_cons, List.map_append, List.nodup_append] at hnd
    rw [List.flatMap_cons] at hshow
    obtain ⟨v₁, htx, hv₁⟩ := revertTxOutputs_spec fClean hh hv hnd.1
      (fun p hp => hshow p (List.mem_append_left _ hp))
    -- the later transactions' coins are at outpoints this one did not spend
    have hshow' : ∀ p ∈ txs.flatMap (fun tx => tx.createdCoins nHeight),
        updates m ((tx.createdCoins nHeight).map fun p => (p.1, none)) p.1 = p.2 := by
      intro p hp
      have hnot : p.1 ∉ ((tx.createdCoins nHeight).map fun p => (p.1, (none : Option Coin))).map
          Prod.fst := by
        rw [List.map_map]
        exact fun hmem => hnd.2.2 _ hmem _ (List.mem_map_of_mem hp) rfl
      rw [updates_apply_of_not_mem hnot]
      exact hshow p (List.mem_append_right _ hp)
    obtain ⟨v', hrest, hv'⟩ := revertAll_spec fClean hh hv₁ hnd.2.1 hshow'
    refine ⟨v', ?_, ?_⟩
    · rw [List.foldl_cons, htx]
      exact hrest
    · rw [List.flatMap_cons, List.map_append, updates_append]
      exact hv'

end Revert

/-! ## Undo records of the old format -/

section Legacy

variable {v : CoinsView} {m : COutPoint → Option Coin} {hb : BlockHash} {rest : List PlainView}
  {txid : TxId}

/-- `AccessByTxid`'s loop over a view that shows no output of `txid` finds
nothing, and leaves the view showing the same. -/
theorem AccessByTxid_go_none (hnone : ∀ n : UInt32, m ⟨txid, n⟩ = none) :
    ∀ (k : Nat) {v : CoinsView} (n : Nat), v.Shows ⟨m, hb⟩ rest →
      (AccessByTxid.go txid v n k).2 = coinEmpty ∧ (AccessByTxid.go txid v n k).1.Shows ⟨m, hb⟩ rest
  | 0, v, _, hv => ⟨rfl, hv⟩
  | k + 1, v, n, hv => by
    obtain ⟨hv₁, haccess⟩ := hv.AccessCoin (o := ⟨txid, UInt32.ofNat n⟩)
    simp only [hnone, Option.getD_none] at haccess
    -- the output `n` is not there: the loop goes on to the next one
    have hpair : v.AccessCoin ⟨txid, UInt32.ofNat n⟩ = ((v.AccessCoin ⟨txid, UInt32.ofNat n⟩).1, coinEmpty) :=
      Prod.ext rfl haccess
    rw [AccessByTxid.go, hpair]
    simp only [coinEmpty_IsSpent, Bool.not_true, Bool.false_eq_true, ↓reduceIte]
    exact AccessByTxid_go_none hnone k (n + 1) hv₁

/-- An undo record of the old format, without a height, for a transaction of
which the view shows no output: `UndoCoinSpend` fails. -/
theorem UndoCoinSpend_legacy_fails {undo : Coin} {out : COutPoint} (hv : v.Shows ⟨m, hb⟩ rest)
    (hh : undo.GetHeight = 0) (hnone : ∀ n : UInt32, m ⟨out.txid, n⟩ = none) :
    ∃ v', UndoCoinSpend undo v out = .ok (v', .FAILED) := by
  obtain ⟨hv₁, -⟩ := hv.HaveCoin (o := out)
  have hempty := (AccessByTxid_go_none hnone MAX_OUTPUTS_PER_TX 0 hv₁).1
  refine ⟨(AccessByTxid (v.HaveCoin out).1 out.txid).1, ?_⟩
  unfold UndoCoinSpend
  simp only [hh, BEq.rfl, ↓reduceIte, AccessByTxid, hempty, coinEmpty_IsSpent]
  rfl

end Legacy

/-! ## The round trip -/

/-- The records the first pass puts back are the spent outpoints, in order,
with what their spends moved out. -/
theorem restorePairs_zip : ∀ {txs : List CTransaction} {us : List CTxUndo},
    List.Forall₂ (fun tx u => u.vprevout.length = tx.vin.length) txs us →
    (restorePairs (txs.zip us)).map (fun q => (q.1.prevout, q.2)) =
      (spentOutpoints txs).zip (us.flatMap CTxUndo.vprevout)
  | [], [], .nil => rfl
  | tx :: txs, u :: us, .cons hlen hrest => by
    have hlen' : (tx.vin.map CTxIn.prevout).length = u.vprevout.length := by
      rw [List.length_map, hlen]
    rw [List.zip_cons_cons, restorePairs_cons, List.map_append, restorePairs_zip hrest,
      spentOutpoints_cons, List.flatMap_cons, List.zip_append hlen', List.zip_map_left]
    rfl

/-- `ApplyBlockUndo` on a block whose first transaction is its only coinbase,
with undo data of the right sizes, whose records are restorable at distinct
outpoints where the view shows nothing, and after which the view shows the
coins the block created: a clean disconnect, which puts the records back,
spends the created coins and moves the best block to the previous block. -/
theorem ApplyBlockUndo_spec {v : CoinsView} {m : COutPoint → Option Coin} {hb : BlockHash}
    {rest : List PlainView} {block : CBlock} {nHeight : Nat} {bu : CBlockUndo}
    {cb : CTransaction} {txs : List CTransaction}
    (hv : v.Shows ⟨m, hb⟩ rest) (hvtx : block.vtx = cb :: txs) (hh : nHeight < 2 ^ 31)
    (hfor : List.Forall₂ (fun tx u => u.vprevout.length = tx.vin.length) txs bu.vtxundo)
    (hnd : ((restorePairs (txs.zip bu.vtxundo)).map fun q => q.1.prevout).Nodup)
    (hnone : ∀ q ∈ restorePairs (txs.zip bu.vtxundo), m q.1.prevout = none)
    (hgood : ∀ q ∈ restorePairs (txs.zip bu.vtxundo), q.2.Restorable)
    (hndC : ((block.createdCoins nHeight).map Prod.fst).Nodup)
    (hshow : ∀ p ∈ block.createdCoins nHeight,
      updates m ((restorePairs (txs.zip bu.vtxundo)).map fun q => (q.1.prevout, some q.2)) p.1 = p.2) :
    ∃ v', ApplyBlockUndo bu block nHeight v = .ok (v', .OK) ∧
      v'.Shows ⟨updates (updates m ((restorePairs (txs.zip bu.vtxundo)).map
        fun q => (q.1.prevout, some q.2))) ((block.createdCoins nHeight).map fun p => (p.1, none)),
        block.hashPrevBlock⟩ rest := by
  have hsize : (bu.vtxundo.length + 1 != block.vtx.length) = false := by
    rw [hvtx, ← hfor.length_eq]
    simp
  have hlen : ∀ p ∈ txs.zip bu.vtxundo, p.2.vprevout.length = p.1.vin.length :=
    fun p hp => (List.forall₂_iff_zip.mp hfor).2 hp
  have hdrop : block.vtx.drop 1 = txs := by
    rw [hvtx]
    rfl
  obtain ⟨v₁, hrestore, hv₁⟩ := restoreInputs_spec true hv hlen hnd hnone hgood
  obtain ⟨v₂, hrevert, hv₂⟩ := revertAll_spec true hh hv₁ hndC hshow
  refine ⟨_, ?_, hv₂.SetBestBlock block.hashPrevBlock⟩
  simp only [ApplyBlockUndo, hsize, Bool.false_eq_true, ↓reduceIte, hdrop, hrestore, Except.ok_bind]
  rw [hrevert]
  rfl

/-- Connecting a block and then disconnecting it with the undo data the connect
recorded: when every spend found an unspent coin, the disconnect is clean, the
view shows the coins it showed before with the previous block as its best
block, and every layer below it is as it was. -/
theorem ApplyBlockUndo_undoes_connect {v v₁ : CoinsView} {block : CBlock} {nHeight : Nat}
    {bu : CBlockUndo} {cb : CTransaction} {txs : List CTransaction}
    (hv : v.Valid) (hheight : 1 ≤ nHeight ∧ nHeight < 2 ^ 31)
    (hvtx : block.vtx = cb :: txs) (hcb : cb.IsCoinBase = true)
    (htxs : ∀ tx ∈ txs, tx.IsCoinBase = false)
    (hids : (block.vtx.map CTransaction.GetId).Nodup)
    (hout : ∀ tx ∈ block.vtx, tx.vout.length ≤ 2 ^ 32)
    (hnew : ∀ tx ∈ block.vtx, ∀ i < tx.vout.length, v.coins ⟨tx.GetId, UInt32.ofNat i⟩ = none)
    (hcoins : ∀ o c, v.coins o = some c →
      c.GetHeight ≠ 0 ∧ Script.IsUnspendable c.out.scriptPubKey = false)
    (hconn : ConnectBlockCoins v block nHeight = .ok (v₁, bu))
    (hfound : ∀ txu ∈ bu.vtxundo, ∀ u ∈ txu.vprevout, u.IsSpent = false) :
    ∃ v₂, ApplyBlockUndo bu block nHeight v₁ = .ok (v₂, .OK) ∧ v₂.Valid ∧
      v₂.layers = ⟨v.coins, block.hashPrevBlock⟩ :: CoinsStack.plain v.db v.below := by
  -- the view shows `m₁` once the outputs are added, and then the spent outpoints `ks` as none
  have hndC : ((block.createdCoins nHeight).map Prod.fst).Nodup := CBlock.createdCoins_nodup hids hout
  have hnone : ∀ k ∈ (block.createdCoins nHeight).map Prod.fst, v.coins k = none :=
    CBlock.createdCoins_absent hnew
  obtain ⟨hfor, hundo, hv₁⟩ := ConnectBlockCoins_spec (Shows.of_valid hv) hvtx hcb htxs hnone hconn
  set m₁ := updates v.coins (block.createdCoins nHeight) with hm₁
  set ks := spentOutpoints txs with hks
  -- every spend found a coin of its own, which its record holds
  have hunspent : ∀ u ∈ spentCoins m₁ ks, u.IsSpent = false := by
    rw [← hundo]
    intro u hu
    obtain ⟨txu, htxu, hu⟩ := List.mem_flatMap.mp hu
    exact hfound txu htxu u hu
  obtain ⟨hksnd, hsome, hspent⟩ := spentCoins_of_unspent hunspent
  have hshown : ∀ k ∈ ks, m₁ k = some ((m₁ k).getD coinEmpty) := by
    intro k hk
    obtain ⟨c, hc⟩ := Option.isSome_iff_exists.mp (hsome k hk)
    rw [hc]
    rfl
  have hpairs : (restorePairs (txs.zip bu.vtxundo)).map (fun q => (q.1.prevout, q.2)) =
      ks.map fun k => (k, (m₁ k).getD coinEmpty) := by
    have hzip := List.zip_map' (f := id) (g := fun k => (m₁ k).getD coinEmpty) (l := ks)
    rw [List.map_id] at hzip
    rw [restorePairs_zip hfor, hundo, hspent, hzip]
    rfl
  -- the first pass puts back at `ks` what `m₁` showed there
  have hmem : ∀ q ∈ restorePairs (txs.zip bu.vtxundo),
      q.1.prevout ∈ ks ∧ q.2 = (m₁ q.1.prevout).getD coinEmpty := by
    intro q hq
    have hq' : (q.1.prevout, q.2) ∈ ks.map fun k => (k, (m₁ k).getD coinEmpty) := by
      rw [← hpairs]
      exact List.mem_map_of_mem hq
    obtain ⟨k, hk, hkq⟩ := List.mem_map.mp hq'
    rw [Prod.mk.injEq] at hkq
    rw [← hkq.1, ← hkq.2]
    exact ⟨hk, rfl⟩
  have hkeys : (restorePairs (txs.zip bu.vtxundo)).map (fun q => q.1.prevout) = ks := by
    have h := congrArg (List.map Prod.fst) hpairs
    rw [List.map_map, List.map_map] at h
    exact h.trans (List.map_id' ks)
  have hrestored : (restorePairs (txs.zip bu.vtxundo)).map (fun q => (q.1.prevout, some q.2)) =
      ks.map fun k => (k, m₁ k) := by
    calc (restorePairs (txs.zip bu.vtxundo)).map (fun q => (q.1.prevout, some q.2))
        = ((restorePairs (txs.zip bu.vtxundo)).map fun q => (q.1.prevout, q.2)).map
            fun p => (p.1, some p.2) := by rw [List.map_map]; rfl
      _ = ks.map fun k => (k, some ((m₁ k).getD coinEmpty)) := by rw [hpairs, List.map_map]; rfl
      _ = ks.map fun k => (k, m₁ k) := List.map_congr_left fun k hk => by rw [← hshown k hk]
  -- what the first pass needs of the records, and what the second needs of the view
  have hnone₂ : ∀ q ∈ restorePairs (txs.zip bu.vtxundo),
      updates m₁ (ks.map fun k => (k, none)) q.1.prevout = none := by
    intro q hq
    rw [updates_const_apply, if_pos (hmem q hq).1]
  have hgood : ∀ q ∈ restorePairs (txs.zip bu.vtxundo), q.2.Restorable := by
    intro q hq
    obtain ⟨hk, hq2⟩ := hmem q hq
    have hshow : m₁ q.1.prevout = some q.2 := by rw [hq2]; exact hshown _ hk
    obtain ⟨hheight', hspendable⟩ :=
      CBlock.updates_createdCoins_good hheight hcoins q.1.prevout q.2 hshow
    refine ⟨hunspent q.2 ?_, hheight', hspendable⟩
    rw [hspent, hq2]
    exact List.mem_map_of_mem hk
  have hback : updates (updates m₁ (ks.map fun k => (k, none)))
      ((restorePairs (txs.zip bu.vtxundo)).map fun q => (q.1.prevout, some q.2)) = m₁ := by
    rw [hrestored]
    exact updates_const_updates_self m₁ ks none
  have hshowC : ∀ p ∈ block.createdCoins nHeight, updates (updates m₁ (ks.map fun k => (k, none)))
      ((restorePairs (txs.zip bu.vtxundo)).map fun q => (q.1.prevout, some q.2)) p.1 = p.2 := by
    intro p hp
    rw [hback]
    exact updates_apply_of_mem hndC hp
  obtain ⟨v₂, happly, hv₂⟩ := ApplyBlockUndo_spec hv₁ hvtx hheight.2 hfor (by rw [hkeys]; exact hksnd)
    hnone₂ hgood hndC hshowC
  rw [hback, hm₁, updates_updates_const v.coins _ none hnone] at hv₂
  exact ⟨v₂, happly, hv₂.valid, hv₂.layers_eq⟩

/-! ## Runs -/

/-- A database that holds the coin `c` at `o` and nothing else. -/
def CCoinsViewDB.single (o : COutPoint) (c : Coin) (hc : c.IsSpent = false) : CCoinsViewDB where
  coins o' := if o' = o then some c else none
  bestBlock := BlockHash.null
  unspent o' c' h := by
    split at h
    · cases h
      exact hc
    · cases h

/-- A new cache over the database `db`, as `CCoinsViewCache view(&db)`. -/
def CoinsView.ofDB (db : CCoinsViewDB) : CoinsView := ⟨db, CCoinsViewCache.empty, []⟩

theorem CoinsView.ofDB_valid (db : CCoinsViewDB) : (CoinsView.ofDB db).Valid :=
  ⟨CCoinsViewCache.empty_valid, trivial⟩

theorem CoinsView.ofDB_coins (db : CCoinsViewDB) : (CoinsView.ofDB db).coins = db.coins :=
  CCoinsViewCache.view_of_cacheCoins_empty rfl

theorem CoinsView.ofDB_single_coins {o o' : COutPoint} {c c' : Coin} {hc : c.IsSpent = false}
    (h : (CoinsView.ofDB (.single o c hc)).coins o' = some c') : c' = c := by
  rw [CoinsView.ofDB_coins] at h
  simp only [CCoinsViewDB.single] at h
  split at h
  · cases h
    rfl
  · cases h

/-- A coinbase with id `txid` that pays 5000 to `OP_TRUE`. -/
def sampleCoinbase (txid : TxId) : CTransaction :=
  ⟨[⟨⟨⟨0⟩, COutPoint.NULL_INDEX⟩⟩], [⟨⟨5000⟩, [0x51]⟩], txid⟩

/-- A transaction that spends `sampleOutPoint` into a new `OP_TRUE` output. -/
def sampleSpend : CTransaction := ⟨[⟨sampleOutPoint⟩], [⟨⟨4000⟩, [0x51]⟩], ⟨11⟩⟩

/-- A block over the block `3`: a coinbase, then `sampleSpend`. -/
def sampleBlock : CBlock := ⟨⟨3⟩, [sampleCoinbase ⟨10⟩, sampleSpend]⟩

/-- The coin of `sampleOutPoint`, worth 1000, made at height `h`. -/
def sampleCoinAt (h : UInt32) : Coin := Coin.make ⟨⟨1000⟩, [0x51]⟩ h false

/-- A view over a database that holds only the coin of `sampleOutPoint`, made
at height `h`. -/
def sampleView (h : UInt32) : CoinsView := .ofDB (.single sampleOutPoint (sampleCoinAt h) rfl)

/-- `sampleBlock` connected at height 2 over a view whose coin was made at
height 1, and disconnected again. -/
theorem ApplyBlockUndo_undoes_connect_sample :
    ∃ v₁ bu, ConnectBlockCoins (sampleView 1) sampleBlock 2 = .ok (v₁, bu) ∧
      ∃ v₂, ApplyBlockUndo bu sampleBlock 2 v₁ = .ok (v₂, .OK) ∧ v₂.Valid ∧
        v₂.layers = ⟨(sampleView 1).coins, sampleBlock.hashPrevBlock⟩ ::
          CoinsStack.plain (sampleView 1).db (sampleView 1).below := by
  obtain ⟨v₁, hconn⟩ : ∃ v₁, ConnectBlockCoins (sampleView 1) sampleBlock 2 =
      .ok (v₁, ⟨[⟨[sampleCoinAt 1]⟩]⟩) := ⟨_, rfl⟩
  have hcoins : ∀ o c, (sampleView 1).coins o = some c →
      c.GetHeight ≠ 0 ∧ Script.IsUnspendable c.out.scriptPubKey = false := by
    intro o c h
    rw [CoinsView.ofDB_single_coins h]
    decide
  exact ⟨v₁, _, hconn, ApplyBlockUndo_undoes_connect (CoinsView.ofDB_valid _) ⟨by decide, by decide⟩
    rfl (by decide) (by decide) (by decide) (by decide) (by decide) hcoins hconn (by decide)⟩

/-- A block with a second coinbase, over the block `3`. -/
def twoCoinbaseBlock : CBlock := ⟨⟨3⟩, [sampleCoinbase ⟨10⟩, sampleCoinbase ⟨12⟩]⟩

/-- Two runs in which the block's transaction ids are distinct, its outputs are
absent from the view, the connect at height 2 succeeds and every spend finds an
unspent coin, and yet the disconnect fails. In the first the spent coin was
made at height 0, so its undo record reads as one of the old format and
`UndoCoinSpend` looks in vain for another output of its transaction. In the
second the block has a second coinbase, which records no undo data of its own,
and `ApplyBlockUndo` finds undo data of the wrong size for it. -/
theorem ApplyBlockUndo_heightZero_fails :
    ((sampleBlock.vtx.map CTransaction.GetId).Nodup ∧
      (∀ tx ∈ sampleBlock.vtx, ∀ i < tx.vout.length,
        (sampleView 0).coins ⟨tx.GetId, UInt32.ofNat i⟩ = none) ∧
      ∃ v₁ bu, ConnectBlockCoins (sampleView 0) sampleBlock 2 = .ok (v₁, bu) ∧
        (∀ txu ∈ bu.vtxundo, ∀ u ∈ txu.vprevout, u.IsSpent = false) ∧
        ∃ v₂, ApplyBlockUndo bu sampleBlock 2 v₁ = .ok (v₂, .FAILED)) ∧
    ((twoCoinbaseBlock.vtx.map CTransaction.GetId).Nodup ∧
      (∀ tx ∈ twoCoinbaseBlock.vtx, ∀ i < tx.vout.length,
        (sampleView 1).coins ⟨tx.GetId, UInt32.ofNat i⟩ = none) ∧
      ∃ v₁ bu, ConnectBlockCoins (sampleView 1) twoCoinbaseBlock 2 = .ok (v₁, bu) ∧
        (∀ txu ∈ bu.vtxundo, ∀ u ∈ txu.vprevout, u.IsSpent = false) ∧
        ∃ v₂, ApplyBlockUndo bu twoCoinbaseBlock 2 v₁ = .ok (v₂, .FAILED)) := by
  refine ⟨⟨by decide, by decide, ?_⟩, ⟨by decide, by decide, ?_⟩⟩
  · obtain ⟨v₁, hconn⟩ : ∃ v₁, ConnectBlockCoins (sampleView 0) sampleBlock 2 =
        .ok (v₁, ⟨[⟨[sampleCoinAt 0]⟩]⟩) := ⟨_, rfl⟩
    refine ⟨v₁, _, hconn, by decide, ?_⟩
    -- after the connect the view shows no output of the spent coin's transaction
    obtain ⟨-, -, hv₁⟩ := ConnectBlockCoins_spec (Shows.of_valid (CoinsView.ofDB_valid _)) rfl
      (by decide) (by decide) (by decide) hconn
    have hkeys : (sampleBlock.createdCoins 2).map Prod.fst = [⟨⟨10⟩, 0⟩, ⟨⟨11⟩, 0⟩] := by decide
    have hnone : ∀ n : UInt32, updates (updates (sampleView 0).coins (sampleBlock.createdCoins 2))
        ((spentOutpoints [sampleSpend]).map fun k => (k, none)) ⟨sampleOutPoint.txid, n⟩ = none := by
      intro n
      rw [updates_const_apply]
      split
      · rfl
      · rename_i hn
        rw [updates_apply_of_not_mem (by rw [hkeys]; simp [sampleOutPoint]), sampleView,
          CoinsView.ofDB_coins]
        simp only [CCoinsViewDB.single]
        rw [if_neg]
        intro h
        exact hn (by rw [h]; decide)
    obtain ⟨v', hundo⟩ : ∃ v', UndoCoinSpend (sampleCoinAt 0) v₁ sampleOutPoint = .ok (v', .FAILED) :=
      UndoCoinSpend_legacy_fails hv₁ (by decide) hnone
    refine ⟨v', ?_⟩
    have hsize : (([⟨[sampleCoinAt 0]⟩] : List CTxUndo).length + 1 != sampleBlock.vtx.length) = false := by
      decide
    have hlen : (([sampleCoinAt 0] : List Coin).length != sampleSpend.vin.length) = false := by decide
    have hfail : (DisconnectResult.FAILED == DisconnectResult.FAILED) = true := rfl
    have hrestore : restoreInputs v₁ true ((sampleBlock.vtx.drop 1).zip [⟨[sampleCoinAt 0]⟩]) =
        .ok (v', none) := by
      show restoreInputs v₁ true [(sampleSpend, ⟨[sampleCoinAt 0]⟩)] = _
      simp only [restoreInputs, hlen, Bool.false_eq_true, ↓reduceIte]
      rw [show sampleSpend.vin.zip [sampleCoinAt 0] = [(⟨sampleOutPoint⟩, sampleCoinAt 0)] from rfl]
      simp only [restoreTxInputs, hundo, Except.ok_bind, hfail, ↓reduceIte]
      rfl
    simp only [ApplyBlockUndo, hsize, Bool.false_eq_true, ↓reduceIte, hrestore, Except.ok_bind]
    rfl
  · obtain ⟨v₁, hconn⟩ : ∃ v₁, ConnectBlockCoins (sampleView 1) twoCoinbaseBlock 2 =
        .ok (v₁, ⟨[⟨[]⟩]⟩) := ⟨_, rfl⟩
    exact ⟨v₁, _, hconn, by decide, v₁, rfl⟩

end BitcoinAbc
