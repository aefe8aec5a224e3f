import Mathlib
import BitcoinAbc.Wallet.BnBRefinement

/-!
# What `SelectCoinsBnB` returns

The search loop refines the walk (`bnbLoop_returns`); around it
`SelectCoinsBnB` adds up the effective values under its `assert`
(`availableValue`), gives up at once when they cannot reach the target, sorts
the pool, and after the loop collects the outputs and the value of the best
selection (`collectSelected`).

- `SelectCoinsBnB_sound`: where it returns `true`, the groups it selected, a
  sublist of the sorted pool, have their effective values in the range
  `[not_input_fees + target_value, not_input_fees + target_value +
  cost_of_change]`, and `out_set` and `value_ret` are their outputs and their
  value; for every pool and every range;
- `SelectCoinsBnB_errorsIn`: it ends only in a signed overflow or the failed
  `assert`, so never in the `std::out_of_range` that a `utxo_pool.at(i)` past
  the end would throw; for every pool and every range;
- `SelectCoinsBnB_complete`: on a pool of 1 to 15 groups within
  `SearchBounds`, with `|m_value|`s adding up to at most `MAX_MONEY`, it
  returns, and it returns `true` exactly when some sub-multiset of the pool
  has its effective values in range. Fifteen groups make a tree of
  `2 ^ 16 - 1` nodes, within `TOTAL_TRIES`. On an empty pool it returns
  `false` even where the empty selection is in range: `best_selection`
  resized to no group is empty.

`sort` stands for `std::sort(…, descending)`; the results ask only that it
permutes the pool.
-/

namespace BitcoinAbc

namespace Wallet

open TreeWalk Except

variable {CInputCoin : Type}

/-! ## The sum under its `assert` -/

/-- What the loop returns: the sum of the effective values, all positive. -/
theorem foldlM_addAvailable_post :
    ∀ (l : List (OutputGroup CInputCoin)) (a r : Amount), l.foldlM addAvailable a = .ok r →
      (∀ g ∈ l, 0 < g.effective_value.amount) ∧
        r.amount = a.amount + (l.map (·.effective_value.amount)).sum
  | [], a, r, h => by
    rw [List.foldlM_nil, pure_eq_ok] at h
    subst h
    simp
  | g :: l, a, r, h => by
    rw [List.foldlM_cons, bind_eq_ok] at h
    obtain ⟨a', hg, hl⟩ := h
    unfold addAvailable at hg
    split at hg
    · rename_i hpos
      have ha' := (Amount.add_returns (ρ := Unit) a g.effective_value).post hg
      obtain ⟨hall, hsum⟩ := foldlM_addAvailable_post l a' r hl
      refine ⟨List.forall_mem_cons.mpr ⟨hpos, hall⟩, ?_⟩
      rw [hsum, ha']
      simp only [List.map_cons, List.sum_cons]
      ring
    · cases hg

/-- The loop raises only its `assert` and an overflow. -/
theorem availableValue_errorsIn (l : List (OutputGroup CInputCoin)) :
    ErrorsIn (fun e => e = .overflow ∨ e = .assertFails) (availableValue l) := by
  refine ErrorsIn.foldlM l (fun a g _ => ?_) _
  unfold addAvailable
  split
  · exact (Amount.add_returns _ _).errorsIn.mono fun _ he => .inl he
  · exact ErrorsIn.error (.inr rfl)

/-- With positive effective values adding up within `int64_t`, the loop
returns their sum. The induction is on the groups left. -/
theorem foldlM_addAvailable_eq_ok :
    ∀ (l : List (OutputGroup CInputCoin)) (a : Amount), (∀ g ∈ l, 0 < g.effective_value.amount) →
      0 ≤ a.amount → a.amount + (l.map (·.effective_value.amount)).sum ≤ 2 ^ 63 - 1 →
      l.foldlM addAvailable a = .ok ⟨a.amount + (l.map (·.effective_value.amount)).sum⟩
  | [], a, _, _, _ => by simp
  | g :: l, a, hpos, ha, hsum => by
    rw [List.forall_mem_cons] at hpos
    rw [List.map_cons, List.sum_cons] at hsum ⊢
    have hrest : 0 ≤ (l.map (·.effective_value.amount)).sum :=
      List.sum_nonneg fun _ hx => by
        obtain ⟨g', hg', rfl⟩ := List.mem_map.mp hx
        exact (hpos.2 g' hg').le
    have hfirst : Script.inInt64 (a.amount + g.effective_value.amount) = true :=
      Script.CScriptNum.inInt64_iff.mpr (by omega)
    rw [List.foldlM_cons, addAvailable, if_pos hpos.1, Amount.add_eq_ok hfirst, ok_bind,
      foldlM_addAvailable_eq_ok l _ hpos.2 (by dsimp only; omega) (by dsimp only; omega)]
    congr 2
    ring

/-! ## The output loop -/

/-- The outputs of a list of groups, as a set. -/
def outputsOf [DecidableEq CInputCoin] (l : List (OutputGroup CInputCoin)) : Finset CInputCoin :=
  (l.flatMap (·.m_outputs)).toFinset

theorem outputsOf_cons [DecidableEq CInputCoin] (g : OutputGroup CInputCoin)
    (l : List (OutputGroup CInputCoin)) : outputsOf (g :: l) = g.m_outputs.toFinset ∪ outputsOf l := by
  simp [outputsOf, List.toFinset_append]

/-- The output loop inserts the outputs and adds the values of the groups
`best_selection` picks, from index `i` on. It overflows only where the values
left, with what is already added, pass `MAX_MONEY`. The induction is on
`best_selection`. -/
theorem collectSelected_returns [DecidableEq CInputCoin] (pool : List (OutputGroup CInputCoin)) :
    ∀ (bs : List Bool) (i : Nat) (out : Finset CInputCoin) (v : Amount), i + bs.length ≤ pool.length →
      Returns .overflow
        (|v.amount| + ((pool.drop i).map fun g => |g.m_value.amount|).sum ≤ MAX_MONEY.amount)
        (collectSelected pool i bs out v)
        (· = (out ∪ outputsOf (picked (pool.drop i) bs),
          ⟨v.amount + ((picked (pool.drop i) bs).map (·.m_value.amount)).sum⟩))
  | [], _, out, v, _ => .pure (by simp [outputsOf])
  | b :: bs, i, out, v, hlen => by
    have hi : i < pool.length := by simp at hlen; omega
    have hdrop : pool.drop i = pool[i] :: pool.drop (i + 1) := List.drop_eq_getElem_cons hi
    -- what the values left after `i` add up to
    have hrest : |pool[i].m_value.amount| + ((pool.drop (i + 1)).map fun g => |g.m_value.amount|).sum =
        ((pool.drop i).map fun g => |g.m_value.amount|).sum := by
      rw [hdrop, List.map_cons, List.sum_cons]
    have hnn : 0 ≤ ((pool.drop (i + 1)).map fun g => |g.m_value.amount|).sum :=
      List.sum_nonneg fun _ hx => by
        obtain ⟨g, -, rfl⟩ := List.mem_map.mp hx
        exact abs_nonneg _
    have hM : (0 : Int) ≤ MAX_MONEY.amount := by simp
    have ih := collectSelected_returns pool bs (i + 1)
    cases b
    · rw [collectSelected, hdrop, picked_cons_false]
      refine (ih out v (by simp at hlen; omega)).weaken (fun hc => ?_)
      rw [← hdrop, ← hrest] at hc
      linarith [abs_nonneg pool[i].m_value.amount]
    · rw [collectSelected, vecAt_of_lt hi, ok_bind, ok_bind]
      refine ((Amount.add_returns _ _).weaken fun hc =>
        Amount.inInt64_of_abs_le ((abs_add_le _ _).trans (by linarith))).bind fun v' hv' => ?_
      subst hv'
      refine ((ih _ _ (by simp at hlen; omega)).weaken fun hc => ?_).conseq fun r hr => ?_
      · have := abs_add_le v.amount pool[i].m_value.amount
        dsimp only
        linarith
      · rw [hr, hdrop, picked_cons_true, outputsOf_cons, List.map_cons, List.sum_cons,
          Finset.union_assoc]
        congr 2
        dsimp only
        ring

/-! ## The start of the loop -/

/-- The walk the loop starts from: the root, nothing found, and the best
waste at `MAX_MONEY`. -/
def Walk.init : Walk := ⟨[], [], MAX_MONEY.amount⟩

theorem Walk.init_ok {pool : List (OutputGroup CInputCoin)} {target cost : Int} :
    Walk.init.Ok pool target cost where
  node_length := Nat.zero_le _
  empty_pool := fun _ => by simp [Walk.init]
  best := .inl rfl

theorem Walk.init_searching {pool : List (OutputGroup CInputCoin)} {target cost : Int} :
    Walk.init.Searching pool target cost :=
  fun _ => ⟨rfl, cleared_nil⟩

/-- The locals before the loop stand at the root, on a pool sorted from the
one whose effective values were summed. -/
theorem refines_init {pool pool' : List (OutputGroup CInputCoin)} {curr_available_value : Amount}
    (hperm : pool'.Perm pool)
    (havail : curr_available_value.amount = (pool.map (·.effective_value.amount)).sum) :
    Refines pool'
      { curr_value := Amount.zero, curr_available_value := curr_available_value,
        curr_selection := [], curr_waste := Amount.zero, best_selection := [],
        best_waste := MAX_MONEY } Walk.init where
  selection := rfl
  value := by simp [selValue, Walk.init, Amount.zero]
  available := by
    rw [havail, ← (hperm.map _).sum_eq]
    simp [availValue, Walk.init]
  waste := by simp [selWaste, Walk.init, Amount.zero]
  best := rfl
  best_waste := rfl

/-! ## Soundness and the faults the code can reach -/

/-- Where `SelectCoinsBnB` returns `true`, the groups it selected, a sublist
of the sorted pool, have their effective values in range, and `out_set` and
`value_ret` hold their outputs and their value. -/
theorem SelectCoinsBnB_sound [DecidableEq CInputCoin]
    {sort : List (OutputGroup CInputCoin) → List (OutputGroup CInputCoin)}
    (hsort : ∀ l, (sort l).Perm l) {utxo_pool pool' : List (OutputGroup CInputCoin)}
    {target_value cost_of_change value_ret not_input_fees value_ret' : Amount}
    {out_set : Finset CInputCoin}
    (h : SelectCoinsBnB sort utxo_pool target_value cost_of_change value_ret not_input_fees =
      .ok (true, pool', out_set, value_ret')) :
    pool'.Perm utxo_pool ∧ ∃ chosen : List (OutputGroup CInputCoin), chosen.Sublist pool' ∧
      out_set = outputsOf chosen ∧ value_ret'.amount = (chosen.map (·.m_value.amount)).sum ∧
      InRange (not_input_fees.amount + target_value.amount) cost_of_change.amount
        (chosen.map (·.effective_value.amount)).sum := by
  unfold SelectCoinsBnB at h
  obtain ⟨actual_target, hat, h⟩ := bind_eq_ok.mp h
  have hat' := (Amount.add_returns (ρ := Unit) _ _).post hat
  obtain ⟨avail, havail, h⟩ := bind_eq_ok.mp h
  obtain ⟨-, hsum⟩ := foldlM_addAvailable_post _ _ _ havail
  split at h
  · simp at h
  obtain ⟨s, hloop, h⟩ := bind_eq_ok.mp h
  have hbest := (bnbLoop_returns TOTAL_TRIES (refines_init (hsort utxo_pool)
    (by rw [hsum]; simp [Amount.zero])) Walk.init_ok).post hloop
  have hok : (walkLoop (sort utxo_pool) actual_target.amount cost_of_change.amount TOTAL_TRIES
      Walk.init).Ok (sort utxo_pool) actual_target.amount cost_of_change.amount :=
    walkLoop_ok TOTAL_TRIES Walk.init_ok
  split at h
  · simp at h
  rename_i hne
  obtain ⟨⟨out, v⟩, hcollect, h⟩ := bind_eq_ok.mp h
  simp only [pure_eq_ok, Prod.mk.injEq, true_and] at h
  obtain ⟨rfl, rfl, rfl⟩ := h
  -- the loop found a full selection in range
  rcases hok.best with hnil | ⟨hlen, hrange⟩
  · rw [← hbest] at hnil
    simp [hnil] at hne
  rw [← hbest] at hlen hrange
  have hr := (collectSelected_returns (sort utxo_pool) s.best_selection 0 ∅ Amount.zero
    (by omega)).post hcollect
  simp only [List.drop_zero, Prod.mk.injEq] at hr
  refine ⟨hsort utxo_pool, picked (sort utxo_pool) s.best_selection,
    picked_sublist _ _, by rw [hr.1]; simp, by rw [hr.2]; simp [Amount.zero], ?_⟩
  rw [hat'] at hrange
  exact hrange

/-- Groups of effective values 5, 3 and 3 for a target of 6: the search
includes 5 and 3, overshoots and backtracks, skips the last 3 as equal to the
3 it has just excluded, backtracks again and selects 3 and 3. -/
theorem SelectCoinsBnB_sound_threeGroups :
    SelectCoinsBnB id ([⟨[1], ⟨5⟩, ⟨5⟩, ⟨0⟩, ⟨0⟩⟩, ⟨[2], ⟨3⟩, ⟨3⟩, ⟨0⟩, ⟨0⟩⟩,
        ⟨[3], ⟨3⟩, ⟨3⟩, ⟨0⟩, ⟨0⟩⟩] : List (OutputGroup Nat)) ⟨6⟩ ⟨0⟩ ⟨0⟩ ⟨0⟩ =
        .ok (true, [⟨[1], ⟨5⟩, ⟨5⟩, ⟨0⟩, ⟨0⟩⟩, ⟨[2], ⟨3⟩, ⟨3⟩, ⟨0⟩, ⟨0⟩⟩,
          ⟨[3], ⟨3⟩, ⟨3⟩, ⟨0⟩, ⟨0⟩⟩], {2, 3}, ⟨6⟩) ∧
      ∃ chosen : List (OutputGroup Nat), chosen.Sublist [⟨[1], ⟨5⟩, ⟨5⟩, ⟨0⟩, ⟨0⟩⟩,
          ⟨[2], ⟨3⟩, ⟨3⟩, ⟨0⟩, ⟨0⟩⟩, ⟨[3], ⟨3⟩, ⟨3⟩, ⟨0⟩, ⟨0⟩⟩] ∧
        ({2, 3} : Finset Nat) = outputsOf chosen ∧ (6 : Int) = (chosen.map (·.m_value.amount)).sum ∧
        InRange (0 + 6) 0 (chosen.map (·.effective_value.amount)).sum := by
  have h : SelectCoinsBnB id ([⟨[1], ⟨5⟩, ⟨5⟩, ⟨0⟩, ⟨0⟩⟩, ⟨[2], ⟨3⟩, ⟨3⟩, ⟨0⟩, ⟨0⟩⟩,
        ⟨[3], ⟨3⟩, ⟨3⟩, ⟨0⟩, ⟨0⟩⟩] : List (OutputGroup Nat)) ⟨6⟩ ⟨0⟩ ⟨0⟩ ⟨0⟩ =
      .ok (true, [⟨[1], ⟨5⟩, ⟨5⟩, ⟨0⟩, ⟨0⟩⟩, ⟨[2], ⟨3⟩, ⟨3⟩, ⟨0⟩, ⟨0⟩⟩,
        ⟨[3], ⟨3⟩, ⟨3⟩, ⟨0⟩, ⟨0⟩⟩], {2, 3}, ⟨6⟩) := by decide
  exact ⟨h, (SelectCoinsBnB_sound (fun l => List.Perm.refl l) h).2⟩

/-- `SelectCoinsBnB` ends only in a signed overflow or the failed `assert`:
every `utxo_pool.at(i)` it makes is in range, on every pool and every range. -/
theorem SelectCoinsBnB_errorsIn [DecidableEq CInputCoin]
    {sort : List (OutputGroup CInputCoin) → List (OutputGroup CInputCoin)}
    (hsort : ∀ l, (sort l).Perm l) (utxo_pool : List (OutputGroup CInputCoin))
    (target_value cost_of_change value_ret not_input_fees : Amount) :
    ErrorsIn (fun e => e = .overflow ∨ e = .assertFails)
      (SelectCoinsBnB sort utxo_pool target_value cost_of_change value_ret not_input_fees) := by
  unfold SelectCoinsBnB
  refine ErrorsIn.bind ((Amount.add_returns _ _).errorsIn.mono fun _ he => .inl he)
    fun actual_target _ => ?_
  refine ErrorsIn.bind (availableValue_errorsIn _) fun avail havail => ?_
  obtain ⟨-, hsum⟩ := foldlM_addAvailable_post _ _ _ havail
  refine ErrorsIn.ite (fun _ => ErrorsIn.pure _) fun _ => ?_
  have hsearch := @bnbLoop_returns _ _ actual_target cost_of_change TOTAL_TRIES _ _
    (refines_init (hsort utxo_pool) (by rw [hsum]; simp [Amount.zero])) Walk.init_ok
  refine ErrorsIn.bind (hsearch.errorsIn.mono fun _ he => .inl he) fun s hloop => ?_
  have hbest := hsearch.post hloop
  have hok : (walkLoop (sort utxo_pool) actual_target.amount cost_of_change.amount TOTAL_TRIES
      Walk.init).Ok (sort utxo_pool) actual_target.amount cost_of_change.amount :=
    walkLoop_ok TOTAL_TRIES Walk.init_ok
  -- a best selection is as long as the pool, so the output loop stays in it
  have hlen : 0 + s.best_selection.length ≤ (sort utxo_pool).length := by
    rcases hok.best with hnil | ⟨hlen, -⟩
    · rw [hbest, hnil]; simp
    · rw [hbest, hlen]; simp
  refine ErrorsIn.ite (fun _ => ErrorsIn.pure _) fun _ => ?_
  refine ErrorsIn.bind ((collectSelected_returns _ _ 0 ∅ Amount.zero hlen).errorsIn.mono
    fun _ he => .inl he) fun r _ => ?_
  obtain ⟨out, v⟩ := r
  exact ErrorsIn.pure _

/-- The groups of `SelectCoinsBnB_sound_threeGroups`, the last one with a fee
of `INT64_MAX` and a long-term fee of -1: the search overshoots, backtracks,
includes that group (its fee differs from the excluded one's, so it is not
skipped) and overflows on `fee - long_term_fee`, one of the two faults. -/
theorem SelectCoinsBnB_errorsIn_feeOverflow :
    SelectCoinsBnB id ([⟨[1], ⟨5⟩, ⟨5⟩, ⟨0⟩, ⟨0⟩⟩, ⟨[2], ⟨3⟩, ⟨3⟩, ⟨0⟩, ⟨0⟩⟩,
        ⟨[3], ⟨3⟩, ⟨3⟩, ⟨9223372036854775807⟩, ⟨-1⟩⟩] : List (OutputGroup Nat)) ⟨6⟩ ⟨0⟩ ⟨0⟩ ⟨0⟩ =
        .error .overflow ∧
      ErrorsIn (fun e => e = .overflow ∨ e = .assertFails)
        (SelectCoinsBnB id ([⟨[1], ⟨5⟩, ⟨5⟩, ⟨0⟩, ⟨0⟩⟩, ⟨[2], ⟨3⟩, ⟨3⟩, ⟨0⟩, ⟨0⟩⟩,
          ⟨[3], ⟨3⟩, ⟨3⟩, ⟨9223372036854775807⟩, ⟨-1⟩⟩] : List (OutputGroup Nat))
          ⟨6⟩ ⟨0⟩ ⟨0⟩ ⟨0⟩) :=
  ⟨by decide, SelectCoinsBnB_errorsIn (fun l => List.Perm.refl l) _ _ _ _ _⟩

/-! ## Completeness -/

/-- The bounds ask nothing of the order of the pool. -/
theorem SearchBounds.perm {pool pool' : List (OutputGroup CInputCoin)} {target cost : Int}
    (hb : SearchBounds pool target cost) (hperm : pool'.Perm pool) :
    SearchBounds pool' target cost where
  effective_value_pos g hg := hb.effective_value_pos g (hperm.subset hg)
  fee_le g hg := hb.fee_le g (hperm.subset hg)
  long_term_fee_le g hg := hb.long_term_fee_le g (hperm.subset hg)
  sum_effective_value_le := by rw [(hperm.map _).sum_eq]; exact hb.sum_effective_value_le
  sum_waste_le := by rw [(hperm.map _).sum_eq]; exact hb.sum_waste_le
  cost_nonneg := hb.cost_nonneg
  target_le := hb.target_le

/-- The full selections in range of a reordered pool are the sub-multisets
in range of the pool. -/
theorem exists_hit_iff {pool pool' : List (OutputGroup CInputCoin)} {target cost : Int}
    (hperm : pool'.Perm pool) :
    (∃ v, v.length = pool'.length ∧ Hit pool' target cost v) ↔
      ∃ chosen : List (OutputGroup CInputCoin), chosen.Subperm pool ∧
        InRange target cost (chosen.map (·.effective_value.amount)).sum := by
  constructor
  · rintro ⟨v, -, hv⟩
    exact ⟨picked pool' v, (picked_sublist pool' v).subperm.trans hperm.subperm, hv⟩
  · rintro ⟨chosen, hsub, hr⟩
    obtain ⟨l, hl, hsub⟩ := hsub.trans hperm.symm.subperm
    obtain ⟨v, hv, rfl⟩ := exists_picked_eq hsub
    refine ⟨v, hv, ?_⟩
    unfold Hit selValue
    rwa [(hl.map _).sum_eq]

/-- No sub-multiset of a pool whose effective values add up to less than the
target is in range. -/
theorem not_inRange_of_sum_lt {pool chosen : List (OutputGroup CInputCoin)} {target cost : Int}
    (hpos : ∀ g ∈ pool, 0 < g.effective_value.amount)
    (h : (pool.map (·.effective_value.amount)).sum < target) (hsub : chosen.Subperm pool) :
    ¬InRange target cost (chosen.map (·.effective_value.amount)).sum := by
  obtain ⟨l, hl, hsub⟩ := hsub
  obtain ⟨v, -, rfl⟩ := exists_picked_eq hsub
  have hle := selValue_le_sum hpos v
  unfold selValue at hle
  rw [← (hl.map _).sum_eq]
  exact fun hr => absurd hr.1 (by omega)

/-- A pool of at most 15 groups is searched in full within `TOTAL_TRIES`. -/
theorem fuel_init {n : Nat} (hn : n ≤ 15) : 2 ^ (n + 1) ≤ TOTAL_TRIES + rank n Walk.init.node + 1 :=
  calc 2 ^ (n + 1) ≤ 2 ^ 16 := Nat.pow_le_pow_right (by norm_num) (by omega)
    _ ≤ TOTAL_TRIES + rank n Walk.init.node + 1 := by simp [TOTAL_TRIES, Walk.init, rank]

/-- On a pool of 1 to 15 groups within the bounds, with `|value|`s adding up
to at most `MAX_MONEY`, `SelectCoinsBnB` returns, and it returns `true`
exactly when some sub-multiset of the pool has its effective values in
range. -/
theorem SelectCoinsBnB_complete [DecidableEq CInputCoin]
    {sort : List (OutputGroup CInputCoin) → List (OutputGroup CInputCoin)}
    (hsort : ∀ l, (sort l).Perm l) {utxo_pool : List (OutputGroup CInputCoin)}
    {target_value cost_of_change value_ret not_input_fees : Amount}
    (hb : SearchBounds utxo_pool (not_input_fees.amount + target_value.amount) cost_of_change.amount)
    (hvalue : (utxo_pool.map fun g => |g.m_value.amount|).sum ≤ MAX_MONEY.amount)
    (hn : 0 < utxo_pool.length) (hn15 : utxo_pool.length ≤ 15) :
    ∃ r, SelectCoinsBnB sort utxo_pool target_value cost_of_change value_ret not_input_fees = .ok r ∧
      (r.1 = true ↔ ∃ chosen : List (OutputGroup CInputCoin), chosen.Subperm utxo_pool ∧
        InRange (not_input_fees.amount + target_value.amount) cost_of_change.amount
          (chosen.map (·.effective_value.amount)).sum) := by
  have hM : (0 : Int) ≤ MAX_MONEY.amount := by simp
  have hat : not_input_fees.add (ρ := Unit) target_value =
      .ok ⟨not_input_fees.amount + target_value.amount⟩ :=
    Amount.add_eq_ok (Amount.inInt64_of_abs_le (by linarith [hb.target_le]))
  have havail : availableValue utxo_pool =
      .ok ⟨(utxo_pool.map (·.effective_value.amount)).sum⟩ := by
    have hsum := hb.sum_effective_value_le
    rw [availableValue, foldlM_addAvailable_eq_ok utxo_pool Amount.zero hb.effective_value_pos le_rfl
      (by simp only [Amount.zero, zero_add]; simp at hsum; omega)]
    simp [Amount.zero]
  unfold SelectCoinsBnB
  rw [hat, ok_bind, havail, ok_bind]
  dsimp only
  split
  · -- the pool cannot reach the target
    rename_i hlt
    refine ⟨_, rfl, ?_⟩
    simp only [Bool.false_eq_true, false_iff, not_exists, not_and]
    exact fun chosen hsub => not_inRange_of_sum_lt hb.effective_value_pos hlt hsub
  -- the loop runs to a decision on the sorted pool
  have hperm := hsort utxo_pool
  have hb' := hb.perm hperm
  have hn' : 0 < (sort utxo_pool).length := by rw [hperm.length_eq]; exact hn
  obtain ⟨s, hs, hbest⟩ :=
    (bnbLoop_returns TOTAL_TRIES (refines_init hperm
      (show Amount.amount ⟨(utxo_pool.map (·.effective_value.amount)).sum⟩ = _ from rfl))
      Walk.init_ok).exists_ok hb'
  have hdec := walkLoop_decided hb' hn' TOTAL_TRIES Walk.init Walk.init_ok Walk.init_searching
    (fuel_init (by rw [hperm.length_eq]; exact hn15))
  have hok : (walkLoop (sort utxo_pool) (not_input_fees.amount + target_value.amount)
      cost_of_change.amount TOTAL_TRIES Walk.init).Ok (sort utxo_pool)
      (not_input_fees.amount + target_value.amount) cost_of_change.amount :=
    walkLoop_ok TOTAL_TRIES Walk.init_ok
  dsimp only at hbest
  rw [hs, ok_bind]
  split
  · -- nothing found: there is nothing to find
    rename_i hempty
    refine ⟨_, rfl, ?_⟩
    simp only [Bool.false_eq_true, false_iff]
    rintro hex
    obtain ⟨v, hv, hhit⟩ := (exists_hit_iff hperm).mpr hex
    rcases hdec with hne | hnone
    · exact hne (by rw [← hbest]; exact List.isEmpty_iff.mp hempty)
    · exact hnone v hv hhit
  · -- the best selection is in range, and its outputs are collected
    rename_i hne
    rcases hok.best with hnil | ⟨hlen, hrange⟩
    · rw [← hbest] at hnil
      simp [hnil] at hne
    rw [← hbest] at hlen hrange
    have hcollect := collectSelected_returns (sort utxo_pool) s.best_selection 0 ∅ Amount.zero
      (by omega)
    obtain ⟨⟨out, v⟩, hc, -⟩ := hcollect.exists_ok (by
      simp only [Amount.zero, abs_zero, zero_add, List.drop_zero]
      rw [(hperm.map _).sum_eq]
      exact hvalue)
    rw [hc, ok_bind]
    refine ⟨_, rfl, ?_⟩
    simp only [true_iff]
    exact (exists_hit_iff hperm).mp ⟨s.best_selection, hlen, hrange⟩

/-- Groups of effective values 5, 3 and 3 for a target of 7, within the
bounds: the search overshoots, backtracks, skips the equal 3 and runs out of
choices with nothing in range, so `SelectCoinsBnB` returns `false`, and by
the theorem no sub-multiset of the pool is in range. -/
theorem SelectCoinsBnB_complete_threeGroups :
    SelectCoinsBnB id ([⟨[1], ⟨5⟩, ⟨5⟩, ⟨0⟩, ⟨0⟩⟩, ⟨[2], ⟨3⟩, ⟨3⟩, ⟨0⟩, ⟨0⟩⟩,
        ⟨[3], ⟨3⟩, ⟨3⟩, ⟨0⟩, ⟨0⟩⟩] : List (OutputGroup Nat)) ⟨7⟩ ⟨0⟩ ⟨0⟩ ⟨0⟩ =
        .ok (false, [⟨[1], ⟨5⟩, ⟨5⟩, ⟨0⟩, ⟨0⟩⟩, ⟨[2], ⟨3⟩, ⟨3⟩, ⟨0⟩, ⟨0⟩⟩,
          ⟨[3], ⟨3⟩, ⟨3⟩, ⟨0⟩, ⟨0⟩⟩], ∅, ⟨0⟩) ∧
      ∃ r, SelectCoinsBnB id ([⟨[1], ⟨5⟩, ⟨5⟩, ⟨0⟩, ⟨0⟩⟩, ⟨[2], ⟨3⟩, ⟨3⟩, ⟨0⟩, ⟨0⟩⟩,
          ⟨[3], ⟨3⟩, ⟨3⟩, ⟨0⟩, ⟨0⟩⟩] : List (OutputGroup Nat)) ⟨7⟩ ⟨0⟩ ⟨0⟩ ⟨0⟩ = .ok r ∧
        (r.1 = true ↔ ∃ chosen : List (OutputGroup Nat), chosen.Subperm [⟨[1], ⟨5⟩, ⟨5⟩, ⟨0⟩, ⟨0⟩⟩,
            ⟨[2], ⟨3⟩, ⟨3⟩, ⟨0⟩, ⟨0⟩⟩, ⟨[3], ⟨3⟩, ⟨3⟩, ⟨0⟩, ⟨0⟩⟩] ∧
          InRange (0 + 7) 0 (chosen.map (·.effective_value.amount)).sum) :=
  ⟨by decide, SelectCoinsBnB_complete (fun l => List.Perm.refl l)
    { effective_value_pos := by decide
      fee_le := by decide
      long_term_fee_le := by decide
      sum_effective_value_le := by decide
      sum_waste_le := by decide
      cost_nonneg := by decide
      target_le := by decide }
    (by decide) (by decide) (by decide)⟩

end Wallet

end BitcoinAbc
