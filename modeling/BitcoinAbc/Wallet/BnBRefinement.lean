import Mathlib
import BitcoinAbc.Lib.ExceptRefine
import BitcoinAbc.Wallet.BnBWalk

/-!
# `SelectCoinsBnB` refines the walk

The C++ loop keeps its sums in `Amount`s, with `int64_t` arithmetic; the walk
computes them exactly. `Refines s w` says that the locals `s` stand at the
walk's node with the walk's sums. Each part of an iteration, from related
states, returns a related result or ends in an overflow, and only outside
`SearchBounds` (`Except.Returns`): `backtrackCond_returns`,
`backtrackStep_returns`, `forwardStep_returns`, `recordBest_returns`, put
together in `bnbIteration_returns` and, by induction on the iterations,
`bnbLoop_returns`. Every `utxo_pool.at(i)` the loop makes is then in range,
since the walk never stands below the pool (`Walk.Ok`).
-/

namespace BitcoinAbc

namespace Wallet

open TreeWalk Except

variable {CInputCoin : Type}

/-! ## Bounds on the sums -/

namespace SearchBounds

variable {pool : List (OutputGroup CInputCoin)} {target cost : Int}
  (hb : SearchBounds pool target cost)
include hb

theorem selValue_mem (p : List Bool) : 0 ≤ selValue pool p ∧ selValue pool p ≤ MAX_MONEY.amount :=
  ⟨selValue_nonneg hb.effective_value_pos p,
    (selValue_le_sum hb.effective_value_pos p).trans hb.sum_effective_value_le⟩

theorem availValue_mem (p : List Bool) :
    0 ≤ availValue pool p ∧ availValue pool p ≤ MAX_MONEY.amount :=
  ⟨availValue_nonneg hb.effective_value_pos p,
    (availValue_le_sum hb.effective_value_pos p).trans hb.sum_effective_value_le⟩

theorem abs_selWaste_le_max (p : List Bool) : |selWaste pool p| ≤ MAX_MONEY.amount :=
  (abs_selWaste_le p).trans (by linarith [hb.sum_waste_le, hb.cost_nonneg])

theorem abs_waste_le {g : OutputGroup CInputCoin} (hg : g ∈ pool) :
    |g.waste| ≤ MAX_MONEY.amount := by
  have hnn : ∀ x ∈ pool.map (fun g : OutputGroup CInputCoin => |g.waste|), (0 : Int) ≤ x :=
    fun _ hx => by
      obtain ⟨g', -, rfl⟩ := List.mem_map.mp hx
      exact abs_nonneg _
  have hle := List.single_le_sum hnn _
    (List.mem_map_of_mem (f := fun g : OutputGroup CInputCoin => |g.waste|) hg)
  linarith [hb.sum_waste_le, hb.cost_nonneg]

/-! Each sum the loop forms, in `int64_t`. -/

theorem fits_selValue (p : List Bool) : Script.inInt64 (selValue pool p) = true := by
  obtain ⟨h₁, h₂⟩ := hb.selValue_mem p
  exact Amount.inInt64_of_abs_le (abs_le.mpr ⟨by linarith, by linarith⟩)

theorem fits_availValue (p : List Bool) : Script.inInt64 (availValue pool p) = true := by
  obtain ⟨h₁, h₂⟩ := hb.availValue_mem p
  exact Amount.inInt64_of_abs_le (abs_le.mpr ⟨by linarith, by linarith⟩)

theorem fits_selWaste (p : List Bool) : Script.inInt64 (selWaste pool p) = true := by
  have h := abs_le.mp (hb.abs_selWaste_le_max p)
  exact Amount.inInt64_of_abs_le (abs_le.mpr ⟨by linarith, by linarith⟩)

theorem fits_reach (p : List Bool) :
    Script.inInt64 (selValue pool p + availValue pool p) = true := by
  obtain ⟨h₁, h₂⟩ := hb.selValue_mem p
  obtain ⟨h₃, h₄⟩ := hb.availValue_mem p
  exact Amount.inInt64_of_abs_le (abs_le.mpr ⟨by linarith, by linarith⟩)

theorem fits_upper : Script.inInt64 (target + cost) = true := by
  have h := abs_le.mp hb.target_le
  have hc := hb.sum_waste_le
  have hw : 0 ≤ (pool.map fun g => |g.waste|).sum :=
    List.sum_nonneg fun _ hx => by
      obtain ⟨g, -, rfl⟩ := List.mem_map.mp hx
      exact abs_nonneg _
  exact Amount.inInt64_of_abs_le (abs_le.mpr ⟨by linarith [hb.cost_nonneg], by linarith⟩)

theorem fits_excess (p : List Bool) :
    Script.inInt64 (-target) = true ∧ Script.inInt64 (selValue pool p - target) = true := by
  have h := abs_le.mp hb.target_le
  obtain ⟨h₁, h₂⟩ := hb.selValue_mem p
  exact ⟨Amount.inInt64_of_abs_le (abs_le.mpr ⟨by linarith, by linarith⟩),
    Amount.inInt64_of_abs_le (abs_le.mpr ⟨by linarith, by linarith⟩)⟩

theorem fits_waste_excess (p : List Bool) :
    Script.inInt64 (selWaste pool p + (selValue pool p - target)) = true := by
  have h := abs_le.mp hb.target_le
  have hw := abs_le.mp (hb.abs_selWaste_le_max p)
  obtain ⟨h₁, h₂⟩ := hb.selValue_mem p
  exact Amount.inInt64_of_abs_le (abs_le.mpr ⟨by linarith, by linarith⟩)

theorem fits_group_waste {g : OutputGroup CInputCoin} (hg : g ∈ pool) :
    Script.inInt64 (-g.long_term_fee.amount) = true ∧
      Script.inInt64 (g.fee.amount - g.long_term_fee.amount) = true := by
  have h := abs_le.mp (hb.long_term_fee_le g hg)
  have hw := abs_le.mp (hb.abs_waste_le hg)
  unfold OutputGroup.waste at hw
  exact ⟨Amount.inInt64_of_abs_le (abs_le.mpr ⟨by linarith, by linarith⟩),
    Amount.inInt64_of_abs_le (abs_le.mpr ⟨by linarith, by linarith⟩)⟩

end SearchBounds

/-! ## The C++ state over the walk -/

/-- The C++ locals stand at the walk's node, with the walk's sums. -/
structure Refines (pool : List (OutputGroup CInputCoin)) (s : BnBState) (w : Walk) : Prop where
  selection : s.curr_selection = w.node.reverse
  value : s.curr_value.amount = selValue pool w.node
  available : s.curr_available_value.amount = availValue pool w.node
  waste : s.curr_waste.amount = selWaste pool w.node
  best : s.best_selection = w.best
  best_waste : s.best_waste.amount = w.bestWaste

/-- One iteration of each: both go on from related states, or both stop with
the same best selection. -/
def StepRefines (pool : List (OutputGroup CInputCoin)) : ForInStep BnBState → ForInStep Walk → Prop
  | .yield s, .yield w => Refines pool s w
  | .done s, .done w => s.best_selection = w.best
  | _, _ => False

section Steps

variable {pool : List (OutputGroup CInputCoin)} {actual_target cost_of_change : Amount}
  {s : BnBState} {w : Walk}

/-- The backtrack conditions compute `Walk.prunes`. The waste bound reads
`utxo_pool.at(0)` only where the waste has grown past the best, which on an
empty pool it never does. -/
theorem backtrackCond_returns (hs : Refines pool s w)
    (hw : w.Ok pool actual_target.amount cost_of_change.amount) :
    Returns .overflow (SearchBounds pool actual_target.amount cost_of_change.amount)
      (backtrackCond pool actual_target cost_of_change s)
      (· = w.prunes pool actual_target.amount cost_of_change.amount) := by
  unfold backtrackCond
  refine ((Amount.add_returns _ _).weaken fun hb => ?_).bind fun reach hreach => ?_
  · rw [hs.value, hs.available]
    exact hb.fits_reach w.node
  subst hreach
  dsimp only
  rw [hs.value, hs.available]
  by_cases h₁ : selValue pool w.node + availValue pool w.node < actual_target.amount
  · rw [if_pos h₁]
    exact .pure (Walk.prunes_eq_true.mpr (.inl h₁)).symm
  rw [if_neg h₁]
  refine ((Amount.add_returns _ _).weaken fun hb => hb.fits_upper).bind fun upper hupper => ?_
  subst hupper
  dsimp only
  by_cases h₂ : selValue pool w.node > actual_target.amount + cost_of_change.amount
  · rw [if_pos h₂]
    exact .pure (Walk.prunes_eq_true.mpr (.inr (.inl h₂))).symm
  rw [if_neg h₂, hs.waste, hs.best_waste]
  by_cases h₃ : selWaste pool w.node > w.bestWaste
  · rw [if_pos h₃]
    -- on an empty pool the node is empty and its waste zero, never past the best
    have hne : pool ≠ [] := by
      rintro rfl
      have hnil : w.node = [] := List.eq_nil_of_length_eq_zero (by simpa using hw.node_length)
      have hbest := hw.empty_pool rfl
      rw [hnil] at h₃
      simp [selWaste] at h₃
      omega
    obtain ⟨g, rest, rfl⟩ := List.exists_cons_of_ne_nil hne
    have hg : vecAt (g :: rest) 0 = .ok g := rfl
    rw [hg, ok_bind, ok_bind]
    refine ((Amount.sub_returns _ _).weaken fun hb =>
      hb.fits_group_waste List.mem_cons_self).bind fun d hd => ?_
    subst hd
    refine .pure ?_
    simp [Walk.prunes, h₁, h₂, h₃, firstWasteGrows, OutputGroup.waste]
  · rw [if_neg h₃]
    refine .pure ?_
    simp [Walk.prunes, h₁, h₂, h₃]

/-- The `while` loop of the backtrack pops the trailing excluded groups and
gives their values back: `curr_available_value` stays the walk's. The
induction is on `curr_selection`, back first. -/
theorem popExcluded_returns {target cost : Int} :
    ∀ (st : List Bool) (avail : Amount), st.length ≤ pool.length →
      avail.amount = availValue pool st.reverse →
      Returns .overflow (SearchBounds pool target cost) (popExcluded pool st avail)
        (fun r => r.1 = st.dropWhile (!·) ∧ r.2.amount = availValue pool r.1.reverse)
  | [], _, _, h => .pure ⟨rfl, h⟩
  | true :: _, _, _, h => .pure ⟨rfl, h⟩
  | false :: st, avail, hlen, h => by
    have hk : st.length < pool.length := by simp at hlen; omega
    have hk' : st.reverse.length < pool.length := by simpa using hk
    rw [popExcluded, vecAt_of_lt hk, ok_bind]
    -- the popped group's value goes back
    have hback : avail.amount + pool[st.length].effective_value.amount =
        availValue pool st.reverse := by
      rw [h, List.reverse_cons, ← availValue_append_singleton hk' false]
      simp
    refine ((Amount.add_returns _ _).weaken fun hb => ?_).bind fun a ha => ?_
    · rw [hback]
      exact hb.fits_availValue _
    subst ha
    rw [List.dropWhile_cons_of_pos rfl]
    exact popExcluded_returns st _ hk.le hback

/-- Backtracking: to `q ++ [false]` from `q ++ true :: false^j`, with the
group at `q.length` taken out of the value and the waste; or the end of the
walk from `false^j`. -/
theorem backtrackStep_returns (hs : Refines pool s w) (hlen : w.node.length ≤ pool.length) :
    Returns .overflow (SearchBounds pool actual_target.amount cost_of_change.amount)
      (backtrackStep pool s) (StepRefines pool · w.backtrack) := by
  unfold backtrackStep
  rw [hs.selection]
  refine (popExcluded_returns w.node.reverse s.curr_available_value (by simpa using hlen)
    (by rw [List.reverse_reverse, hs.available])).bind fun r hr => ?_
  obtain ⟨sel, avail⟩ := r
  obtain ⟨hsel, havail⟩ := hr
  dsimp only at hsel havail ⊢
  subst hsel
  unfold Walk.backtrack TreeWalk.backtrack
  rcases backtrack_cases w.node with ⟨j, hnode, -⟩ | ⟨q, j, hnode, -⟩
  · -- nothing included is left: the walk ends
    have hd : w.node.reverse.dropWhile (!·) = [] := by
      rw [hnode]
      exact reverse_dropWhile_replicate_false j
    rw [hd]
    exact .pure hs.best
  · have hd : w.node.reverse.dropWhile (!·) = true :: q.reverse := by
      rw [hnode]
      exact reverse_dropWhile_append_true q j
    have hj : q.length + 1 + j ≤ pool.length := by
      rw [hnode] at hlen
      simp at hlen
      omega
    have hq : q.length < pool.length := by omega
    rw [hd] at havail ⊢
    dsimp only
    rw [List.length_reverse, vecAt_of_lt hq, ok_bind]
    have hvalue := selValue_backtrack hj
    have hwaste := selWaste_backtrack hj
    rw [← hnode] at hvalue hwaste
    refine ((Amount.subAssign_returns _ _).weaken fun hb => ?_).bind fun v hv => ?_
    · rw [hs.value, hvalue, add_sub_cancel_right]
      exact hb.fits_selValue _
    subst hv
    refine ((Amount.sub_returns _ _).weaken fun hb =>
      hb.fits_group_waste (List.getElem_mem hq)).bind fun d hd => ?_
    subst hd
    refine ((Amount.subAssign_returns _ _).weaken fun hb => ?_).bind fun c hc => ?_
    · rw [hs.waste, hwaste]
      unfold OutputGroup.waste
      rw [add_sub_cancel_right]
      exact hb.fits_selWaste _
    subst hc
    refine .pure ?_
    exact { selection := by simp
            value := by
              show s.curr_value.amount - _ = _
              rw [hs.value, hvalue, List.reverse_reverse, add_sub_cancel_right]
            available := by
              rw [havail]
              simp [availValue]
            waste := by
              show s.curr_waste.amount - _ = _
              rw [hs.waste, hwaste, List.reverse_reverse]
              unfold OutputGroup.waste
              rw [add_sub_cancel_right]
            best := hs.best
            best_waste := hs.best_waste }

/-- The equivalence check computes `skips`. -/
theorem skipCond_eq {p : List Bool} (hp : p.length < pool.length) :
    skipCond pool pool[p.length] p.reverse = .ok (skips pool p) := by
  rcases List.eq_nil_or_concat' p with rfl | ⟨q, b, rfl⟩
  · rfl
  · have hq : q.length < pool.length := by simp at hp; omega
    rw [List.reverse_append, List.reverse_singleton, List.singleton_append]
    cases b
    · -- the last choice excluded the group at `q.length`
      have hp' : q.length + 1 < pool.length := by simpa using hp
      rw [skipCond, List.length_reverse, vecAt_of_lt hq, ok_bind]
      have hlast : (q ++ [false]).getLast? = some false := by simp
      have hidx : (q ++ [false]).length = q.length + 1 := by simp
      simp only [skips, hlast, hidx, Nat.add_sub_cancel, List.getElem?_eq_getElem hp',
        List.getElem?_eq_getElem hq]
      by_cases hev : pool[q.length + 1].effective_value = pool[q.length].effective_value
      · simp [hev]
      · simp [hev]
    · simp [skipCond, skips]

/-- Going one group deeper: the group at the node's depth is taken off the
value still available, and included, or excluded where `skips` holds. -/
theorem forwardStep_returns (hs : Refines pool s w) (hlen : w.node.length < pool.length) :
    Returns .overflow (SearchBounds pool actual_target.amount cost_of_change.amount)
      (forwardStep pool s) (StepRefines pool · (.yield (w.forward pool))) := by
  unfold forwardStep
  rw [hs.selection, List.length_reverse, vecAt_of_lt hlen, ok_bind]
  have havail := availValue_append_singleton hlen (!skips pool w.node)
  refine ((Amount.subAssign_returns _ _).weaken fun hb => ?_).bind fun a ha => ?_
  · rw [hs.available, ← havail, add_sub_cancel_right]
    exact hb.fits_availValue _
  subst ha
  rw [skipCond_eq hlen, ok_bind]
  have hvalue := selValue_append_singleton hlen (!skips pool w.node)
  have hwaste := selWaste_append_singleton hlen (!skips pool w.node)
  cases hskip : skips pool w.node
  · -- included
    rw [hskip] at havail hvalue hwaste
    simp only [Bool.false_eq_true, ↓reduceIte, Bool.not_false] at hvalue hwaste ⊢
    refine ((Amount.add_returns _ _).weaken fun hb => ?_).bind fun v hv => ?_
    · rw [hs.value, ← hvalue]
      exact hb.fits_selValue _
    subst hv
    refine ((Amount.sub_returns _ _).weaken fun hb =>
      hb.fits_group_waste (List.getElem_mem hlen)).bind fun d hd => ?_
    subst hd
    refine ((Amount.add_returns _ _).weaken fun hb => ?_).bind fun c hc => ?_
    · rw [hs.waste]
      show Script.inInt64 (selWaste pool w.node + pool[w.node.length].waste) = true
      rw [← hwaste]
      exact hb.fits_selWaste _
    subst hc
    refine .pure ?_
    exact { selection := by simp [Walk.forward, hskip]
            value := by simp [Walk.forward, hskip, hs.value, hvalue]
            available := by
              rw [hs.available, ← havail]
              simp [Walk.forward, hskip]
            waste := by
              simp only [Walk.forward, hskip, Bool.not_false]
              rw [hwaste, hs.waste]
              rfl
            best := hs.best
            best_waste := hs.best_waste }
  · -- the inclusion skipped
    rw [hskip] at havail hvalue hwaste
    simp only [↓reduceIte, Bool.not_true, Bool.false_eq_true, add_zero] at hvalue hwaste ⊢
    refine .pure ?_
    exact { selection := by simp [Walk.forward, hskip]
            value := by simp [Walk.forward, hskip, hs.value, hvalue]
            available := by
              rw [hs.available, ← havail]
              simp [Walk.forward, hskip]
            waste := by simp [Walk.forward, hskip, hs.waste, hwaste]
            best := hs.best
            best_waste := hs.best_waste }

/-- Taking the excess back off the waste returns it to the node's waste. -/
theorem removeExcess_returns {c : Prop} {v x : Int} (hv : s.curr_value.amount = v)
    (hw : s.curr_waste.amount = x + (v - actual_target.amount))
    (hfit : c → Script.inInt64 (-actual_target.amount) = true ∧
      Script.inInt64 (v - actual_target.amount) = true)
    (hfit' : c → Script.inInt64 x = true) :
    Returns .overflow c (removeExcess actual_target s) (· = { s with curr_waste := ⟨x⟩ }) := by
  unfold removeExcess
  refine ((Amount.sub_returns _ _).weaken fun hc => by rw [hv]; exact hfit hc).bind
    fun e he => ?_
  subst he
  refine ((Amount.subAssign_returns _ _).weaken fun hc => ?_).bind fun d hd => ?_
  · rw [hw, hv, add_sub_cancel_right]
    exact hfit' hc
  subst hd
  refine .pure ?_
  rw [hw, hv, add_sub_cancel_right]

/-- Recording a selection in range computes `Walk.record`: the best selection
is the node resized to the pool, and the waste is the node's again after. -/
theorem recordBest_returns (hs : Refines pool s w) :
    Returns .overflow (SearchBounds pool actual_target.amount cost_of_change.amount)
      (recordBest pool actual_target s) (StepRefines pool · (w.record pool actual_target.amount)) := by
  unfold recordBest
  refine ((Amount.sub_returns _ _).weaken fun hb => by
    rw [hs.value]; exact hb.fits_excess w.node).bind fun e he => ?_
  subst he
  refine ((Amount.add_returns _ _).weaken fun hb => by
    rw [hs.waste, hs.value]; exact hb.fits_waste_excess w.node).bind fun cw hcw => ?_
  subst hcw
  unfold Walk.record
  dsimp only
  rw [hs.waste, hs.value, hs.best_waste]
  have hresize : resize s.curr_selection.reverse pool.length = resize w.node pool.length := by
    rw [hs.selection, List.reverse_reverse]
  by_cases hle : selWaste pool w.node + (selValue pool w.node - actual_target.amount) ≤ w.bestWaste
  · rw [if_pos hle, if_pos hle]
    by_cases h0 : selWaste pool w.node + (selValue pool w.node - actual_target.amount) = 0
    · rw [if_pos h0, if_pos h0]
      exact .pure hresize
    · rw [if_neg h0, if_neg h0]
      refine (removeExcess_returns (c := SearchBounds pool actual_target.amount cost_of_change.amount)
        (v := selValue pool w.node) (x := selWaste pool w.node)
        (by exact hs.value) (by rfl) (fun hb => hb.fits_excess w.node)
        (fun hb => hb.fits_selWaste w.node)).bind
        fun s' hs' => ?_
      subst hs'
      exact .pure { selection := hs.selection, value := hs.value, available := hs.available,
                    waste := rfl, best := hresize, best_waste := rfl }
  · rw [if_neg hle, if_neg hle]
    refine (removeExcess_returns (c := SearchBounds pool actual_target.amount cost_of_change.amount)
        (v := selValue pool w.node) (x := selWaste pool w.node)
      (by exact hs.value) (by rfl) (fun hb => hb.fits_excess w.node)
      (fun hb => hb.fits_selWaste w.node)).bind
      fun s' hs' => ?_
    subst hs'
    exact .pure { selection := hs.selection, value := hs.value, available := hs.available,
                  waste := rfl, best := hs.best, best_waste := hs.best_waste }

/-- One iteration of the C++ loop computes one step of the walk. -/
theorem bnbIteration_returns (hs : Refines pool s w)
    (hw : w.Ok pool actual_target.amount cost_of_change.amount) :
    Returns .overflow (SearchBounds pool actual_target.amount cost_of_change.amount)
      (bnbIteration pool actual_target cost_of_change s)
      (StepRefines pool · (w.step pool actual_target.amount cost_of_change.amount)) := by
  unfold bnbIteration Walk.step
  refine (backtrackCond_returns hs hw).bind fun b hb => ?_
  subst hb
  by_cases hp : w.prunes pool actual_target.amount cost_of_change.amount = true
  · rw [if_pos hp, if_pos hp]
    exact backtrackStep_returns hs hw.node_length
  rw [if_neg hp, if_neg hp, hs.value]
  by_cases hlo : selValue pool w.node ≥ actual_target.amount
  · rw [if_pos hlo, if_pos (show actual_target.amount ≤ selValue pool w.node from hlo)]
    refine (recordBest_returns hs).bind fun r hr => ?_
    have hnode : (w.record pool actual_target.amount).value.node = w.node := Walk.record_node w
    cases hrec : w.record pool actual_target.amount with
    | done w' =>
      rw [hrec] at hr
      cases r with
      | done s' => exact .pure hr
      | yield s' => exact hr.elim
    | yield w' =>
      rw [hrec] at hr hnode
      cases r with
      | done s' => exact hr.elim
      | yield s' =>
        exact backtrackStep_returns hr (by rw [ForInStep.value_yield] at hnode; rw [hnode]; exact hw.node_length)
  · rw [if_neg hlo, if_neg (show ¬actual_target.amount ≤ selValue pool w.node from hlo)]
    exact forwardStep_returns hs
      (Walk.node_length_lt_of_forward (by simpa using hp) (by omega))

/-- The C++ loop computes the walk's loop, up to the best selection. The
induction is on the iterations. -/
theorem bnbLoop_returns :
    ∀ (tries : Nat) {s : BnBState} {w : Walk}, Refines pool s w →
      w.Ok pool actual_target.amount cost_of_change.amount →
      Returns .overflow (SearchBounds pool actual_target.amount cost_of_change.amount)
        (bnbLoop pool actual_target cost_of_change tries s)
        (fun s' => s'.best_selection =
          (walkLoop pool actual_target.amount cost_of_change.amount tries w).best)
  | 0, _, _, hs, _ => .pure hs.best
  | tries + 1, s, w, hs, hw => by
    rw [bnbLoop, walkLoop]
    refine (bnbIteration_returns hs hw).bind fun r hr => ?_
    have hok := hw.step
    cases hstep : w.step pool actual_target.amount cost_of_change.amount with
    | done w' =>
      rw [hstep] at hr
      cases r with
      | done s' => exact .pure hr
      | yield s' => exact hr.elim
    | yield w' =>
      rw [hstep] at hr hok
      cases r with
      | done s' => exact hr.elim
      | yield s' => exact bnbLoop_returns tries hr hok

end Steps

end Wallet

end BitcoinAbc
