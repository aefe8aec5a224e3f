import Mathlib
import BitcoinAbc.Lib.TreeWalk
import BitcoinAbc.Wallet.CoinSelection

/-!
# The branch-and-bound search on exact sums

`SelectCoinsBnB` keeps three running sums beside `curr_selection`; each is a
function of the choices made so far. Here the search is a walk over the
choices alone (`Walk`), in pool order, its sums computed exactly from the
pool: `selValue`, `selWaste` and `availValue`. `Walk.step` is one iteration
of the loop on those sums, and `walkLoop` the loop; the C++ loop refines it
(`Wallet/BnBRefinement`).

The walk is a pruned depth-first search of `TreeWalk` for a leaf whose value
is in range:

- `Walk.Ok`: the node is never deeper than the pool, and a best selection is a
  full selection in range; every step keeps it, for every pool and range;
- `Walk.Searching`: while nothing is found, no leaf left of the node is in
  range. Within `SearchBounds` every step keeps it: the backtracks are
  justified by `TreeWalk.Barren` (the sum can no longer reach the range, or
  has left it), the equivalence skip by `TreeWalk.barren_of_swap`, and the
  first selection in range is always recorded;
- `walkLoop_decided`: a loop given `2 ^ (n + 1) - 1` iterations has found a
  selection in range or has seen that there is none, since every step moves
  forward in the preorder of the tree (`Walk.rank_lt_of_step`).
-/

namespace BitcoinAbc

namespace Wallet

open TreeWalk

variable {CInputCoin : Type}

/-! ## Selections -/

/-- The elements a selection picks, in order: one choice for each of the
first elements, `true` to pick it. -/
def picked {α : Type} : List α → List Bool → List α
  | [], _ => []
  | _ :: _, [] => []
  | x :: xs, true :: bs => x :: picked xs bs
  | _ :: xs, false :: bs => picked xs bs

section Picked

variable {α : Type}

@[simp] theorem picked_nil_left (bs : List Bool) : picked ([] : List α) bs = [] := rfl

@[simp] theorem picked_nil_right (xs : List α) : picked xs [] = [] := by
  cases xs <;> rfl

@[simp] theorem picked_cons_true (x : α) (xs : List α) (bs : List Bool) :
    picked (x :: xs) (true :: bs) = x :: picked xs bs := rfl

@[simp] theorem picked_cons_false (x : α) (xs : List α) (bs : List Bool) :
    picked (x :: xs) (false :: bs) = picked xs bs := rfl

/-- The choices after the first `p.length` ones pick from the rest of the
list. -/
theorem picked_append {xs : List α} {p : List Bool} (h : p.length ≤ xs.length) (r : List Bool) :
    picked xs (p ++ r) = picked xs p ++ picked (xs.drop p.length) r := by
  induction p generalizing xs with
  | nil => simp
  | cons b p ih =>
    cases xs with
    | nil => simp at h
    | cons x xs =>
      have h' : p.length ≤ xs.length := by simpa using h
      cases b <;> simp [ih h']

theorem picked_replicate_false (xs : List α) (j : Nat) :
    picked xs (List.replicate j false) = [] := by
  induction j generalizing xs with
  | zero => simp
  | succ j ih =>
    cases xs with
    | nil => rfl
    | cons x xs => rw [List.replicate_succ, picked_cons_false, ih]

theorem picked_sublist : ∀ (xs : List α) (bs : List Bool), (picked xs bs).Sublist xs
  | [], _ => List.Sublist.slnil
  | _ :: _, [] => List.nil_sublist _
  | x :: xs, true :: bs => (picked_sublist xs bs).cons_cons x
  | x :: xs, false :: bs => (picked_sublist xs bs).cons x

/-- Every sublist is picked by a full selection. -/
theorem exists_picked_eq {l xs : List α} (h : l.Sublist xs) :
    ∃ p, p.length = xs.length ∧ picked xs p = l := by
  induction h with
  | slnil => exact ⟨[], rfl, rfl⟩
  | cons x _ ih =>
    obtain ⟨p, hp, hpick⟩ := ih
    exact ⟨false :: p, by simp [hp], by simp [hpick]⟩
  | cons_cons x _ ih =>
    obtain ⟨p, hp, hpick⟩ := ih
    exact ⟨true :: p, by simp [hp], by simp [hpick]⟩

/-- One more choice, for the element at its index. -/
theorem picked_append_singleton {xs : List α} {p : List Bool} (h : p.length < xs.length)
    (b : Bool) : picked xs (p ++ [b]) = picked xs p ++ if b then [xs[p.length]] else [] := by
  have hdrop : xs.drop p.length = xs[p.length] :: xs.drop (p.length + 1) :=
    List.drop_eq_getElem_cons h
  rw [picked_append h.le, hdrop]
  cases b <;> simp only [picked_cons_true, picked_cons_false, picked_nil_right] <;> rfl

end Picked

/-! ## The sums at a node -/

/-- `fee - long_term_fee`: what spending the group now costs over spending it
later. -/
def OutputGroup.waste (g : OutputGroup CInputCoin) : Int := g.fee.amount - g.long_term_fee.amount

/-- `target ≤ v ≤ target + cost`. -/
def InRange (target cost v : Int) : Prop := target ≤ v ∧ v ≤ target + cost

instance (target cost v : Int) : Decidable (InRange target cost v) :=
  inferInstanceAs (Decidable (_ ∧ _))

section Sums

variable (pool : List (OutputGroup CInputCoin))

/-- `curr_value` at the node `p`: the effective value of what it picks. -/
def selValue (p : List Bool) : Int := ((picked pool p).map (·.effective_value.amount)).sum

/-- `curr_waste` at `p`. -/
def selWaste (p : List Bool) : Int := ((picked pool p).map OutputGroup.waste).sum

/-- `curr_available_value` at `p`: the effective value of the groups not
decided yet. -/
def availValue (p : List Bool) : Int := ((pool.drop p.length).map (·.effective_value.amount)).sum

variable {pool}

theorem selValue_append_singleton {p : List Bool} (h : p.length < pool.length) (b : Bool) :
    selValue pool (p ++ [b]) =
      selValue pool p + if b then pool[p.length].effective_value.amount else 0 := by
  unfold selValue
  rw [picked_append_singleton h]
  cases b <;> simp

theorem selWaste_append_singleton {p : List Bool} (h : p.length < pool.length) (b : Bool) :
    selWaste pool (p ++ [b]) = selWaste pool p + if b then pool[p.length].waste else 0 := by
  unfold selWaste
  rw [picked_append_singleton h]
  cases b <;> simp

theorem availValue_append_singleton {p : List Bool} (h : p.length < pool.length) (b : Bool) :
    availValue pool (p ++ [b]) + pool[p.length].effective_value.amount = availValue pool p := by
  unfold availValue
  rw [List.length_append, List.length_singleton, List.drop_eq_getElem_cons h, List.map_cons,
    List.sum_cons]
  ring

theorem selValue_append_replicate_false {p : List Bool} (h : p.length ≤ pool.length) (j : Nat) :
    selValue pool (p ++ List.replicate j false) = selValue pool p := by
  unfold selValue
  rw [picked_append h, picked_replicate_false, List.append_nil]

theorem selWaste_append_replicate_false {p : List Bool} (h : p.length ≤ pool.length) (j : Nat) :
    selWaste pool (p ++ List.replicate j false) = selWaste pool p := by
  unfold selWaste
  rw [picked_append h, picked_replicate_false, List.append_nil]

/-- A selection resized to the pool selects what it did. -/
theorem selValue_resize {p : List Bool} (h : p.length ≤ pool.length) :
    selValue pool (resize p pool.length) = selValue pool p := by
  rw [resize, List.take_of_length_le h, selValue_append_replicate_false h]

theorem length_resize {p : List Bool} (h : p.length ≤ pool.length) :
    (resize p pool.length).length = pool.length := by
  simp [resize]
  omega

theorem selWaste_replicate_false (j : Nat) : selWaste pool (List.replicate j false) = 0 := by
  simp [selWaste, picked_replicate_false]

theorem selValue_replicate_false (j : Nat) : selValue pool (List.replicate j false) = 0 := by
  simp [selValue, picked_replicate_false]

/-- A node as deep as the pool has nothing left to decide. -/
theorem availValue_eq_zero {p : List Bool} (h : pool.length ≤ p.length) : availValue pool p = 0 := by
  simp [availValue, List.drop_eq_nil_of_le h]

/-- The equivalence of two neighbours of the same effective value: swapping
their choices keeps the value. -/
theorem selValue_swap {q : List Bool} (hq : q.length + 1 < pool.length)
    (hev : pool[q.length + 1].effective_value = pool[q.length].effective_value) (r : List Bool) :
    selValue pool (q ++ false :: true :: r) = selValue pool (q ++ true :: false :: r) := by
  have hdrop : pool.drop q.length =
      pool[q.length] :: pool[q.length + 1] :: pool.drop (q.length + 2) := by
    rw [List.drop_eq_getElem_cons (by omega), List.drop_eq_getElem_cons (by omega)]
  unfold selValue
  rw [picked_append (by omega), picked_append (by omega), hdrop]
  simp only [picked_cons_true, picked_cons_false, List.map_append, List.map_cons, List.sum_append,
    List.sum_cons, hev]

/-- Backtracking from `q ++ true :: false^j` takes the group at `q.length`
out of the selection. -/
theorem selValue_backtrack {q : List Bool} {j : Nat} (hj : q.length + 1 + j ≤ pool.length) :
    selValue pool (q ++ true :: List.replicate j false) =
      selValue pool (q ++ [false]) + pool[q.length].effective_value.amount := by
  have hsplit : q ++ true :: List.replicate j false = (q ++ [true]) ++ List.replicate j false := by
    simp
  rw [hsplit, selValue_append_replicate_false (by simp; omega), selValue_append_singleton (by omega),
    selValue_append_singleton (by omega)]
  simp

theorem selWaste_backtrack {q : List Bool} {j : Nat} (hj : q.length + 1 + j ≤ pool.length) :
    selWaste pool (q ++ true :: List.replicate j false) =
      selWaste pool (q ++ [false]) + pool[q.length].waste := by
  have hsplit : q ++ true :: List.replicate j false = (q ++ [true]) ++ List.replicate j false := by
    simp
  rw [hsplit, selWaste_append_replicate_false (by simp; omega), selWaste_append_singleton (by omega),
    selWaste_append_singleton (by omega)]
  simp

/-- `fee - long_term_fee` is bounded by the sum of its sizes. -/
theorem abs_selWaste_le (p : List Bool) :
    |selWaste pool p| ≤ (pool.map fun g => |g.waste|).sum := by
  have habs := Multiset.abs_sum_le_sum_abs
    (s := (((picked pool p).map OutputGroup.waste : List Int) : Multiset Int))
  rw [Multiset.sum_coe, Multiset.map_coe, Multiset.sum_coe, List.map_map] at habs
  unfold selWaste
  calc |((picked pool p).map OutputGroup.waste).sum|
      ≤ ((picked pool p).map fun g => |g.waste|).sum := habs
    _ ≤ (pool.map fun g => |g.waste|).sum :=
        ((picked_sublist pool p).map _).sum_le_sum fun x hx => by
          obtain ⟨g, -, rfl⟩ := List.mem_map.mp hx
          exact abs_nonneg _

section Positive

variable (hpos : ∀ g ∈ pool, 0 < g.effective_value.amount)
include hpos

theorem selValue_nonneg (p : List Bool) : 0 ≤ selValue pool p :=
  List.sum_nonneg fun x hx => by
    obtain ⟨g, hg, rfl⟩ := List.mem_map.mp hx
    exact (hpos g ((picked_sublist pool p).subset hg)).le

theorem selValue_le_sum (p : List Bool) :
    selValue pool p ≤ (pool.map (·.effective_value.amount)).sum :=
  ((picked_sublist pool p).map _).sum_le_sum fun x hx => by
    obtain ⟨g, hg, rfl⟩ := List.mem_map.mp hx
    exact (hpos g hg).le

theorem availValue_nonneg (p : List Bool) : 0 ≤ availValue pool p :=
  List.sum_nonneg fun x hx => by
    obtain ⟨g, hg, rfl⟩ := List.mem_map.mp hx
    exact (hpos g (List.mem_of_mem_drop hg)).le

theorem availValue_le_sum (p : List Bool) :
    availValue pool p ≤ (pool.map (·.effective_value.amount)).sum :=
  ((List.drop_sublist _ pool).map _).sum_le_sum fun x hx => by
    obtain ⟨g, hg, rfl⟩ := List.mem_map.mp hx
    exact (hpos g hg).le

/-- Below a node, the value is at least the node's and at most what the
groups left could bring. -/
theorem selValue_bounds_of_prefix {p v : List Bool} (hp : p.length ≤ pool.length) (hv : p <+: v) :
    selValue pool p ≤ selValue pool v ∧ selValue pool v ≤ selValue pool p + availValue pool p := by
  obtain ⟨r, rfl⟩ := hv
  have hsplit : selValue pool (p ++ r) =
      selValue pool p + ((picked (pool.drop p.length) r).map (·.effective_value.amount)).sum := by
    unfold selValue
    rw [picked_append hp, List.map_append, List.sum_append]
  have hsub := (picked_sublist (pool.drop p.length) r).map (·.effective_value.amount)
  have hpos' : ∀ x ∈ (pool.drop p.length).map (·.effective_value.amount), 0 ≤ x := fun x hx => by
    obtain ⟨g, hg, rfl⟩ := List.mem_map.mp hx
    exact (hpos g (List.mem_of_mem_drop hg)).le
  have hle := hsub.sum_le_sum hpos'
  have hnn : 0 ≤ ((picked (pool.drop p.length) r).map (·.effective_value.amount)).sum :=
    List.sum_nonneg fun x hx => hpos' x (hsub.subset hx)
  rw [hsplit]
  exact ⟨by linarith, by unfold availValue; linarith⟩

end Positive

end Sums

/-! ## The walk -/

/-- The search without its running sums: the node it stands at, the choices
in pool order, and the best selection with its waste. -/
structure Walk where
  node : List Bool
  best : List Bool
  bestWaste : Int
  deriving DecidableEq, Repr

/-- `fee - long_term_fee > 0` for the first group, the test the waste bound is
guarded by. -/
def firstWasteGrows : List (OutputGroup CInputCoin) → Bool
  | [] => false
  | g :: _ => decide (g.waste > 0)

/-- Whether to exclude the next group without trying it: the last choice
excluded a group of the same effective value and fee. -/
def skips (pool : List (OutputGroup CInputCoin)) (p : List Bool) : Bool :=
  match p.getLast?, pool[p.length]?, pool[p.length - 1]? with
  | some false, some g, some g' => decide (g.effective_value = g'.effective_value ∧ g.fee = g'.fee)
  | _, _, _ => false

section Step

variable (pool : List (OutputGroup CInputCoin)) (target cost : Int)

namespace Walk

/-- Backtracking, or the end of the walk at the empty node. -/
def backtrack (w : Walk) : ForInStep Walk :=
  match TreeWalk.backtrack w.node with
  | none => .done { w with node := [] }
  | some p => .yield { w with node := p }

/-- The three conditions for starting a backtrack. -/
def prunes (w : Walk) : Bool :=
  decide (selValue pool w.node + availValue pool w.node < target) ||
    decide (selValue pool w.node > target + cost) ||
    (decide (selWaste pool w.node > w.bestWaste) && firstWasteGrows pool)

/-- The selection is in range: keep it if it wastes no more than the best one,
and end the walk at a waste of zero. -/
def record (w : Walk) : ForInStep Walk :=
  let waste := selWaste pool w.node + (selValue pool w.node - target)
  if waste ≤ w.bestWaste then
    if waste = 0 then .done { w with best := resize w.node pool.length, bestWaste := waste }
    else .yield { w with best := resize w.node pool.length, bestWaste := waste }
  else .yield w

/-- Going one group deeper. -/
def forward (w : Walk) : Walk := { w with node := w.node ++ [!skips pool w.node] }

/-- One iteration of the search loop. -/
def step (w : Walk) : ForInStep Walk :=
  if w.prunes pool target cost then w.backtrack
  else if target ≤ selValue pool w.node then
    match w.record pool target with
    | .done w' => .done w'
    | .yield w' => w'.backtrack
  else .yield (w.forward pool)

end Walk

/-- The search loop, for at most `tries` iterations. -/
def walkLoop : Nat → Walk → Walk
  | 0, w => w
  | tries + 1, w =>
    match w.step pool target cost with
    | .done w' => w'
    | .yield w' => walkLoop tries w'

end Step

/-! ## What every walk keeps -/

section Invariants

variable {pool : List (OutputGroup CInputCoin)} {target cost : Int} {w w' : Walk}

namespace Walk

theorem backtrack_best (w : Walk) : (w.backtrack).value.best = w.best := by
  unfold backtrack
  split <;> rfl

theorem backtrack_bestWaste (w : Walk) : (w.backtrack).value.bestWaste = w.bestWaste := by
  unfold backtrack
  split <;> rfl

theorem backtrack_node_length (w : Walk) : (w.backtrack).value.node.length ≤ w.node.length := by
  unfold backtrack
  split
  · exact Nat.zero_le _
  · exact length_le_of_backtrack_eq_some ‹_›

theorem backtrack_eq_yield : w.backtrack = .yield w' ↔
    ∃ p, TreeWalk.backtrack w.node = some p ∧ w' = { w with node := p } := by
  unfold backtrack
  cases h : TreeWalk.backtrack w.node with
  | none => simp
  | some p => simp [eq_comm]

theorem record_node (w : Walk) : (w.record pool target).value.node = w.node := by
  unfold record
  dsimp only
  split
  · split <;> rfl
  · rfl

/-- Recording puts the node's selection in place of the best one where it
wastes no more. -/
theorem record_best (w : Walk) :
    (w.record pool target).value.best =
      if selWaste pool w.node + (selValue pool w.node - target) ≤ w.bestWaste then
        resize w.node pool.length
      else w.best := by
  unfold record
  dsimp only
  split
  · split <;> rfl
  · rfl

/-- What `prunes` tests. -/
theorem prunes_eq_true :
    w.prunes pool target cost = true ↔
      selValue pool w.node + availValue pool w.node < target ∨
        selValue pool w.node > target + cost ∨
          (selWaste pool w.node > w.bestWaste ∧ firstWasteGrows pool = true) := by
  simp [prunes, Bool.or_eq_true, Bool.and_eq_true, or_assoc]

/-- A node the walk does not backtrack from is within reach of the range and
not past it. -/
theorem bounds_of_prunes_eq_false (hp : w.prunes pool target cost = false) :
    target ≤ selValue pool w.node + availValue pool w.node ∧ selValue pool w.node ≤ target + cost := by
  have hnot : ¬ (selValue pool w.node + availValue pool w.node < target ∨
      selValue pool w.node > target + cost ∨
        (selWaste pool w.node > w.bestWaste ∧ firstWasteGrows pool = true)) := by
    rw [← prunes_eq_true, hp]
    exact Bool.false_ne_true
  omega

/-- The walk only goes deeper where the groups left could still reach the
range, so never below a full selection. -/
theorem node_length_lt_of_forward (hp : w.prunes pool target cost = false)
    (hlt : selValue pool w.node < target) : w.node.length < pool.length := by
  by_contra hge
  have havail : availValue pool w.node = 0 := availValue_eq_zero (by omega)
  have hreach := (bounds_of_prunes_eq_false hp).1
  omega

/-- The node is never deeper than the pool, and a best selection is a full
selection in range; on an empty pool the best waste stays non-negative, so
that the waste bound, which reads the first group, is never tested there. -/
structure Ok (pool : List (OutputGroup CInputCoin)) (target cost : Int) (w : Walk) : Prop where
  node_length : w.node.length ≤ pool.length
  empty_pool : pool = [] → 0 ≤ w.bestWaste
  best : w.best = [] ∨ (w.best.length = pool.length ∧ InRange target cost (selValue pool w.best))

theorem Ok.backtrack (hw : w.Ok pool target cost) : (w.backtrack).value.Ok pool target cost where
  node_length := (backtrack_node_length w).trans hw.node_length
  empty_pool := by rw [backtrack_bestWaste]; exact hw.empty_pool
  best := by rw [backtrack_best]; exact hw.best

theorem Ok.record (hw : w.Ok pool target cost) (hlo : target ≤ selValue pool w.node)
    (hhi : selValue pool w.node ≤ target + cost) : (w.record pool target).value.Ok pool target cost := by
  have hrec : Ok pool target cost
      { w with best := resize w.node pool.length,
               bestWaste := selWaste pool w.node + (selValue pool w.node - target) } :=
    { node_length := hw.node_length
      empty_pool := fun h => by
        -- on an empty pool the node is empty, with no waste
        have hnil : w.node = [] := List.eq_nil_of_length_eq_zero (by simpa [h] using hw.node_length)
        simp only [hnil] at hlo ⊢
        simp [selWaste, selValue] at hlo ⊢
        omega
      best := .inr ⟨length_resize hw.node_length, by
        rw [selValue_resize hw.node_length]; exact ⟨hlo, hhi⟩⟩ }
  unfold Walk.record
  dsimp only
  split
  · split <;> exact hrec
  · exact hw

/-- Every step keeps `Ok`, for every pool and range. -/
theorem Ok.step (hw : w.Ok pool target cost) : (w.step pool target cost).value.Ok pool target cost := by
  unfold Walk.step
  split
  · exact hw.backtrack
  · rename_i hp
    have hp : w.prunes pool target cost = false := by simpa using hp
    split
    · rename_i hlo
      have hrec := hw.record hlo (bounds_of_prunes_eq_false hp).2
      split
      · rename_i heq
        rw [heq] at hrec
        exact hrec
      · rename_i heq
        rw [heq] at hrec
        exact hrec.backtrack
    · rename_i hlt
      have hlen := node_length_lt_of_forward hp (by omega)
      exact { node_length := by simp [forward]; omega
              empty_pool := hw.empty_pool
              best := hw.best }

/-- Every step that does not end the walk moves forward in the preorder. -/
theorem rank_lt_of_step (hw : w.Ok pool target cost) (h : w.step pool target cost = .yield w') :
    rank pool.length w.node < rank pool.length w'.node := by
  have hback : ∀ {u : Walk}, u.node = w.node → u.backtrack = .yield w' →
      rank pool.length w.node < rank pool.length w'.node := by
    intro u hu hb
    obtain ⟨p, hp, rfl⟩ := backtrack_eq_yield.mp hb
    rw [hu] at hp
    exact rank_lt_of_backtrack_eq_some hw.node_length hp
  unfold Walk.step at h
  split at h
  · exact hback rfl h
  · split at h
    · split at h
      · cases h
      · rename_i w'' heq
        have hnode : w''.node = w.node := by
          have : (w.record pool target).value.node = w.node := record_node w
          rw [heq] at this
          exact this
        exact hback hnode h
    · cases h
      exact rank_lt_append_singleton _ _ _

end Walk

theorem walkLoop_ok : ∀ (tries : Nat) {w : Walk}, w.Ok pool target cost →
    (walkLoop pool target cost tries w).Ok pool target cost
  | 0, _, hw => hw
  | tries + 1, w, hw => by
    have hstep := hw.step
    unfold walkLoop
    split
    · rename_i w' heq
      rw [heq] at hstep
      exact hstep
    · rename_i w' heq
      rw [heq] at hstep
      exact walkLoop_ok tries hstep

end Invariants

/-! ## The search finds what there is -/

/-- The bounds under which no `Amount` operation of the search overflows and
the first selection in range is always recorded: positive effective values
adding up to at most `MAX_MONEY`, fees of at most `MAX_MONEY`, and wastes
that, with the excess a selection in range may have, stay within
`MAX_MONEY`. -/
structure SearchBounds (pool : List (OutputGroup CInputCoin)) (target cost : Int) : Prop where
  effective_value_pos : ∀ g ∈ pool, 0 < g.effective_value.amount
  fee_le : ∀ g ∈ pool, |g.fee.amount| ≤ MAX_MONEY.amount
  long_term_fee_le : ∀ g ∈ pool, |g.long_term_fee.amount| ≤ MAX_MONEY.amount
  sum_effective_value_le : (pool.map (·.effective_value.amount)).sum ≤ MAX_MONEY.amount
  sum_waste_le : (pool.map fun g => |g.waste|).sum + cost ≤ MAX_MONEY.amount
  cost_nonneg : 0 ≤ cost
  target_le : |target| ≤ 2 * MAX_MONEY.amount

section Completeness

variable {pool : List (OutputGroup CInputCoin)} {target cost : Int} {w : Walk}

/-- The leaves of the search: the full selections in range. -/
def Hit (pool : List (OutputGroup CInputCoin)) (target cost : Int) (v : List Bool) : Prop :=
  InRange target cost (selValue pool v)

namespace Walk

/-- While nothing is found, no leaf left of the node is in range, and the best
waste is still `MAX_MONEY`. -/
def Searching (pool : List (OutputGroup CInputCoin)) (target cost : Int) (w : Walk) : Prop :=
  w.best = [] → w.bestWaste = MAX_MONEY.amount ∧ Cleared pool.length (Hit pool target cost) w.node

/-- The walk has found a selection in range, or there is none. -/
def Decided (pool : List (OutputGroup CInputCoin)) (target cost : Int) (w : Walk) : Prop :=
  w.best ≠ [] ∨ ∀ v, v.length = pool.length → ¬Hit pool target cost v

/-- What a step leaves: a walk still searching, or a decided one. -/
def StepSearching (pool : List (OutputGroup CInputCoin)) (target cost : Int) : ForInStep Walk → Prop
  | .yield w => w.Searching pool target cost
  | .done w => w.Decided pool target cost

/-- Backtracking from a barren node keeps searching. -/
theorem Searching.backtrack (hw : w.Ok pool target cost) (hs : w.Searching pool target cost)
    (hb : w.best = [] → Barren pool.length (Hit pool target cost) w.node) :
    StepSearching pool target cost w.backtrack := by
  unfold Walk.backtrack
  split
  · rename_i hnone
    by_cases hbest : w.best = []
    · exact .inr (not_of_backtrack_eq_none hw.node_length (hs hbest).2 (hb hbest) hnone)
    · exact .inl hbest
  · rename_i p hsome
    intro hbest
    exact ⟨(hs hbest).1, cleared_backtrack hw.node_length (hs hbest).2 (hb hbest) hsome⟩

/-- A walk that has found something keeps it. -/
theorem StepSearching.of_best_ne_nil {r : ForInStep Walk} (h : r.value.best ≠ []) :
    StepSearching pool target cost r := by
  cases r with
  | done w => exact .inl h
  | yield w => exact fun hnil => absurd hnil h

/-- Within the bounds, every step keeps searching or decides. -/
theorem Searching.step (hb : SearchBounds pool target cost) (hn : 0 < pool.length)
    (hw : w.Ok pool target cost) (hs : w.Searching pool target cost) :
    StepSearching pool target cost (w.step pool target cost) := by
  have hpos := hb.effective_value_pos
  -- the waste stays within `MAX_MONEY - cost` at every node
  have hwaste : |selWaste pool w.node| ≤ _ := abs_selWaste_le w.node
  have hsum := hb.sum_waste_le
  unfold Walk.step
  split
  · -- a backtrack, from a node below which no leaf is in range
    rename_i hp
    refine hs.backtrack hw fun hbest => ?_
    have hbw := (hs hbest).1
    intro v hv hpre hhit
    have hvb := selValue_bounds_of_prefix hpos hw.node_length hpre
    rcases prunes_eq_true.mp hp with h | h | ⟨h, -⟩
    · exact absurd hhit.1 (by linarith [hvb.2])
    · exact absurd hhit.2 (by linarith [hvb.1])
    · -- the waste bound never fires before a find
      rw [hbw] at h
      linarith [(abs_le.mp hwaste).2, hb.cost_nonneg]
  · rename_i hp
    have hp : w.prunes pool target cost = false := by simpa using hp
    split
    · -- a selection in range: recorded at once if it is the first one
      have hne : resize w.node pool.length ≠ [] := fun h => by
        have := length_resize hw.node_length
        rw [h, List.length_nil] at this
        omega
      have hfound : (w.record pool target).value.best ≠ [] := by
        rw [record_best]
        split
        · exact hne
        · rename_i hgt
          intro hbest
          -- before a find the best waste is `MAX_MONEY`, which no waste in range passes
          have hhi := (bounds_of_prunes_eq_false hp).2
          rw [(hs hbest).1] at hgt
          linarith [(abs_le.mp hwaste).2]
      split
      · rename_i w' heq
        rw [heq] at hfound
        exact .inl hfound
      · rename_i w' heq
        rw [heq] at hfound
        exact StepSearching.of_best_ne_nil (by rw [backtrack_best]; exact hfound)
    · -- one group deeper
      rename_i hlt
      have hlen := node_length_lt_of_forward hp (by omega)
      intro hbest
      refine ⟨(hs hbest).1, ?_⟩
      have hc := (hs hbest).2
      unfold forward
      cases hskip : skips pool w.node
      · exact cleared_append_true.mpr hc
      · -- the skip: the group before was excluded and has the same value
        refine cleared_append_false hc ?_
        unfold skips at hskip
        split at hskip
        · rename_i g g' hlast hg hg'
          obtain ⟨q, hq⟩ : ∃ q, w.node = q ++ [false] := ⟨w.node.dropLast,
            (List.dropLast_append_getLast? _ hlast).symm⟩
          have hk : w.node.length - 1 = q.length := by simp [hq]
          have hlt' : q.length + 1 < pool.length := by simp [hq] at hlen; omega
          have hev : pool[q.length + 1].effective_value = pool[q.length].effective_value := by
            have h1 : pool[w.node.length]? = some pool[q.length + 1] := by
              rw [List.getElem?_eq_getElem (by omega)]; simp [hq]
            have h2 : pool[w.node.length - 1]? = some pool[q.length] := by
              rw [hk, List.getElem?_eq_getElem (by omega)]
            rw [h1, Option.some.injEq] at hg
            rw [h2, Option.some.injEq] at hg'
            rw [hg, hg']
            exact (of_decide_eq_true hskip).1
          rw [hq] at hc ⊢
          exact barren_of_swap (fun r hr => by
            unfold Hit at hr ⊢
            rwa [← selValue_swap hlt' hev]) hc
        · cases hskip

end Walk

/-- Given enough iterations, the loop finds a selection in range or sees that
there is none. The induction is on the iterations left; every step moves
forward in the preorder of a tree with `2 ^ (n + 1) - 1` nodes. -/
theorem walkLoop_decided (hb : SearchBounds pool target cost) (hn : 0 < pool.length) :
    ∀ (tries : Nat) (w : Walk), w.Ok pool target cost → w.Searching pool target cost →
      2 ^ (pool.length + 1) ≤ tries + rank pool.length w.node + 1 →
      (walkLoop pool target cost tries w).Decided pool target cost
  | 0, w, hw, _, hfuel => by
    have := rank_add_two_le (n := pool.length) hw.node_length
    omega
  | tries + 1, w, hw, hs, hfuel => by
    have hstep := hs.step hb hn hw
    have hok := hw.step
    unfold walkLoop
    split
    · rename_i w' heq
      rw [heq] at hstep
      exact hstep
    · rename_i w' heq
      rw [heq] at hstep hok
      have hrank := Walk.rank_lt_of_step hw heq
      exact walkLoop_decided hb hn tries w' hok hstep (by omega)

end Completeness

end Wallet

end BitcoinAbc
