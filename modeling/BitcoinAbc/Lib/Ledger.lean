import Mathlib
import BitcoinAbc.Lib.Updates

/-!
# The total weight of a finitely supported partial map

A store of values by key (a set of unspent coins, a table of balances) is a map
`f : α → Option β` with an entry at finitely many keys. `weightSum w f s` adds
the weights `w` of the entries of `f` at the keys of `s`. Where `s` holds every
key with an entry (`SupportedOn f s`) it is the total of the store, and a larger
set gives the same total (`weightSum_eq_of_supportedOn`).

How writes change the total:

- `weightSum_update`: a write at a key of `s` takes the old entry's weight out
  and puts the new one's in;
- `weightSum_updates_none`: erasing pairwise distinct keys of `s` takes their
  entries' weights out;
- `weightSum_updates_new`: writing at pairwise distinct keys without an entry
  puts the new entries' weights in, on `s` grown by those keys;
- `weightSum_updates_le`: writing at any keys, where every weight is at least
  zero, puts in at most the new entries' weights.
-/

namespace Function

variable {α β : Type*} [DecidableEq α] (w : β → ℤ)

/-- The weight of an entry, `0` for none. -/
def entryWeight (o : Option β) : ℤ := o.elim 0 w

/-- The keys of `s` hold every entry of `f`. -/
def SupportedOn (f : α → Option β) (s : Finset α) : Prop := ∀ a, (f a).isSome → a ∈ s

/-- The total weight of the entries of `f` at the keys of `s`. -/
def weightSum (f : α → Option β) (s : Finset α) : ℤ := ∑ a ∈ s, entryWeight w (f a)

variable {w} {f : α → Option β} {s t : Finset α}

omit [DecidableEq α] in
@[simp] theorem entryWeight_none : entryWeight w none = 0 := rfl

omit [DecidableEq α] in
@[simp] theorem entryWeight_some (b : β) : entryWeight w (some b) = w b := rfl

omit [DecidableEq α] in
/-- Entries of weight at least zero weigh at least zero together. -/
theorem weightSum_nonneg (hf : ∀ a b, f a = some b → 0 ≤ w b) : 0 ≤ weightSum w f s :=
  Finset.sum_nonneg fun a _ => by
    cases hfa : f a with
    | none => exact Int.le_refl 0
    | some b => exact hf a b hfa

/-- Erasing keys leaves no entry that was not there. -/
theorem updates_none_eq_some {ks : List α} {a : α} {b : β}
    (h : updates f (ks.map fun k => (k, none)) a = some b) : f a = some b := by
  rcases updates_apply_eq_or a f (ks.map fun k => (k, none)) with hold | hmem
  · rwa [hold] at h
  · rw [h] at hmem
    obtain ⟨k, -, hk⟩ := List.mem_map.mp hmem
    cases (Prod.mk.inj hk).2

namespace SupportedOn

omit [DecidableEq α] in
/-- A key outside `s` has no entry. -/
theorem eq_none (hf : SupportedOn f s) {a : α} (ha : a ∉ s) : f a = none := by
  cases hfa : f a with
  | none => rfl
  | some b => exact absurd (hf a (by rw [hfa]; rfl)) ha

omit [DecidableEq α] in
theorem mono (hf : SupportedOn f s) (hst : s ⊆ t) : SupportedOn f t :=
  fun a ha => hst (hf a ha)

theorem update (hf : SupportedOn f s) (a : α) (o : Option β) :
    SupportedOn (Function.update f a o) (insert a s) := by
  intro k hk
  by_cases hka : k = a
  · exact hka ▸ Finset.mem_insert_self a s
  · rw [update_of_ne hka] at hk
    exact Finset.mem_insert_of_mem (hf k hk)

theorem update_none (hf : SupportedOn f s) (a : α) : SupportedOn (Function.update f a none) s := by
  intro k hk
  by_cases hka : k = a
  · rw [hka, update_self] at hk
    cases hk
  · rw [update_of_ne hka] at hk
    exact hf k hk

/-- Erasing keys keeps the entries within `s`. -/
theorem updates_none :
    ∀ {f : α → Option β}, SupportedOn f s → ∀ ks : List α,
      SupportedOn (updates f (ks.map fun k => (k, none))) s
  | _, hf, [] => hf
  | _, hf, k :: ks => (hf.update_none k).updates_none ks

/-- Writing at keys grows the keys that hold the entries by those keys. -/
theorem updates :
    ∀ {f : α → Option β} {s : Finset α}, SupportedOn f s → ∀ l : List (α × Option β),
      SupportedOn (Function.updates f l) (s ∪ (l.map Prod.fst).toFinset)
  | _, s, hf, [] => by
    rw [List.map_nil, List.toFinset_nil, Finset.union_empty]
    exact hf
  | _, s, hf, p :: l => by
    have hsub : insert p.1 s ∪ (l.map Prod.fst).toFinset ⊆ s ∪ ((p :: l).map Prod.fst).toFinset := by
      intro k hk
      simp only [Finset.mem_union, Finset.mem_insert, List.mem_toFinset, List.map_cons,
        List.mem_cons] at hk ⊢
      tauto
    exact ((hf.update p.1 p.2).updates l).mono hsub

end SupportedOn

omit [DecidableEq α] in
/-- Over any set that holds every entry, the total is the same. -/
theorem weightSum_eq_of_supportedOn (hf : SupportedOn f s) (hst : s ⊆ t) :
    weightSum w f t = weightSum w f s := by
  refine (Finset.sum_subset hst fun a _ has => ?_).symm
  cases hfa : f a with
  | none => rfl
  | some b => exact absurd (hf a (by rw [hfa]; rfl)) has

/-- A write at a key of `s` trades the old entry's weight for the new one's. -/
theorem weightSum_update {a : α} (ha : a ∈ s) (o : Option β) :
    weightSum w (update f a o) s + entryWeight w (f a) = weightSum w f s + entryWeight w o := by
  have hnew := Finset.add_sum_erase s (fun k => entryWeight w (update f a o k)) ha
  have hold := Finset.add_sum_erase s (fun k => entryWeight w (f k)) ha
  -- away from `a` the two maps agree
  have hrest : ∑ k ∈ s.erase a, entryWeight w (update f a o k) =
      ∑ k ∈ s.erase a, entryWeight w (f k) :=
    Finset.sum_congr rfl fun k hk => by rw [update_of_ne (Finset.ne_of_mem_erase hk)]
  simp only [update_self] at hnew
  unfold weightSum
  omega

/-- Erasing pairwise distinct keys of `s` takes their entries' weights out. -/
theorem weightSum_updates_none :
    ∀ {f : α → Option β} {ks : List α}, ks.Nodup → (∀ k ∈ ks, k ∈ s) →
      weightSum w (updates f (ks.map fun k => (k, none))) s +
        (ks.map fun k => entryWeight w (f k)).sum = weightSum w f s
  | _, [], _, _ => by
    rw [List.map_nil, updates_nil, List.map_nil, List.sum_nil, Int.add_zero]
  | f, k :: ks, hnd, hks => by
    rw [List.nodup_cons] at hnd
    have hrest := weightSum_updates_none (f := update f k none) hnd.2
      fun k' hk' => hks k' (List.mem_cons_of_mem _ hk')
    have hk := weightSum_update (w := w) (f := f) (hks k List.mem_cons_self) none
    -- the later keys are not `k`, so they see `f`'s entries
    have hsame : (ks.map fun k' => entryWeight w (update f k none k')) =
        ks.map fun k' => entryWeight w (f k') :=
      List.map_congr_left fun k' hk' => by
        rw [update_of_ne fun he : k' = k => hnd.1 (he ▸ hk')]
    rw [hsame] at hrest
    rw [entryWeight_none, Int.add_zero] at hk
    rw [List.map_cons, updates_cons, List.map_cons, List.sum_cons]
    dsimp only
    omega

/-- Where every entry weighs at least zero, the entries at pairwise distinct
keys of `s` weigh at most the total. -/
theorem sum_le_weightSum (hf : ∀ a b, f a = some b → 0 ≤ w b) {ks : List α} (hnd : ks.Nodup)
    (hks : ∀ k ∈ ks, k ∈ s) : (ks.map fun k => entryWeight w (f k)).sum ≤ weightSum w f s := by
  have herase := weightSum_updates_none (w := w) (f := f) hnd hks
  have hrest : 0 ≤ weightSum w (updates f (ks.map fun k => (k, none))) s :=
    weightSum_nonneg fun a b h => hf a b (updates_none_eq_some h)
  omega

/-- Writing at pairwise distinct keys that have no entry puts the new entries'
weights in. -/
theorem weightSum_updates_new :
    ∀ {f : α → Option β} {s : Finset α} {l : List (α × Option β)}, SupportedOn f s →
      (l.map Prod.fst).Nodup → (∀ p ∈ l, f p.1 = none) →
      weightSum w (updates f l) (s ∪ (l.map Prod.fst).toFinset) =
        weightSum w f s + (l.map fun p => entryWeight w p.2).sum
  | _, s, [], _, _, _ => by
    rw [List.map_nil, List.toFinset_nil, Finset.union_empty, updates_nil, List.map_nil,
      List.sum_nil, Int.add_zero]
  | f, s, p :: l, hf, hnd, hnone => by
    rw [List.map_cons, List.nodup_cons] at hnd
    have hp : f p.1 = none := hnone p List.mem_cons_self
    -- the later keys have no entry after the write at `p.1` either
    have hnone' : ∀ q ∈ l, update f p.1 p.2 q.1 = none := fun q hq => by
      rw [update_of_ne fun he : q.1 = p.1 => hnd.1 (he ▸ List.mem_map_of_mem hq)]
      exact hnone q (List.mem_cons_of_mem _ hq)
    have hrest := weightSum_updates_new (hf.update p.1 p.2) hnd.2 hnone'
    have hunion : insert p.1 s ∪ (l.map Prod.fst).toFinset = s ∪ ((p :: l).map Prod.fst).toFinset := by
      rw [List.map_cons, List.toFinset_cons, Finset.insert_union, Finset.union_insert]
    have hwrite := weightSum_update (w := w) (f := f) (Finset.mem_insert_self p.1 s) p.2
    rw [hp, entryWeight_none, Int.add_zero,
      weightSum_eq_of_supportedOn hf (Finset.subset_insert p.1 s)] at hwrite
    rw [updates_cons, ← hunion, hrest, hwrite, List.map_cons, List.sum_cons]
    omega

/-- Writing entries of weight at least zero, over entries of weight at least
zero, at any keys (written before or not, more than once or not), puts in at
most the written entries' weights: an overwrite takes the old weight out. -/
theorem weightSum_updates_le :
    ∀ {f : α → Option β} {s : Finset α} {l : List (α × Option β)}, SupportedOn f s →
      (∀ a b, f a = some b → 0 ≤ w b) → (∀ p ∈ l, ∀ b, p.2 = some b → 0 ≤ w b) →
      weightSum w (updates f l) (s ∪ (l.map Prod.fst).toFinset) ≤
        weightSum w f s + (l.map fun p => entryWeight w p.2).sum
  | _, s, [], _, _, _ => by
    rw [List.map_nil, List.toFinset_nil, Finset.union_empty, updates_nil, List.map_nil,
      List.sum_nil, Int.add_zero]
  | f, s, p :: l, hf, hpos, hl => by
    -- the write at `p.1` keeps every entry at least zero
    have hpos' : ∀ a b, update f p.1 p.2 a = some b → 0 ≤ w b := by
      intro a b hab
      by_cases ha : a = p.1
      · rw [ha, update_self] at hab
        exact hl p List.mem_cons_self b hab
      · rw [update_of_ne ha] at hab
        exact hpos a b hab
    have hrest := weightSum_updates_le (hf.update p.1 p.2) hpos'
      fun q hq => hl q (List.mem_cons_of_mem _ hq)
    have hunion : insert p.1 s ∪ (l.map Prod.fst).toFinset = s ∪ ((p :: l).map Prod.fst).toFinset := by
      rw [List.map_cons, List.toFinset_cons, Finset.insert_union, Finset.union_insert]
    have hwrite := weightSum_update (w := w) (f := f) (Finset.mem_insert_self p.1 s) p.2
    rw [weightSum_eq_of_supportedOn hf (Finset.subset_insert p.1 s)] at hwrite
    -- what the write takes out weighs at least zero
    have hold : 0 ≤ entryWeight w (f p.1) := by
      cases hfp : f p.1 with
      | none => exact Int.le_refl 0
      | some b => exact hpos p.1 b hfp
    rw [updates_cons, ← hunion, List.map_cons, List.sum_cons]
    omega

end Function
