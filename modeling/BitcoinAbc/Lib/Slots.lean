import Mathlib

/-!
# Rows of slots and the map that assigns keys to them

A list of `Option α` is a row of slots, some filled. Code that places items
into a row often fills some slots first and then hands out the empty ones in
order, stepping over filled slots with a loop `while (slot[i]) i++`.

- `List.noneIdx l k`: the indices of the empty slots of `l`, counted from `k`;
- `List.skipFilled l`: the run of filled slots at the front of `l`, which
  ends at the first empty slot (`List.skipFilled_of_noneIdx_eq_cons`);
- `List.eq_of_countP_eq_one`, `List.countP_change`: counting the slots that
  hold a value, as a reference count does;
- `AList.lookup_foldl_insert_of_mem`, `AList.lookup_foldl_insert_of_not_mem`
  and `AList.length_foldl_insert`: a map built by inserting pairs with
  pairwise distinct keys, one after the other.
-/

namespace List

variable {α : Type*}

/-- The indices of the empty slots of `l`, the first slot counted as `k`. -/
def noneIdx : List (Option α) → Nat → List Nat
  | [], _ => []
  | none :: l, k => k :: noneIdx l (k + 1)
  | some _ :: l, k => noneIdx l (k + 1)

/-- The number of filled slots at the front of `l`. -/
def skipFilled (l : List (Option α)) : Nat := (l.takeWhile Option.isSome).length

/-- A loop that steps over the filled slots of `l`, the first counted as `k`,
stops at the first empty one, and the empty slots after it are the rest. The
induction is on `l`. -/
theorem skipFilled_of_noneIdx_eq_cons :
    ∀ {l : List (Option α)} {k f : Nat} {fs : List Nat}, noneIdx l k = f :: fs →
      k + skipFilled l = f ∧ noneIdx (l.drop (f + 1 - k)) (f + 1) = fs
  | [], _, _, _, h => nomatch h
  | none :: l, k, f, fs, h => by
    simp only [noneIdx, cons.injEq] at h
    obtain ⟨rfl, rfl⟩ := h
    refine ⟨by simp [skipFilled], ?_⟩
    rw [Nat.add_sub_cancel_left, drop_one, tail_cons]
  | some x :: l, k, f, fs, h => by
    simp only [noneIdx] at h
    obtain ⟨hf, hrest⟩ := skipFilled_of_noneIdx_eq_cons h
    refine ⟨?_, ?_⟩
    · simp only [skipFilled, takeWhile_cons, Option.isSome_some, ↓reduceIte, length_cons]
      unfold skipFilled at hf
      omega
    · rw [show f + 1 - k = (f + 1 - (k + 1)) + 1 by omega, drop_succ_cons]
      exact hrest

/-- The empty slots from `k` lie at `k` or after, within the row. -/
theorem mem_noneIdx_bounds :
    ∀ {l : List (Option α)} {k j : Nat}, j ∈ noneIdx l k → k ≤ j ∧ j < k + l.length
  | [], _, _, h => nomatch h
  | none :: l, k, j, h => by
    rcases mem_cons.mp h with rfl | h
    · simp
    · have := mem_noneIdx_bounds h
      simp only [length_cons]
      omega
  | some _ :: l, k, j, h => by
    have := mem_noneIdx_bounds (l := l) h
    simp only [length_cons]
    omega

/-- The empty slots of `l` are listed once each, in increasing order. -/
theorem noneIdx_pairwise : ∀ (l : List (Option α)) (k : Nat), (noneIdx l k).Pairwise (· < ·)
  | [], _ => Pairwise.nil
  | none :: l, k => by
    simp only [noneIdx, pairwise_cons]
    exact ⟨fun j hj => by have := mem_noneIdx_bounds hj; omega, noneIdx_pairwise l (k + 1)⟩
  | some _ :: l, k => noneIdx_pairwise l (k + 1)

section Holders

/-! A store of references counts, for each value, the slots of a row that
hold it. -/

variable {ι : Type*} {l : List ι} {P Q : ι → Bool}

/-- A count of one: two slots that hold the value are one slot. -/
theorem eq_of_countP_eq_one (h : l.countP P = 1) {a b : ι} (ha : a ∈ l) (hb : b ∈ l)
    (hPa : P a = true) (hPb : P b = true) : a = b := by
  rw [countP_eq_length_filter, length_eq_one_iff] at h
  obtain ⟨x, hx⟩ := h
  have hax : a ∈ l.filter P := mem_filter.mpr ⟨ha, hPa⟩
  have hbx : b ∈ l.filter P := mem_filter.mpr ⟨hb, hPb⟩
  rw [hx, mem_singleton] at hax hbx
  rw [hax, hbx]

/-- Changing what one slot of a row without repeats holds: the count loses
the old holder and gains the new one. -/
theorem countP_change (hl : l.Nodup) {a : ι} (ha : a ∈ l) (hPQ : ∀ x ∈ l, x ≠ a → P x = Q x) :
    l.countP Q + (if P a then 1 else 0) = l.countP P + (if Q a then 1 else 0) := by
  induction l with
  | nil => cases ha
  | cons x xs ih =>
    obtain ⟨hx, hxs⟩ := nodup_cons.mp hl
    rw [countP_cons, countP_cons]
    by_cases hxa : x = a
    · subst hxa
      -- the changed slot is the head: the tail counts alike
      have htail : xs.countP Q = xs.countP P := countP_congr fun y hy => by
        rw [hPQ y (mem_cons_of_mem _ hy) fun h => hx (h ▸ hy)]
      omega
    · have ha' : a ∈ xs := (mem_cons.mp ha).resolve_left (Ne.symm hxa)
      have hhead : P x = Q x := hPQ x mem_cons_self hxa
      have := ih hxs ha' fun y hy => hPQ y (mem_cons_of_mem _ hy)
      rw [hhead]
      omega

end Holders

end List

namespace AList

variable {α β : Type*} [DecidableEq α]

/-- A key the pairs do not write keeps its lookup. -/
theorem lookup_foldl_insert_of_not_mem :
    ∀ {pairs : List (α × β)} {m : AList fun _ : α => β} {a : α}, a ∉ pairs.map Prod.fst →
      (pairs.foldl (fun m q => m.insert q.1 q.2) m).lookup a = m.lookup a
  | [], _, _, _ => rfl
  | r :: pairs, m, a, ha => by
    rw [List.map_cons, List.mem_cons, not_or] at ha
    rw [List.foldl_cons, lookup_foldl_insert_of_not_mem ha.2, lookup_insert_ne ha.1]

/-- Inserting pairs with pairwise distinct keys, each key of the pairs ends
mapped to its value. -/
theorem lookup_foldl_insert_of_mem :
    ∀ {pairs : List (α × β)} {m : AList fun _ : α => β} {q : α × β},
      (pairs.map Prod.fst).Nodup → q ∈ pairs →
      (pairs.foldl (fun m q => m.insert q.1 q.2) m).lookup q.1 = some q.2
  | [], _, _, _, h => nomatch h
  | r :: pairs, m, q, hnd, hq => by
    rw [List.map_cons, List.nodup_cons] at hnd
    rw [List.foldl_cons]
    rcases List.mem_cons.mp hq with rfl | hq
    · rw [lookup_foldl_insert_of_not_mem hnd.1, lookup_insert]
    · exact lookup_foldl_insert_of_mem hnd.2 hq

/-- Inserting pairs with pairwise distinct keys, none in the map, adds one
entry per pair. -/
theorem length_foldl_insert :
    ∀ {pairs : List (α × β)} {m : AList fun _ : α => β}, (pairs.map Prod.fst).Nodup →
      (∀ q ∈ pairs, q.1 ∉ m) →
      (pairs.foldl (fun m q => m.insert q.1 q.2) m).entries.length = m.entries.length + pairs.length
  | [], _, _, _ => rfl
  | r :: pairs, m, hnd, hfresh => by
    rw [List.map_cons, List.nodup_cons] at hnd
    have hr : r.1 ∉ m := hfresh r List.mem_cons_self
    -- the later keys are neither `r.1` nor in `m`
    have hfresh' : ∀ q ∈ pairs, q.1 ∉ m.insert r.1 r.2 := fun q hq hmem => by
      rcases (mem_insert m).mp hmem with he | hm
      · exact hnd.1 (he ▸ List.mem_map_of_mem hq)
      · exact hfresh q (List.mem_cons_of_mem _ hq) hm
    rw [List.foldl_cons, length_foldl_insert hnd.2 hfresh', entries_insert_of_notMem hr,
      List.length_cons, List.length_cons]
    omega

end AList
