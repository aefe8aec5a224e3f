import Mathlib

/-!
# Search trees under an arbitrary comparator

An ordered set kept as a binary tree (a red-black tree, as `std::set` is) finds
the place of a new key by one descent from the root: left when the key is below
the node, right otherwise. The node where the descent last turned right is the
key's in-order predecessor; the key is new when that predecessor is below it,
and otherwise the set already holds an equal key and is left as it was.

The comparator is a parameter and nothing is assumed of it in the definitions:
the lemmas say which of its properties each fact needs.

- `toList_insertAt_perm`: a descent that inserts adds the key to the in-order
  list;
- `mem_toList_insert`: when the comparator orders the key against every other
  element, the set afterwards holds exactly the old elements and the key;
- `pairwise_toList_insert`: when it is a strict total order on the elements and
  the key (`StrictTotalOn`), the in-order list stays sorted, so that its head,
  the set's first element, is below every other one.

Recolouring and rotations are left out: they keep the in-order list, and the
descent of a later insertion is the only thing they change.
-/

namespace SearchTree

universe u

/-- A binary tree with an element at each node. -/
inductive Tree (α : Type u) where
  | leaf
  | node (l : Tree α) (x : α) (r : Tree α)

namespace Tree

variable {α : Type u} (lt : α → α → Bool)

/-- The elements in order: the left subtree, the node, the right subtree. -/
def toList : Tree α → List α
  | leaf => []
  | node l x r => l.toList ++ x :: r.toList

/-- The number of elements. -/
def size (t : Tree α) : Nat := t.toList.length

/-- The first element in order, when there is one. -/
def begin? (t : Tree α) : Option α := t.toList.head?

/-- The descent that inserts `k`: `pred` is the node where it last turned right.
At the bottom the key is new when there is no such node or the node is below
the key; `none` means an equal key is there already. -/
def insertAt (k : α) : Option α → Tree α → Option (Tree α)
  | pred, leaf =>
    match pred with
    | none => some (node leaf k leaf)
    | some j => if lt j k then some (node leaf k leaf) else none
  | pred, node l x r =>
    if lt k x then (insertAt k pred l).map (node · x r)
    else (insertAt k (some x) r).map (node l x ·)

/-- Insert `k` unless an equal key is there. -/
def insert (k : α) (t : Tree α) : Tree α := (insertAt lt k none t).getD t

@[simp] theorem toList_leaf : (leaf : Tree α).toList = [] := rfl

@[simp] theorem toList_node (l : Tree α) (x : α) (r : Tree α) :
    (node l x r).toList = l.toList ++ x :: r.toList := rfl

/-- An insertion that succeeds adds the key to the in-order list. -/
theorem toList_insertAt_perm {k : α} :
    ∀ {pred : Option α} {t t' : Tree α}, insertAt lt k pred t = some t' →
      t'.toList.Perm (k :: t.toList)
  | pred, leaf, t', h => by
    have ht' : t' = node leaf k leaf := by
      cases pred with
      | none => exact (Option.some.inj h).symm
      | some j =>
        simp only [insertAt] at h
        split at h
        · exact (Option.some.inj h).symm
        · exact absurd h (by simp)
    subst ht'
    exact List.Perm.refl _
  | pred, node l x r, t', h => by
    simp only [insertAt] at h
    split at h
    · obtain ⟨l', hl', rfl⟩ := Option.map_eq_some_iff.mp h
      have ih := toList_insertAt_perm hl'
      simpa only [toList_node, List.cons_append] using ih.append_right (x :: r.toList)
    · obtain ⟨r', hr', rfl⟩ := Option.map_eq_some_iff.mp h
      have ih := toList_insertAt_perm hr'
      calc (l.toList ++ x :: r'.toList).Perm (l.toList ++ x :: k :: r.toList) :=
            (ih.cons x).append_left l.toList
        _ = (l.toList ++ [x]) ++ k :: r.toList := by simp
        List.Perm _ (k :: ((l.toList ++ [x]) ++ r.toList)) := List.perm_middle
        _ = k :: (node l x r).toList := by simp

/-- A descent that finds an equal key stops at a node, or the `pred` it started
with, that is neither below nor above the key. -/
theorem exists_of_insertAt_eq_none {k : α} :
    ∀ {pred : Option α} {t : Tree α}, (∀ j, pred = some j → lt k j = false) →
      insertAt lt k pred t = none →
      ∃ j, (j ∈ t.toList ∨ pred = some j) ∧ lt j k = false ∧ lt k j = false
  | pred, leaf, hpred, h => by
    cases pred with
    | none => exact absurd h (by simp [insertAt])
    | some j =>
      simp only [insertAt] at h
      split at h
      · exact absurd h (by simp)
      · rename_i hjk
        exact ⟨j, Or.inr rfl, by simpa using hjk, hpred j rfl⟩
  | pred, node l x r, hpred, h => by
    simp only [insertAt] at h
    split at h
    · -- the descent went left and keeps its `pred`
      obtain ⟨j, hj, hjk, hkj⟩ := exists_of_insertAt_eq_none hpred (Option.map_eq_none_iff.mp h)
      refine ⟨j, ?_, hjk, hkj⟩
      rcases hj with hj | hj
      · exact Or.inl (by simp [hj])
      · exact Or.inr hj
    · -- the descent went right at `x`, which becomes its `pred`
      rename_i hkx
      have hpred' : ∀ j, some x = some j → lt k j = false := by
        intro j hj
        obtain rfl := Option.some.inj hj
        simpa using hkx
      obtain ⟨j, hj, hjk, hkj⟩ := exists_of_insertAt_eq_none hpred' (Option.map_eq_none_iff.mp h)
      refine ⟨j, Or.inl ?_, hjk, hkj⟩
      rcases hj with hj | ⟨⟨⟩⟩
      · simp [hj]
      · simp

/-- When the comparator orders `k` against every other element, inserting `k`
leaves the old elements and `k`. -/
theorem mem_toList_insert {k : α} {t : Tree α}
    (htotal : ∀ x ∈ t.toList, x ≠ k → lt x k = true ∨ lt k x = true) (y : α) :
    y ∈ (insert lt k t).toList ↔ y = k ∨ y ∈ t.toList := by
  unfold insert
  cases h : insertAt lt k none t with
  | some t' =>
    rw [Option.getD_some, (toList_insertAt_perm lt h).mem_iff, List.mem_cons]
  | none =>
    obtain ⟨j, hj, hjk, hkj⟩ := exists_of_insertAt_eq_none lt (fun _ h => by cases h) h
    have hjt : j ∈ t.toList := by
      rcases hj with hj | ⟨⟨⟩⟩
      exact hj
    -- the element the descent stopped at is `k` itself
    have hjk' : j = k := by
      by_contra hne
      rcases htotal j hjt hne with h1 | h1
      · rw [hjk] at h1
        exact Bool.false_ne_true h1
      · rw [hkj] at h1
        exact Bool.false_ne_true h1
    subst hjk'
    rw [Option.getD_none]
    constructor
    · exact Or.inr
    · rintro (rfl | hy)
      · exact hjt
      · exact hy

/-- `lt` orders the elements of `s` strictly and totally. -/
structure StrictTotalOn (s : List α) : Prop where
  irrefl : ∀ x ∈ s, lt x x = false
  trans : ∀ x ∈ s, ∀ y ∈ s, ∀ z ∈ s, lt x y = true → lt y z = true → lt x z = true
  total : ∀ x ∈ s, ∀ y ∈ s, x ≠ y → lt x y = true ∨ lt y x = true

theorem StrictTotalOn.mono {s s' : List α} (h : StrictTotalOn lt s) (hs : ∀ x ∈ s', x ∈ s) :
    StrictTotalOn lt s' where
  irrefl x hx := h.irrefl x (hs x hx)
  trans x hx y hy z hz := h.trans x (hs x hx) y (hs y hy) z (hs z hz)
  total x hx y hy := h.total x (hs x hx) y (hs y hy)

/-- A descent through elements all above `k` keeps its `pred`: it inserts exactly
when that is below `k`. -/
theorem insertAt_isSome_of_forall_lt {k j : α} :
    ∀ {t : Tree α}, (∀ y ∈ t.toList, lt k y = true) →
      (insertAt lt k (some j) t).isSome = lt j k
  | leaf, _ => by
    simp only [insertAt]
    split <;> simp_all
  | node l x r, hall => by
    have hkx : lt k x = true := hall x (by simp)
    simp only [insertAt, hkx, if_true, Option.isSome_map]
    exact insertAt_isSome_of_forall_lt fun y hy => hall y (by simp [hy])

/-- Insertion keeps the in-order list sorted when the comparator is a strict
total order on its elements and the key. -/
theorem pairwise_toList_insertAt {k : α} :
    ∀ {pred : Option α} {t t' : Tree α}, StrictTotalOn lt (k :: t.toList) →
      t.toList.Pairwise (lt · ·) → insertAt lt k pred t = some t' →
      t'.toList.Pairwise (lt · ·)
  | pred, leaf, t', _, _, h => by
    rw [List.perm_singleton.mp (toList_insertAt_perm lt h)]
    exact List.pairwise_singleton _ _
  | pred, node l x r, t', hs, hsort, h => by
    simp only [toList_node, List.pairwise_append, List.pairwise_cons] at hsort
    obtain ⟨hl, ⟨hxr, hr⟩, hlxr⟩ := hsort
    have hlt : ∀ a ∈ l.toList, lt a x = true := fun a ha => hlxr a ha x (by simp)
    simp only [insertAt] at h
    split at h
    · -- `k` goes left of `x`: it is below `x` and, through `x`, below the right subtree
      rename_i hkx
      obtain ⟨l', hl', rfl⟩ := Option.map_eq_some_iff.mp h
      have hperm := toList_insertAt_perm lt hl'
      have hl'sort := pairwise_toList_insertAt (hs.mono lt fun y hy =>
        List.mem_cons.mpr ((List.mem_cons.mp hy).imp id fun h => by simp [h])) hl hl'
      simp only [toList_node, List.pairwise_append, List.pairwise_cons]
      refine ⟨hl'sort, ⟨hxr, hr⟩, ?_⟩
      intro a ha b hb
      rcases List.mem_cons.mp (hperm.mem_iff.mp ha) with rfl | ha
      · rcases List.mem_cons.mp hb with rfl | hb
        · exact hkx
        · exact hs.trans a (by simp) x (by simp) b (by simp [hb]) hkx (hxr b hb)
      · exact hlxr a ha b hb
    · -- `k` goes right of `x`: `x` is below `k`, since `k = x` would find `x` again
      rename_i hkx
      obtain ⟨r', hr', rfl⟩ := Option.map_eq_some_iff.mp h
      have hperm := toList_insertAt_perm lt hr'
      have hxk : x ≠ k := by
        rintro rfl
        have hnone : (insertAt lt x (some x) r).isSome = lt x x := insertAt_isSome_of_forall_lt lt hxr
        rw [hr', Option.isSome_some, hs.irrefl x (by simp)] at hnone
        exact Bool.false_ne_true hnone.symm
      have hxk' : lt x k = true := by
        rcases hs.total x (by simp) k (by simp) hxk with h1 | h1
        · exact h1
        · simp_all
      have hr'sort := pairwise_toList_insertAt (hs.mono lt fun y hy =>
        List.mem_cons.mpr ((List.mem_cons.mp hy).imp id fun h => by simp [h])) hr hr'
      simp only [toList_node, List.pairwise_append, List.pairwise_cons]
      refine ⟨hl, ⟨fun b hb => ?_, hr'sort⟩, ?_⟩
      · rcases List.mem_cons.mp (hperm.mem_iff.mp hb) with rfl | hb
        · exact hxk'
        · exact hxr b hb
      · intro a ha b hb
        have hax := hlt a ha
        rcases List.mem_cons.mp hb with rfl | hb
        · exact hax
        · rcases List.mem_cons.mp (hperm.mem_iff.mp hb) with rfl | hb
          · exact hs.trans a (by simp [ha]) x (by simp) b (by simp) hax hxk'
          · exact hlxr a ha b (by simp [hb])

theorem pairwise_toList_insert {k : α} {t : Tree α} (hs : StrictTotalOn lt (k :: t.toList))
    (hsort : t.toList.Pairwise (lt · ·)) : (insert lt k t).toList.Pairwise (lt · ·) := by
  unfold insert
  cases h : insertAt lt k none t with
  | some t' => exact pairwise_toList_insertAt lt hs hsort h
  | none => exact hsort

end Tree

end SearchTree
