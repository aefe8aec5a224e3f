import Mathlib
import BitcoinAbc.Radix.Steps
import BitcoinAbc.Radix.Leaves
import BitcoinAbc.Lib.Simulation

/-!
# A store of radix trees is a list of finite maps

Tree `j` of a store stands for the map `get(key)` reads (`views`). This module
proves that the operations on the store do to those maps what `spec` says, a
list of maps does:

- `insertAt_spec`, `removeAt_spec`: the loops of `insert` and `remove`, by
  induction on the levels left, from `Owned` slot to `Owned` slot
  (`seekStep_spec`, `splitLeaf_spec`), down to the leaf they write;
- `step_refines`: every operation on a tree that exists keeps the invariant
  and answers as `spec` does; `Simulation.run_refines` lifts it to runs;
- `forEachLeaf_eq`, `mem_leaves_iff`, `nodup_leaves` (in `Radix.Leaves`):
  `forEachLeaf` hands the callable the values of the map, each once;
- `radixTree_refines_map`: from the empty store, every run answers as the
  maps do, and at its end `forEachLeaf` visits each tree's values once.

A copy is a new map equal to its source's at the time of the copy, and every
later operation changes one map: copies are isolated in `spec`, and so in
the store.
-/

namespace BitcoinAbc
namespace Radix

variable {T : Type} {W : Nat}

/-! ## The loops -/

section Loops

variable {getId : T → BitVec W} {st : RadixStore T} {key : BitVec W} {s : Nat} {loc : Loc}

theorem insertAt_empty (value : T) (h : st.load loc = .leaf none) :
    insertAt getId key value s loc st = (true, st.storeAt loc (.leaf (some value))) := by
  rw [insertAt.eq_def]
  cases s <;> simp only [h]

theorem insertAt_same (value : T) {l : T} (h : st.load loc = .leaf (some l)) (hk : key = getId l) :
    insertAt getId key value s loc st = (false, st) := by
  rw [insertAt.eq_def]
  cases s <;> simp only [h, hk, if_true]

theorem insertAt_split (value : T) {l : T} (h : st.load loc = .leaf (some l)) (hk : key ≠ getId l) :
    insertAt getId key value (s + 1) loc st =
      insertAt getId key value s (.child st.next (childIndex s key)) (st.splitLeaf getId loc s l) := by
  rw [insertAt.eq_def]
  simp only [h, hk, if_false]

theorem removeAt_empty (h : st.load loc = .leaf none) : removeAt getId key s loc st = (none, st) := by
  rw [removeAt.eq_def]
  cases s <;> simp only [h]

theorem removeAt_leaf {l : T} (h : st.load loc = .leaf (some l)) :
    removeAt getId key s loc st = if getId l ≠ key then (none, st) else (some l, st.storeAt loc (.leaf none)) := by
  rw [removeAt.eq_def]
  cases s <;> simp only [h]

end Loops

section Specs

variable {getId : T → BitVec W} {i : Nat}

theorem Owned.lt_length {st : RadixStore T} {key : BitVec W} {s : Nat} {loc : Loc} (h : Owned st i key s loc) :
    i < st.roots.length := by
  induction h with
  | root hi => exact hi
  | child _ _ _ _ ih => exact ih

/-- The loop of `insert(value)` from an owned slot on the walk for its key:
it returns whether tree `i` held no value under the key, stores `value` there
if so, and changes nothing else. The induction is on the levels left; each
pass of `SEEK_LEAF_LOOP` or split of a leaf leaves the writer one level down
at an owned slot, with the maps unchanged. -/
theorem insertAt_spec (value : T) : ∀ (s : Nat) {loc : Loc} {st : RadixStore T} {Lay : Layout},
    Inv getId Lay st → Owned st i (getId value) s loc →
      ∃ Lay', Inv getId Lay' (insertAt getId (getId value) value s loc st).2 ∧
        (insertAt getId (getId value) value s loc st).2.roots.length = st.roots.length ∧
        (insertAt getId (getId value) value s loc st).1 = (RadixTree.get getId st i (getId value)).isNone ∧
        ∀ j < st.roots.length, ∀ key',
          RadixTree.get getId (insertAt getId (getId value) value s loc st).2 j key' =
            if j = i ∧ key' = getId value ∧ (insertAt getId (getId value) value s loc st).1 = true
            then some value else RadixTree.get getId st j key'
  | s, loc, st, Lay, hI, hown => by
    have hi := hown.lt_length
    cases hload : st.load loc with
    | node p =>
      cases s with
      | zero =>
        -- no node sits at the leaves
        have := hown.fits hI
        rw [hload] at this
        exact absurd this.1 (Nat.lt_irrefl 0)
      | succ s =>
        obtain ⟨Lay₁, hI₁, hown₁, hlen₁, hget₁⟩ := seekStep_spec hI hown hload
        obtain ⟨Lay', hI', hlen', hr, hget'⟩ := insertAt_spec value s hI₁ hown₁
        rw [insertAt_node value hload]
        refine ⟨Lay', hI', hlen'.trans hlen₁, by rw [hr, hget₁ i hi], fun j hj key' => ?_⟩
        rw [hget' j (hlen₁ ▸ hj) key', hget₁ j hj key']
    | leaf v =>
      cases v with
      | none =>
        -- an empty slot: the value goes there
        rw [insertAt_empty value hload]
        have hnone : ∀ key', prefixOf s key' = prefixOf s (getId value) → RadixTree.get getId st i key' = none :=
          fun key' hk => by rw [hown.get_eq hk, hload, getLoop_leaf_none]
        refine ⟨Lay, hI.storeLeaf hown hload rfl, RadixStore.length_roots_storeAt _ _,
          by rw [hnone _ rfl]; rfl, fun j hj key' => ?_⟩
        rw [storeLeaf_get hI hown _ hj key', getLoop_leaf_some]
        by_cases hji : j = i
        · subst hji
          by_cases hk : key' = getId value
          · subst hk
            simp
          · have hne : getId value ≠ key' := Ne.symm hk
            by_cases hb : prefixOf s key' = prefixOf s (getId value)
            · simp [hk, hb, hne, hnone key' hb]
            · simp [hk, hb]
        · simp [hji]
      | some l =>
        by_cases hkl : getId value = getId l
        · -- the key is there: nothing changes
          rw [insertAt_same value hload hkl]
          have hsome : RadixTree.get getId st i (getId value) = some l := by
            rw [hown.get_eq rfl, hload, getLoop_leaf_some, if_pos hkl.symm]
          refine ⟨Lay, hI, rfl, by rw [hsome]; rfl, fun j _ key' => ?_⟩
          simp
        · cases s with
          | zero =>
            -- at the leaves a slot covers one key
            have := hown.fits hI
            rw [hload] at this
            exact absurd (eq_of_prefixOf_zero this).symm hkl
          | succ s =>
            obtain ⟨hI₁, hown₁, hlen₁, hget₁⟩ := splitLeaf_spec hI hown hload
            obtain ⟨Lay', hI', hlen', hr, hget'⟩ := insertAt_spec value s hI₁ hown₁
            rw [insertAt_split value hload hkl]
            refine ⟨Lay', hI', hlen'.trans hlen₁, by rw [hr, hget₁ i hi], fun j hj key' => ?_⟩
            rw [hget' j (hlen₁ ▸ hj) key', hget₁ j hj key']

/-- The loop of `remove(key)` from an owned slot on the walk for `key`: it
returns tree `i`'s value under `key` and removes it, and changes nothing
else. -/
theorem removeAt_spec (key : BitVec W) : ∀ (s : Nat) {loc : Loc} {st : RadixStore T} {Lay : Layout},
    Inv getId Lay st → Owned st i key s loc →
      ∃ Lay', Inv getId Lay' (removeAt getId key s loc st).2 ∧
        (removeAt getId key s loc st).2.roots.length = st.roots.length ∧
        (removeAt getId key s loc st).1 = RadixTree.get getId st i key ∧
        ∀ j < st.roots.length, ∀ key',
          RadixTree.get getId (removeAt getId key s loc st).2 j key' =
            if j = i ∧ key' = key then none else RadixTree.get getId st j key'
  | s, loc, st, Lay, hI, hown => by
    have hi := hown.lt_length
    cases hload : st.load loc with
    | node p =>
      cases s with
      | zero =>
        have := hown.fits hI
        rw [hload] at this
        exact absurd this.1 (Nat.lt_irrefl 0)
      | succ s =>
        obtain ⟨Lay₁, hI₁, hown₁, hlen₁, hget₁⟩ := seekStep_spec hI hown hload
        obtain ⟨Lay', hI', hlen', hr, hget'⟩ := removeAt_spec key s hI₁ hown₁
        rw [removeAt_node hload]
        refine ⟨Lay', hI', hlen'.trans hlen₁, by rw [hr, hget₁ i hi], fun j hj key' => ?_⟩
        rw [hget' j (hlen₁ ▸ hj) key', hget₁ j hj key']
    | leaf v =>
      -- what tree `i` holds in the slot's block
      have hblock : ∀ key', prefixOf s key' = prefixOf s key →
          RadixTree.get getId st i key' = getLoop getId key' st.heap s (.leaf v) :=
        fun key' hk => by rw [hown.get_eq hk, hload]
      cases v with
      | none =>
        rw [removeAt_empty hload]
        have hnone := hblock key rfl
        rw [getLoop_leaf_none] at hnone
        refine ⟨Lay, hI, rfl, hnone.symm, fun j _ key' => ?_⟩
        split_ifs with h
        · obtain ⟨rfl, rfl⟩ := h
          exact hnone
        · rfl
      | some l =>
        rw [removeAt_leaf hload]
        by_cases hkl : getId l = key
        · -- the leaf is the key's: the slot is emptied
          rw [if_neg (not_not.mpr hkl)]
          have hsome := hblock key rfl
          rw [getLoop_leaf_some, if_pos hkl] at hsome
          refine ⟨Lay, hI.storeLeaf hown hload trivial, RadixStore.length_roots_storeAt _ _, hsome.symm,
            fun j hj key' => ?_⟩
          rw [storeLeaf_get hI hown _ hj key', getLoop_leaf_none]
          by_cases hji : j = i
          · subst hji
            by_cases hk : key' = key
            · simp [hk]
            · by_cases hb : prefixOf s key' = prefixOf s key
              · have hne : getId l ≠ key' := hkl ▸ Ne.symm hk
                simp [hk, hb, hblock key' hb, hne]
              · simp [hk, hb]
          · simp [hji]
        · -- another key's leaf: nothing to remove
          rw [if_pos hkl]
          have hnone := hblock key rfl
          rw [getLoop_leaf_some, if_neg hkl] at hnone
          refine ⟨Lay, hI, rfl, hnone.symm, fun j _ key' => ?_⟩
          split_ifs with h
          · obtain ⟨rfl, rfl⟩ := h
            exact hnone
          · rfl

end Specs

/-! ## The maps the trees stand for -/

/-- The maps the trees of a store stand for, in the order the trees were
made: what `get(key)` returns on each. -/
def views (getId : T → BitVec W) (st : RadixStore T) : List (BitVec W → Option T) :=
  (List.range st.roots.length).map fun j => RadixTree.get getId st j

/-- What each operation does to a list of maps, and returns: `insert` stores
a value under its key where none is, `remove` takes the value under a key
out, `get` reads it, a new tree is an empty map and a copy is a new map equal
to its source's. -/
def spec (getId : T → BitVec W) (ms : List (BitVec W → Option T)) :
    Op T W → List (BitVec W → Option T) × Reply T
  | .newTree => (ms ++ [(fun _ => none : BitVec W → Option T)], .done)
  | .copy src => (ms ++ [ms.getD src fun _ => none], .done)
  | .insert i value =>
    let m := ms.getD i fun _ => none
    match m (getId value) with
    | none => (ms.set i (Function.update m (getId value) (some value)), .inserted true)
    | some _ => (ms, .inserted false)
  | .remove i key =>
    let m := ms.getD i fun _ => none
    (ms.set i (Function.update m key none), .value (m key))
  | .get i key => (ms, .value ((ms.getD i fun _ => none) key))

/-- An operation on trees that exist. -/
def Allowed (ms : List (BitVec W → Option T)) : Op T W → Prop
  | .newTree => True
  | .copy src => src < ms.length
  | .insert i _ => i < ms.length
  | .remove i _ => i < ms.length
  | .get i _ => i < ms.length

section Views

variable {getId : T → BitVec W} {st st' : RadixStore T}

@[simp] theorem length_views : (views getId st).length = st.roots.length := by
  simp [views]

theorem getD_views {j : Nat} (hj : j < st.roots.length) (d : BitVec W → Option T) :
    (views getId st).getD j d = RadixTree.get getId st j := by
  simp [views, hj]

@[simp] theorem getElem_views {j : Nat} (h : j < (views getId st).length) :
    (views getId st)[j] = RadixTree.get getId st j := by
  simp [views]

/-- A step that adds a tree and keeps the others' maps. -/
theorem views_snoc {m : BitVec W → Option T} (hlen : st'.roots.length = st.roots.length + 1)
    (hold : ∀ j < st.roots.length, RadixTree.get getId st' j = RadixTree.get getId st j)
    (hnew : RadixTree.get getId st' st.roots.length = m) : views getId st' = views getId st ++ [m] := by
  unfold views
  rw [hlen, List.range_succ, List.map_append, List.map_singleton, hnew]
  congr 1
  exact List.map_congr_left fun j hj => hold j (List.mem_range.mp hj)

/-- A step that keeps every tree's map. -/
theorem views_congr (hlen : st'.roots.length = st.roots.length)
    (h : ∀ j < st.roots.length, RadixTree.get getId st' j = RadixTree.get getId st j) :
    views getId st' = views getId st := by
  unfold views
  rw [hlen]
  exact List.map_congr_left fun j hj => h j (List.mem_range.mp hj)

/-- A step that changes the map of tree `i` only. -/
theorem views_set {i : Nat} {m : BitVec W → Option T} (hlen : st'.roots.length = st.roots.length)
    (h : ∀ j < st.roots.length, RadixTree.get getId st' j = if j = i then m else RadixTree.get getId st j) :
    views getId st' = (views getId st).set i m := by
  refine List.ext_getElem (by simp [hlen]) fun j h₁ h₂ => ?_
  have hj : j < st.roots.length := by simpa using h₂
  rw [getElem_views, List.getElem_set, getElem_views, h j hj]
  by_cases hji : j = i
  · simp [hji]
  · simp [hji, Ne.symm hji]

end Views

/-! ## New trees and copies -/

namespace RadixStore

variable {st : RadixStore T}

/-! A new tree adds a root slot at the end; every other slot keeps what it
holds. -/

theorem load_appendRoot_lt {h : Nat → Option (RadixNode T)} {n : Nat} (e : RadixElement T) {j : Nat}
    (hj : j < st.roots.length) : (RadixStore.mk h n (st.roots ++ [e])).load (.root j) = st.load (.root j) := by
  simp [List.getD_eq_getElem?_getD, List.getElem?_append_left hj]

theorem load_appendRoot_last {h : Nat → Option (RadixNode T)} {n : Nat} (e : RadixElement T) :
    (RadixStore.mk h n (st.roots ++ [e])).load (.root st.roots.length) = e := by
  simp [List.getD_eq_getElem?_getD]

theorem load_appendRoot_ge {h : Nat → Option (RadixNode T)} {n : Nat} (e : RadixElement T) {j : Nat}
    (hj : st.roots.length < j) : (RadixStore.mk h n (st.roots ++ [e])).load (.root j) = .leaf none := by
  have hlen : (st.roots ++ [e]).length ≤ j := by simp; omega
  simp [List.getD_eq_getElem?_getD, List.getElem?_eq_none hlen]

/-- One more root slot, holding `e`. -/
theorem refs_appendRoot (e : RadixElement T) (x : Nat) :
    ({ st with roots := st.roots ++ [e] } : RadixStore T).refs x = st.refs x + if e.holds x then 1 else 0 := by
  let st' : RadixStore T := { st with roots := st.roots ++ [e] }
  have hroots : ((List.range st.roots.length).map Loc.root).countP (fun L => (st'.load L).holds x) =
      ((List.range st.roots.length).map Loc.root).countP fun L => (st.load L).holds x :=
    List.countP_congr fun L hL => by
      obtain ⟨j, hj, rfl⟩ := List.mem_map.mp hL
      rw [load_appendRoot_lt e (List.mem_range.mp hj)]
  have hkids : ((List.range st.next).flatMap fun p => (List.finRange 16).map (Loc.child p)).countP
      (fun L => (st'.load L).holds x) =
      ((List.range st.next).flatMap fun p => (List.finRange 16).map (Loc.child p)).countP
        fun L => (st.load L).holds x :=
    List.countP_congr fun L hL => by
      obtain ⟨p, -, hp⟩ := List.mem_flatMap.mp hL
      obtain ⟨c, -, rfl⟩ := List.mem_map.mp hp
      rfl
  show st'.liveSlots.countP _ = st.liveSlots.countP _ + _
  unfold liveSlots
  rw [show st'.roots.length = st.roots.length + 1 by simp [st'], List.range_succ, List.map_append,
    List.countP_append, List.countP_append, List.countP_append, hroots,
    show st'.next = st.next from rfl, hkids, List.map_singleton, List.countP_singleton,
    load_appendRoot_last]
  omega

theorem countOf_incrementRefCount (e : RadixElement T) (x : Nat) :
    (st.incrementRefCount e).countOf x = st.countOf x + if e.holds x ∧ (st.heap x).isSome then 1 else 0 := by
  unfold countOf
  rw [heap_incrementRefCount]
  cases st.heap x with
  | none => simp
  | some m =>
    by_cases h : e.holds x <;> simp [h]

theorem liveSlots_incrementRefCount (e : RadixElement T) : (st.incrementRefCount e).liveSlots = st.liveSlots := by
  unfold liveSlots
  rw [roots_incrementRefCount, next_incrementRefCount]

end RadixStore

/-- A copy counts its root once more, in a store whose roots are still the
source's. -/
theorem copy_eq (st : RadixStore T) (src : Nat) :
    RadixTree.copy st src =
      ({ st.incrementRefCount (st.load (.root src)) with
        roots := (st.incrementRefCount (st.load (.root src))).roots ++ [st.load (.root src)] } : RadixStore T) := by
  rw [RadixStore.roots_incrementRefCount]
  rfl

section NewTrees

variable {getId : T → BitVec W} {Lay : Layout} {st : RadixStore T}

theorem Inv.newTree (hI : Inv getId Lay st) : Inv getId Lay (RadixTree.newTree st) where
  alloc := hI.alloc
  counted x := by
    rw [RadixTree.newTree, RadixStore.refs_appendRoot]
    show st.refs x + (if (RadixElement.leaf none : RadixElement T).holds x then 1 else 0) = st.countOf x
    simp [hI.counted x]
  roots j hj := by
    simp only [RadixTree.newTree, List.length_append, List.length_singleton] at hj
    rcases Nat.lt_succ_iff_lt_or_eq.mp hj with hj | rfl
    · rw [RadixTree.newTree, RadixStore.load_appendRoot_lt _ hj]
      exact hI.roots j hj
    · rw [RadixTree.newTree, RadixStore.load_appendRoot_last]
      trivial
  children := hI.children

theorem get_newTree {j : Nat} (key : BitVec W) :
    RadixTree.get getId (RadixTree.newTree st) j key =
      if j < st.roots.length then RadixTree.get getId st j key else none := by
  unfold RadixTree.get RadixTree.newTree
  split_ifs with hj
  · rw [RadixStore.load_appendRoot_lt _ hj]
  · rcases Nat.lt_or_ge st.roots.length j with hj' | hj'
    · rw [RadixStore.load_appendRoot_ge _ hj', getLoop_leaf_none]
    · obtain rfl : j = st.roots.length := by omega
      rw [RadixStore.load_appendRoot_last, getLoop_leaf_none]

/-- A node a root holds is in the heap, also when the root is not a tree's. -/
theorem Inv.isSome_of_root_holds (hI : Inv getId Lay st) {src x : Nat} (h : (st.load (.root src)).holds x) :
    (st.heap x).isSome := by
  by_cases hsrc : src < st.roots.length
  · cases he : st.load (.root src) with
    | leaf v =>
      rw [he, RadixElement.holds_leaf] at h
      exact absurd h Bool.false_ne_true
    | node q =>
      rw [he, RadixElement.holds_node, beq_iff_eq] at h
      subst h
      exact hI.isSome_of_holds (RadixStore.mem_liveSlots_root.mpr hsrc) he
  · rw [RadixStore.load_root, List.getD_eq_default _ _ (Nat.le_of_not_lt hsrc), RadixElement.holds_leaf] at h
    exact absurd h Bool.false_ne_true

theorem Inv.copy (hI : Inv getId Lay st) (src : Nat) : Inv getId Lay (RadixTree.copy st src) := by
  refine ⟨fun x => ?_, fun x => ?_, fun j hj => ?_, ?_⟩
  · show ((st.incrementRefCount _).heap x).isSome ↔ x < (st.incrementRefCount _).next
    rw [RadixStore.heap_incrementRefCount, Option.isSome_map, RadixStore.next_incrementRefCount]
    exact hI.alloc x
  · rw [copy_eq, RadixStore.refs_appendRoot,
      RadixStore.refs_congr (RadixStore.liveSlots_incrementRefCount _)
        (fun L _ => RadixStore.load_incrementRefCount _ L)]
    show _ = (st.incrementRefCount _).countOf x
    rw [RadixStore.countOf_incrementRefCount, hI.counted x]
    by_cases h : (st.load (.root src)).holds x
    · rw [if_pos h, if_pos ⟨h, hI.isSome_of_root_holds h⟩]
    · rw [if_neg h, if_neg fun h' => h h'.1]
  · -- the old roots keep their slots, the new one is the source's root
    simp only [RadixTree.copy, List.length_append, List.length_singleton] at hj
    rcases Nat.lt_succ_iff_lt_or_eq.mp hj with hj | rfl
    · rw [RadixTree.copy, RadixStore.load_appendRoot_lt _ hj]
      exact hI.roots j hj
    · rw [RadixTree.copy, RadixStore.load_appendRoot_last]
      exact hI.fits_root src
  · refine hI.children.congr fun x n' hx => ?_
    change (st.incrementRefCount _).heap x = some n' at hx
    rw [RadixStore.heap_incrementRefCount] at hx
    obtain ⟨m, hm, rfl⟩ := Option.map_eq_some_iff.mp hx
    exact ⟨m, hm, rfl⟩

theorem get_copy (src : Nat) {j : Nat} (key : BitVec W) :
    RadixTree.get getId (RadixTree.copy st src) j key =
      if j < st.roots.length then RadixTree.get getId st j key
      else if j = st.roots.length then RadixTree.get getId st src key else none := by
  -- the walks read child slots only, where the copy changed nothing
  have hframe : ∀ e : RadixElement T, getLoop getId key (RadixTree.copy st src).heap (TOP_LEVEL W + 1) e =
      getLoop getId key st.heap (TOP_LEVEL W + 1) e := fun e =>
    getLoop_frame fun L hL => by
      cases L with
      | root i => exact absurd rfl (hL.ne_root i)
      | child p c =>
        show (st.incrementRefCount (st.load (.root src))).load (.child p c) = _
        exact RadixStore.load_incrementRefCount _ _
  unfold RadixTree.get
  rw [hframe]
  split_ifs with hj hj'
  · rw [RadixTree.copy, RadixStore.load_appendRoot_lt _ hj]
  · subst hj'
    rw [RadixTree.copy, RadixStore.load_appendRoot_last]
  · rw [RadixTree.copy, RadixStore.load_appendRoot_ge _ (by omega), getLoop_leaf_none]

end NewTrees

/-! ## Each operation does what `spec` says -/

section Operations

variable {getId : T → BitVec W} {Lay : Layout} {st : RadixStore T}

theorem views_newTree : views getId (RadixTree.newTree st) = views getId st ++ [fun _ => none] :=
  views_snoc (by simp [RadixTree.newTree]) (fun j hj => funext fun key => by rw [get_newTree, if_pos hj])
    (funext fun key => by rw [get_newTree, if_neg (Nat.lt_irrefl _)])

theorem views_copy (src : Nat) :
    views getId (RadixTree.copy st src) = views getId st ++ [RadixTree.get getId st src] :=
  views_snoc (by simp [RadixTree.copy]) (fun j hj => funext fun key => by rw [get_copy, if_pos hj])
    (funext fun key => by rw [get_copy, if_neg (Nat.lt_irrefl _), if_pos rfl])

theorem insert_refines (hI : Inv getId Lay st) {i : Nat} (hi : i < st.roots.length) (value : T) :
    ∃ Lay', Inv getId Lay' (RadixTree.insert getId st i value).2 ∧
      spec getId (views getId st) (.insert i value) =
        (views getId (RadixTree.insert getId st i value).2, .inserted (RadixTree.insert getId st i value).1) := by
  obtain ⟨Lay', hI', hlen, hret, hget⟩ := insertAt_spec value (TOP_LEVEL W + 1) hI (Owned.root hi)
  rw [← RadixTree.insert.eq_1] at hI' hlen hret hget
  refine ⟨Lay', hI', ?_⟩
  simp only [spec, getD_views hi]
  cases hm : RadixTree.get getId st i (getId value) with
  | none =>
    rw [hm, Option.isNone_none] at hret
    dsimp only
    rw [hret, views_set hlen fun j hj => funext fun key' => ?_]
    rw [hget j hj key', hret]
    by_cases hji : j = i
    · by_cases hk : key' = getId value <;> simp [hji, hk]
    · simp [hji]
  | some w =>
    rw [hm, Option.isNone_some] at hret
    dsimp only
    rw [hret, views_congr hlen fun j hj => funext fun key' => ?_]
    rw [hget j hj key', hret]
    simp

theorem remove_refines (hI : Inv getId Lay st) {i : Nat} (hi : i < st.roots.length) (key : BitVec W) :
    ∃ Lay', Inv getId Lay' (RadixTree.remove getId st i key).2 ∧
      spec getId (views getId st) (.remove i key) =
        (views getId (RadixTree.remove getId st i key).2, .value (RadixTree.remove getId st i key).1) := by
  obtain ⟨Lay', hI', hlen, hret, hget⟩ := removeAt_spec key (TOP_LEVEL W + 1) hI (Owned.root hi)
  rw [← RadixTree.remove.eq_1] at hI' hlen hret hget
  refine ⟨Lay', hI', ?_⟩
  simp only [spec, getD_views hi]
  rw [hret, views_set hlen fun j hj => funext fun key' => ?_]
  rw [hget j hj key']
  by_cases hji : j = i
  · by_cases hk : key' = key <;> simp [hji, hk]
  · simp [hji]

/-- Every operation on a tree that exists keeps the invariant and answers as
`spec` does on the maps the trees stand for. -/
theorem step_refines : Simulation.StepRefines
    (fun st op => (Except.ok (step getId st op) : Except Empty (RadixStore T × Reply T)))
    (spec getId) Allowed (views getId) (fun st => ∃ Lay, Inv getId Lay st) := by
  rintro st op ⟨Lay, hI⟩ hpre
  cases op with
  | newTree => exact ⟨_, _, rfl, ⟨Lay, hI.newTree⟩, by rw [spec, views_newTree]⟩
  | copy src =>
    have hsrc : src < st.roots.length := by simpa [Allowed] using hpre
    exact ⟨_, _, rfl, ⟨Lay, hI.copy src⟩, by rw [spec, views_copy, getD_views hsrc]⟩
  | insert i value =>
    obtain ⟨Lay', hI', hspec⟩ := insert_refines hI (by simpa [Allowed] using hpre) value
    exact ⟨_, _, rfl, ⟨Lay', hI'⟩, hspec⟩
  | remove i key =>
    obtain ⟨Lay', hI', hspec⟩ := remove_refines hI (by simpa [Allowed] using hpre) key
    exact ⟨_, _, rfl, ⟨Lay', hI'⟩, hspec⟩
  | get i key =>
    have hi : i < st.roots.length := by simpa [Allowed] using hpre
    exact ⟨_, _, rfl, ⟨Lay, hI⟩, by rw [spec, getD_views hi]⟩

end Operations

/-! ## Runs from the empty store -/

theorem Inv.empty (getId : T → BitVec W) (Lay : Layout) : Inv getId Lay (RadixStore.empty : RadixStore T) where
  alloc p := by simp [RadixStore.empty]
  counted p := by simp [RadixStore.refs, RadixStore.liveSlots, RadixStore.countOf, RadixStore.empty]
  roots j hj := by simp [RadixStore.empty] at hj
  children p n hp := by simp [RadixStore.empty] at hp

/-- From the empty store, every run of operations on trees that exist
answers as the maps of `spec` do, and at its end `forEachLeaf` on each tree
is the loop over the values of its map, each listed once. -/
theorem radixTree_refines_map (getId : T → BitVec W) (ops : List (Op T W))
    (hops : Simulation.Admissible Allowed (spec getId) [] ops) :
    ∃ st replies,
      Simulation.run (fun st op => (Except.ok (step getId st op) : Except Empty (RadixStore T × Reply T)))
        RadixStore.empty ops = .ok (st, replies) ∧
      Simulation.runSpec (spec getId) [] ops = (views getId st, replies) ∧
      ∀ j < st.roots.length,
        ((leaves st.heap (TOP_LEVEL W + 1) (st.load (.root j))).map getId).Nodup ∧
        (∀ v, v ∈ leaves st.heap (TOP_LEVEL W + 1) (st.load (.root j)) ↔
          RadixTree.get getId st j (getId v) = some v) ∧
        ∀ (σ : Type) (func : σ → T → Bool × σ) (a : σ),
          @RadixTree.forEachLeaf T W σ st j func a =
            forWhile func (leaves st.heap (TOP_LEVEL W + 1) (st.load (.root j))) a := by
  obtain ⟨st, replies, hrun, ⟨Lay, hI⟩, hspec⟩ :=
    Simulation.run_refines step_refines ops RadixStore.empty ⟨⟨fun _ => 0, fun _ => 0⟩, Inv.empty getId _⟩ hops
  exact ⟨st, replies, hrun, hspec, fun j _ =>
    ⟨nodup_leaves hI j, mem_leaves_iff hI j, fun σ func a => forEachLeaf_eq st.heap func _ _ a⟩⟩

/-- A copy keeps the value its source had when it was made: removing the
value from the copy returns it, and the source still has it. -/
theorem radixTree_copy_isolated :
    ∃ st, Simulation.run
      (fun st op => (Except.ok (step (fun n : Nat => BitVec.ofNat 8 n) st op) : Except Empty (RadixStore Nat × Reply Nat)))
      RadixStore.empty [.newTree, .insert 0 5, .copy 0, .remove 1 5#8, .get 0 5#8] =
        .ok (st, [.done, .inserted true, .done, .value (some 5), .value (some 5)]) := by
  obtain ⟨st, replies, hrun, hspec, -⟩ := radixTree_refines_map (fun n : Nat => BitVec.ofNat 8 n)
    [.newTree, .insert 0 5, .copy 0, .remove 1 5#8, .get 0 5#8]
    (by simp [Simulation.Admissible, Allowed, spec])
  have hr : replies = [.done, .inserted true, .done, .value (some 5), .value (some 5)] := by
    have h := congrArg Prod.snd hspec
    simp [Simulation.runSpec, spec] at h
    exact h.symm
  exact ⟨st, hr ▸ hrun⟩

end Radix
end BitcoinAbc
