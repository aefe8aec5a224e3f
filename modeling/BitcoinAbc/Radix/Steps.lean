import Mathlib
import BitcoinAbc.Radix.Sharing

/-!
# The steps of a writer's descent

A writer walks down from the root of its tree through owned slots (`Owned`)
and changes the store at the slot it stands at in one of three ways:

- `Inv.storeLeaf`, `storeLeaf_get`: a leaf written over a leaf, as `insert`
  does into an empty slot and `remove` does to the leaf it finds;
- `splitLeaf_spec`: a leaf moved into a new node put in its place, where two
  keys meet;
- `seekStep_spec`: one pass of `SEEK_LEAF_LOOP`, which enters an unshared node
  and replaces a shared one by a copy first (`copyNode_inv`, `copyNode_get`).

Each keeps the invariant, with the new node added to the layout. The last two
change no tree's map and leave the writer at an owned slot one level down.
The counts follow the references: a copy gives each node among its children
one more reference and one more count, and moves one reference from the node
it copies to itself.
-/

namespace BitcoinAbc
namespace Radix

variable {T : Type} {W : Nat}

/-! ## Layouts -/

/-- The layout with node `q` placed at level `s` over block `b`. -/
def Layout.set (Lay : Layout) (q s b : Nat) : Layout :=
  ⟨Function.update Lay.level q s, Function.update Lay.block q b⟩

/-- Slot `loc` sits `s` levels above the leaves on the walk for `key`. -/
def SlotFits (Lay : Layout) (key : BitVec W) (s : Nat) : Loc → Prop
  | .root _ => s = TOP_LEVEL W + 1
  | .child p c => Lay.level p = s + 1 ∧ Lay.block p = prefixOf (s + 1) key ∧ c = childIndex s key

section Layout

variable {getId : T → BitVec W} {Lay Lay' : Layout} {st st' : RadixStore T}

@[simp] theorem Layout.level_set_self (Lay : Layout) (q s b : Nat) : (Lay.set q s b).level q = s := by
  simp [Layout.set]

@[simp] theorem Layout.block_set_self (Lay : Layout) (q s b : Nat) : (Lay.set q s b).block q = b := by
  simp [Layout.set]

theorem Layout.set_of_ne {q x : Nat} (h : x ≠ q) (s b : Nat) :
    (Lay.set q s b).level x = Lay.level x ∧ (Lay.set q s b).block x = Lay.block x :=
  ⟨Function.update_of_ne h _ _, Function.update_of_ne h _ _⟩

/-- Fitting reads the layout only at the node the element holds. -/
theorem Layout.fits_congr {e : RadixElement T}
    (h : ∀ x, e = .node x → Lay'.level x = Lay.level x ∧ Lay'.block x = Lay.block x) {s b : Nat} :
    Lay'.Fits getId s b e ↔ Lay.Fits getId s b e := by
  cases e with
  | leaf v => cases v <;> rfl
  | node x =>
    obtain ⟨hl, hb⟩ := h x rfl
    simp only [Layout.Fits, hl, hb]

theorem SlotFits.congr {key : BitVec W} {s : Nat} {loc : Loc} (h : SlotFits Lay key s loc)
    (hagree : ∀ p c, loc = .child p c → Lay'.level p = Lay.level p ∧ Lay'.block p = Lay.block p) :
    SlotFits Lay' key s loc := by
  cases loc with
  | root j => exact h
  | child p c =>
    obtain ⟨hl, hb⟩ := hagree p c rfl
    obtain ⟨hlev, hblock, hc⟩ := h
    exact ⟨hl.trans hlev, hb.trans hblock, hc⟩

theorem Owned.slotFits {i s : Nat} {key : BitVec W} {loc : Loc} (hI : Inv getId Lay st)
    (h : Owned st i key s loc) : SlotFits Lay key s loc := by
  cases loc with
  | root j => exact h.of_root.2
  | child p c => exact h.parent hI

/-- A layout that agrees on the nodes in the heap fits the store alike. -/
theorem Inv.relayout (hI : Inv getId Lay st)
    (hagree : ∀ x, (st.heap x).isSome → Lay'.level x = Lay.level x ∧ Lay'.block x = Lay.block x) :
    RootsFit getId Lay' st ∧ ChildrenFit getId Lay' st := by
  have hheld : ∀ L ∈ st.liveSlots, ∀ x, st.load L = .node x →
      Lay'.level x = Lay.level x ∧ Lay'.block x = Lay.block x := fun L hL x hx =>
    hagree x (hI.isSome_of_holds hL hx)
  refine ⟨fun j hj => ?_, fun x n hx c => ?_⟩
  · exact (Layout.fits_congr (hheld _ (RadixStore.mem_liveSlots_root.mpr hj))).mpr (hI.roots j hj)
  · have hxs : (st.heap x).isSome := by rw [hx]; rfl
    have hslot : Loc.child x c ∈ st.liveSlots := RadixStore.mem_liveSlots_child.mpr ((hI.alloc x).mp hxs)
    obtain ⟨hl, hb⟩ := hagree x hxs
    rw [hl, hb]
    refine (Layout.fits_congr fun y hy => hheld _ hslot y ?_).mpr (hI.children x n hx c)
    simp [loadChild, hx, hy]

end Layout

/-! ## Fitting after each kind of change -/

section Fit

variable {getId : T → BitVec W} {Lay : Layout} {st st' : RadixStore T} {key : BitVec W} {s : Nat}
  {loc : Loc} {e : RadixElement T}

theorem RootsFit.storeAt (hr : RootsFit getId Lay st) (hslot : SlotFits Lay key s loc)
    (he : Lay.Fits getId s (prefixOf s key) e) : RootsFit getId Lay (st.storeAt loc e) := by
  intro j hj
  rw [RadixStore.length_roots_storeAt] at hj
  by_cases hjl : Loc.root j = loc
  · subst hjl
    rw [RadixStore.load_storeAt_self e (show st.Live (.root j) from hj)]
    have hs : s = TOP_LEVEL W + 1 := hslot
    subst hs
    rwa [prefixOf_top] at he
  · rw [RadixStore.load_storeAt_of_ne e hjl]
    exact hr j hj

theorem RootsFit.congr (hr : RootsFit getId Lay st) (hroots : st'.roots = st.roots) :
    RootsFit getId Lay st' := by
  intro j hj
  rw [RadixStore.load_root, hroots]
  rw [hroots] at hj
  exact hr j hj

theorem ChildrenFit.storeAt (hc : ChildrenFit getId Lay st) (hslot : SlotFits Lay key s loc)
    (he : Lay.Fits getId s (prefixOf s key) e) : ChildrenFit getId Lay (st.storeAt loc e) := by
  intro x n' hx c'
  cases loc with
  | root j => exact hc x n' hx c'
  | child p c =>
    obtain ⟨hlev, hblock, hcidx⟩ := hslot
    by_cases hxp : x = p
    · subst hxp
      simp only [RadixStore.storeAt, Function.update_self] at hx
      obtain ⟨n, hn, rfl⟩ := Option.map_eq_some_iff.mp hx
      dsimp only
      by_cases hc' : c' = c
      · -- the written child: the slot's own block
        subst hc'
        rw [Function.update_self, hlev, Nat.add_sub_cancel, hblock, hcidx, prefixOf_succ_mul_add]
        exact he
      · rw [Function.update_of_ne hc']
        exact hc x n hn c'
    · simp only [RadixStore.storeAt, Function.update_of_ne hxp] at hx
      exact hc x n' hx c'

theorem ChildrenFit.congr (hc : ChildrenFit getId Lay st)
    (h : ∀ x n', st'.heap x = some n' → ∃ n, st.heap x = some n ∧ n'.children = n.children) :
    ChildrenFit getId Lay st' := by
  intro x n' hx c
  obtain ⟨n, hn, hch⟩ := h x n' hx
  rw [hch]
  exact hc x n hn c

theorem ChildrenFit.alloc (hc : ChildrenFit getId Lay st) {n : RadixNode T}
    (hn : ∀ c : Fin 16, Lay.Fits getId (Lay.level st.next - 1) (Lay.block st.next * 16 + c.val) (n.children c)) :
    ChildrenFit getId Lay (st.alloc n) := by
  intro x n' hx c
  by_cases hxq : x = st.next
  · subst hxq
    rw [RadixStore.heap_alloc_self] at hx
    cases hx
    exact hn c
  · rw [RadixStore.heap_alloc_of_ne n hxq] at hx
    exact hc x n' hx c

theorem ChildrenFit.modifyRefcount (hc : ChildrenFit getId Lay st) (p : Nat) (f : Nat → Nat) :
    ChildrenFit getId Lay (st.modifyRefcount p f) :=
  hc.congr fun x n' hx => by
    rw [RadixStore.heap_modifyRefcount] at hx
    split_ifs at hx
    · obtain ⟨n, hn, rfl⟩ := Option.map_eq_some_iff.mp hx
      exact ⟨n, hn, rfl⟩
    · exact ⟨n', hx, rfl⟩

theorem ChildrenFit.foldl_increment (hc : ChildrenFit getId Lay st) (n : RadixNode T) (cs : List (Fin 16)) :
    ChildrenFit getId Lay (cs.foldl (fun st c => st.incrementRefCount (n.children c)) st) :=
  hc.congr fun x n' hx => by
    rw [RadixStore.heap_foldl_increment] at hx
    obtain ⟨m, hm, rfl⟩ := Option.map_eq_some_iff.mp hx
    exact ⟨m, hm, rfl⟩

end Fit

/-! ## The counts after each kind of change -/

namespace RadixStore

variable {st : RadixStore T}

theorem refcount_storeAt {x : Nat} {n : RadixNode T} (hx : st.heap x = some n) (loc : Loc) (e : RadixElement T) :
    ∃ n', (st.storeAt loc e).heap x = some n' ∧ n'.refcount = n.refcount := by
  cases loc with
  | root j => exact ⟨n, hx, rfl⟩
  | child p c =>
    by_cases hxp : x = p
    · subst hxp
      exact ⟨{ n with children := Function.update n.children c e }, by simp [storeAt, hx], rfl⟩
    · exact ⟨n, by simp [storeAt, Function.update_of_ne hxp, hx], rfl⟩

/-- A child slot of a node in the heap is a slot of the store: the references
among a node's children are references of the store. -/
theorem childRefs_le_refs {p : Nat} {n : RadixNode T} (hp : st.heap p = some n) (hlive : p < st.next)
    (q : Nat) : childRefs n q ≤ st.refs q := by
  have hsub : ((List.finRange 16).map (Loc.child p)).Subperm st.liveSlots :=
    List.Nodup.subperm ((List.nodup_finRange 16).map fun _ _ h => (Loc.child.inj h).2) fun L hL => by
      obtain ⟨c, -, rfl⟩ := List.mem_map.mp hL
      exact mem_liveSlots_child.mpr hlive
  have hcount := hsub.countP_le fun L => (st.load L).holds q
  rw [List.countP_map] at hcount
  unfold childRefs refs
  refine Nat.le_trans (Nat.le_of_eq (List.countP_congr fun c _ => ?_)) hcount
  simp [Function.comp, loadChild, hp]

/-- A store into a slot not of node `x` leaves node `x`. -/
theorem heap_storeAt_of_ne {loc : Loc} {x : Nat} (h : ∀ c, loc ≠ .child x c) (e : RadixElement T) :
    (st.storeAt loc e).heap x = st.heap x := by
  cases loc with
  | root j => rfl
  | child p c =>
    have hxp : x ≠ p := fun hxp => h c (hxp ▸ rfl)
    simp [storeAt, Function.update_of_ne hxp]

theorem live_alloc {L : Loc} (n : RadixNode T) (h : st.Live L) : (st.alloc n).Live L := by
  cases L with
  | root j => exact h
  | child x c =>
    show ((st.alloc n).heap x).isSome
    by_cases hx : x = st.next
    · subst hx
      simp
    · rw [heap_alloc_of_ne n hx]
      exact h

theorem mem_liveSlots_alloc {L : Loc} (n : RadixNode T) (h : L ∈ st.liveSlots) : L ∈ (st.alloc n).liveSlots := by
  cases L with
  | root j => exact mem_liveSlots_root.mpr (show j < st.roots.length from mem_liveSlots_root.mp h)
  | child x c => exact mem_liveSlots_child.mpr (Nat.lt_succ_of_lt (mem_liveSlots_child.mp h))

/-- A new node changes no slot that was there. -/
theorem load_alloc_of_mem {L : Loc} (n : RadixNode T) (h : L ∈ st.liveSlots) : (st.alloc n).load L = st.load L :=
  load_alloc_of_ne n fun c hc => by
    subst hc
    exact Nat.lt_irrefl _ (mem_liveSlots_child.mp h)

theorem isSome_heap_alloc (n : RadixNode T) (x : Nat) :
    ((st.alloc n).heap x).isSome ↔ x = st.next ∨ (st.heap x).isSome := by
  by_cases hx : x = st.next
  · subst hx
    simp
  · rw [heap_alloc_of_ne n hx]
    simp [hx]

theorem refs_foldl_increment (n : RadixNode T) (cs : List (Fin 16)) :
    (cs.foldl (fun st c => st.incrementRefCount (n.children c)) st).refs = st.refs :=
  foldl_increment_eq refs (fun _ e => by
    funext q
    cases e with
    | leaf v => rfl
    | node x => exact refs_modifyRefcount x _ q) n cs st

theorem liveSlots_foldl_increment (n : RadixNode T) (cs : List (Fin 16)) :
    (cs.foldl (fun st c => st.incrementRefCount (n.children c)) st).liveSlots = st.liveSlots :=
  foldl_increment_eq liveSlots (fun _ e => by cases e <;> rfl) n cs st

theorem next_foldl_increment (n : RadixNode T) (cs : List (Fin 16)) :
    (cs.foldl (fun st c => st.incrementRefCount (n.children c)) st).next = st.next :=
  foldl_increment_eq next (fun _ e => next_incrementRefCount e) n cs st

theorem roots_foldl_increment (n : RadixNode T) (cs : List (Fin 16)) :
    (cs.foldl (fun st c => st.incrementRefCount (n.children c)) st).roots = st.roots :=
  foldl_increment_eq roots (fun _ e => roots_incrementRefCount e) n cs st

theorem isSome_heap_foldl_increment (n : RadixNode T) (cs : List (Fin 16)) (x : Nat) :
    ((cs.foldl (fun st c => st.incrementRefCount (n.children c)) st).heap x).isSome = (st.heap x).isSome := by
  rw [heap_foldl_increment]
  cases st.heap x <;> rfl

theorem load_foldl_increment (n : RadixNode T) (cs : List (Fin 16)) (L : Loc) :
    (cs.foldl (fun st c => st.incrementRefCount (n.children c)) st).load L = st.load L :=
  foldl_increment_eq (fun st => st.load L) (fun _ e => load_incrementRefCount e L) n cs st

end RadixStore

/-! ## The steps -/

section Steps

variable {getId : T → BitVec W} {Lay : Layout} {st : RadixStore T} {i : Nat} {key : BitVec W}

/-- A change that keeps every slot but `loc` and every count keeps `loc`
owned. -/
theorem Owned.storeAt (hI : Inv getId Lay st) {s : Nat} {loc : Loc} (hown : Owned st i key s loc)
    (e : RadixElement T) : Owned (st.storeAt loc e) i key s loc :=
  hown.transfer hI (RadixStore.length_roots_storeAt loc e) (fun _ _ hL => RadixStore.load_storeAt_of_ne e hL)
    fun _ _ hx _ => RadixStore.refcount_storeAt hx loc e

/-- A leaf written over a leaf at an owned slot keeps the invariant. -/
theorem Inv.storeLeaf (hI : Inv getId Lay st) {s : Nat} {loc : Loc} (hown : Owned st i key s loc)
    {v v' : Option T} (hold : st.load loc = .leaf v) (hfit : Lay.Fits getId s (prefixOf s key) (.leaf v')) :
    Inv getId Lay (st.storeAt loc (.leaf v')) where
  alloc x := by
    rw [RadixStore.isSome_heap_storeAt, RadixStore.next_storeAt]
    exact hI.alloc x
  counted x := by
    have hmem := hown.mem_liveSlots hI
    have := RadixStore.refs_storeAt (.leaf v') hmem (hI.live_of_mem hmem) x
    rw [hold] at this
    simp only [RadixElement.holds_leaf, Bool.false_eq_true, if_false, Nat.add_zero] at this
    rw [RadixStore.countOf_storeAt, this, hI.counted x]
  roots := hI.roots.storeAt (hown.slotFits hI) hfit
  children := hI.children.storeAt (hown.slotFits hI) hfit

/-- A leaf written over a leaf at an owned slot: tree `i` reads the new leaf
in the slot's block, every other tree as before. -/
theorem storeLeaf_get (hI : Inv getId Lay st) {s : Nat} {loc : Loc} (hown : Owned st i key s loc)
    (v' : Option T) {j : Nat} (hj : j < st.roots.length) (key' : BitVec W) :
    RadixTree.get getId (st.storeAt loc (.leaf v')) j key' =
      if j = i ∧ prefixOf s key' = prefixOf s key then getLoop getId key' st.heap s (.leaf v')
      else RadixTree.get getId st j key' := by
  have hlive := hI.live_of_mem (hown.mem_liveSlots hI)
  rw [get_write hI hown (hown.storeAt hI _) (fun L _ hL => RadixStore.load_storeAt_of_ne _ hL) hj,
    RadixStore.load_storeAt_self _ hlive]
  cases v' <;> simp

theorem Inv.heap_next (hI : Inv getId Lay st) : st.heap st.next = none := by
  cases h : st.heap st.next with
  | none => rfl
  | some _ => exact absurd ((hI.alloc _).mp (by rw [h]; rfl)) (Nat.lt_irrefl _)

theorem Inv.alloc_alloc (hI : Inv getId Lay st) (n : RadixNode T) (x : Nat) :
    ((st.alloc n).heap x).isSome ↔ x < (st.alloc n).next := by
  rw [RadixStore.isSome_heap_alloc, hI.alloc x, RadixStore.next_alloc]
  omega

/-- `RadixNode(level, key, e)` of a leaf holds no node. -/
theorem childRefs_init (level : Nat) (k : BitVec W) (l : Option T) (q : Nat) :
    RadixStore.childRefs (RadixNode.init level k (.leaf l)) q = 0 := by
  refine List.countP_eq_zero.mpr fun c _ => ?_
  by_cases hc : c = childIndex level k
  · subst hc
    simp [RadixNode.init]
  · simp [RadixNode.init, Function.update_of_ne hc]

/-- `insert` meeting leaf `l` at an owned slot `s + 1` levels up: the new node
is owned one level down, the invariant holds with the node placed over the
slot's block, and every tree reads as before. -/
theorem splitLeaf_spec (hI : Inv getId Lay st) {s : Nat} {loc : Loc} (hown : Owned st i key (s + 1) loc)
    {l : T} (hold : st.load loc = .leaf (some l)) :
    Inv getId (Lay.set st.next (s + 1) (prefixOf (s + 1) key)) (st.splitLeaf getId loc s l) ∧
      Owned (st.splitLeaf getId loc s l) i key s (.child st.next (childIndex s key)) ∧
      (st.splitLeaf getId loc s l).roots.length = st.roots.length ∧
      ∀ j < st.roots.length, ∀ key',
        RadixTree.get getId (st.splitLeaf getId loc s l) j key' = RadixTree.get getId st j key' := by
  -- the new node `n` at `q`, then stored in `loc`
  let n : RadixNode T := RadixNode.init s (getId l) (.leaf (some l))
  let q := st.next
  let Lay' := Lay.set q (s + 1) (prefixOf (s + 1) key)
  have hmem := hown.mem_liveSlots hI
  have hlive := hI.live_of_mem hmem
  have hqnone := hI.heap_next
  have hagree : ∀ x, (st.heap x).isSome → Lay'.level x = Lay.level x ∧ Lay'.block x = Lay.block x :=
    fun x hx => Layout.set_of_ne (fun hxq => by rw [hxq, hqnone] at hx; cases hx) _ _
  obtain ⟨hroots', hchildren'⟩ := hI.relayout hagree
  have hslot : SlotFits Lay' key (s + 1) loc := (hown.slotFits hI).congr fun x c hx => by
    subst hx
    exact hagree x hlive
  -- the old leaf covers the key's block, so the new node's child for it does
  have hleaf : prefixOf (s + 1) (getId l) = prefixOf (s + 1) key := by
    have := hown.fits hI
    rwa [hold] at this
  have hn : ∀ c : Fin 16, Lay'.Fits getId (Lay'.level q - 1) (Lay'.block q * 16 + c.val) (n.children c) := by
    intro c
    rw [Layout.level_set_self, Layout.block_set_self, Nat.add_sub_cancel]
    by_cases hc : c = childIndex s (getId l)
    · subst hc
      have hch : n.children (childIndex s (getId l)) = .leaf (some l) := by simp [n, RadixNode.init]
      rw [hch]
      show prefixOf s (getId l) = _
      rw [← hleaf]
      exact (prefixOf_succ_mul_add s (getId l)).symm
    · have hch : n.children c = .leaf none := by simp [n, RadixNode.init, Function.update_of_ne hc]
      rw [hch]
      trivial
  have hnode : Lay'.Fits getId (s + 1) (prefixOf (s + 1) key) (.node q) :=
    ⟨Nat.succ_pos s, Layout.level_set_self _ _ _ _, Layout.block_set_self _ _ _ _⟩
  have hslots : ∀ L ∈ st.liveSlots, L ≠ loc → (st.splitLeaf getId loc s l).load L = st.load L :=
    fun L hL hne => by
      rw [RadixStore.splitLeaf, RadixStore.load_storeAt_of_ne _ hne, RadixStore.load_alloc_of_mem _ hL]
  have hInv : Inv getId Lay' (st.splitLeaf getId loc s l) :=
    { alloc := fun x => by
        rw [RadixStore.splitLeaf, RadixStore.isSome_heap_storeAt, RadixStore.next_storeAt]
        exact hI.alloc_alloc n x
      counted := fun x => by
        have hstore := RadixStore.refs_storeAt (.node q) (RadixStore.mem_liveSlots_alloc n hmem)
          (RadixStore.live_alloc n hlive) x
        rw [RadixStore.load_alloc_of_mem n hmem, hold, RadixStore.refs_alloc, childRefs_init] at hstore
        rw [RadixStore.splitLeaf, RadixStore.countOf_storeAt, RadixStore.countOf_alloc]
        simp only [RadixElement.holds_leaf, RadixElement.holds_node, Bool.false_eq_true, if_false,
          Nat.add_zero, beq_iff_eq] at hstore
        by_cases hxq : x = q
        · subst hxq
          rw [if_pos rfl] at hstore ⊢
          rw [hI.counted, RadixStore.countOf, hqnone] at hstore
          exact hstore
        · rw [if_neg (Ne.symm hxq)] at hstore
          rw [if_neg hxq, hstore, hI.counted x, Nat.add_zero]
      roots := (RootsFit.congr hroots' (RadixStore.roots_alloc n) : RootsFit getId Lay' (st.alloc n)).storeAt
        hslot hnode
      children := (hchildren'.alloc hn).storeAt hslot hnode }
  have hown' : Owned (st.splitLeaf getId loc s l) i key (s + 1) loc :=
    hown.transfer hI (RadixStore.length_roots_storeAt _ _) hslots fun x m hx _ => by
      have hxq : x ≠ q := fun hxq => by rw [hxq, hqnone] at hx; cases hx
      obtain ⟨m', hm', hcount⟩ := RadixStore.refcount_storeAt (by rw [RadixStore.heap_alloc_of_ne n hxq]; exact hx) loc
        (.node q)
      exact ⟨m', hm', hcount⟩
  have hat : (st.splitLeaf getId loc s l).load loc = .node q :=
    RadixStore.load_storeAt_self _ (RadixStore.live_alloc n hlive)
  have hq : (st.splitLeaf getId loc s l).heap q = some n := by
    rw [RadixStore.splitLeaf, RadixStore.heap_storeAt_of_ne fun c hc => ?_, RadixStore.heap_alloc_self]
    subst hc
    have : (st.heap q).isSome := hlive
    rw [hqnone] at this
    cases this
  refine ⟨hInv, .child hown' hat hq rfl, RadixStore.length_roots_storeAt _ _, fun j hj key' => ?_⟩
  rw [get_write hI hown hown' hslots hj key', hat]
  split_ifs with hin
  · obtain ⟨rfl, hk⟩ := hin
    rw [hown.get_eq hk, hold, getLoop_node, getLoop_leaf_some]
    simp only [loadChild, hq]
    -- the new node holds the leaf at its digit and nothing elsewhere
    by_cases hc : childIndex s key' = childIndex s (getId l)
    · have hch : n.children (childIndex s key') = .leaf (some l) := by simp [n, RadixNode.init, hc]
      rw [hch, getLoop_leaf_some]
    · have hch : n.children (childIndex s key') = .leaf none := by
        simp [n, RadixNode.init, Function.update_of_ne hc]
      rw [hch, getLoop_leaf_none, if_neg]
      rintro hkey
      exact hc (hkey ▸ rfl)
  · rfl

/-! ### Copying a shared node -/

section Copy

variable {s : Nat} {loc : Loc} {p : Nat} {n : RadixNode T}

/-- The store before the compare-and-swap: the copy made and its children
counted. -/
theorem copyNode_eq (st : RadixStore T) (loc : Loc) (p : Nat) (n : RadixNode T) :
    st.copyNode loc p n =
      ((((List.finRange 16).foldl (fun st c => st.incrementRefCount (n.children c))
        (st.alloc ⟨0, n.children⟩)).storeAt loc (.node st.next)).modifyRefcount p (· - 1)) := rfl

theorem RadixStore.live_foldl_increment {st : RadixStore T} (n : RadixNode T) (cs : List (Fin 16)) {L : Loc}
    (h : st.Live L) : (cs.foldl (fun st c => st.incrementRefCount (n.children c)) st).Live L := by
  cases L with
  | root j =>
    show j < _
    rwa [RadixStore.foldl_increment_eq RadixStore.roots (fun _ e => RadixStore.roots_incrementRefCount e) n cs st]
  | child x c =>
    have hx : (st.heap x).isSome := h
    show (Option.isSome _)
    rw [RadixStore.heap_foldl_increment]
    simpa using hx

/-- Every slot but `loc` keeps what it held. -/
theorem copyNode_load {L : Loc} (hL : L ∈ st.liveSlots) (hne : L ≠ loc) :
    (st.copyNode loc p n).load L = st.load L := by
  rw [copyNode_eq, RadixStore.load_modifyRefcount, RadixStore.load_storeAt_of_ne _ hne,
    RadixStore.load_foldl_increment, RadixStore.load_alloc_of_mem _ hL]

theorem copyNode_load_self (hlive : st.Live loc) : (st.copyNode loc p n).load loc = .node st.next := by
  rw [copyNode_eq, RadixStore.load_modifyRefcount, RadixStore.load_storeAt_self]
  exact RadixStore.live_foldl_increment n _ (RadixStore.live_alloc _ hlive)

/-- The copy is at `st.next`, with `n`'s children and a count of `0`: no
slot of the store held the fresh address. -/
theorem copyNode_heap_next (hI : Inv getId Lay st) (hlive : st.Live loc) (hp : st.heap p = some n) :
    (st.copyNode loc p n).heap st.next = some ⟨0, n.children⟩ := by
  have hqnone := hI.heap_next
  have hpq : st.next ≠ p := fun h => by rw [h, hp] at hqnone; cases hqnone
  have hfresh : RadixStore.childRefs n st.next = 0 := by
    have hle := RadixStore.childRefs_le_refs hp ((hI.alloc p).mp (by rw [hp]; rfl)) st.next
    rw [hI.dangling _ hqnone] at hle
    omega
  have hnotloc : ∀ c, loc ≠ .child st.next c := fun c hc => by
    subst hc
    have : (st.heap st.next).isSome := hlive
    rw [hqnone] at this
    cases this
  rw [copyNode_eq, RadixStore.heap_modifyRefcount, if_neg hpq, RadixStore.heap_storeAt_of_ne hnotloc,
    RadixStore.heap_foldl_increment, RadixStore.heap_alloc_self]
  simp only [Option.map_some]
  rw [show List.countP (fun c => (n.children c).holds st.next) (List.finRange 16) = 0 from hfresh]

/-- The counts after the copy: each node among `n`'s children gains as many
references as counts, `loc`'s reference moves from `p` to the copy and `p`
loses one count. -/
theorem copyNode_counted (hI : Inv getId Lay st) (hown : Owned st i key (s + 1) loc)
    (hold : st.load loc = .node p) (hp : st.heap p = some n) (hshared : n.refcount ≠ 0) (x : Nat) :
    (st.copyNode loc p n).refs x = (st.copyNode loc p n).countOf x := by
  have hmem := hown.mem_liveSlots hI
  have hlive := hI.live_of_mem hmem
  have hqnone := hI.heap_next
  have hpq : p ≠ st.next := fun h => by rw [← h, hp] at hqnone; cases hqnone
  have hk := RadixStore.childRefs_le_refs hp ((hI.alloc p).mp (by rw [hp]; rfl)) x
  have hkdef : (List.finRange 16).countP (fun c => (n.children c).holds x) = RadixStore.childRefs n x := rfl
  -- the references: the copy's child slots, and `loc` moved from `p` to the copy
  have hmem₂ : loc ∈ ((List.finRange 16).foldl (fun st c => st.incrementRefCount (n.children c))
      (st.alloc ⟨0, n.children⟩)).liveSlots := by
    rw [RadixStore.liveSlots_foldl_increment]
    exact RadixStore.mem_liveSlots_alloc _ hmem
  have hrefs := RadixStore.refs_storeAt (.node st.next) hmem₂
    (RadixStore.live_foldl_increment n _ (RadixStore.live_alloc _ hlive)) x
  rw [RadixStore.refs_foldl_increment, RadixStore.refs_alloc, RadixStore.load_foldl_increment,
    RadixStore.load_alloc_of_mem _ hmem, hold] at hrefs
  have hk₀ : RadixStore.childRefs ⟨0, n.children⟩ x = RadixStore.childRefs n x := rfl
  simp only [RadixElement.holds_node, beq_iff_eq, hk₀] at hrefs
  -- the count of `p` once the copy's children are counted
  have hp₂ : ((List.finRange 16).foldl (fun st c => st.incrementRefCount (n.children c))
      (st.alloc ⟨0, n.children⟩)).heap p = some { n with refcount := n.refcount + RadixStore.childRefs n p } := by
    rw [RadixStore.heap_foldl_increment, RadixStore.heap_alloc_of_ne _ hpq, hp]
    rfl
  obtain ⟨m, hm, hmcount⟩ := RadixStore.refcount_storeAt hp₂ loc (.node st.next)
  dsimp only at hmcount
  rw [copyNode_eq, RadixStore.refs_modifyRefcount, RadixStore.countOf_modifyRefcount hm]
  by_cases hxp : x = p
  · subst hxp
    have hrc := hI.rc x n hp
    rw [if_pos rfl, hmcount]
    rw [if_pos rfl, if_neg (Ne.symm hpq)] at hrefs
    omega
  · rw [if_neg hxp, RadixStore.countOf_storeAt, RadixStore.countOf_foldl_increment, RadixStore.countOf_alloc, hkdef]
    rw [if_neg (Ne.symm hxp)] at hrefs
    by_cases hxq : x = st.next
    · -- the copy: `loc` is its one reference
      subst hxq
      rw [if_pos rfl] at hrefs
      rw [if_pos rfl, RadixStore.heap_alloc_self, hI.dangling _ hqnone] at *
      simp only [Option.isSome_some, if_true]
      omega
    · rw [if_neg (Ne.symm hxq)] at hrefs
      rw [if_neg hxq, RadixStore.heap_alloc_of_ne _ hxq, ← hI.counted x]
      cases hx : st.heap x with
      | none =>
        rw [hI.dangling x hx] at hk hrefs ⊢
        simp only [Option.isSome_none, Bool.false_eq_true, if_false]
        omega
      | some _ =>
        simp only [Option.isSome_some, if_true]
        omega

theorem copyNode_roots (st : RadixStore T) (loc : Loc) (p : Nat) (n : RadixNode T) :
    (st.copyNode loc p n).roots.length = st.roots.length := by
  rw [copyNode_eq, RadixStore.roots_modifyRefcount, RadixStore.length_roots_storeAt,
    RadixStore.roots_foldl_increment, RadixStore.roots_alloc]

theorem copyNode_inv (hI : Inv getId Lay st) (hown : Owned st i key (s + 1) loc)
    (hold : st.load loc = .node p) (hp : st.heap p = some n) (hshared : n.refcount ≠ 0) :
    Inv getId (Lay.set st.next (Lay.level p) (Lay.block p)) (st.copyNode loc p n) := by
  let Lay' := Lay.set st.next (Lay.level p) (Lay.block p)
  have hlive := hI.live_of_mem (hown.mem_liveSlots hI)
  have hqnone := hI.heap_next
  have hagree : ∀ x, (st.heap x).isSome → Lay'.level x = Lay.level x ∧ Lay'.block x = Lay.block x :=
    fun x hx => Layout.set_of_ne (fun hxq => by rw [hxq, hqnone] at hx; cases hx) _ _
  obtain ⟨hroots', hchildren'⟩ := hI.relayout hagree
  have hslot : SlotFits Lay' key (s + 1) loc := (hown.slotFits hI).congr fun x c hx => by
    subst hx
    exact hagree x hlive
  have hfitp : Lay.Fits getId (s + 1) (prefixOf (s + 1) key) (.node p) := by
    have := hown.fits hI
    rwa [hold] at this
  -- the copy sits where `p` sits
  have hnode : Lay'.Fits getId (s + 1) (prefixOf (s + 1) key) (.node st.next) :=
    ⟨Nat.succ_pos s, by rw [Layout.level_set_self]; exact hfitp.2.1,
      by rw [Layout.block_set_self]; exact hfitp.2.2⟩
  have hpsome : (st.heap p).isSome := by rw [hp]; rfl
  have hn : ∀ c : Fin 16, Lay'.Fits getId (Lay'.level st.next - 1) (Lay'.block st.next * 16 + c.val)
      ((⟨0, n.children⟩ : RadixNode T).children c) := by
    intro c
    rw [Layout.level_set_self, Layout.block_set_self, ← (hagree p hpsome).1, ← (hagree p hpsome).2]
    exact hchildren' p n hp c
  refine ⟨fun x => ?_, copyNode_counted hI hown hold hp hshared, ?_, ?_⟩
  · rw [copyNode_eq, RadixStore.isSome_heap_modifyRefcount, RadixStore.isSome_heap_storeAt,
      RadixStore.isSome_heap_foldl_increment, RadixStore.next_modifyRefcount, RadixStore.next_storeAt,
      RadixStore.next_foldl_increment]
    exact hI.alloc_alloc _ x
  · rw [copyNode_eq]
    have hr₂ : RootsFit getId Lay' ((List.finRange 16).foldl (fun st c => st.incrementRefCount (n.children c))
        (st.alloc ⟨0, n.children⟩)) :=
      hroots'.congr (by rw [RadixStore.roots_foldl_increment, RadixStore.roots_alloc])
    exact (hr₂.storeAt hslot hnode).congr rfl
  · rw [copyNode_eq]
    exact (((hchildren'.alloc hn).foldl_increment n _).storeAt hslot hnode).modifyRefcount p _

/-- The slot stays owned: the nodes above keep their counts, as `n`'s
children sit below. -/
theorem copyNode_owned_loc (hI : Inv getId Lay st) (hown : Owned st i key (s + 1) loc)
    (hold : st.load loc = .node p) (hp : st.heap p = some n) :
    Owned (st.copyNode loc p n) i key (s + 1) loc := by
  have hlevp : Lay.level p = s + 1 := by
    have := hown.fits hI
    rw [hold] at this
    exact this.2.1
  have hqnone := hI.heap_next
  refine hown.transfer hI (copyNode_roots st loc p n) (fun L hL hne => copyNode_load hL hne) ?_
  intro x m hx hlev
  have hxp : x ≠ p := fun hxp => by
    rw [hxp, hlevp] at hlev
    exact Nat.lt_irrefl _ hlev
  have hxq : x ≠ st.next := fun hxq => by rw [hxq, hqnone] at hx; cases hx
  -- `n`'s children sit one level below `p`, so none is `x`
  have hk : RadixStore.childRefs n x = 0 := List.countP_eq_zero.mpr fun c _ hc => by
    have hfit := hI.children p n hp c
    cases hch : n.children c with
    | leaf v => rw [hch] at hc; cases hc
    | node y =>
      rw [hch, RadixElement.holds_node, beq_iff_eq] at hc
      subst hc
      rw [hch] at hfit
      have := hfit.2.1
      omega
  have hx₂ : ((List.finRange 16).foldl (fun st c => st.incrementRefCount (n.children c))
      (st.alloc ⟨0, n.children⟩)).heap x = some { m with refcount := m.refcount + RadixStore.childRefs n x } := by
    rw [RadixStore.heap_foldl_increment, RadixStore.heap_alloc_of_ne _ hxq, hx]
    rfl
  obtain ⟨m', hm', hcount⟩ := RadixStore.refcount_storeAt hx₂ loc (.node st.next)
  refine ⟨m', ?_, by rw [hcount, hk]; rfl⟩
  rw [copyNode_eq, RadixStore.heap_modifyRefcount, if_neg hxp, hm']

/-- The copy is owned one level down. -/
theorem copyNode_owned (hI : Inv getId Lay st) (hown : Owned st i key (s + 1) loc)
    (hold : st.load loc = .node p) (hp : st.heap p = some n) :
    Owned (st.copyNode loc p n) i key s (.child st.next (childIndex s key)) :=
  have hlive := hI.live_of_mem (hown.mem_liveSlots hI)
  .child (copyNode_owned_loc hI hown hold hp) (copyNode_load_self hlive) (copyNode_heap_next hI hlive hp) rfl

/-- The copy reads as `p` did: every tree keeps its map. -/
theorem copyNode_get (hI : Inv getId Lay st) (hown : Owned st i key (s + 1) loc)
    (hold : st.load loc = .node p) (hp : st.heap p = some n) {j : Nat} (hj : j < st.roots.length)
    (key' : BitVec W) : RadixTree.get getId (st.copyNode loc p n) j key' = RadixTree.get getId st j key' := by
  have hlive := hI.live_of_mem (hown.mem_liveSlots hI)
  have hown₂ := copyNode_owned_loc hI hown hold hp
  have hpmem : Loc.child p (childIndex s key') ∈ st.liveSlots :=
    RadixStore.mem_liveSlots_child.mpr ((hI.alloc p).mp (by rw [hp]; rfl))
  have hchild : st.load (.child p (childIndex s key')) = n.children (childIndex s key') := by
    simp [loadChild, hp]
  rw [get_write hI hown hown₂ (fun L hL hne => copyNode_load hL hne) hj key', copyNode_load_self hlive]
  split_ifs with hin
  · obtain ⟨rfl, hk⟩ := hin
    rw [hown.get_eq hk, hold, getLoop_node, getLoop_node]
    have hcopy : loadChild (st.copyNode loc p n).heap st.next (childIndex s key') = n.children (childIndex s key') := by
      simp [loadChild, copyNode_heap_next hI hlive hp]
    rw [hcopy, show loadChild st.heap p (childIndex s key') = n.children (childIndex s key') from hchild]
    -- below the copy the walk reads what it read below `p`, all under `loc`'s level
    have hfit : Lay.Fits getId s (prefixOf s key') (n.children (childIndex s key')) := by
      have hfitp : Lay.Fits getId (s + 1) (prefixOf (s + 1) key') (.node p) := by
        have := hown.fits hI
        rwa [hold, ← hk] at this
      have := hI.fits_child hfitp (childIndex s key')
      rwa [prefixOf_succ_mul_add, hchild] at this
    apply getLoop_frame
    intro L hr
    have hLmem : L ∈ st.liveSlots := hr.mem_liveSlots hI fun y hy => hI.isSome_of_holds hpmem (hchild.trans hy)
    refine copyNode_load hLmem fun hLloc => ?_
    rw [hLloc] at hr
    cases loc with
    | root j' => exact hr.ne_root j' rfl
    | child x c =>
      obtain ⟨l, hl, hlev, -, -⟩ := hr.layout hI hfit rfl
      have hlevx := (hown.parent hI).1
      omega
  · rfl

end Copy

/-- One pass of `SEEK_LEAF_LOOP` from an owned slot holding node `p`: the
writer stands at an owned slot one level down, the invariant holds, and every
tree keeps its map. -/
theorem seekStep_spec (hI : Inv getId Lay st) {s : Nat} {loc : Loc} (hown : Owned st i key (s + 1) loc)
    {p : Nat} (hold : st.load loc = .node p) :
    ∃ Lay', Inv getId Lay' (seekStep s key loc p st).2 ∧
      Owned (seekStep s key loc p st).2 i key s (seekStep s key loc p st).1 ∧
      (seekStep s key loc p st).2.roots.length = st.roots.length ∧
      ∀ j < st.roots.length, ∀ key',
        RadixTree.get getId (seekStep s key loc p st).2 j key' = RadixTree.get getId st j key' := by
  obtain ⟨n, hp⟩ := Option.isSome_iff_exists.mp (hI.isSome_of_holds (hown.mem_liveSlots hI) hold)
  by_cases h0 : n.refcount = 0
  · -- unshared: enter it
    have hstep : seekStep s key loc p st = (.child p (childIndex s key), st) := by simp [seekStep, hp, h0]
    rw [hstep]
    exact ⟨Lay, hI, .child hown hold hp h0, rfl, fun _ _ _ => rfl⟩
  · -- shared: copy it first
    have hstep : seekStep s key loc p st = (.child st.next (childIndex s key), st.copyNode loc p n) := by
      simp [seekStep, hp, h0]
    rw [hstep]
    exact ⟨_, copyNode_inv hI hown hold hp h0, copyNode_owned hI hown hold hp, copyNode_roots st loc p n,
      fun j hj key' => copyNode_get hI hown hold hp hj key'⟩

end Steps

end Radix
end BitcoinAbc
