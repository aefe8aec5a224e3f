import Mathlib
import BitcoinAbc.Radix.Tree
import BitcoinAbc.Lib.Slots

/-!
# Sharing nodes between trees

The trees of a store share nodes, and a writer may only change a node no
other slot holds. This module states what makes that safe and proves it.

- `RadixStore.refs p`: the slots holding node `p`, among the roots and the
  children of the nodes made so far;
- `Layout`, `Layout.Fits`: where each node sits, its level and the block of
  keys under it, the same in every tree that holds it;
- `Inv`: the heap holds exactly the nodes made so far, each node's count is
  its references beyond the first (`IMPLEMENT_RCU_REFCOUNT`), and every slot
  fits the layout;
- `Reads`: the slots the walk of `get(key)` loads; `getLoop_frame`: a store
  that keeps those slots keeps the walk's result;
- `Owned`: the slots of tree `i` on the way to `key` below unshared nodes, the
  slots `SEEK_LEAF_LOOP` leaves the writer at;
- `Owned.root_eq`, `Owned.prefixOf_eq`: a walk from any root that loads an owned slot is the walk
  of tree `i`, for a key in the slot's block. Its proof climbs the chain of
  unshared nodes: a node of count `0` has one slot holding it;
- `get_write`: writing an owned slot changes tree `i` in the slot's block of
  keys and leaves every other tree as it was.
-/

namespace BitcoinAbc
namespace Radix

variable {T : Type} {W : Nat}

/-! ## Digits of a key -/

/-- The digits of `key` above the lowest `s`: the block of keys a slot `s`
levels above the leaves covers. -/
def prefixOf (s : Nat) (key : BitVec W) : Nat := key.toNat / 16 ^ s

/-- A block is its parent's block and one more digit. -/
theorem prefixOf_succ_mul_add (s : Nat) (key : BitVec W) :
    prefixOf (s + 1) key * 16 + (childIndex s key).val = prefixOf s key := by
  rw [prefixOf, prefixOf, childIndex_val, Nat.pow_succ, ← Nat.div_div_eq_div_mul, Nat.mul_comm]
  exact Nat.div_add_mod _ 16

theorem prefixOf_succ_eq {s : Nat} {k k' : BitVec W} (h : prefixOf s k' = prefixOf s k) :
    prefixOf (s + 1) k' = prefixOf (s + 1) k := by
  rw [prefixOf, prefixOf, Nat.pow_succ, ← Nat.div_div_eq_div_mul, ← Nat.div_div_eq_div_mul]
  exact congrArg (· / 16) h

theorem childIndex_eq_of_prefixOf {s : Nat} {k k' : BitVec W} (h : prefixOf s k' = prefixOf s k) :
    childIndex s k' = childIndex s k := by
  apply Fin.ext
  rw [childIndex_val, childIndex_val]
  exact congrArg (· % 16) h

theorem prefixOf_eq_of_succ {s : Nat} {k k' : BitVec W} (h : prefixOf (s + 1) k' = prefixOf (s + 1) k)
    (hc : childIndex s k' = childIndex s k) : prefixOf s k' = prefixOf s k := by
  rw [← prefixOf_succ_mul_add s k', ← prefixOf_succ_mul_add s k, h, hc]

/-- The top slot covers every key: `KEY_BITS` bits fit in `TOP_LEVEL + 1`
digits. -/
theorem prefixOf_top (key : BitVec W) : prefixOf (TOP_LEVEL W + 1) key = 0 := by
  apply Nat.div_eq_of_lt
  calc key.toNat < 2 ^ W := key.isLt
    _ ≤ 2 ^ (4 * (TOP_LEVEL W + 1)) := Nat.pow_le_pow_right (by decide) (by unfold TOP_LEVEL BITS; omega)
    _ = 16 ^ (TOP_LEVEL W + 1) := by rw [Nat.pow_mul]

/-- A slot at the leaves covers one key. -/
theorem eq_of_prefixOf_zero {k k' : BitVec W} (h : prefixOf 0 k' = prefixOf 0 k) : k' = k := by
  apply BitVec.eq_of_toNat_eq
  simpa [prefixOf] using h

/-! ## References -/

namespace RadixStore

variable {st st' : RadixStore T}

/-- Every slot that may hold a node: the root of each tree and the children
of each node made so far. -/
def liveSlots (st : RadixStore T) : List Loc :=
  (List.range st.roots.length).map .root ++
    (List.range st.next).flatMap fun p => (List.finRange 16).map (.child p)

/-- The references to node `p`: the slots holding it. -/
def refs (st : RadixStore T) (p : Nat) : Nat :=
  st.liveSlots.countP fun L => (st.load L).holds p

theorem mem_liveSlots_root {i : Nat} : Loc.root i ∈ st.liveSlots ↔ i < st.roots.length := by
  simp [liveSlots]

theorem mem_liveSlots_child {p : Nat} {c : Fin 16} : Loc.child p c ∈ st.liveSlots ↔ p < st.next := by
  simp [liveSlots]

theorem nodup_liveSlots : st.liveSlots.Nodup := by
  refine List.Nodup.append ((List.nodup_range).map fun _ _ h => Loc.root.inj h) ?_ ?_
  · refine List.nodup_flatMap.mpr ⟨fun p _ => (List.nodup_finRange 16).map fun _ _ h => (Loc.child.inj h).2, ?_⟩
    refine List.nodup_range.pairwise_of_forall_ne fun p _ q _ hpq => ?_
    intro L hp hq
    simp only [List.mem_map, List.mem_finRange, true_and] at hp hq
    obtain ⟨c, rfl⟩ := hp
    obtain ⟨d, hd⟩ := hq
    exact hpq (Loc.child.inj hd).1.symm
  · intro L hr hc
    simp only [List.mem_map, List.mem_range] at hr
    simp only [List.mem_flatMap, List.mem_map, List.mem_finRange, true_and] at hc
    obtain ⟨i, -, rfl⟩ := hr
    obtain ⟨p, -, c, hc⟩ := hc
    cases hc

/-- Slots whose loads agree give the same counts. -/
theorem refs_congr (hslots : st'.liveSlots = st.liveSlots) (hload : ∀ L ∈ st.liveSlots, st'.load L = st.load L)
    (p : Nat) : st'.refs p = st.refs p := by
  unfold refs
  rw [hslots]
  exact List.countP_congr fun L hL => by rw [hload L hL]

theorem liveSlots_storeAt (loc : Loc) (e : RadixElement T) : (st.storeAt loc e).liveSlots = st.liveSlots := by
  simp only [liveSlots, length_roots_storeAt, next_storeAt]

/-- A store into a slot moves one reference from what it held to `e`. -/
theorem refs_storeAt {loc : Loc} (e : RadixElement T) (hmem : loc ∈ st.liveSlots) (hlive : st.Live loc)
    (p : Nat) :
    (st.storeAt loc e).refs p + (if (st.load loc).holds p then 1 else 0) =
      st.refs p + (if e.holds p then 1 else 0) := by
  have hat : (st.storeAt loc e).load loc = e := load_storeAt_self e hlive
  unfold refs
  rw [liveSlots_storeAt]
  have := @List.countP_change Loc st.liveSlots (fun L => (st.load L).holds p)
    (fun L => ((st.storeAt loc e).load L).holds p) nodup_liveSlots loc hmem
    fun L _ hL => by rw [load_storeAt_of_ne e hL]
  simpa only [hat] using this

theorem liveSlots_modifyRefcount (p : Nat) (f : Nat → Nat) :
    (st.modifyRefcount p f).liveSlots = st.liveSlots := rfl

@[simp] theorem refs_modifyRefcount (p : Nat) (f : Nat → Nat) (q : Nat) :
    (st.modifyRefcount p f).refs q = st.refs q :=
  refs_congr (liveSlots_modifyRefcount p f) (fun L _ => load_modifyRefcount p f L) q

/-- The references to `q` among the children of `n`. -/
def childRefs (n : RadixNode T) (q : Nat) : Nat := (List.finRange 16).countP fun c => (n.children c).holds q

/-- A new node brings the references its children hold. -/
theorem refs_alloc (n : RadixNode T) (q : Nat) : (st.alloc n).refs q = st.refs q + childRefs n q := by
  have hslots : (st.alloc n).liveSlots = st.liveSlots ++ (List.finRange 16).map (.child st.next) := by
    simp [liveSlots, List.range_succ, List.flatMap_append]
  have hold : ∀ L ∈ st.liveSlots, (st.alloc n).load L = st.load L := fun L hL =>
    load_alloc_of_ne n fun c hc => by
      subst hc
      exact Nat.lt_irrefl _ (mem_liveSlots_child.mp hL)
  unfold refs childRefs
  rw [hslots, List.countP_append, List.countP_congr fun L hL => by rw [hold L hL], List.countP_map]
  congr 1
  exact List.countP_congr fun c _ => by simp [Function.comp, loadChild]

end RadixStore

/-! ## Where each node sits -/

/-- Where each node sits: `level p` is the `s` of every slot holding node `p`,
and every key under it has `prefixOf s key = block p`. -/
structure Layout where
  level : Nat → Nat
  block : Nat → Nat

/-- Element `e` may fill a slot `s` levels above the leaves that covers the
keys of prefix `b`. -/
def Layout.Fits (L : Layout) (getId : T → BitVec W) (s b : Nat) : RadixElement T → Prop
  | .leaf none => True
  | .leaf (some v) => prefixOf s (getId v) = b
  | .node p => 0 < s ∧ L.level p = s ∧ L.block p = b

/-- Each root covers every key. -/
def RootsFit (getId : T → BitVec W) (L : Layout) (st : RadixStore T) : Prop :=
  ∀ i < st.roots.length, L.Fits getId (TOP_LEVEL W + 1) 0 (st.load (.root i))

/-- Each child of a node covers its digit of the node's block. -/
def ChildrenFit (getId : T → BitVec W) (L : Layout) (st : RadixStore T) : Prop :=
  ∀ p n, st.heap p = some n → ∀ c : Fin 16,
    L.Fits getId (L.level p - 1) (L.block p * 16 + c.val) (n.children c)

/-- The references node `p`'s count stands for: one more than the count, or
none outside the heap. -/
def RadixStore.countOf (st : RadixStore T) (p : Nat) : Nat :=
  ((st.heap p).map fun n => n.refcount + 1).getD 0

namespace RadixStore

variable {st : RadixStore T}

theorem countOf_storeAt (loc : Loc) (e : RadixElement T) (q : Nat) : (st.storeAt loc e).countOf q = st.countOf q := by
  cases loc with
  | root i => rfl
  | child p c =>
    unfold countOf storeAt
    by_cases hq : q = p
    · subst hq
      cases h : st.heap q <;> simp [h]
    · simp [Function.update_of_ne hq]

theorem countOf_alloc (n : RadixNode T) (q : Nat) :
    (st.alloc n).countOf q = if q = st.next then n.refcount + 1 else st.countOf q := by
  unfold countOf
  by_cases hq : q = st.next
  · subst hq
    simp
  · simp [heap_alloc_of_ne n hq, hq]

theorem countOf_modifyRefcount {p : Nat} {n : RadixNode T} (hp : st.heap p = some n) (f : Nat → Nat) (q : Nat) :
    (st.modifyRefcount p f).countOf q = if q = p then f n.refcount + 1 else st.countOf q := by
  unfold countOf
  rw [heap_modifyRefcount]
  by_cases hq : q = p
  · subst hq
    simp [hp]
  · simp [hq]

/-- The loop of `RadixNode(const RadixNode &)` adds to each node in the heap
the child slots of `n` holding it. -/
theorem countOf_foldl_increment (n : RadixNode T) (cs : List (Fin 16)) (q : Nat) :
    (cs.foldl (fun st c => st.incrementRefCount (n.children c)) st).countOf q =
      st.countOf q + if (st.heap q).isSome then cs.countP (fun c => (n.children c).holds q) else 0 := by
  unfold countOf
  rw [heap_foldl_increment]
  cases st.heap q with
  | none => rfl
  | some m =>
    simp only [Option.map_some, Option.getD_some, Option.isSome_some, if_true]
    omega

end RadixStore

/-- The store's invariant. -/
structure Inv (getId : T → BitVec W) (L : Layout) (st : RadixStore T) : Prop where
  /-- The heap holds exactly the nodes made so far. -/
  alloc : ∀ p, (st.heap p).isSome ↔ p < st.next
  /-- `IMPLEMENT_RCU_REFCOUNT`: a node's count is its references beyond the
  first, and no slot holds a node outside the heap. -/
  counted : ∀ p, st.refs p = st.countOf p
  roots : RootsFit getId L st
  children : ChildrenFit getId L st

section Inv

variable {getId : T → BitVec W} {L : Layout} {st : RadixStore T}

namespace Inv

theorem rc (hI : Inv getId L st) (p : Nat) (n : RadixNode T) (hp : st.heap p = some n) :
    st.refs p = n.refcount + 1 := by
  rw [hI.counted p, RadixStore.countOf, hp]
  rfl

theorem dangling (hI : Inv getId L st) (p : Nat) (hp : st.heap p = none) : st.refs p = 0 := by
  rw [hI.counted p, RadixStore.countOf, hp]
  rfl

theorem live_of_mem (hI : Inv getId L st) {loc : Loc} (h : loc ∈ st.liveSlots) : st.Live loc := by
  cases loc with
  | root i => exact RadixStore.mem_liveSlots_root.mp h
  | child p c => exact (hI.alloc p).mpr (RadixStore.mem_liveSlots_child.mp h)

/-- A node a slot holds is in the heap. -/
theorem isSome_of_holds (hI : Inv getId L st) {loc : Loc} {p : Nat} (h : loc ∈ st.liveSlots)
    (hp : st.load loc = .node p) : (st.heap p).isSome := by
  cases hq : st.heap p with
  | some n => rfl
  | none =>
    have hpos : 0 < st.refs p := List.countP_pos_iff.mpr ⟨loc, h, by rw [hp]; simp⟩
    rw [hI.dangling p hq] at hpos
    exact absurd hpos (Nat.lt_irrefl 0)

/-- A node of count `0` has one slot holding it. -/
theorem eq_of_refcount_zero (hI : Inv getId L st) {p : Nat} {n : RadixNode T} (hp : st.heap p = some n)
    (h0 : n.refcount = 0) {L₁ L₂ : Loc} (h₁ : L₁ ∈ st.liveSlots) (h₂ : L₂ ∈ st.liveSlots)
    (hL₁ : st.load L₁ = .node p) (hL₂ : st.load L₂ = .node p) : L₁ = L₂ := by
  have hone : st.refs p = 1 := by rw [hI.rc p n hp, h0]
  exact List.eq_of_countP_eq_one hone h₁ h₂ (by rw [hL₁]; simp) (by rw [hL₂]; simp)

/-- The level and block of a node a child slot holds. -/
theorem fits_child (hI : Inv getId L st) {p : Nat} {s b : Nat} (hp : L.Fits getId (s + 1) b (.node p))
    (c : Fin 16) : L.Fits getId s (b * 16 + c.val) (st.load (.child p c)) := by
  obtain ⟨-, hlev, hblock⟩ := hp
  cases hn : st.heap p with
  | none => simp [loadChild, hn, Layout.Fits]
  | some n =>
    have := hI.children p n hn c
    rw [hlev, hblock, Nat.add_sub_cancel] at this
    simpa [loadChild, hn] using this

end Inv

end Inv

/-! ## The slots a walk reads -/

/-- The slots the walk of `get(key)` loads from `e`, `s` levels above the
leaves. -/
inductive Reads (st : RadixStore T) (key : BitVec W) : Nat → RadixElement T → Loc → Prop
  | here {s p : Nat} : Reads st key (s + 1) (.node p) (.child p (childIndex s key))
  | down {s p : Nat} {L : Loc} : Reads st key s (st.load (.child p (childIndex s key))) L →
      Reads st key (s + 1) (.node p) L

section Reads

variable {getId : T → BitVec W} {st st' : RadixStore T} {key : BitVec W}

/-- A store that keeps every slot the walk reads keeps its result. -/
theorem getLoop_frame :
    ∀ {s : Nat} {e : RadixElement T}, (∀ L, Reads st key s e L → st'.load L = st.load L) →
      getLoop getId key st'.heap s e = getLoop getId key st.heap s e
  | 0, .node _, _ => rfl
  | s + 1, .node p, h => by
    have hhere := h _ .here
    simp only [RadixStore.load_child] at hhere
    rw [getLoop_node, getLoop_node, hhere]
    exact getLoop_frame fun L hL => h L (.down hL)
  | _, .leaf v, _ => by cases v <;> simp

namespace Reads

/-- A walk reads child slots only. -/
theorem ne_root {s : Nat} {e : RadixElement T} {L : Loc} (h : Reads st key s e L) (i : Nat) : L ≠ .root i := by
  induction h with
  | here => exact Loc.noConfusion
  | down _ ih => exact ih

/-- A walk that reads a child of node `q` reached it from the top, or from a
slot it read that holds `q`. -/
theorem entry {s : Nat} {e : RadixElement T} {L : Loc} (h : Reads st key s e L) :
    ∀ {q : Nat} {c : Fin 16}, L = .child q c →
      e = .node q ∨ ∃ L', Reads st key s e L' ∧ st.load L' = .node q := by
  induction h with
  | here =>
    intro q c hL
    exact .inl (by rw [(Loc.child.inj hL).1])
  | down hr ih =>
    intro q c hL
    rcases ih hL with hnode | ⟨L', hL', hload⟩
    · exact .inr ⟨_, .here, hnode⟩
    · exact .inr ⟨L', .down hL', hload⟩

/-- Under the invariant a walk from a slot's element reads slots that exist. -/
theorem mem_liveSlots {getId : T → BitVec W} {Lay : Layout} (hI : Inv getId Lay st) {s : Nat}
    {e : RadixElement T} {L : Loc} (h : Reads st key s e L) :
    (∀ p, e = .node p → (st.heap p).isSome) → L ∈ st.liveSlots := by
  induction h with
  | here =>
    intro he
    exact RadixStore.mem_liveSlots_child.mpr ((hI.alloc _).mp (he _ rfl))
  | @down s p L' hr ih =>
    intro he
    have hslot : Loc.child p (childIndex s key) ∈ st.liveSlots :=
      RadixStore.mem_liveSlots_child.mpr ((hI.alloc p).mp (he p rfl))
    exact ih fun q hq => hI.isSome_of_holds hslot hq

/-- A walk for `key` from a slot covering `key`'s block reads each node at
its level, below the start, at `key`'s digit, and the node covers `key`'s
block. -/
theorem layout {getId : T → BitVec W} {Lay : Layout} (hI : Inv getId Lay st) {s : Nat}
    {e : RadixElement T} {L : Loc} (h : Reads st key s e L) :
    Lay.Fits getId s (prefixOf s key) e → ∀ {q : Nat} {c : Fin 16}, L = .child q c →
      ∃ l, l < s ∧ Lay.level q = l + 1 ∧ c = childIndex l key ∧ Lay.block q = prefixOf (l + 1) key := by
  induction h with
  | @here s p =>
    intro hfit q c hL
    obtain ⟨hq, hc⟩ := Loc.child.inj hL
    subst hq hc
    exact ⟨s, Nat.lt_succ_self s, hfit.2.1, rfl, hfit.2.2⟩
  | @down s p L' hr ih =>
    intro hfit q c hL
    have hfit' := hI.fits_child hfit (childIndex s key)
    rw [prefixOf_succ_mul_add] at hfit'
    obtain ⟨l, hl, rest⟩ := ih hfit' hL
    exact ⟨l, Nat.lt_succ_of_lt hl, rest⟩

end Reads

end Reads

/-! ## Owned slots -/

/-- The slots of tree `i` on the walk for `key`, from the root down while
every node on the way is unshared, `s` levels above the leaves: where
`SEEK_LEAF_LOOP` leaves a writer. -/
inductive Owned (st : RadixStore T) (i : Nat) (key : BitVec W) : Nat → Loc → Prop
  | root : i < st.roots.length → Owned st i key (TOP_LEVEL W + 1) (.root i)
  | child {s : Nat} {loc : Loc} {p : Nat} {n : RadixNode T} : Owned st i key (s + 1) loc →
      st.load loc = .node p → st.heap p = some n → n.refcount = 0 →
      Owned st i key s (.child p (childIndex s key))

section Owned

variable {getId : T → BitVec W} {Lay : Layout} {st st' : RadixStore T} {i : Nat} {key : BitVec W}

namespace Owned

theorem mem_liveSlots (hI : Inv getId Lay st) {s : Nat} {loc : Loc} (h : Owned st i key s loc) :
    loc ∈ st.liveSlots := by
  cases h with
  | root hi => exact RadixStore.mem_liveSlots_root.mpr hi
  | child _ _ hp _ => exact RadixStore.mem_liveSlots_child.mpr ((hI.alloc _).mp (by rw [hp]; rfl))

/-- The walk for `key` in tree `i` reaches an owned slot: for a key in its
block, tree `i` reads as the slot's element does. -/
theorem get_eq {s : Nat} {loc : Loc} (h : Owned st i key s loc) :
    ∀ {key' : BitVec W}, prefixOf s key' = prefixOf s key →
      RadixTree.get getId st i key' = getLoop getId key' st.heap s (st.load loc) := by
  induction h with
  | root _ => intro _ _; rfl
  | @child s loc p n _ hload _ _ ih =>
    intro key' hk
    rw [ih (prefixOf_succ_eq hk), hload, getLoop_node, childIndex_eq_of_prefixOf hk]
    rfl

/-- An owned slot covers `key`'s block at its level. -/
theorem fits (hI : Inv getId Lay st) {s : Nat} {loc : Loc} (h : Owned st i key s loc) :
    Lay.Fits getId s (prefixOf s key) (st.load loc) := by
  induction h with
  | root hi =>
    rw [prefixOf_top]
    exact hI.roots i hi
  | @child s loc p n _ hload _ _ ih =>
    rw [hload] at ih
    have := hI.fits_child ih (childIndex s key)
    rwa [prefixOf_succ_mul_add] at this

/-- The node over an owned child slot sits one level up, over `key`'s block,
and the slot is at `key`'s digit. -/
theorem parent (hI : Inv getId Lay st) {s p : Nat} {c : Fin 16} (h : Owned st i key s (.child p c)) :
    Lay.level p = s + 1 ∧ Lay.block p = prefixOf (s + 1) key ∧ c = childIndex s key := by
  cases h with
  | child hown hload _ _ =>
    have := hown.fits hI
    rw [hload] at this
    exact ⟨this.2.1, this.2.2, rfl⟩

/-- A root slot is owned only at the top, by its own tree. -/
theorem of_root {s j : Nat} (h : Owned st i key s (.root j)) : j = i ∧ s = TOP_LEVEL W + 1 := by
  cases h with
  | root _ => exact ⟨rfl, rfl⟩

/-- Owned slots at different levels are different slots. -/
theorem ne_of_ne (hI : Inv getId Lay st) {s₁ s₂ : Nat} {L₁ L₂ : Loc} (h₁ : Owned st i key s₁ L₁)
    (h₂ : Owned st i key s₂ L₂) (hs : s₁ ≠ s₂) : L₁ ≠ L₂ := by
  rintro rfl
  cases L₁ with
  | root j => exact hs (h₁.of_root.2.trans h₂.of_root.2.symm)
  | child p c =>
    have h₁lev := (h₁.parent hI).1
    have h₂lev := (h₂.parent hI).1
    omega

/-- A walk from any root that reaches an owned slot comes from tree `i`: the
node over the slot has one slot holding it, itself owned, and so on up to the
root. -/
theorem root_eq (hI : Inv getId Lay st) {s : Nat} {loc : Loc} (h : Owned st i key s loc) {j : Nat}
    (hj : j < st.roots.length) {key' : BitVec W} :
    (loc = .root j ∨ Reads st key' (TOP_LEVEL W + 1) (st.load (.root j)) loc) → j = i := by
  have hroot : Loc.root j ∈ st.liveSlots := RadixStore.mem_liveSlots_root.mpr hj
  induction h with
  | root hi =>
    rintro (hloc | hr)
    · exact (Loc.root.inj hloc).symm
    · exact absurd rfl (hr.ne_root i)
  | @child s loc p n hown hload hp h0 ih =>
    rintro (hloc | hr)
    · cases hloc
    · have hslot := hown.mem_liveSlots hI
      rcases hr.entry rfl with htop | ⟨L', hL', hL'load⟩
      · -- the walk starts at node `p`: the root slot is the one slot holding it
        exact ih (.inl (hI.eq_of_refcount_zero hp h0 hslot hroot hload htop))
      · have hL'mem : L' ∈ st.liveSlots := hL'.mem_liveSlots hI fun q hq => hI.isSome_of_holds hroot hq
        obtain rfl := hI.eq_of_refcount_zero hp h0 hslot hL'mem hload hL'load
        exact ih (.inr hL')

/-- A walk from a root that reads an owned child slot is for a key in the
slot's block. -/
theorem prefixOf_eq (hI : Inv getId Lay st) {s q : Nat} {c : Fin 16} (h : Owned st i key s (.child q c))
    {j : Nat} (hj : j < st.roots.length) {key' : BitVec W}
    (hr : Reads st key' (TOP_LEVEL W + 1) (st.load (.root j)) (.child q c)) :
    prefixOf s key' = prefixOf s key := by
  have hfit : Lay.Fits getId (TOP_LEVEL W + 1) (prefixOf (TOP_LEVEL W + 1) key') (st.load (.root j)) := by
    rw [prefixOf_top]
    exact hI.roots j hj
  obtain ⟨l, -, hlev, hc, hblock⟩ := hr.layout hI hfit rfl
  obtain ⟨hlev', hblock', hc'⟩ := h.parent hI
  obtain rfl : l = s := by omega
  exact prefixOf_eq_of_succ (hblock.symm.trans hblock') (hc.symm.trans hc')

/-- A change that keeps every other slot, and the counts of the nodes above
the target, keeps it owned. -/
theorem transfer (hI : Inv getId Lay st) {s : Nat} {loc : Loc} (hown : Owned st i key s loc)
    (hroots : st'.roots.length = st.roots.length)
    (hslots : ∀ L ∈ st.liveSlots, L ≠ loc → st'.load L = st.load L)
    (hcount : ∀ p n, st.heap p = some n → s < Lay.level p →
      ∃ n', st'.heap p = some n' ∧ n'.refcount = n.refcount) :
    Owned st' i key s loc := by
  suffices h : ∀ {s' : Nat} {loc' : Loc}, Owned st i key s' loc' → s ≤ s' → Owned st' i key s' loc' from
    h hown (Nat.le_refl s)
  intro s' loc' h
  induction h with
  | root hi => exact fun _ => .root (hroots ▸ hi)
  | @child s' loc' p n hown' hload hp h0 ih =>
    intro hle
    -- the slot above is owned at a higher level, so it is not the target
    have hne : loc' ≠ loc := hown'.ne_of_ne hI hown (by omega)
    have hlev : Lay.level p = s' + 1 := by
      have := hown'.fits hI
      rw [hload] at this
      exact this.2.1
    obtain ⟨n', hp', hcnt⟩ := hcount p n hp (by omega)
    refine .child (ih (by omega)) ?_ hp' (hcnt.trans h0)
    rw [hslots loc' (hown'.mem_liveSlots hI) hne, hload]

end Owned

/-- Writing an owned slot: tree `i` changes in the slot's block of keys, as
the slot's new element reads, and every other tree reads as before. -/
theorem get_write (hI : Inv getId Lay st) {s : Nat} {loc : Loc} (hown : Owned st i key s loc)
    (hown' : Owned st' i key s loc)
    (hslots : ∀ L ∈ st.liveSlots, L ≠ loc → st'.load L = st.load L) {j : Nat} (hj : j < st.roots.length)
    (key' : BitVec W) :
    RadixTree.get getId st' j key' =
      if j = i ∧ prefixOf s key' = prefixOf s key then getLoop getId key' st'.heap s (st'.load loc)
      else RadixTree.get getId st j key' := by
  split_ifs with hin
  · obtain ⟨rfl, hk⟩ := hin
    exact hown'.get_eq hk
  · have hroot : Loc.root j ∈ st.liveSlots := RadixStore.mem_liveSlots_root.mpr hj
    -- tree `j`'s walk for `key'` reads neither its root nor any later slot at `loc`
    have hrootne : Loc.root j ≠ loc := by
      rintro rfl
      obtain ⟨hji, hs⟩ := hown.of_root
      exact hin ⟨hji, by rw [hs, prefixOf_top, prefixOf_top]⟩
    have hnot : ∀ L, Reads st key' (TOP_LEVEL W + 1) (st.load (.root j)) L → L ≠ loc := by
      rintro L hr rfl
      have hji := hown.root_eq hI hj (.inr hr)
      cases L with
      | root j' => exact hr.ne_root j' rfl
      | child q c => exact hin ⟨hji, hown.prefixOf_eq hI hj hr⟩
    unfold RadixTree.get
    rw [hslots _ hroot hrootne]
    exact getLoop_frame fun L hr =>
      hslots L (hr.mem_liveSlots hI fun q hq => hI.isSome_of_holds hroot hq) (hnot L hr)

end Owned

end Radix
end BitcoinAbc
