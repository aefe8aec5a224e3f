import Mathlib

/-!
# Radix trees with shared nodes (radix.h)

`RadixTree<T>` stores values under the keys its adapter's `getId` gives them.
A node has `CHILD_PER_LEVEL = 16` slots, indexed by `BITS = 4` bits of the key
at a time from the top level `TOP_LEVEL = (KEY_BITS - 1) / BITS` down. A slot
holds a leaf (a value, or nothing) or a node, and a node is only made where two
leaves would share a slot. Trees share nodes: a copy of a tree takes one more
reference to its root, and a writer copies every shared node on its way down
(`SEEK_LEAF_LOOP`) before it writes below it.

The model runs one thread, where every compare-and-swap succeeds and the RCU
lock has nothing to wait for. Nodes live in a heap of addresses, each with the
count `IMPLEMENT_RCU_REFCOUNT` keeps: the references to it beyond the first. A
store holds the heap and the root of every tree made so far, numbered in the
order they were made. Keys are `BitVec W` for any width `W`.

A walk is counted by `s`, the levels left above the leaves: the code's
`level + 1` for a slot whose node would index its children at `level`.

- `getLoop`: the walk of `get(key)`;
- `seekStep`: one pass of `SEEK_LEAF_LOOP` into a node, copying it when shared;
- `insertAt`, `removeAt`: the loops of `insert` and `remove`;
- `forEachLeaf`: every leaf handed to a callable, until it returns `false`;
- `step`: the operations on the trees of a store, for whole runs.
-/

namespace BitcoinAbc
namespace Radix

/-- `RadixTree::BITS`. -/
def BITS : Nat := 4

/-- `RadixTree::TOP_LEVEL` for keys of `KEY_BITS` bits. -/
def TOP_LEVEL (KEY_BITS : Nat) : Nat := (KEY_BITS - 1) / BITS

/-- `RadixElement`: a leaf, `none` for the empty `RadixElement()`, or the
address of a node. -/
inductive RadixElement (T : Type) where
  | leaf (v : Option T)
  | node (p : Nat)

/-- `RadixNode`: its reference count and its `CHILD_PER_LEVEL` children. -/
structure RadixNode (T : Type) where
  refcount : Nat
  children : Fin 16 → RadixElement T

/-- The nodes of all trees, the next free address, and the root of each tree. -/
structure RadixStore (T : Type) where
  heap : Nat → Option (RadixNode T)
  next : Nat
  roots : List (RadixElement T)

/-- A slot that holds an element: the root of a tree, or a child of a node. -/
inductive Loc where
  | root (i : Nat)
  | child (p : Nat) (c : Fin 16)
  deriving DecidableEq

variable {T : Type} {W : Nat}

namespace RadixElement

/-- The element is node `p`: what a reference count counts. -/
def holds (p : Nat) : RadixElement T → Bool
  | .node q => q == p
  | .leaf _ => false

@[simp] theorem holds_node (p q : Nat) : (RadixElement.node q : RadixElement T).holds p = (q == p) := rfl

@[simp] theorem holds_leaf (p : Nat) (v : Option T) : (RadixElement.leaf v).holds p = false := rfl

end RadixElement

theorem toNat_and_mask_lt (x : BitVec W) : (x &&& BitVec.ofNat W 15).toNat < 16 := by
  rw [BitVec.toNat_and, BitVec.toNat_ofNat]
  exact Nat.lt_of_le_of_lt Nat.and_le_right (Nat.lt_of_le_of_lt (Nat.mod_le _ _) (by decide))

/-- The index `RadixNode::get(level, key)` takes, `(key >> (level * BITS)) & MASK`. -/
def childIndex (level : Nat) (key : BitVec W) : Fin 16 :=
  ⟨((key >>> (level * BITS)) &&& BitVec.ofNat W 15).toNat, toNat_and_mask_lt _⟩

/-- The index is the key's base-16 digit at `level`. -/
theorem childIndex_val (level : Nat) (key : BitVec W) :
    (childIndex level key).val = key.toNat / 16 ^ level % 16 := by
  have hpow : (2 : Nat) ^ (level * BITS) = 16 ^ level := by
    rw [BITS, Nat.mul_comm, Nat.pow_mul]
  simp only [childIndex, BitVec.toNat_and, BitVec.toNat_ushiftRight, BitVec.toNat_ofNat,
    Nat.shiftRight_eq_div_pow, hpow]
  by_cases hW : 4 ≤ W
  · have : 15 % 2 ^ W = 2 ^ 4 - 1 :=
      Nat.mod_eq_of_lt (Nat.lt_of_lt_of_le (by decide) (Nat.pow_le_pow_right (by decide) hW))
    rw [this, Nat.and_two_pow_sub_one_eq_mod]
  · -- a key of fewer than four bits is a single digit
    have hk : key.toNat / 16 ^ level < 2 ^ W := Nat.lt_of_le_of_lt (Nat.div_le_self _ _) key.isLt
    have h16 : 2 ^ W ≤ 2 ^ 4 := Nat.pow_le_pow_right (by decide) (by omega)
    have : 15 % 2 ^ W = 2 ^ W - 1 := by
      obtain _ | _ | _ | _ | W := W
      all_goals first | rfl | omega
    rw [this, Nat.and_two_pow_sub_one_eq_mod, Nat.mod_eq_of_lt hk, Nat.mod_eq_of_lt (by omega)]

/-- Child `c` of node `p`; a missing node reads as an empty slot. -/
def loadChild (heap : Nat → Option (RadixNode T)) (p : Nat) (c : Fin 16) : RadixElement T :=
  match heap p with
  | some n => n.children c
  | none => .leaf none

/-- `RadixNode(level, key, e)`: a node whose one filled child is `e`, at
`key`'s index for `level`. -/
def RadixNode.init (level : Nat) (key : BitVec W) (e : RadixElement T) : RadixNode T :=
  ⟨0, Function.update (fun _ => .leaf none) (childIndex level key) e⟩

namespace RadixStore

/-- No tree and no node. -/
def empty : RadixStore T := ⟨fun _ => none, 0, []⟩

/-- `eptr->load()`. -/
def load (st : RadixStore T) : Loc → RadixElement T
  | .root i => st.roots.getD i (.leaf none)
  | .child p c => loadChild st.heap p c

/-- `eptr->store(e)`, or a compare-and-swap that succeeds. -/
def storeAt (st : RadixStore T) : Loc → RadixElement T → RadixStore T
  | .root i, e => { st with roots := st.roots.set i e }
  | .child p c, e =>
    { st with
      heap := Function.update st.heap p ((st.heap p).map fun n =>
        { n with children := Function.update n.children c e }) }

/-- `new RadixNode(...)`: the node at the next free address, `st.next`. -/
def alloc (st : RadixStore T) (n : RadixNode T) : RadixStore T :=
  { st with heap := Function.update st.heap st.next (some n), next := st.next + 1 }

/-- Change the reference count of node `p`. -/
def modifyRefcount (st : RadixStore T) (p : Nat) (f : Nat → Nat) : RadixStore T :=
  { st with heap := Function.update st.heap p ((st.heap p).map fun n => { n with refcount := f n.refcount }) }

/-- `RadixElement::incrementRefCount()`. A leaf's count is its value's, which
the model does not keep. -/
def incrementRefCount (st : RadixStore T) : RadixElement T → RadixStore T
  | .node p => st.modifyRefcount p (· + 1)
  | .leaf _ => st

/-- A slot that exists: the root of a tree made so far, or a child of a node
in the heap. -/
def Live (st : RadixStore T) : Loc → Prop
  | .root i => i < st.roots.length
  | .child p _ => (st.heap p).isSome

/-! Each operation's effect on the loads, the heap and the roots. -/

variable {st : RadixStore T}

@[simp] theorem load_root (i : Nat) : st.load (.root i) = st.roots.getD i (.leaf none) := rfl

@[simp] theorem load_child (p : Nat) (c : Fin 16) : st.load (.child p c) = loadChild st.heap p c := rfl

@[simp] theorem next_storeAt (loc : Loc) (e : RadixElement T) : (st.storeAt loc e).next = st.next := by
  cases loc <;> rfl

theorem length_roots_storeAt (loc : Loc) (e : RadixElement T) :
    (st.storeAt loc e).roots.length = st.roots.length := by
  cases loc <;> simp [storeAt]

theorem isSome_heap_storeAt (loc : Loc) (e : RadixElement T) (p : Nat) :
    ((st.storeAt loc e).heap p).isSome = (st.heap p).isSome := by
  cases loc with
  | root i => rfl
  | child q c =>
    by_cases hp : p = q
    · subst hp
      simp [storeAt]
    · simp [storeAt, Function.update_of_ne hp]

/-- A store leaves every other slot as it was. -/
theorem load_storeAt_of_ne {loc L : Loc} (e : RadixElement T) (h : L ≠ loc) :
    (st.storeAt loc e).load L = st.load L := by
  cases loc with
  | root i =>
    cases L with
    | root j =>
      have hij : i ≠ j := fun hij => h (hij ▸ rfl)
      simp [storeAt, List.getD_eq_getElem?_getD, List.getElem?_set_ne hij]
    | child q c => rfl
  | child p c =>
    cases L with
    | root j => rfl
    | child q d =>
      simp only [storeAt, load_child, loadChild]
      by_cases hqp : q = p
      · subst hqp
        have hdc : d ≠ c := fun hdc => h (hdc ▸ rfl)
        cases st.heap q <;> simp [Function.update_of_ne hdc]
      · rw [Function.update_of_ne hqp]

/-- A store into a slot that exists is what the slot then holds. -/
theorem load_storeAt_self {loc : Loc} (e : RadixElement T) (h : st.Live loc) :
    (st.storeAt loc e).load loc = e := by
  cases loc with
  | root i =>
    simp [storeAt, List.getD_eq_getElem?_getD, List.getElem?_set_self (show i < st.roots.length from h)]
  | child p c =>
    obtain ⟨n, hn⟩ := Option.isSome_iff_exists.mp h
    simp [storeAt, loadChild, hn]

@[simp] theorem next_alloc (n : RadixNode T) : (st.alloc n).next = st.next + 1 := rfl

@[simp] theorem roots_alloc (n : RadixNode T) : (st.alloc n).roots = st.roots := rfl

@[simp] theorem heap_alloc_self (n : RadixNode T) : (st.alloc n).heap st.next = some n := by
  simp [alloc]

theorem heap_alloc_of_ne (n : RadixNode T) {p : Nat} (h : p ≠ st.next) :
    (st.alloc n).heap p = st.heap p := by
  simp [alloc, Function.update_of_ne h]

/-- A new node changes no slot but its own children. -/
theorem load_alloc_of_ne (n : RadixNode T) {L : Loc} (h : ∀ c, L ≠ .child st.next c) :
    (st.alloc n).load L = st.load L := by
  cases L with
  | root i => rfl
  | child p c =>
    have hp : p ≠ st.next := fun hp => h c (hp ▸ rfl)
    simp [loadChild, heap_alloc_of_ne n hp]

@[simp] theorem next_modifyRefcount (p : Nat) (f : Nat → Nat) : (st.modifyRefcount p f).next = st.next := rfl

@[simp] theorem roots_modifyRefcount (p : Nat) (f : Nat → Nat) : (st.modifyRefcount p f).roots = st.roots := rfl

theorem heap_modifyRefcount (p : Nat) (f : Nat → Nat) (q : Nat) :
    (st.modifyRefcount p f).heap q =
      if q = p then (st.heap q).map fun n => { n with refcount := f n.refcount } else st.heap q := by
  by_cases hq : q = p
  · subst hq
    simp [modifyRefcount]
  · simp [modifyRefcount, hq]

/-- A count changes no slot. -/
@[simp] theorem load_modifyRefcount (p : Nat) (f : Nat → Nat) (L : Loc) :
    (st.modifyRefcount p f).load L = st.load L := by
  cases L with
  | root i => rfl
  | child q c =>
    simp only [load_child, loadChild, heap_modifyRefcount]
    split_ifs <;> cases st.heap q <;> rfl

theorem isSome_heap_modifyRefcount (p : Nat) (f : Nat → Nat) (q : Nat) :
    ((st.modifyRefcount p f).heap q).isSome = (st.heap q).isSome := by
  rw [heap_modifyRefcount]
  split_ifs <;> simp

theorem heap_incrementRefCount (e : RadixElement T) (q : Nat) :
    (st.incrementRefCount e).heap q =
      (st.heap q).map fun m => { m with refcount := m.refcount + if e.holds q then 1 else 0 } := by
  cases e with
  | leaf v =>
    show st.heap q = _
    cases st.heap q <;> rfl
  | node x =>
    simp only [incrementRefCount, heap_modifyRefcount, RadixElement.holds_node]
    by_cases hq : q = x
    · subst hq
      simp
    · have hxq : (x == q) = false := beq_eq_false_iff_ne.mpr (Ne.symm hq)
      simp only [if_neg hq, hxq]
      cases st.heap q <;> rfl

/-- `RadixNode(const RadixNode &)`'s loop over the children of `n`: each node
among them gains one count for each child slot holding it. -/
theorem heap_foldl_increment (n : RadixNode T) (q : Nat) : ∀ (cs : List (Fin 16)) (st : RadixStore T),
    (cs.foldl (fun st c => st.incrementRefCount (n.children c)) st).heap q =
      (st.heap q).map fun m => { m with refcount := m.refcount + cs.countP fun c => (n.children c).holds q }
  | [], st => by
    show st.heap q = _
    cases st.heap q <;> rfl
  | c :: cs, st => by
    rw [List.foldl_cons, heap_foldl_increment n q cs, heap_incrementRefCount, List.countP_cons]
    cases st.heap q with
    | none => rfl
    | some m =>
      simp only [Option.map_some, Option.some.injEq]
      congr 1
      omega

/-- A property the counts do not touch is kept by the loop. -/
theorem foldl_increment_eq {X : Type} (P : RadixStore T → X) (hP : ∀ st e, P (st.incrementRefCount e) = P st)
    (n : RadixNode T) : ∀ (cs : List (Fin 16)) (st : RadixStore T),
      P (cs.foldl (fun st c => st.incrementRefCount (n.children c)) st) = P st
  | [], _ => rfl
  | c :: cs, st => by rw [List.foldl_cons, foldl_increment_eq P hP n cs, hP]

@[simp] theorem next_incrementRefCount (e : RadixElement T) : (st.incrementRefCount e).next = st.next := by
  cases e <;> rfl

@[simp] theorem roots_incrementRefCount (e : RadixElement T) : (st.incrementRefCount e).roots = st.roots := by
  cases e <;> rfl

@[simp] theorem load_incrementRefCount (e : RadixElement T) (L : Loc) : (st.incrementRefCount e).load L = st.load L := by
  cases e with
  | leaf v => rfl
  | node x => exact load_modifyRefcount x _ L

end RadixStore

/-- The loop of `get(key)` from the element `e` of a slot `s` levels above
the leaves: down the nodes, then the leaf if its key is `key`. -/
def getLoop (getId : T → BitVec W) (key : BitVec W) (heap : Nat → Option (RadixNode T)) :
    Nat → RadixElement T → Option T
  | s + 1, .node p => getLoop getId key heap s (loadChild heap p (childIndex s key))
  -- a node below the last level: never reached
  | 0, .node _ => none
  | _, .leaf none => none
  | _, .leaf (some leaf) => if getId leaf = key then some leaf else none

section GetLoop

variable (getId : T → BitVec W) (key : BitVec W) (heap : Nat → Option (RadixNode T))

@[simp] theorem getLoop_node (s p : Nat) :
    getLoop getId key heap (s + 1) (.node p) = getLoop getId key heap s (loadChild heap p (childIndex s key)) :=
  rfl

@[simp] theorem getLoop_zero_node (p : Nat) : getLoop getId key heap 0 (.node p) = none := rfl

@[simp] theorem getLoop_leaf_none (s : Nat) : getLoop getId key heap s (.leaf none) = none := by
  cases s <;> rfl

@[simp] theorem getLoop_leaf_some (s : Nat) (v : T) :
    getLoop getId key heap s (.leaf (some v)) = if getId v = key then some v else none := by
  cases s <;> rfl

end GetLoop

/-- The copy `SEEK_LEAF_LOOP` makes of the shared node `n` at `p`, held by
`loc`: `RadixNode(const RadixNode &)` takes the same children and a count of
its own, each child node gaining a reference; the compare-and-swap puts it in
`loc`; `e.decrementRefCount()` then takes one count from `p`, still shared. The
copy is at `st.next`. -/
def RadixStore.copyNode (st : RadixStore T) (loc : Loc) (p : Nat) (n : RadixNode T) : RadixStore T :=
  let q := st.next
  let st := (List.finRange 16).foldl (fun st c => st.incrementRefCount (n.children c))
    (st.alloc ⟨0, n.children⟩)
  (st.storeAt loc (.node q)).modifyRefcount p (· - 1)

/-- One pass of `SEEK_LEAF_LOOP` through node `p`, held by `loc`, indexing at
`level`: an unshared node is entered, a shared one first copied. Returns the
slot for `key` one level down. -/
def seekStep (level : Nat) (key : BitVec W) (loc : Loc) (p : Nat) (st : RadixStore T) :
    Loc × RadixStore T :=
  match st.heap p with
  | some n =>
    if n.refcount = 0 then (.child p (childIndex level key), st)
    else (.child st.next (childIndex level key), st.copyNode loc p n)
  -- a slot never holds a node outside the heap
  | none => (.child p (childIndex level key), st)

/-- `insert` meeting `leaf`, of another key, in `loc`: a new node,
`RadixNode(level, leafKey, e)`, takes the leaf and its place, at `st.next`. -/
def RadixStore.splitLeaf (getId : T → BitVec W) (st : RadixStore T) (loc : Loc) (level : Nat) (leaf : T) :
    RadixStore T :=
  (st.alloc (RadixNode.init level (getId leaf) (.leaf (some leaf)))).storeAt loc (.node st.next)

/-- The loop of the private `insert(key, value)` from slot `loc`, `s` levels
above the leaves. -/
def insertAt (getId : T → BitVec W) (key : BitVec W) (value : T) :
    Nat → Loc → RadixStore T → Bool × RadixStore T
  | s, loc, st =>
    match s, st.load loc with
    | s + 1, .node p =>
      let next := seekStep s key loc p st
      insertAt getId key value s next.1 next.2
    | 0, .node _ => (false, st)
    | _, .leaf none => (true, st.storeAt loc (.leaf (some value)))
    | s, .leaf (some leaf) =>
      if key = getId leaf then (false, st)
      else
        match s with
        -- two keys that agree on every digit: never reached
        | 0 => (false, st)
        | s + 1 =>
          -- the next pass of the loop finds the new node unshared and enters it
          insertAt getId key value s (.child st.next (childIndex s key)) (st.splitLeaf getId loc s leaf)

/-- The loop of `remove(key)` from slot `loc`, `s` levels above the leaves. -/
def removeAt (getId : T → BitVec W) (key : BitVec W) :
    Nat → Loc → RadixStore T → Option T × RadixStore T
  | s, loc, st =>
    match s, st.load loc with
    | s + 1, .node p =>
      let next := seekStep s key loc p st
      removeAt getId key s next.1 next.2
    | 0, .node _ => (none, st)
    | _, .leaf none => (none, st)
    | _, .leaf (some leaf) =>
      if getId leaf ≠ key then (none, st) else (some leaf, st.storeAt loc (.leaf none))

section Loops

variable {getId : T → BitVec W} {st : RadixStore T} {key : BitVec W} {s : Nat} {loc : Loc}

/-- At a node, both loops take one pass of `SEEK_LEAF_LOOP` and go on one
level down. -/
theorem insertAt_node (value : T) {p : Nat} (h : st.load loc = .node p) :
    insertAt getId key value (s + 1) loc st =
      insertAt getId key value s (seekStep s key loc p st).1 (seekStep s key loc p st).2 := by
  rw [insertAt.eq_def]
  simp only [h]

theorem removeAt_node {p : Nat} (h : st.load loc = .node p) :
    removeAt getId key (s + 1) loc st = removeAt getId key s (seekStep s key loc p st).1 (seekStep s key loc p st).2 := by
  rw [removeAt.eq_def]
  simp only [h]

end Loops

/-- `for (x : xs) { if (!func(x)) return false; } return true;`, with the
state the callable changes passed along. -/
def forWhile {σ α : Type} (func : σ → α → Bool × σ) : List α → σ → Bool × σ
  | [], a => (true, a)
  | x :: xs, a =>
    match func a x with
    | (true, a) => forWhile func xs a
    | (false, a) => (false, a)

theorem forWhile_singleton {σ α : Type} (func : σ → α → Bool × σ) (x : α) (a : σ) :
    forWhile func [x] a = func a x := by
  rw [forWhile]
  cases func a x with
  | mk b a' => cases b <;> rfl

/-- The loop stops where the first part of the list stops. -/
theorem forWhile_append {σ α : Type} (func : σ → α → Bool × σ) : ∀ (xs ys : List α) (a : σ),
    forWhile func (xs ++ ys) a =
      match forWhile func xs a with
      | (true, a) => forWhile func ys a
      | (false, a) => (false, a)
  | [], ys, a => rfl
  | x :: xs, ys, a => by
    rw [List.cons_append, forWhile, forWhile]
    cases func a x with
    | mk b a' =>
      cases b with
      | true => exact forWhile_append func xs ys a'
      | false => rfl

/-- A loop over lists in turn is the loop over their concatenation. -/
theorem forWhile_flatMap {σ α β : Type} (func : σ → β → Bool × σ) (g : α → List β) : ∀ (xs : List α) (a : σ),
    forWhile (fun a x => forWhile func (g x) a) xs a = forWhile func (xs.flatMap g) a
  | [], a => rfl
  | x :: xs, a => by
    rw [List.flatMap_cons, forWhile_append, forWhile]
    cases forWhile func (g x) a with
    | mk b a' =>
      cases b with
      | true => exact forWhile_flatMap func g xs a'
      | false => rfl

/-- `RadixNode::forEachChild(func)`. -/
def RadixNode.forEachChild {σ : Type} (n : RadixNode T) (func : σ → RadixElement T → Bool × σ) :
    σ → Bool × σ :=
  forWhile (fun a c => func a (n.children c)) (List.finRange 16)

/-- The private `forEachLeaf(e, func)` from an element `s` levels above the
leaves: `func` on each value, child by child, until it returns `false`. -/
def forEachLeaf {σ : Type} (func : σ → T → Bool × σ) (heap : Nat → Option (RadixNode T)) :
    Nat → RadixElement T → σ → Bool × σ
  | _, .leaf none, a => (true, a)
  | _, .leaf (some leaf), a => func a leaf
  | 0, .node _, a => (true, a)
  | s + 1, .node p, a =>
    match heap p with
    | some n => n.forEachChild (fun a e => forEachLeaf func heap s e a) a
    | none => (true, a)

namespace RadixTree

/-- `RadixTree()`: one more tree, empty. -/
def newTree (st : RadixStore T) : RadixStore T := { st with roots := st.roots ++ [.leaf none] }

/-- `RadixTree(const RadixTree &src)`: one more tree, whose root is tree
`src`'s, counted once more. -/
def copy (st : RadixStore T) (src : Nat) : RadixStore T :=
  let e := st.load (.root src)
  { st.incrementRefCount e with roots := st.roots ++ [e] }

/-- `insert(value)` on tree `i`. -/
def insert (getId : T → BitVec W) (st : RadixStore T) (i : Nat) (value : T) : Bool × RadixStore T :=
  insertAt getId (getId value) value (TOP_LEVEL W + 1) (.root i) st

/-- `remove(key)` on tree `i`. -/
def remove (getId : T → BitVec W) (st : RadixStore T) (i : Nat) (key : BitVec W) :
    Option T × RadixStore T :=
  removeAt getId key (TOP_LEVEL W + 1) (.root i) st

/-- `get(key)` on tree `i`. -/
def get (getId : T → BitVec W) (st : RadixStore T) (i : Nat) (key : BitVec W) : Option T :=
  getLoop getId key st.heap (TOP_LEVEL W + 1) (st.load (.root i))

/-- `forEachLeaf(func)` on tree `i`. -/
def forEachLeaf {σ : Type} (st : RadixStore T) (i : Nat) (func : σ → T → Bool × σ) (a : σ) : Bool × σ :=
  Radix.forEachLeaf func st.heap (TOP_LEVEL W + 1) (st.load (.root i)) a

end RadixTree

/-- The operations on the trees of a store; the trees are numbered in the
order they were made. -/
inductive Op (T : Type) (W : Nat) where
  | newTree
  | copy (src : Nat)
  | insert (i : Nat) (value : T)
  | remove (i : Nat) (key : BitVec W)
  | get (i : Nat) (key : BitVec W)

/-- What an operation returns. -/
inductive Reply (T : Type) where
  | done
  | inserted (b : Bool)
  | value (v : Option T)

/-- One operation on the store. -/
def step (getId : T → BitVec W) (st : RadixStore T) : Op T W → RadixStore T × Reply T
  | .newTree => (RadixTree.newTree st, .done)
  | .copy src => (RadixTree.copy st src, .done)
  | .insert i value =>
    let r := RadixTree.insert getId st i value
    (r.2, .inserted r.1)
  | .remove i key =>
    let r := RadixTree.remove getId st i key
    (r.2, .value r.1)
  | .get i key => (st, .value (RadixTree.get getId st i key))

end Radix
end BitcoinAbc
