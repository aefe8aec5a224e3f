import Mathlib
import BitcoinAbc.Radix.Sharing

/-!
# The values `forEachLeaf` visits

`leaves` lists the values under an element, child by child in the order
`forEachChild` takes them.

- `forEachLeaf_eq`: the walk of `forEachLeaf` is the loop `forWhile` over
  that list, so it calls `func` on its values in turn until `func` stops it;
- `mem_leaves_iff`: in a store of the invariant, the values under a root are
  exactly those `get` finds under their own key;
- `nodup_leaves`: no key is listed twice, since each child of a node covers a
  block of keys of its own.

Together: `forEachLeaf` visits each value of a tree's map once.
-/

namespace BitcoinAbc
namespace Radix

variable {T : Type} {W : Nat}

/-- The values under `e`, `s` levels above the leaves, in the order of the
walk. -/
def leaves (heap : Nat → Option (RadixNode T)) : Nat → RadixElement T → List T
  | _, .leaf none => []
  | _, .leaf (some v) => [v]
  | 0, .node _ => []
  | s + 1, .node p => (List.finRange 16).flatMap fun c => leaves heap s (loadChild heap p c)

section Walk

variable (heap : Nat → Option (RadixNode T))

@[simp] theorem leaves_leaf_none (s : Nat) : leaves heap s (.leaf none) = [] := by
  cases s <;> rfl

@[simp] theorem leaves_leaf_some (s : Nat) (v : T) : leaves heap s (.leaf (some v)) = [v] := by
  cases s <;> rfl

theorem leaves_node_of_none {s p : Nat} (hp : heap p = none) : leaves heap s (.node p) = [] := by
  cases s with
  | zero => rfl
  | succ s => simp [leaves, loadChild, hp]

/-- `forEachLeaf` is the loop over `leaves`. -/
theorem forEachLeaf_eq {σ : Type} (func : σ → T → Bool × σ) :
    ∀ (s : Nat) (e : RadixElement T) (a : σ), forEachLeaf func heap s e a = forWhile func (leaves heap s e) a
  | s, .leaf none, a => by cases s <;> rfl
  | s, .leaf (some v), a => by
    rw [leaves_leaf_some, forWhile_singleton]
    cases s <;> rfl
  | 0, .node p, a => rfl
  | s + 1, .node p, a => by
    cases hp : heap p with
    | none =>
      rw [leaves_node_of_none heap hp]
      simp only [forEachLeaf, hp]
      rfl
    | some n =>
      have hchild : ∀ c, loadChild heap p c = n.children c := fun c => by simp [loadChild, hp]
      simp only [forEachLeaf, hp, RadixNode.forEachChild, leaves, hchild]
      rw [← forWhile_flatMap]
      congr 1
      funext a c
      exact forEachLeaf_eq func s (n.children c) a

/-- A value `get` finds is listed. -/
theorem mem_leaves_of_getLoop (getId : T → BitVec W) (key : BitVec W) :
    ∀ {s : Nat} {e : RadixElement T} {v : T}, getLoop getId key heap s e = some v → v ∈ leaves heap s e
  | s, .leaf none, v, h => by simp at h
  | s, .leaf (some w), v, h => by
    rw [getLoop_leaf_some] at h
    split_ifs at h
    cases h
    simp
  | 0, .node p, v, h => by simp at h
  | s + 1, .node p, v, h => by
    rw [getLoop_node] at h
    simp only [leaves, List.mem_flatMap]
    exact ⟨childIndex s key, List.mem_finRange _, mem_leaves_of_getLoop getId key h⟩

end Walk

/-! ## Listed values under a layout -/

/-- The block `b * 16 + c` of a key is child `c` of block `b`. -/
theorem digits_of_prefixOf {s b : Nat} {c : Fin 16} {key : BitVec W} (h : prefixOf s key = b * 16 + c.val) :
    prefixOf (s + 1) key = b ∧ childIndex s key = c := by
  have hsplit := prefixOf_succ_mul_add s key
  have hc := (childIndex s key).isLt
  have hc' := c.isLt
  exact ⟨by omega, Fin.ext (by omega)⟩

section Layout

variable {getId : T → BitVec W} {Lay : Layout} {st : RadixStore T}

/-- The children of a node that fits level `s + 1` and block `b`. -/
theorem ChildrenFit.fits_loadChild (hc : ChildrenFit getId Lay st) {s b p : Nat}
    (hf : Lay.Fits getId (s + 1) b (.node p)) (c : Fin 16) :
    Lay.Fits getId s (b * 16 + c.val) (loadChild st.heap p c) := by
  obtain ⟨-, hlev, hblk⟩ := hf
  cases hp : st.heap p with
  | none => simp only [loadChild, hp]; trivial
  | some n =>
    have h := hc p n hp c
    rw [hlev, hblk, Nat.add_sub_cancel] at h
    simpa [loadChild, hp] using h

/-- Under an element that fits block `b`, a listed value's key is in `b`, and
the walk of `get` for that key finds it. -/
theorem mem_leaves_fits (hc : ChildrenFit getId Lay st) :
    ∀ {s b : Nat} {e : RadixElement T}, Lay.Fits getId s b e → ∀ {v : T}, v ∈ leaves st.heap s e →
      prefixOf s (getId v) = b ∧ getLoop getId (getId v) st.heap s e = some v
  | s, b, .leaf none, _, v, hv => by simp at hv
  | s, b, .leaf (some w), hf, v, hv => by
    rw [leaves_leaf_some, List.mem_singleton] at hv
    subst hv
    exact ⟨hf, by simp⟩
  | 0, b, .node p, _, v, hv => by simp [leaves] at hv
  | s + 1, b, .node p, hf, v, hv => by
    simp only [leaves, List.mem_flatMap] at hv
    obtain ⟨c, -, hv⟩ := hv
    obtain ⟨hpre, hget⟩ := mem_leaves_fits hc (hc.fits_loadChild hf c) hv
    obtain ⟨hup, hci⟩ := digits_of_prefixOf hpre
    exact ⟨hup, by rw [getLoop_node, hci, hget]⟩

/-- Under an element that fits a block, no key is listed twice. -/
theorem nodup_leaves_fits (hc : ChildrenFit getId Lay st) :
    ∀ {s b : Nat} {e : RadixElement T}, Lay.Fits getId s b e → ((leaves st.heap s e).map getId).Nodup
  | s, b, .leaf none, _ => by simp
  | s, b, .leaf (some w), _ => by simp
  | 0, b, .node p, _ => by simp [leaves]
  | s + 1, b, .node p, hf => by
    rw [leaves, List.map_flatMap, List.nodup_flatMap]
    refine ⟨fun c _ => nodup_leaves_fits hc (hc.fits_loadChild hf c), (List.nodup_finRange 16).imp fun {c c'} hne => ?_⟩
    -- keys under different children differ in their digit at level `s`
    show List.Disjoint _ _
    rw [List.disjoint_left]
    intro k hk hk'
    obtain ⟨v, hv, rfl⟩ := List.mem_map.mp hk
    obtain ⟨v', hv', hvv⟩ := List.mem_map.mp hk'
    have h₁ := (mem_leaves_fits hc (hc.fits_loadChild hf c) hv).1
    have h₂ := (mem_leaves_fits hc (hc.fits_loadChild hf c') hv').1
    rw [hvv] at h₂
    exact hne (Fin.ext (by omega))

/-- The root a tree slot holds fits the top level; past the last tree it is
empty. -/
theorem Inv.fits_root (hI : Inv getId Lay st) (src : Nat) :
    Lay.Fits getId (TOP_LEVEL W + 1) 0 (st.load (.root src)) := by
  by_cases hsrc : src < st.roots.length
  · exact hI.roots src hsrc
  · rw [RadixStore.load_root, List.getD_eq_default _ _ (Nat.le_of_not_lt hsrc)]
    trivial

/-- The values under tree `j` are those `get` finds under their key. -/
theorem mem_leaves_iff (hI : Inv getId Lay st) (j : Nat) (v : T) :
    v ∈ leaves st.heap (TOP_LEVEL W + 1) (st.load (.root j)) ↔ RadixTree.get getId st j (getId v) = some v :=
  ⟨fun hv => (mem_leaves_fits hI.children (hI.fits_root j) hv).2,
    mem_leaves_of_getLoop st.heap getId (getId v)⟩

/-- No two values under tree `j` have one key. -/
theorem nodup_leaves (hI : Inv getId Lay st) (j : Nat) :
    ((leaves st.heap (TOP_LEVEL W + 1) (st.load (.root j))).map getId).Nodup :=
  nodup_leaves_fits hI.children (hI.fits_root j)

end Layout

end Radix
end BitcoinAbc
