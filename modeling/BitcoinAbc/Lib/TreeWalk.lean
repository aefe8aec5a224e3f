import Mathlib

/-!
# Depth-first walks over a complete binary tree

A node of the complete binary tree of depth `n` is the list of choices on the
path to it, the first choice first: a `List Bool` of length at most `n`, whose
leaves have length `n`. A depth-first walk that tries `true` before `false`
goes down by appending a choice and backtracks by dropping the trailing
`false` choices and turning the last `true` into `false` (`backtrack`).

- `rank n p` is the position of node `p` in the preorder of the walk. Going
  down (`rank_append_singleton`) and backtracking (`rank_backtrack_lt`) both
  raise it, and it stays below `2 ^ (n + 1) - 1` (`rank_add_two_le`): such a
  walk takes fewer than `2 ^ (n + 1)` steps.
- `Precedes v p`: where the leaf `v` and the path to `p` part, before `p`
  ends, `v` takes `true` and `p` takes `false`; these are the leaves a walk
  standing at `p` has dealt with. Going down towards `true` adds none of them
  (`precedes_append_singleton`), going towards `false` adds the leaves below
  the `true` sibling, backtracking adds the leaves below the node left
  (`precedes_backtrack`), and every leaf lies left of or below the all-`false`
  path, where the walk ends (`precedes_or_prefix_replicate_false`).
- A walk searching for a leaf with property `P` keeps `Cleared n P p`: no
  leaf it has dealt with has `P`. It may go down towards `true` at any time,
  and towards `false` or back only from a node that is `Barren` (no leaf
  below has `P`); ending with `Cleared` means no leaf has `P`
  (`not_of_backtrack_eq_none`). A node whose leaves are those of its `true`
  sibling with two choices swapped is barren where the sibling's subtree is
  cleared (`barren_of_swap`): this is how a search skips a choice that
  repeats the one before it.
-/

namespace TreeWalk

/-! ## Backtracking -/

/-- Backtracking from node `p`: drop the trailing `false` choices and turn the
last `true` into `false`; `none` when no choice is `true`. -/
def backtrack (p : List Bool) : Option (List Bool) :=
  match p.reverse.dropWhile (!·) with
  | [] => none
  | _ :: r => some (r.reverse ++ [false])

theorem dropWhile_not_replicate_false_append (j : Nat) (l : List Bool) :
    (List.replicate j false ++ l).dropWhile (!·) = l.dropWhile (!·) := by
  induction j with
  | zero => rfl
  | succ j ih => rw [List.replicate_succ, List.cons_append, List.dropWhile_cons_of_pos rfl, ih]

/-- Past the trailing `false` choices, the last `true` one. -/
theorem reverse_dropWhile_append_true (q : List Bool) (j : Nat) :
    (q ++ true :: List.replicate j false).reverse.dropWhile (!·) = true :: q.reverse := by
  rw [List.reverse_append, List.reverse_cons, List.reverse_replicate, List.append_assoc,
    dropWhile_not_replicate_false_append, List.singleton_append,
    List.dropWhile_cons_of_neg (by decide)]

theorem reverse_dropWhile_replicate_false (j : Nat) :
    (List.replicate j false).reverse.dropWhile (!·) = [] := by
  rw [List.reverse_replicate, ← List.append_nil (List.replicate j false),
    dropWhile_not_replicate_false_append]
  rfl

theorem backtrack_append_true (q : List Bool) (j : Nat) :
    backtrack (q ++ true :: List.replicate j false) = some (q ++ [false]) := by
  rw [backtrack, reverse_dropWhile_append_true]
  simp

theorem backtrack_replicate_false (j : Nat) : backtrack (List.replicate j false) = none := by
  rw [backtrack, reverse_dropWhile_replicate_false]

/-- Every node is the all-`false` path, or ends in a `true` followed by
`false`s. -/
theorem eq_replicate_or_eq_append_true :
    ∀ p : List Bool, (∃ j, p = List.replicate j false) ∨
      ∃ q j, p = q ++ true :: List.replicate j false
  | [] => .inl ⟨0, rfl⟩
  | c :: p => by
    rcases eq_replicate_or_eq_append_true p with ⟨j, rfl⟩ | ⟨q, j, rfl⟩
    · cases c
      · exact .inl ⟨j + 1, rfl⟩
      · exact .inr ⟨[], j, rfl⟩
    · exact .inr ⟨c :: q, j, rfl⟩

/-- What backtracking does: it ends the walk at the all-`false` path, and
goes from `q ++ true :: false^j` to `q ++ [false]`. -/
theorem backtrack_cases (p : List Bool) :
    (∃ j, p = List.replicate j false ∧ backtrack p = none) ∨
      ∃ q j, p = q ++ true :: List.replicate j false ∧ backtrack p = some (q ++ [false]) := by
  rcases eq_replicate_or_eq_append_true p with ⟨j, rfl⟩ | ⟨q, j, rfl⟩
  · exact .inl ⟨j, rfl, backtrack_replicate_false j⟩
  · exact .inr ⟨q, j, rfl, backtrack_append_true q j⟩

theorem length_le_of_backtrack_eq_some {p p' : List Bool} (h : backtrack p = some p') :
    p'.length ≤ p.length := by
  rcases backtrack_cases p with ⟨j, -, hnone⟩ | ⟨q, j, rfl, hsome⟩
  · rw [hnone] at h
    cases h
  · rw [hsome] at h
    cases h
    simp

/-! ## The preorder -/

/-- The position of node `p` in the preorder of the complete binary tree of
depth `n`, the `true` child first: the subtree of a `true` child at depth
`d + 1` has `2 ^ (n - d) - 1` nodes, which a `false` choice skips. -/
def rank : Nat → List Bool → Nat
  | _, [] => 0
  | n, true :: p => 1 + rank (n - 1) p
  | n, false :: p => 2 ^ n + rank (n - 1) p

theorem rank_append_singleton (n : Nat) (p : List Bool) (b : Bool) :
    rank n (p ++ [b]) = rank n p + if b then 1 else 2 ^ (n - p.length) := by
  induction p generalizing n with
  | nil => cases b <;> simp [rank]
  | cons c p ih =>
    rw [List.cons_append, List.length_cons, Nat.sub_add_eq, Nat.sub_right_comm]
    cases c <;> simp only [rank, ih] <;> omega

/-- The last node of the preorder, the all-`false` leaf, is at
`2 ^ (n + 1) - 2`. -/
theorem rank_add_two_le : ∀ {n : Nat} {p : List Bool}, p.length ≤ n → rank n p + 2 ≤ 2 ^ (n + 1)
  | n, [], _ => by
    rw [rank, Nat.zero_add]
    exact Nat.le_self_pow (by omega) 2
  | n + 1, c :: p, hp => by
    have ih := rank_add_two_le (n := n) (p := p) (by simp at hp; omega)
    rw [pow_succ] at ih ⊢
    cases c <;> simp only [rank, Nat.add_sub_cancel, pow_succ] <;> omega
  | 0, _ :: _, hp => by simp at hp

/-- `false` choices below node `p`: each skips a smaller subtree, so the
skips add up to less than the one above them. -/
theorem rank_append_replicate_false (n : Nat) (p : List Bool) {j : Nat}
    (hj : p.length + j ≤ n) :
    rank n (p ++ List.replicate j false) + 2 ^ (n - p.length + 1 - j) =
      rank n p + 2 ^ (n - p.length + 1) := by
  induction j with
  | zero => rw [List.replicate_zero, List.append_nil, Nat.sub_zero]
  | succ j ih =>
    rw [List.replicate_succ', ← List.append_assoc, rank_append_singleton, if_neg (by decide),
      List.length_append, List.length_replicate, ← ih (by omega)]
    have hsplit : n - p.length + 1 - j = (n - p.length + 1 - (j + 1)) + 1 := by omega
    have hexp : n - (p.length + j) = n - p.length + 1 - (j + 1) := by omega
    rw [hsplit, hexp, pow_succ]
    omega

/-- Backtracking from `q ++ true :: false^j` to `q ++ [false]` moves forward
in the preorder. -/
theorem rank_backtrack_lt (n : Nat) (q : List Bool) (j : Nat)
    (h : q.length + 1 + j ≤ n) :
    rank n (q ++ true :: List.replicate j false) < rank n (q ++ [false]) := by
  have hsum := rank_append_replicate_false n (q ++ [true]) (j := j) (by simp; omega)
  rw [List.append_assoc, List.singleton_append, rank_append_singleton, if_pos rfl,
    List.length_append, List.length_singleton] at hsum
  rw [rank_append_singleton, if_neg (by decide)]
  have hexp : n - (q.length + 1) + 1 = n - q.length := by omega
  have hpos : 2 ≤ 2 ^ (n - (q.length + 1) + 1 - j) :=
    Nat.le_self_pow (by omega) 2
  rw [hexp] at hsum hpos
  omega

/-- Every step of the walk moves forward in the preorder. -/
theorem rank_lt_append_singleton (n : Nat) (p : List Bool) (b : Bool) :
    rank n p < rank n (p ++ [b]) := by
  rw [rank_append_singleton]
  cases b
  · exact Nat.lt_add_of_pos_right (Nat.two_pow_pos _)
  · exact Nat.lt_add_one _

theorem rank_lt_of_backtrack_eq_some {n : Nat} {p p' : List Bool} (hp : p.length ≤ n)
    (h : backtrack p = some p') : rank n p < rank n p' := by
  rcases backtrack_cases p with ⟨j, -, hnone⟩ | ⟨q, j, rfl, hsome⟩
  · rw [hnone] at h
    cases h
  · rw [hsome] at h
    cases h
    exact rank_backtrack_lt n q j (by simpa [Nat.add_assoc, Nat.add_comm 1] using hp)

/-! ## The leaves left of a node -/

/-- The leaf `v` lies left of node `p`: where they part, before `p` ends, `v`
takes `true` and `p` takes `false`. -/
def Precedes (v p : List Bool) : Prop :=
  ∃ q w₁ w₂, v = q ++ true :: w₁ ∧ p = q ++ false :: w₂

theorem not_precedes_nil (v : List Bool) : ¬Precedes v [] := by
  rintro ⟨q, w₁, w₂, -, h⟩
  simp at h

/-- One more choice on the path: a `true` adds no leaf on the left, a
`false` adds the leaves below its `true` sibling. -/
theorem precedes_append_singleton {v p : List Bool} {b : Bool} :
    Precedes v (p ++ [b]) ↔ Precedes v p ∨ (b = false ∧ p ++ [true] <+: v) := by
  constructor
  · rintro ⟨q, w₁, w₂, rfl, hp⟩
    rcases List.eq_nil_or_concat w₂ with rfl | ⟨w, x, rfl⟩
    · -- the paths part at the new choice
      obtain ⟨rfl, hb⟩ := List.append_inj' hp rfl
      cases hb
      exact .inr ⟨rfl, w₁, by simp⟩
    · -- they part above it
      have hp' : p ++ [b] = (q ++ false :: w) ++ [x] := by rw [hp]; simp
      exact .inl ⟨q, w₁, w, rfl, (List.append_inj' hp' rfl).1⟩
  · rintro (⟨q, w₁, w₂, rfl, rfl⟩ | ⟨rfl, r, rfl⟩)
    · exact ⟨q, w₁, w₂ ++ [b], rfl, by simp⟩
    · exact ⟨p, r, [], by simp, rfl⟩

/-- A node strictly above a leaf is followed on it by `false` or `true`. -/
theorem prefix_iff_append_false_or_true {p v : List Bool} (h : p.length < v.length) :
    p <+: v ↔ p ++ [false] <+: v ∨ p ++ [true] <+: v := by
  constructor
  · rintro ⟨t, rfl⟩
    cases t with
    | nil => simp at h
    | cons c t =>
      cases c
      · exact .inl ⟨t, by simp⟩
      · exact .inr ⟨t, by simp⟩
  · rintro (h' | h') <;> exact (List.prefix_append p _).trans h'

/-- Backtracking from `q ++ true :: false^j` adds, to the leaves on the
left, the leaves below the node left. The induction is on the trailing
`false`s. -/
theorem precedes_backtrack {v q : List Bool} (j : Nat) (hv : q.length + 1 + j ≤ v.length) :
    Precedes v (q ++ [false]) ↔
      Precedes v (q ++ true :: List.replicate j false) ∨
        q ++ true :: List.replicate j false <+: v := by
  induction j with
  | zero =>
    show Precedes v (q ++ [false]) ↔ Precedes v (q ++ [true]) ∨ q ++ [true] <+: v
    rw [precedes_append_singleton, precedes_append_singleton]
    simp
  | succ j ih =>
    have hnode : q ++ true :: List.replicate (j + 1) false =
        (q ++ true :: List.replicate j false) ++ [false] := by
      rw [List.replicate_succ']
      simp
    have hlen : (q ++ true :: List.replicate j false).length < v.length := by simp; omega
    rw [ih (by omega), hnode, precedes_append_singleton,
      prefix_iff_append_false_or_true hlen]
    simp only [true_and]
    tauto

/-- A walk that is back at the all-`false` path has every leaf on its left or
below it. -/
theorem precedes_or_prefix_replicate_false {v : List Bool} :
    ∀ {k : Nat}, k ≤ v.length →
      Precedes v (List.replicate k false) ∨ List.replicate k false <+: v
  | 0, _ => .inr (List.nil_prefix)
  | k + 1, hk => by
    rw [List.replicate_succ', precedes_append_singleton]
    have hk' : k ≤ v.length := by omega
    rcases precedes_or_prefix_replicate_false hk' with h | h
    · exact .inl (.inl h)
    · rcases (prefix_iff_append_false_or_true (p := List.replicate k false) (by simp; omega)).mp h
        with h' | h'
      · exact .inr h'
      · exact .inl (.inr ⟨rfl, h'⟩)

/-! ## Pruned searches

A search for a leaf with the property `P` that walks the tree this way, and
skips subtrees it knows to hold no such leaf, keeps the invariant that no leaf
left of its node has `P` (`Cleared`). It may skip the subtree below a node
that is `Barren`; the rules below say how each move keeps the invariant, and
that a search that ends without a find has seen that no leaf has `P`. -/

section Search

variable {n : Nat} {P : List Bool → Prop}

/-- No leaf of depth `n` left of `p` has `P`. -/
def Cleared (n : Nat) (P : List Bool → Prop) (p : List Bool) : Prop :=
  ∀ v, v.length = n → Precedes v p → ¬P v

/-- No leaf of depth `n` below `p` has `P`. -/
def Barren (n : Nat) (P : List Bool → Prop) (p : List Bool) : Prop :=
  ∀ v, v.length = n → p <+: v → ¬P v

theorem cleared_nil : Cleared n P [] := fun v _ hv => absurd hv (not_precedes_nil v)

theorem cleared_append_true {p : List Bool} : Cleared n P (p ++ [true]) ↔ Cleared n P p := by
  unfold Cleared
  simp only [precedes_append_singleton, Bool.true_eq_false, false_and, or_false]

/-- Going towards `false`, past a barren `true` sibling. -/
theorem cleared_append_false {p : List Bool} (hc : Cleared n P p) (hb : Barren n P (p ++ [true])) :
    Cleared n P (p ++ [false]) := by
  intro v hv hpre
  rcases precedes_append_singleton.mp hpre with h | ⟨-, h⟩
  · exact hc v hv h
  · exact hb v hv h

/-- Backtracking from a barren node. -/
theorem cleared_backtrack {p p' : List Bool} (hp : p.length ≤ n) (hc : Cleared n P p)
    (hb : Barren n P p) (h : backtrack p = some p') : Cleared n P p' := by
  rcases backtrack_cases p with ⟨j, -, hnone⟩ | ⟨q, j, rfl, hsome⟩
  · rw [hnone] at h
    cases h
  · rw [hsome] at h
    cases h
    intro v hv hpre
    have hlen : q.length + 1 + j ≤ v.length := by
      simp only [List.length_append, List.length_cons, List.length_replicate] at hp
      omega
    rcases (precedes_backtrack j hlen).mp hpre with h | h
    · exact hc v hv h
    · exact hb v hv h

/-- A search that backtracks from a barren node and finds no node left has
seen every leaf. -/
theorem not_of_backtrack_eq_none {p : List Bool} (hp : p.length ≤ n) (hc : Cleared n P p)
    (hb : Barren n P p) (h : backtrack p = none) : ∀ v, v.length = n → ¬P v := by
  intro v hv
  rcases backtrack_cases p with ⟨j, rfl, -⟩ | ⟨q, j, -, hsome⟩
  · have hj : j ≤ v.length := by simpa [hv] using hp
    rcases precedes_or_prefix_replicate_false hj with h' | h'
    · exact hc v hv h'
    · exact hb v hv h'
  · rw [hsome] at h
    cases h

/-- The equivalence rule: where each leaf below `q ++ [false, true]` has `P`
only if its twin below `q ++ [true, false]` does, a search standing at
`q ++ [false]` with no leaf on its left having `P` may skip that subtree. -/
theorem barren_of_swap {q : List Bool}
    (hswap : ∀ r, P (q ++ false :: true :: r) → P (q ++ true :: false :: r))
    (hc : Cleared n P (q ++ [false])) : Barren n P (q ++ [false] ++ [true]) := by
  rintro v hv ⟨r, rfl⟩ hP
  have hrw : q ++ [false] ++ [true] ++ r = q ++ false :: true :: r := by simp
  rw [hrw] at hv hP
  have htwin := hswap r hP
  refine hc (q ++ true :: false :: r) (by simpa using hv) ⟨q, false :: r, [], rfl, rfl⟩ htwin

end Search

end TreeWalk
