import Mathlib
import BitcoinAbc.Net.MerkleBlock
import BitcoinAbc.Consensus.Merkle

/-!
# The Merkle tree a partial tree is cut from

Over `n` leaves, level `h` of the Merkle tree is `pairLevel` applied `h`
times to the leaves (`level`), the reference levels of `merkle.cpp`, and has
`treeWidth n h` nodes, `⌈n / 2^h⌉`; up to `2^31` leaves, `CalcTreeWidth`
computes that width on every level up to the root. Node `pos` of level `h`
lies above the leaves `leaves n h pos`, an interval of positions.

- `CalcHash_eq`: `CalcHash` computes the node of `level` it is asked for;
- `treeWidth_treeHeight`, `merkleRootRef_eq_level`: up to `2^31` leaves, the
  loop that finds the height stops at the level of one node, which holds the
  Merkle root;
- `leaves_succ`, `parentOfMatch_eq`: the leaves of a node are those of its
  two children, and `fParentOfMatch` says whether one of them is matched.
-/

namespace BitcoinAbc

namespace MerkleBlock

variable {α : Type} [Inhabited α]

/-! ## Widths and the height -/

/-- The number of nodes at level `h` of a tree over `n` leaves, `⌈n / 2^h⌉`:
what `CalcTreeWidth` computes as long as its sum does not wrap. -/
def treeWidth (n h : Nat) : Nat := (n + 2 ^ h - 1) / 2 ^ h

/-- Below the wrap, `CalcTreeWidth` is the width of the level. -/
theorem CalcTreeWidth_eq {n h : Nat} (hw : n + 2 ^ h ≤ 2 ^ 32) : CalcTreeWidth n h = treeWidth n h := by
  have hp : 0 < 2 ^ h := Nat.two_pow_pos h
  rw [CalcTreeWidth, Nat.shiftLeft_eq, Nat.shiftRight_eq_div_pow, one_mul, Nat.mod_eq_of_lt (by omega),
    treeWidth]

/-- The sum does not wrap a level below one where it does not. -/
theorem fits_of_succ {n h : Nat} (hw : n + 2 ^ (h + 1) ≤ 2 ^ 32) : n + 2 ^ h ≤ 2 ^ 32 := by
  have := Nat.pow_le_pow_right (show 0 < 2 by norm_num) (Nat.le_succ h)
  omega

/-- Up to `2^31` leaves, the sum does not wrap up to height 31. -/
theorem fits_of_le_31 {n h : Nat} (hN : n ≤ 2 ^ 31) (hh : h ≤ 31) : n + 2 ^ h ≤ 2 ^ 32 := by
  have := Nat.pow_le_pow_right (show 0 < 2 by norm_num) hh
  omega

@[simp] theorem treeWidth_zero (n : Nat) : treeWidth n 0 = n := by
  simp [treeWidth]

/-- A level has half as many nodes as the one below, rounded up. -/
theorem treeWidth_succ (n h : Nat) : treeWidth n (h + 1) = (treeWidth n h + 1) / 2 := by
  have hp : 0 < 2 ^ h := Nat.two_pow_pos h
  rw [treeWidth, treeWidth, ← Nat.add_div_right _ hp, Nat.div_div_eq_div_mul, ← pow_succ]
  congr 1
  rw [pow_succ]
  omega

/-- The left child of a node of a level is a node of the level below. -/
theorem left_lt_treeWidth {n h pos : Nat} (hpos : pos < treeWidth n (h + 1)) : pos * 2 < treeWidth n h := by
  rw [treeWidth_succ] at hpos
  omega

/-- Every level of a tree with leaves has a node. -/
theorem treeWidth_pos {n : Nat} (hn : 0 < n) (h : Nat) : 0 < treeWidth n h := by
  induction h with
  | zero => simpa using hn
  | succ h ih =>
    rw [treeWidth_succ]
    omega

/-- Past `n` levels the tree has one node. -/
theorem treeWidth_le_one (n h : Nat) (hh : n ≤ h) : treeWidth n h ≤ 1 := by
  have hlt : n < 2 ^ h := lt_of_le_of_lt hh (Nat.lt_two_pow_self)
  have hp : 0 < 2 ^ h := Nat.two_pow_pos h
  apply Nat.le_of_lt_succ
  rw [treeWidth, Nat.div_lt_iff_lt_mul hp]
  omega

/-- Up to `2^31` leaves, level 31 has at most one node. -/
theorem treeWidth_31_le_one {n : Nat} (hN : n ≤ 2 ^ 31) : treeWidth n 31 ≤ 1 := by
  apply Nat.le_of_lt_succ
  rw [treeWidth, Nat.div_lt_iff_lt_mul (Nat.two_pow_pos 31)]
  omega

/-- Up to `2^31` leaves, the loop stops at the first level of at most one
node, by height 31 and within its fuel as long as `fuel + nHeight` reaches
`n`. The induction is on the fuel. -/
theorem treeHeightLoop_spec {n : Nat} (hN : n ≤ 2 ^ 31) :
    ∀ fuel nHeight, n ≤ fuel + nHeight → nHeight ≤ 31 →
      nHeight ≤ treeHeightLoop n fuel nHeight ∧ treeHeightLoop n fuel nHeight ≤ 31 ∧
      treeWidth n (treeHeightLoop n fuel nHeight) ≤ 1 ∧
      ∀ k, nHeight ≤ k → k < treeHeightLoop n fuel nHeight → 1 < treeWidth n k
  | 0, nHeight, hfuel, hh => ⟨le_rfl, hh, treeWidth_le_one n nHeight (by omega), fun k h1 h2 => by
      simp only [treeHeightLoop] at h2
      omega⟩
  | fuel + 1, nHeight, hfuel, hh => by
    rw [treeHeightLoop, CalcTreeWidth_eq (fits_of_le_31 hN hh)]
    split
    · rename_i hgt
      -- a level of two nodes or more lies below level 31
      have h31 : nHeight < 31 := by
        by_contra hge
        rw [show nHeight = 31 by omega] at hgt
        exact absurd (treeWidth_31_le_one hN) (not_le.mpr hgt)
      obtain ⟨hle, hle31, hw, hbelow⟩ := treeHeightLoop_spec hN fuel (nHeight + 1) (by omega) h31
      refine ⟨by omega, hle31, hw, fun k h1 h2 => ?_⟩
      rcases Nat.eq_or_lt_of_le h1 with rfl | h1
      · exact hgt
      · exact hbelow k h1 h2
    · rename_i hle
      exact ⟨le_rfl, hh, by omega, fun k h1 h2 => by omega⟩

/-- Up to `2^31` leaves, the sum of `CalcTreeWidth` does not wrap on the
levels up to the root. -/
theorem fits_of_le_treeHeight {n k : Nat} (hN : n ≤ 2 ^ 31) (hk : k ≤ treeHeight n) :
    n + 2 ^ k ≤ 2 ^ 32 :=
  fits_of_le_31 hN (le_trans hk (treeHeightLoop_spec hN n 0 (by omega) (by omega)).2.1)

theorem treeWidth_treeHeight {n : Nat} (hn : 0 < n) (hN : n ≤ 2 ^ 31) : treeWidth n (treeHeight n) = 1 := by
  have h : treeWidth n (treeHeight n) ≤ 1 := (treeHeightLoop_spec hN n 0 (by omega) (by omega)).2.2.1
  have hpos := treeWidth_pos hn (treeHeight n)
  omega

theorem one_lt_treeWidth_of_lt_treeHeight {n k : Nat} (hN : n ≤ 2 ^ 31) (hk : k < treeHeight n) :
    1 < treeWidth n k :=
  (treeHeightLoop_spec hN n 0 (by omega) (by omega)).2.2.2 k (Nat.zero_le k) hk

/-- The leaves lie below `2 ^ treeHeight n`. -/
theorem le_two_pow_treeHeight {n : Nat} (hN : n ≤ 2 ^ 31) : n ≤ 2 ^ treeHeight n := by
  have h := (treeHeightLoop_spec hN n 0 (by omega) (by omega)).2.2.1
  rw [← treeHeight, treeWidth] at h
  have hp : 0 < 2 ^ treeHeight n := Nat.two_pow_pos _
  have hlt : (n + 2 ^ treeHeight n - 1) / 2 ^ treeHeight n < 2 := by omega
  rw [Nat.div_lt_iff_lt_mul hp] at hlt
  omega

/-! ## The levels -/

section Levels

variable (Hash : α → α → α) (vTxid : List α)

/-- Level `h` of the Merkle tree over `vTxid`. -/
def level : Nat → List α
  | 0 => vTxid
  | h + 1 => pairLevel Hash (level h)

omit [Inhabited α] in
theorem length_level (h : Nat) : (level Hash vTxid h).length = treeWidth vTxid.length h := by
  induction h with
  | zero => simp [level]
  | succ h ih => rw [level, length_pairLevel, ih, treeWidth_succ]

variable {Hash}

/-- Node `i` of a level of pairs: the hash of the pair below it, the left
node with itself at the end of an odd level. The induction follows
`pairLevel`. -/
theorem getElem_pairLevel : ∀ (l : List α) (i : Nat) (hi : i < (pairLevel Hash l).length),
    (pairLevel Hash l)[i] =
      Hash (l.getD (2 * i) default) (if 2 * i + 1 < l.length then l.getD (2 * i + 1) default
        else l.getD (2 * i) default)
  | [], i, hi => by simp [pairLevel] at hi
  | [a], i, hi => by
    have hi0 : i = 0 := by simpa [pairLevel] using hi
    subst hi0
    simp [pairLevel]
  | a :: b :: rest, 0, _ => by simp [pairLevel]
  | a :: b :: rest, i + 1, hi => by
    have hi' : i < (pairLevel Hash rest).length := by simpa [pairLevel] using hi
    simp only [pairLevel, List.getElem_cons_succ]
    rw [getElem_pairLevel rest i hi']
    have h1 : 2 * (i + 1) = 2 * i + 2 := by ring
    simp only [h1, List.getD_cons_succ, List.length_cons]
    congr 1
    simp only [show 2 * i + 2 + 1 = 2 * i + 1 + 2 by ring]
    split <;> split <;> first | rfl | omega

/-- Node `pos` of level `h + 1` hashes its two children, the left one with
itself at the end of an odd level. -/
theorem getD_level_succ {h pos : Nat} (hpos : pos < treeWidth vTxid.length (h + 1)) :
    (level Hash vTxid (h + 1)).getD pos default =
      Hash ((level Hash vTxid h).getD (pos * 2) default)
        (if pos * 2 + 1 < treeWidth vTxid.length h then
          (level Hash vTxid h).getD (pos * 2 + 1) default
        else (level Hash vTxid h).getD (pos * 2) default) := by
  have hpos' : pos < (level Hash vTxid (h + 1)).length := by rw [length_level]; exact hpos
  rw [List.getD_eq_getElem _ _ hpos']
  simp only [level]
  rw [getElem_pairLevel, mul_comm 2 pos, length_level]

/-- `CalcHash` computes the nodes of the levels, on a non-empty list of leaves,
as long as the sum of `CalcTreeWidth` does not wrap. The induction is on the
height. -/
theorem CalcHash_eq (hne : vTxid ≠ []) :
    ∀ (h pos : Nat), vTxid.length + 2 ^ h ≤ 2 ^ 32 → pos < treeWidth vTxid.length h →
      CalcHash Hash vTxid.length vTxid h pos = some ((level Hash vTxid h).getD pos default)
  | 0, pos, _, _ => by
    have hlen : vTxid.length ≠ 0 := by simpa using hne
    simp [CalcHash, hlen, level]
  | h + 1, pos, hw, hpos => by
    have hlen : vTxid.length ≠ 0 := by simpa using hne
    rw [CalcHash, if_neg hlen, CalcHash_eq hne h (pos * 2) (fits_of_succ hw) (left_lt_treeWidth hpos), Option.bind_eq_bind,
      Option.bind_some, getD_level_succ vTxid hpos, CalcTreeWidth_eq (fits_of_succ hw)]
    split
    · rename_i hright
      rw [CalcHash_eq hne h (pos * 2 + 1) (fits_of_succ hw) hright]
      rfl
    · rfl

end Levels

/-! ## The root -/

/-- The reference root is the one node of the first level of one node. The
induction is on the levels left below that one. -/
theorem merkleRootRef_level (Hash : α → α → α) (vTxid : List α) :
    ∀ (k h : Nat), (∀ j, h ≤ j → j < h + k → 1 < (level Hash vTxid j).length) →
      merkleRootRef Hash vTxid = merkleRootRef Hash (level Hash vTxid h) →
      merkleRootRef Hash vTxid = merkleRootRef Hash (level Hash vTxid (h + k))
  | 0, h, _, hroot => hroot
  | k + 1, h, hwide, hroot => by
    have hstep : merkleRootRef Hash (level Hash vTxid h) =
        merkleRootRef Hash (level Hash vTxid (h + 1)) :=
      merkleRootRef_of_one_lt (hwide h le_rfl (by omega))
    have := merkleRootRef_level Hash vTxid k (h + 1)
      (fun j h1 h2 => hwide j (by omega) (by omega)) (hroot.trans hstep)
    rwa [show h + 1 + k = h + (k + 1) by omega] at this

theorem merkleRootRef_eq_level (Hash : α → α → α) {vTxid : List α} (hne : vTxid ≠ [])
    (hN : vTxid.length ≤ 2 ^ 31) :
    merkleRootRef Hash vTxid = (level Hash vTxid (treeHeight vTxid.length)).getD 0 default := by
  have hn : 0 < vTxid.length := List.length_pos_of_ne_nil hne
  have hroot := merkleRootRef_level Hash vTxid (treeHeight vTxid.length) 0
    (fun j _ hj => by
      rw [length_level]
      exact one_lt_treeWidth_of_lt_treeHeight hN (by omega)) rfl
  rw [zero_add] at hroot
  have hone : (level Hash vTxid (treeHeight vTxid.length)).length = 1 := by
    rw [length_level, treeWidth_treeHeight hn hN]
  obtain ⟨r, hr⟩ := List.length_eq_one_iff.mp hone
  rw [hroot, hr]
  simp [merkleRootRef]

/-! ## The leaves under a node -/

/-- The positions of the leaves under node `pos` of level `h`, as the loop of
`TraverseAndBuild` runs through them. -/
def leaves (n h pos : Nat) : List Nat :=
  List.range' (pos <<< h) (min ((pos + 1) <<< h) n - pos <<< h)

theorem leaves_eq (n h pos : Nat) :
    leaves n h pos = List.range' (pos * 2 ^ h) (min ((pos + 1) * 2 ^ h) n - pos * 2 ^ h) := by
  simp [leaves, Nat.shiftLeft_eq]

/-- The leaves of a node are those of its left child, then those of its right
one. -/
theorem leaves_succ (n h pos : Nat) :
    leaves n (h + 1) pos = leaves n h (pos * 2) ++ leaves n h (pos * 2 + 1) := by
  rw [leaves_eq, leaves_eq, leaves_eq]
  have hp : 0 < 2 ^ h := Nat.two_pow_pos h
  have e1 : pos * 2 ^ (h + 1) = pos * 2 * 2 ^ h := by ring
  have e2 : (pos + 1) * 2 ^ (h + 1) = (pos * 2 + 1) * 2 ^ h + 2 ^ h := by ring
  have e3 : (pos * 2 + 1) * 2 ^ h = pos * 2 * 2 ^ h + 2 ^ h := by ring
  rw [e1, e2, show (pos * 2 + 1 + 1) * 2 ^ h = (pos * 2 + 1) * 2 ^ h + 2 ^ h by ring, e3]
  -- split the count of the parent at the end of the left child
  by_cases hn : n ≤ pos * 2 * 2 ^ h + 2 ^ h
  · rw [show min (pos * 2 * 2 ^ h + 2 ^ h + 2 ^ h) n - (pos * 2 * 2 ^ h + 2 ^ h) = 0 by omega,
      List.range'_zero, List.append_nil]
    congr 1
    omega
  · rw [show min (pos * 2 * 2 ^ h + 2 ^ h) n - pos * 2 * 2 ^ h = 2 ^ h by omega,
      List.range'_append_1]
    congr 1
    omega

theorem length_leaves (n h pos : Nat) :
    (leaves n h pos).length = min ((pos + 1) * 2 ^ h) n - pos * 2 ^ h := by
  simp [leaves_eq]

/-- A node is on its level exactly when a leaf lies under it. -/
theorem lt_treeWidth_iff {n h pos : Nat} : pos < treeWidth n h ↔ pos * 2 ^ h < n := by
  have hp : 0 < 2 ^ h := Nat.two_pow_pos h
  rw [treeWidth, ← Nat.add_one_le_iff, Nat.le_div_iff_mul_le hp, add_mul, one_mul]
  omega

/-- A node of a level has a leaf under it. -/
theorem leaves_ne_nil {n h pos : Nat} (hpos : pos < treeWidth n h) : leaves n h pos ≠ [] := by
  rw [lt_treeWidth_iff] at hpos
  have hsucc : (pos + 1) * 2 ^ h = pos * 2 ^ h + 2 ^ h := by ring
  have hp : 0 < 2 ^ h := Nat.two_pow_pos h
  rw [← List.length_pos_iff, length_leaves, hsucc]
  omega

/-- The root covers every leaf. -/
theorem leaves_treeHeight {n : Nat} (hN : n ≤ 2 ^ 31) : leaves n (treeHeight n) 0 = List.range n := by
  rw [leaves_eq, zero_mul, zero_add, one_mul, Nat.sub_zero,
    Nat.min_eq_right (le_two_pow_treeHeight hN), List.range_eq_range']

/-- The right child of a node past the end of its level has no leaf. -/
theorem leaves_eq_nil_of_le {n h pos : Nat} (hpos : treeWidth n h ≤ pos) : leaves n h pos = [] := by
  rw [← not_lt, lt_treeWidth_iff, not_lt] at hpos
  rw [← List.length_eq_zero_iff, length_leaves]
  omega

theorem leaves_zero {n pos : Nat} (hpos : pos < n) : leaves n 0 pos = [pos] := by
  rw [leaves_eq]
  simp only [pow_zero, mul_one]
  rw [Nat.min_eq_left (by omega), show pos + 1 - pos = 1 by omega]
  rfl

/-- A loop of `|=` computes `any`. -/
theorem foldl_or_eq_any {β : Type} (g : β → Bool) :
    ∀ (l : List β) (b : Bool), l.foldl (fun f p => f || g p) b = (b || l.any g)
  | [], b => by simp
  | x :: l, b => by
    rw [List.foldl_cons, foldl_or_eq_any g l, List.any_cons, Bool.or_assoc]

/-- `fParentOfMatch`: whether a leaf under the node is matched. -/
theorem parentOfMatch_eq (n : Nat) (vMatch : List Bool) (h pos : Nat) :
    parentOfMatch n vMatch h pos = (leaves n h pos).any (vMatch.getD · false) := by
  rw [parentOfMatch, foldl_or_eq_any, Bool.false_or]
  rfl

end MerkleBlock

end BitcoinAbc
