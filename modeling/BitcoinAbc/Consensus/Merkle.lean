import Mathlib
import BitcoinAbc.Primitives.Transaction

/-!
# Merkle roots (consensus/merkle.cpp)

`ComputeMerkleRoot` replaces the list of hashes, level by level, by the hashes
of its adjacent pairs, duplicating the last hash of a level of odd size, until
one hash is left; on the way it sets the `mutated` flag when some pair at an
even position holds two equal hashes. The comment of merkle.cpp explains why
(CVE-2012-2459): duplicating the last hash of an odd level makes lists such as
`[1,2,3,4,5,6]` and `[1,2,3,4,5,6,5,6]` share their root, and the flag catches
the explicit pair that stands for the duplicated one.

`SHA256D64` is left abstract, as a function of a pair of hashes: the model is
generic in the type of hashes, of which `uint256()` is the `default`.

- `merkleLoop_eq`: the loop runs through `merkleLevels`, the levels of more
  than one hash, and its flag is set iff one of them holds an equal pair;
- `length_merkleLevels`: there are `⌈log₂ n⌉` of them for `n` leaves;
- `merkleRootRef`: the reference, which pairs a level and duplicates its last
  hash in one recursion;
- `ComputeMerkleRoot_detects_mutation`: two different lists of leaves of the
  same tree height with the same root have the flag set for one of them,
  as soon as `SHA256D64` has no collision among the pairs the two computations
  hash; and the root is the reference's on every list.
-/

namespace BitcoinAbc

section ComputeMerkleRoot

variable {α : Type} (SHA256D64 : α → α → α)

/-- `if (hashes.size() & 1) hashes.push_back(hashes.back())`. -/
def dupLast (hashes : List α) : List α :=
  if hashes.length % 2 = 1 then hashes ++ hashes.getLast?.toList else hashes

/-- `SHA256D64(hashes[0].begin(), hashes[0].begin(), hashes.size() / 2)`
followed by `hashes.resize(hashes.size() / 2)`: each 64-byte block of two
adjacent hashes is replaced by its double SHA-256. -/
def hashPairs : List α → List α
  | a :: b :: rest => SHA256D64 a b :: hashPairs rest
  | _ => []

/-- The pairs of adjacent hashes, in the order `SHA256D64` reads them. -/
def pairs : List α → List (α × α)
  | a :: b :: rest => (a, b) :: pairs rest
  | _ => []

theorem length_hashPairs : ∀ hashes : List α,
    (hashPairs SHA256D64 hashes).length = hashes.length / 2
  | a :: b :: rest => by
    rw [hashPairs, List.length_cons, length_hashPairs rest, List.length_cons, List.length_cons]
    omega
  | [] => by simp [hashPairs]
  | [_] => by simp [hashPairs]

theorem length_dupLast (hashes : List α) :
    (dupLast hashes).length = hashes.length + hashes.length % 2 := by
  unfold dupLast
  -- only a non-empty list can have an odd length: split off its last hash
  rcases hashes.eq_nil_or_concat with rfl | ⟨init, last, rfl⟩
  · rfl
  · rw [List.concat_eq_append]
    split
    · next hodd =>
      rw [List.getLast?_concat, Option.toList_some, List.length_append, hodd]
      rfl
    · next heven => omega

/-- One level of more than one hash leaves a shorter level. -/
theorem length_hashPairs_dupLast_lt {hashes : List α} (h : 1 < hashes.length) :
    (hashPairs SHA256D64 (dupLast hashes)).length < hashes.length := by
  rw [length_hashPairs, length_dupLast]
  omega

/-! ## The levels of the loop -/

/-- The levels the loop hashes: every list of more than one hash it meets. -/
def merkleLevels (hashes : List α) : List (List α) :=
  if _h : hashes.length > 1 then
    hashes :: merkleLevels (hashPairs SHA256D64 (dupLast hashes))
  else []
termination_by hashes.length
decreasing_by exact length_hashPairs_dupLast_lt SHA256D64 _h

/-- The pairs that `SHA256D64` hashes while the root of `hashes` is computed. -/
def hashedPairs (hashes : List α) : List (α × α) :=
  (merkleLevels SHA256D64 hashes).flatMap fun l => pairs (dupLast l)

/-- The mutation scan: `hashes[pos] == hashes[pos + 1]` for some even `pos`
with `pos + 1 < hashes.size()`. -/
def hasEqualPair [DecidableEq α] : List α → Bool
  | a :: b :: rest => a == b || hasEqualPair rest
  | _ => false

/-- The `while (hashes.size() > 1)` loop of `ComputeMerkleRoot`: the hashes
left and the flag when it ends. -/
def merkleLoop [DecidableEq α] (hashes : List α) (mutation : Bool) : List α × Bool :=
  if _h : hashes.length > 1 then
    merkleLoop (hashPairs SHA256D64 (dupLast hashes)) (mutation || hasEqualPair hashes)
  else (hashes, mutation)
termination_by hashes.length
decreasing_by exact length_hashPairs_dupLast_lt SHA256D64 _h

/-- `ComputeMerkleRoot(hashes, mutated)`: the root and the value stored in
`*mutated`. When `mutated` is null the scan is skipped, which changes nothing
else, so the model always computes the flag. -/
def ComputeMerkleRoot [DecidableEq α] [Inhabited α] (hashes : List α) : α × Bool :=
  let r := merkleLoop SHA256D64 hashes false
  -- `if (hashes.size() == 0) return uint256(); return hashes[0];`
  (r.1.headD default, r.2)

/-! ## The reference -/

/-- A level of the reference: adjacent hashes hashed in pairs, a last hash
left alone hashed with itself. -/
def pairLevel : List α → List α
  | a :: b :: rest => SHA256D64 a b :: pairLevel rest
  | [a] => [SHA256D64 a a]
  | [] => []

theorem length_pairLevel : ∀ hashes : List α,
    (pairLevel SHA256D64 hashes).length = (hashes.length + 1) / 2
  | a :: b :: rest => by
    rw [pairLevel, List.length_cons, length_pairLevel rest, List.length_cons, List.length_cons]
    omega
  | [_] => by simp [pairLevel]
  | [] => by simp [pairLevel]

/-- The reference Merkle root: hash adjacent pairs, duplicating the last hash
of an odd level, until one hash is left; `uint256()` for no hash. -/
def merkleRootRef [Inhabited α] : List α → α
  | [] => default
  | [a] => a
  | a :: b :: rest => merkleRootRef (pairLevel SHA256D64 (a :: b :: rest))
termination_by hashes => hashes.length
decreasing_by
  rw [length_pairLevel]
  simp only [List.length_cons]
  omega

variable {SHA256D64}

theorem merkleLevels_of_one_lt {hashes : List α} (h : 1 < hashes.length) :
    merkleLevels SHA256D64 hashes =
      hashes :: merkleLevels SHA256D64 (hashPairs SHA256D64 (dupLast hashes)) := by
  rw [merkleLevels, dif_pos h]

theorem merkleLevels_of_le_one {hashes : List α} (h : hashes.length ≤ 1) :
    merkleLevels SHA256D64 hashes = [] := by
  rw [merkleLevels, dif_neg (by omega)]

/-- A level of `n` hashes gives a level of `⌈n / 2⌉` hashes. -/
theorem length_hashPairs_dupLast (hashes : List α) :
    (hashPairs SHA256D64 (dupLast hashes)).length = (hashes.length + 2 - 1) / 2 := by
  rw [length_hashPairs, length_dupLast]
  omega

/-- The tree over `n` leaves has `⌈log₂ n⌉` levels of more than one hash. -/
theorem length_merkleLevels (hashes : List α) :
    (merkleLevels SHA256D64 hashes).length = Nat.clog 2 hashes.length := by
  induction hashes using merkleLevels.induct SHA256D64 with
  | case1 hashes h ih =>
    rw [merkleLevels_of_one_lt h, List.length_cons, ih, length_hashPairs_dupLast,
      Nat.clog_of_two_le (by decide) h]
  | case2 hashes h =>
    rw [merkleLevels_of_le_one (by omega), Nat.clog_of_right_le_one (by omega)]
    rfl

variable [DecidableEq α]

theorem merkleLoop_of_one_lt {hashes : List α} (mutation : Bool) (h : 1 < hashes.length) :
    merkleLoop SHA256D64 hashes mutation =
      merkleLoop SHA256D64 (hashPairs SHA256D64 (dupLast hashes))
        (mutation || hasEqualPair hashes) := by
  rw [merkleLoop, dif_pos h]

theorem merkleLoop_of_le_one {hashes : List α} (mutation : Bool) (h : hashes.length ≤ 1) :
    merkleLoop SHA256D64 hashes mutation = (hashes, mutation) := by
  rw [merkleLoop, dif_neg (by omega)]

/-- The loop ends on at most one hash, with the flag set iff it was set on
entry or one of the levels holds an equal pair. -/
theorem merkleLoop_eq (hashes : List α) (mutation : Bool) :
    (merkleLoop SHA256D64 hashes mutation).1.length ≤ 1 ∧
      (merkleLoop SHA256D64 hashes mutation).2 =
        (mutation || (merkleLevels SHA256D64 hashes).any hasEqualPair) := by
  induction hashes, mutation using merkleLoop.induct SHA256D64 with
  | case1 hashes mutation h ih =>
    rw [merkleLoop_of_one_lt mutation h, merkleLevels_of_one_lt h, List.any_cons]
    refine ⟨ih.1, ?_⟩
    rw [ih.2, Bool.or_assoc]
  | case2 hashes mutation h =>
    rw [merkleLoop_of_le_one mutation (by omega), merkleLevels_of_le_one (by omega)]
    simp only [List.any_nil, Bool.or_false]
    exact ⟨by omega, trivial⟩


/-! ## The loop computes the reference -/

omit [DecidableEq α] in
theorem dupLast_cons_cons (a b : α) (rest : List α) :
    dupLast (a :: b :: rest) = a :: b :: dupLast rest := by
  unfold dupLast
  have hpar : (a :: b :: rest).length % 2 = rest.length % 2 := by
    simp only [List.length_cons]
    omega
  rw [hpar]
  by_cases hodd : rest.length % 2 = 1
  · -- an odd `rest` is not empty, so its last hash ends the list
    have hne : rest ≠ [] := by
      rintro rfl
      simp at hodd
    rw [if_pos hodd, if_pos hodd, List.getLast?_cons_cons, List.getLast?_cons,
      List.getLast?_eq_some_getLast hne]
    rfl
  · rw [if_neg hodd, if_neg hodd]

omit [DecidableEq α] in
/-- Duplicating the last hash and hashing the pairs is the reference's level. -/
theorem hashPairs_dupLast : ∀ hashes : List α,
    hashPairs SHA256D64 (dupLast hashes) = pairLevel SHA256D64 hashes
  | a :: b :: rest => by
    rw [dupLast_cons_cons, hashPairs, pairLevel, hashPairs_dupLast rest]
  | [a] => rfl
  | [] => rfl

omit [DecidableEq α] in
theorem merkleRootRef_of_one_lt [Inhabited α] {hashes : List α} (h : 1 < hashes.length) :
    merkleRootRef SHA256D64 hashes = merkleRootRef SHA256D64 (pairLevel SHA256D64 hashes) := by
  match hashes, h with
  | a :: b :: rest, _ => rw [merkleRootRef]

/-- The loop ends on the reference root. -/
theorem merkleLoop_headD [Inhabited α] (hashes : List α) (mutation : Bool) :
    (merkleLoop SHA256D64 hashes mutation).1.headD default = merkleRootRef SHA256D64 hashes := by
  induction hashes, mutation using merkleLoop.induct SHA256D64 with
  | case1 hashes mutation h ih =>
    rw [merkleLoop_of_one_lt mutation h, ih, hashPairs_dupLast, ← merkleRootRef_of_one_lt h]
  | case2 hashes mutation h =>
    rw [merkleLoop_of_le_one mutation (by omega)]
    match hashes, h with
    | [], _ => rw [merkleRootRef]; rfl
    | [a], _ => rw [merkleRootRef]; rfl
    | _ :: _ :: _, h => simp at h

/-! ## Mutation detection -/

omit [DecidableEq α] in
theorem merkleLevels_eq_nil_iff {hashes : List α} :
    merkleLevels SHA256D64 hashes = [] ↔ hashes.length ≤ 1 := by
  refine ⟨fun h => ?_, merkleLevels_of_le_one⟩
  by_contra hlen
  rw [merkleLevels_of_one_lt (by omega)] at h
  cases h

omit [DecidableEq α] in
theorem hashedPairs_of_one_lt {hashes : List α} (h : 1 < hashes.length) :
    hashedPairs SHA256D64 hashes =
      pairs (dupLast hashes) ++ hashedPairs SHA256D64 (hashPairs SHA256D64 (dupLast hashes)) := by
  rw [hashedPairs, merkleLevels_of_one_lt h, List.flatMap_cons]
  rfl

omit [DecidableEq α] in
theorem hashedPairs_of_le_one {hashes : List α} (h : hashes.length ≤ 1) :
    hashedPairs SHA256D64 hashes = [] := by
  rw [hashedPairs, merkleLevels_of_le_one h, List.flatMap_nil]

omit [DecidableEq α] in
/-- A level of even size is not padded. -/
theorem dupLast_of_even {hashes : List α} (h : hashes.length % 2 = 0) :
    dupLast hashes = hashes := by
  rw [dupLast, if_neg (by omega)]

omit [DecidableEq α] in
/-- A level of odd size ends with a hash that the padding repeats. -/
theorem dupLast_of_odd {hashes : List α} (h : hashes.length % 2 = 1) :
    ∃ init x, hashes = init ++ [x] ∧ init.length % 2 = 0 ∧
      dupLast hashes = init ++ [x, x] := by
  rcases hashes.eq_nil_or_concat with rfl | ⟨init, x, rfl⟩
  · simp at h
  · rw [List.concat_eq_append] at h ⊢
    refine ⟨init, x, rfl, ?_, ?_⟩
    · rw [List.length_append, List.length_singleton] at h
      omega
    · rw [dupLast, if_pos h, List.getLast?_concat, Option.toList_some, List.append_assoc]
      rfl

omit [DecidableEq α] in
theorem length_dupLast_even (hashes : List α) : (dupLast hashes).length % 2 = 0 := by
  rw [length_dupLast]
  omega

/-- The scan runs over a list of even size pair by pair, so it splits there. -/
theorem hasEqualPair_append : ∀ {init : List α}, init.length % 2 = 0 → ∀ rest : List α,
    hasEqualPair (init ++ rest) = (hasEqualPair init || hasEqualPair rest)
  | [], _, rest => (Bool.false_or (hasEqualPair rest)).symm
  | a :: b :: init, h, rest => by
    have h' : init.length % 2 = 0 := by
      simp only [List.length_cons] at h
      omega
    rw [List.cons_append, List.cons_append, hasEqualPair, hasEqualPair, hasEqualPair_append h',
      Bool.or_assoc]
  | [_], h, _ => by simp at h

/-- Two levels that pad to the same list are equal, or one of them holds an
equal pair: the other's padding written out. -/
theorem hasEqualPair_of_dupLast_eq {l1 l2 : List α} (h : dupLast l1 = dupLast l2)
    (hne : l1 ≠ l2) : hasEqualPair l1 = true ∨ hasEqualPair l2 = true := by
  have hpair : ∀ x : α, hasEqualPair [x, x] = true := fun x => by simp [hasEqualPair]
  rcases Nat.mod_two_eq_zero_or_one l1.length with h1 | h1 <;>
    rcases Nat.mod_two_eq_zero_or_one l2.length with h2 | h2
  · -- neither level is padded
    rw [dupLast_of_even h1, dupLast_of_even h2] at h
    exact absurd h hne
  · obtain ⟨init, x, rfl, hinit, hpad⟩ := dupLast_of_odd h2
    rw [dupLast_of_even h1, hpad] at h
    left
    rw [h, hasEqualPair_append hinit, hpair, Bool.or_true]
  · obtain ⟨init, x, rfl, hinit, hpad⟩ := dupLast_of_odd h1
    rw [dupLast_of_even h2, hpad] at h
    right
    rw [← h, hasEqualPair_append hinit, hpair, Bool.or_true]
  · -- both are padded, by their own last hash: equal paddings mean equal levels
    obtain ⟨i1, x1, rfl, -, hp1⟩ := dupLast_of_odd h1
    obtain ⟨i2, x2, rfl, -, hp2⟩ := dupLast_of_odd h2
    rw [hp1, hp2] at h
    obtain ⟨hi, hx⟩ := List.append_inj' h rfl
    rw [List.cons.injEq] at hx
    exact absurd (by rw [hi, hx.1]) hne

omit [DecidableEq α] in
/-- Where `SHA256D64` has no collision between the pairs of two levels of even
size, equal hashed levels come from equal levels. -/
theorem eq_of_hashPairs_eq : ∀ {d1 d2 : List α}, d1.length % 2 = 0 → d2.length % 2 = 0 →
    (∀ p ∈ pairs d1, ∀ q ∈ pairs d2, SHA256D64 p.1 p.2 = SHA256D64 q.1 q.2 → p = q) →
    hashPairs SHA256D64 d1 = hashPairs SHA256D64 d2 → d1 = d2
  | [], [], _, _, _, _ => rfl
  | a :: b :: r1, c :: d :: r2, h1, h2, hinj, h => by
    rw [hashPairs, hashPairs, List.cons.injEq] at h
    have hab : (a, b) = (c, d) := hinj (a, b) (by simp [pairs]) (c, d) (by simp [pairs]) h.1
    have hr : r1 = r2 :=
      eq_of_hashPairs_eq (by simp only [List.length_cons] at h1; omega)
        (by simp only [List.length_cons] at h2; omega)
        (fun p hp q hq => hinj p (by simp [pairs, hp]) q (by simp [pairs, hq])) h.2
    rw [Prod.mk.injEq] at hab
    rw [hab.1, hab.2, hr]
  | [_], _, h1, _, _, _ => by simp at h1
  | _, [_], _, h2, _, _ => by simp at h2
  | [], _ :: _ :: _, _, _, _, h => by simp [hashPairs] at h
  | _ :: _ :: _, [], _, _, _, h => by simp [hashPairs] at h

/-- Two computations with the same number of levels and the same root, from
different non-empty lists, meet at some level: the levels below it differ but
hash to the same list, so, without a collision, they differ only by the
padding, which the scan of one of them finds. The induction is on the number
of levels left. -/
theorem levels_hasEqualPair_of_root_eq [Inhabited α] : ∀ (k : Nat) (l1 l2 : List α),
    (merkleLevels SHA256D64 l1).length = k → (merkleLevels SHA256D64 l2).length = k →
    l1 ≠ [] → l2 ≠ [] → l1 ≠ l2 →
    (∀ p ∈ hashedPairs SHA256D64 l1, ∀ q ∈ hashedPairs SHA256D64 l2,
      SHA256D64 p.1 p.2 = SHA256D64 q.1 q.2 → p = q) →
    merkleRootRef SHA256D64 l1 = merkleRootRef SHA256D64 l2 →
    (merkleLevels SHA256D64 l1).any hasEqualPair = true ∨
      (merkleLevels SHA256D64 l2).any hasEqualPair = true
  | 0, l1, l2, hk1, hk2, hne1, hne2, hdiff, _, hroot => by
    -- no level: each list is a single hash, its own root
    have hone : ∀ l : List α,
        (merkleLevels SHA256D64 l).length = 0 → l ≠ [] → ∃ a, l = [a] :=
      fun l hk hne => List.length_eq_one_iff.mp (by
        have := merkleLevels_eq_nil_iff.mp (List.length_eq_zero_iff.mp hk)
        have := List.length_pos_of_ne_nil hne
        omega)
    obtain ⟨a1, rfl⟩ := hone l1 hk1 hne1
    obtain ⟨a2, rfl⟩ := hone l2 hk2 hne2
    rw [merkleRootRef, merkleRootRef] at hroot
    exact absurd (by rw [hroot]) hdiff
  | k + 1, l1, l2, hk1, hk2, hne1, hne2, hdiff, hinj, hroot => by
    have hlong : ∀ l : List α, (merkleLevels SHA256D64 l).length = k + 1 → 1 < l.length :=
      fun l hk => by
        by_contra hle
        rw [merkleLevels_of_le_one (by omega)] at hk
        cases hk
    have h1 := hlong l1 hk1
    have h2 := hlong l2 hk2
    rw [merkleLevels_of_one_lt h1, List.length_cons, Nat.add_right_cancel_iff] at hk1
    rw [merkleLevels_of_one_lt h2, List.length_cons, Nat.add_right_cancel_iff] at hk2
    rw [hashedPairs_of_one_lt h1, hashedPairs_of_one_lt h2] at hinj
    rw [merkleRootRef_of_one_lt h1, merkleRootRef_of_one_lt h2, ← hashPairs_dupLast,
      ← hashPairs_dupLast] at hroot
    rw [merkleLevels_of_one_lt h1, merkleLevels_of_one_lt h2, List.any_cons, List.any_cons,
      Bool.or_eq_true, Bool.or_eq_true]
    by_cases hnext : hashPairs SHA256D64 (dupLast l1) = hashPairs SHA256D64 (dupLast l2)
    · -- the levels meet here
      have hpad : dupLast l1 = dupLast l2 :=
        eq_of_hashPairs_eq (length_dupLast_even l1) (length_dupLast_even l2)
          (fun p hp q hq => hinj p (List.mem_append_left _ hp) q (List.mem_append_left _ hq))
          hnext
      rcases hasEqualPair_of_dupLast_eq hpad hdiff with h | h
      · exact Or.inl (Or.inl h)
      · exact Or.inr (Or.inl h)
    · -- they meet higher up
      have hnonempty : ∀ l : List α, 1 < l.length → hashPairs SHA256D64 (dupLast l) ≠ [] :=
        fun l hl => List.ne_nil_of_length_pos (by rw [length_hashPairs_dupLast]; omega)
      rcases levels_hasEqualPair_of_root_eq k _ _ hk1 hk2 (hnonempty l1 h1) (hnonempty l2 h2)
          hnext (fun p hp q hq => hinj p (List.mem_append_right _ hp) q
            (List.mem_append_right _ hq)) hroot with h | h
      · exact Or.inl (Or.inr h)
      · exact Or.inr (Or.inr h)

end ComputeMerkleRoot

/-- `BlockMerkleRoot(block, mutated)`: the root over the ids of the block's
transactions. -/
def BlockMerkleRoot (SHA256D64 : BitVec 256 → BitVec 256 → BitVec 256) (block : CBlock) :
    BitVec 256 × Bool :=
  ComputeMerkleRoot SHA256D64 (block.vtx.map fun tx => tx.GetId.hash)

/-- Merkle mutation detection is complete for trees of the same height: two
different non-empty lists of leaves with `⌈log₂ n⌉` equal and the same
`ComputeMerkleRoot` have the mutation flag set for one of them, provided that
`SHA256D64` maps no two different pairs, one hashed for each list, to the same
hash; and `ComputeMerkleRoot` computes the reference root on every list. -/
theorem ComputeMerkleRoot_detects_mutation {α : Type} [DecidableEq α] [Inhabited α]
    (SHA256D64 : α → α → α) :
    (∀ L1 L2 : List α, L1 ≠ [] → L2 ≠ [] → L1 ≠ L2 →
      Nat.clog 2 L1.length = Nat.clog 2 L2.length →
      (∀ p ∈ hashedPairs SHA256D64 L1, ∀ q ∈ hashedPairs SHA256D64 L2,
        SHA256D64 p.1 p.2 = SHA256D64 q.1 q.2 → p = q) →
      (ComputeMerkleRoot SHA256D64 L1).1 = (ComputeMerkleRoot SHA256D64 L2).1 →
      (ComputeMerkleRoot SHA256D64 L1).2 = true ∨ (ComputeMerkleRoot SHA256D64 L2).2 = true) ∧
    ∀ L : List α, (ComputeMerkleRoot SHA256D64 L).1 = merkleRootRef SHA256D64 L := by
  have hroot : ∀ L : List α, (ComputeMerkleRoot SHA256D64 L).1 = merkleRootRef SHA256D64 L :=
    fun L => merkleLoop_headD L false
  have hflag : ∀ L : List α,
      (ComputeMerkleRoot SHA256D64 L).2 = (merkleLevels SHA256D64 L).any hasEqualPair :=
    fun L => by
      rw [ComputeMerkleRoot, (merkleLoop_eq L false).2, Bool.false_or]
  refine ⟨fun L1 L2 hne1 hne2 hdiff hheight hinj heq => ?_, hroot⟩
  rw [hflag, hflag]
  rw [hroot, hroot] at heq
  exact levels_hasEqualPair_of_root_eq _ L1 L2 rfl
    (by rw [length_merkleLevels, length_merkleLevels, hheight]) hne1 hne2 hdiff hinj heq

/-- The example of merkle.cpp, one level down: `[1,2,3]` and `[1,2,3,3]` share
their root, under a pair hash without collision among the pairs they hash, and
the flag is set for the second. -/
theorem ComputeMerkleRoot_detects_mutation_duplicatedLeaf :
    [1, 2, 3] ≠ ([] : List Nat) ∧ [1, 2, 3, 3] ≠ ([] : List Nat) ∧
      [1, 2, 3] ≠ ([1, 2, 3, 3] : List Nat) ∧
      Nat.clog 2 [1, 2, 3].length = Nat.clog 2 [1, 2, 3, 3].length ∧
      (∀ p ∈ hashedPairs (fun a b : Nat => 100 * a + b) [1, 2, 3],
        ∀ q ∈ hashedPairs (fun a b : Nat => 100 * a + b) [1, 2, 3, 3],
          100 * p.1 + p.2 = 100 * q.1 + q.2 → p = q) ∧
      (ComputeMerkleRoot (fun a b : Nat => 100 * a + b) [1, 2, 3]).1 =
        (ComputeMerkleRoot (fun a b : Nat => 100 * a + b) [1, 2, 3, 3]).1 ∧
      ((ComputeMerkleRoot (fun a b : Nat => 100 * a + b) [1, 2, 3]).2 = true ∨
        (ComputeMerkleRoot (fun a b : Nat => 100 * a + b) [1, 2, 3, 3]).2 = true) := by
  have hpairs1 :
      hashedPairs (fun a b : Nat => 100 * a + b) [1, 2, 3] = [(1, 2), (3, 3), (102, 303)] := by
    simp [hashedPairs_of_one_lt, hashedPairs_of_le_one, dupLast, hashPairs, pairs]
  have hpairs2 :
      hashedPairs (fun a b : Nat => 100 * a + b) [1, 2, 3, 3] = [(1, 2), (3, 3), (102, 303)] := by
    simp [hashedPairs_of_one_lt, hashedPairs_of_le_one, dupLast, hashPairs, pairs]
  have hinj : ∀ p ∈ hashedPairs (fun a b : Nat => 100 * a + b) [1, 2, 3],
      ∀ q ∈ hashedPairs (fun a b : Nat => 100 * a + b) [1, 2, 3, 3],
        100 * p.1 + p.2 = 100 * q.1 + q.2 → p = q := by
    rw [hpairs1, hpairs2]
    decide
  have hroot : (ComputeMerkleRoot (fun a b : Nat => 100 * a + b) [1, 2, 3]).1 =
      (ComputeMerkleRoot (fun a b : Nat => 100 * a + b) [1, 2, 3, 3]).1 := by
    simp [ComputeMerkleRoot, merkleLoop_of_one_lt, merkleLoop_of_le_one, dupLast, hashPairs]
  exact ⟨by decide, by decide, by decide, by decide, hinj, hroot,
    (ComputeMerkleRoot_detects_mutation _).1 [1, 2, 3] [1, 2, 3, 3] (by decide) (by decide)
      (by decide) (by decide) hinj hroot⟩

end BitcoinAbc
